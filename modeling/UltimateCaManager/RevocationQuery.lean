import UltimateCaManager.RevocationData
import Mathlib.Data.List.Sort

/-!
# What the CRL lists and what the OCSP responder answers

Two readings of the same rows. A CRL lists the revoked certificates and child CAs of a CA from
their rows, then the persistent records that no row speaks for. The OCSP responder looks for a
row that carries the serial, in any of its spellings, and for a record only when no certificate
row does.
-/
namespace UltimateCaManager.Revocation

open List

/-! ## The lists of a CRL -/

/-- What the CRL code reads of a row of any of the three tables: the serial that it resolves to,
its column, and its revocation. -/
structure Listed where
  serial : Option ℕ
  column : Option (List Char)
  revokedAt : Option ℕ
  reason : Option Reason

/-- The stored certificate knows its serial, whatever the column says. -/
def CertRow.listed (row : CertRow) : Listed :=
  ⟨some row.crt.serial, some row.serialNumber, row.revokedAt, row.revokeReason⟩

def CaRow.listed (ca : CaRow) : Listed :=
  ⟨match ca.crt with
    | some crt => some crt.serial
    | none => ca.serialNumber.bind serialToInt,
    ca.serialNumber, ca.revokedAt, ca.revokeReason⟩

/-- A record has no certificate: its column is all there is to read. -/
def Record.listed (r : Record) : Listed :=
  ⟨serialToInt r.serialNumber, some r.serialNumber, some r.revokedAt, r.revokeReason⟩

/-- Two rows name the same serial: the same column or the same integer. -/
def sameSerial (left right : Listed) : Bool :=
  (left.column.isSome && left.column = right.column) ||
    (left.serial.isSome && left.serial = right.serial)

/-- Not ended, or nothing said about it. -/
def notExpired (validTo : Option ℕ) (now : ℕ) : Bool :=
  validTo.all (now < ·)

/-- The column decides only when no integer can be read. -/
def Listed.seen (ints : List ℕ) (columns : List (List Char)) (l : Listed) : Bool :=
  match l.serial with
  | some n => n ∈ ints
  | none => l.column.any (· ∈ columns)

/-- The first row of each serial. -/
def dedupeLive (ints : List ℕ) (columns : List (List Char)) : List Listed → List Listed
  | [] => []
  | l :: rest =>
    if l.seen ints columns then dedupeLive ints columns rest
    else l :: dedupeLive (l.serial.toList ++ ints) (l.column.toList ++ columns) rest

/-- A revocation that the linked certificate row outlived. -/
def Db.lifted (db : Db) (r : Record) : Bool :=
  match r.certificateId.bind db.certificate? with
  | none => false
  | some holder => !holder.revoked && sameSerial r.listed holder.listed

/-- The records that a CRL must still carry when `columns` and `ints` are listed. -/
def Db.filterOrphanSerials (db : Db) (columns : List (List Char)) (ints : List ℕ) :
    List Record → List Record
  | [] => []
  | r :: rest =>
    if r.serialNumber ∈ columns ∨ (∃ n ∈ serialToInt r.serialNumber, n ∈ ints) ∨ db.lifted r then
      db.filterOrphanSerials columns ints rest
    else
      r :: db.filterOrphanSerials (r.serialNumber :: columns)
        ((serialToInt r.serialNumber).toList ++ ints) rest

/-- By date of revocation, then by id. -/
def Record.before (r q : Record) : Bool :=
  r.revokedAt < q.revokedAt || (r.revokedAt = q.revokedAt && r.id ≤ q.id)

def Db.recordsByDate (db : Db) : List Record :=
  db.records.insertionSort fun r q => r.before q

/-- The live rows, and the records that they leave to be listed. -/
def Db.listAll (db : Db) (live : List Listed) (records : List Record) : List Listed :=
  let live := dedupeLive [] [] live
  live ++ (db.filterOrphanSerials (live.filterMap Listed.column) (live.filterMap Listed.serial)
    records).map Record.listed

/-- `get_revoked_certificates`: what a full CRL of `ca` lists at `now`. -/
def Db.getRevokedCertificates (db : Db) (ca : CaRow) (now : ℕ) : List Listed :=
  let refids := db.sameKeyRefids ca
  db.listAll
    ((db.certificates.filter fun row =>
        row.caref ∈ refids && row.revoked && notExpired row.validTo now).map CertRow.listed ++
      (db.cas.filter fun child =>
        child.caref = some ca.refid && child.revoked && notExpired child.validTo now).map
          CaRow.listed)
    (db.recordsByDate.filter fun r => r.caref ∈ refids && now < r.validTo)

/-- The rows of a delta CRL: those revoked after the instant of its base. -/
def Db.getRevokedSince (db : Db) (ca : CaRow) (since now : ℕ) : List Listed :=
  let refids := db.sameKeyRefids ca
  db.listAll
    ((db.certificates.filter fun row =>
        row.caref ∈ refids && row.revoked && notExpired row.validTo now &&
          row.revokedAt.any (since < ·)).map CertRow.listed ++
      (db.cas.filter fun child =>
        child.caref = some ca.refid && child.revoked && child.revokedAt.any (since < ·) &&
          notExpired child.validTo now).map CaRow.listed)
    (db.recordsByDate.filter fun r =>
      r.caref ∈ refids && since < r.revokedAt && now < r.validTo)

/-- The reason extension: `unspecified` is omitted, and `removeFromCRL` outside a delta. -/
def crlReason (isDelta : Bool) : Option Reason → Option Reason
  | none => none
  | some .unspecified => none
  | some .removeFromCRL => if isDelta then some .removeFromCRL else none
  | some reason => some reason

/-- A serial that a CRL can carry has at most 159 bits. -/
def inRange (n : ℕ) : Bool := 0 < n && n < 2 ^ 159

/-- The entry of a row, none when its serial cannot be carried. -/
def Listed.entry (isDelta : Bool) (now : ℕ) (l : Listed) : Option CrlEntry := do
  let n ← l.serial
  if inRange n then some ⟨n, l.revokedAt.getD now, crlReason isDelta l.reason⟩ else none

def crlEntries (isDelta : Bool) (now : ℕ) (rows : List Listed) : List CrlEntry :=
  rows.filterMap (Listed.entry isDelta now)

/-- The column is read as the serial that the row resolves to. -/
def Listed.Faithful (l : Listed) : Prop :=
  ∀ c ∈ l.column, serialToInt c = l.serial

/-- Deduplication keeps the first row of each serial that is not listed yet. -/
theorem find?_dedupeLive (n : ℕ) (ints : List ℕ) (columns : List (List Char)) (rows : List Listed) :
    (dedupeLive ints columns rows).find? (fun l => l.serial = some n) =
      if n ∈ ints then none else rows.find? fun l => l.serial = some n := by
  induction rows generalizing ints columns with
  | nil => simp [dedupeLive]
  | cons l rest ih =>
    by_cases hl : l.serial = some n
    · have hseen : l.seen ints columns = decide (n ∈ ints) := by simp [Listed.seen, hl]
      by_cases hn : n ∈ ints
      · simp [dedupeLive, hseen, hn, ih]
      · simp [dedupeLive, hseen, hn, hl]
    · simp only [dedupeLive]
      split
      · simp [ih, hl]
      · -- another serial is remembered, which does not touch `n`
        simp [hl, ih]

/-- When columns are faithful, a record is listed when it is the first one of its serial that no
live row lists and whose revocation was not lifted. -/
theorem find?_filterOrphanSerials (db : Db) (n : ℕ) (columns : List (List Char)) (ints : List ℕ)
    (records : List Record) (hcolumns : ∀ c ∈ columns, ∀ m, serialToInt c = some m → m ∈ ints) :
    (db.filterOrphanSerials columns ints records).find?
        (fun r => serialToInt r.serialNumber = some n) =
      if n ∈ ints then none
      else records.find? fun r => serialToInt r.serialNumber = some n && !db.lifted r := by
  induction records generalizing columns ints with
  | nil => simp [Db.filterOrphanSerials]
  | cons r rest ih =>
    by_cases hr : serialToInt r.serialNumber = some n
    · by_cases hn : n ∈ ints
      · simp [Db.filterOrphanSerials, hr, hn, ih columns ints hcolumns]
      · have hcol : r.serialNumber ∉ columns := fun hmem => hn (hcolumns _ hmem n hr)
        by_cases hlift : db.lifted r
        · simp [Db.filterOrphanSerials, hlift, ih columns ints hcolumns]
        · simp [Db.filterOrphanSerials, hr, hn, hcol, hlift]
    · simp only [Db.filterOrphanSerials]
      split
      · simp [hr, ih columns ints hcolumns]
      · rw [find?_cons_of_neg (by simpa using hr), ih]
        · simp [hr]
        · intro c hc m hm
          rcases mem_cons.mp hc with rfl | hc
          · simp [hm]
          · exact mem_append_right _ (hcolumns c hc m hm)

theorem dedupeLive_subset {ints : List ℕ} {columns : List (List Char)} {rows : List Listed}
    {l : Listed} (h : l ∈ dedupeLive ints columns rows) : l ∈ rows := by
  induction rows generalizing ints columns with
  | nil => cases h
  | cons q rest ih =>
    simp only [dedupeLive] at h
    split at h
    · exact mem_cons_of_mem q (ih h)
    · rcases mem_cons.mp h with rfl | h
      · exact mem_cons_self
      · exact mem_cons_of_mem q (ih h)

theorem dedupeLive_eq_self {ints : List ℕ} {columns : List (List Char)} {rows : List Listed}
    (hserial : ∀ l ∈ rows, ∃ n, l.serial = some n ∧ n ∉ ints)
    (hnodup : rows.Pairwise fun l q => l.serial ≠ q.serial) : dedupeLive ints columns rows = rows := by
  induction rows generalizing ints columns with
  | nil => rfl
  | cons l rest ih =>
    obtain ⟨n, hn, hnew⟩ := hserial l mem_cons_self
    obtain ⟨hhead, hrest⟩ := pairwise_cons.mp hnodup
    have hseen : l.seen ints columns = false := by simp [Listed.seen, hn, hnew]
    simp only [dedupeLive, hseen, Bool.false_eq_true, if_false]
    rw [ih ?_ hrest]
    intro q hq
    obtain ⟨m, hm, hmnew⟩ := hserial q (mem_cons_of_mem l hq)
    refine ⟨m, hm, ?_⟩
    have hne : m ≠ n := fun h => hhead q hq (by rw [hn, hm, h])
    simp [hn, hne, hmnew]

theorem filterOrphanSerials_eq_nil (db : Db) {columns : List (List Char)} (ints : List ℕ)
    {records : List Record} (h : ∀ r ∈ records, r.serialNumber ∈ columns) :
    db.filterOrphanSerials columns ints records = [] := by
  induction records with
  | nil => rfl
  | cons r rest ih =>
    rw [Db.filterOrphanSerials, if_pos (.inl (h r mem_cons_self))]
    exact ih fun q hq => h q (mem_cons_of_mem r hq)

/-- The row that a CRL lists a serial from: the first live one, else the first record that was
not lifted. -/
theorem find?_listAll (db : Db) (n : ℕ) {live : List Listed} (records : List Record)
    (hlive : ∀ l ∈ live, l.Faithful) :
    (db.listAll live records).find? (fun l => l.serial = some n) =
      (live.find? fun l => l.serial = some n).or
        ((records.find? fun r => serialToInt r.serialNumber = some n && !db.lifted r).map
          Record.listed) := by
  have hfirst : (dedupeLive [] [] live).find? (fun l => l.serial = some n) =
      live.find? fun l => l.serial = some n := by
    simp [find?_dedupeLive]
  have hrest : ∀ rs : List Record,
      (rs.map Record.listed).find? (fun l => l.serial = some n) =
        (rs.find? fun r => serialToInt r.serialNumber = some n).map Record.listed := by
    intro rs
    rw [find?_map]
    rfl
  rw [Db.listAll, find?_append, hfirst, hrest, find?_filterOrphanSerials]
  swap
  · intro c hc m hm
    obtain ⟨l, hl, hcol⟩ := mem_filterMap.mp hc
    have hserial := hlive l (dedupeLive_subset hl) c hcol
    exact mem_filterMap.mpr ⟨l, hl, hserial.symm.trans hm⟩
  cases hlist : live.find? (fun l => l.serial = some n) with
  | some l => simp
  | none =>
    have hn : n ∉ (dedupeLive [] [] live).filterMap Listed.serial := by
      intro hmem
      obtain ⟨l, hl, hserial⟩ := mem_filterMap.mp hmem
      have hnone := find?_eq_none.mp hlist l (dedupeLive_subset hl)
      simp [hserial] at hnone
    rw [if_neg hn]

/-- An entry of the CRL is that of the row that lists its serial. -/
theorem find?_crlEntries {n : ℕ} (isDelta : Bool) (now : ℕ) (rows : List Listed)
    (hn : inRange n = true) :
    (crlEntries isDelta now rows).find? (fun e => e.serial = n) =
      (rows.find? fun l => l.serial = some n).map fun l =>
        ⟨n, l.revokedAt.getD now, crlReason isDelta l.reason⟩ := by
  induction rows with
  | nil => rfl
  | cons l rest ih =>
    rw [crlEntries] at *
    cases hs : l.serial with
    | none => simpa [Listed.entry, hs] using ih
    | some m =>
      by_cases hm : m = n
      · subst hm
        simp [Listed.entry, hs, hn]
      · by_cases hr : inRange m = true
        · simpa [Listed.entry, hs, hr, hm] using ih
        · simpa [Listed.entry, hs, hr, hm] using ih

/-! ## The answer of the responder -/

inductive Status
  | good
  | revoked (reason : Reason)
  | unknown
  deriving DecidableEq

/-- The responder has no delta CRL: `removeFromCRL` is answered as `unspecified`. -/
def ocspReason : Option Reason → Reason
  | none => .unspecified
  | some .removeFromCRL => .unspecified
  | some reason => reason

/-- The first certificate row with the serial, revoked rows first. The column is looked up in all
its spellings and the stored certificate settles which serial it means. -/
def Db.certificateWithSerial (db : Db) (ca : CaRow) (serial : ℕ) : Option CertRow :=
  let rows := db.certificates.filter fun row =>
    row.caref ∈ db.sameKeyRefids ca && row.serialNumber ∈ serialVariants serial
  (rows.filter CertRow.revoked ++ rows.filter fun row => !row.revoked).find? fun row =>
    row.crt.serial = serial

/-- The CA signed by `issuer` whose certificate carries the serial: by its column, or else by its
certificate. -/
def Db.childCaForSerial (db : Db) (issuer : CaRow) (serial : ℕ) : Option CaRow :=
  let byColumn := db.cas.find? fun child =>
    child.caref.any (· ∈ db.sameKeyRefids issuer) &&
      child.serialNumber.any (· ∈ serialVariants serial) && child.crt.all (·.serial = serial)
  byColumn.or (issuer.crt.bind fun issuerCrt => db.cas.find? fun child =>
    child.id ≠ issuer.id && child.crt.any fun crt =>
      crt.serial = serial && crt.issuer = issuerCrt.subject &&
        (child.caref = some issuer.refid || crt.signer = issuerCrt.key))

/-- The earliest record of one of the spellings; when it ends is not looked at. -/
def Db.persistedRevocation (db : Db) (ca : CaRow) (serial : ℕ) : Option Record :=
  db.recordsByDate.find? fun r =>
    r.caref ∈ db.sameKeyRefids ca && r.serialNumber ∈ serialVariants serial

/-- `_status_for_serial`, for a CA that serves no external CRL and signed no cross-certificate. -/
def Db.statusForSerial (db : Db) (ca : CaRow) (serial : ℕ) : Status :=
  match db.certificateWithSerial ca serial with
  | some row => if row.revoked then .revoked (ocspReason row.revokeReason) else .good
  | none =>
    match db.childCaForSerial ca serial with
    | some child =>
      if child.revoked then .revoked (ocspReason child.revokeReason)
      else match db.persistedRevocation ca serial with
        | some r => .revoked (ocspReason r.revokeReason)
        | none => .good
    | none => match db.persistedRevocation ca serial with
      | some r => .revoked (ocspReason r.revokeReason)
      | none => .unknown

end UltimateCaManager.Revocation
