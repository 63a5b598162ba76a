import UltimateCaManager.RevocationIssuers
import UltimateCaManager.RevocationPermanence

/-!
# Tables on which the CRL and the responder can agree

What one serial of one issuer leaves in the tables: at most one certificate row or one CA
certificate, and records that are linked to that row exactly as long as it carries the serial.
The CRL and the responder read rows, CA certificates and records in different orders, so a serial
with two of them can be answered in two ways.
-/
namespace UltimateCaManager.Revocation

open List Tables Runs

/-- The certificates of the issuer of `a`: those stored under one of its records, and those of the
CAs that it signed. -/
def known (cas : List CaRow) (stored : List Fact) (a : ℕ) : List Stored :=
  (stored.filter fun f => SameIssuer cas a f.caref).map (fun f => ⟨f.serial, f.notAfter⟩) ++
    ((cas.filterMap CaRow.crt).filter fun crt => issuerOf cas a = some crt.signedBy).map
      CaStored.toStored

variable {cas : List CaRow}

theorem mem_known {stored : List Fact} {a : ℕ} {k : Stored} :
    k ∈ known cas stored a ↔
      (∃ f ∈ stored, SameIssuer cas a f.caref ∧ (⟨f.serial, f.notAfter⟩ : Stored) = k) ∨
        ∃ ca ∈ cas, ∃ crt ∈ ca.crt, issuerOf cas a = some crt.signedBy ∧ crt.toStored = k := by
  simp only [known, mem_append, mem_map, mem_filter, mem_filterMap,
    decide_eq_true_eq]
  constructor
  · intro h
    rcases h with ⟨f, ⟨hf, hsame⟩, hk⟩ | ⟨crt, ⟨⟨ca, hca, hcrt⟩, hissuer⟩, hk⟩
    · exact .inl ⟨f, hf, hsame, hk⟩
    · exact .inr ⟨ca, hca, crt, hcrt, hissuer, hk⟩
  · intro h
    rcases h with ⟨f, hf, hsame, hk⟩ | ⟨ca, hca, crt, hcrt, hissuer, hk⟩
    · exact .inl ⟨f, ⟨hf, hsame⟩, hk⟩
    · exact .inr ⟨crt, ⟨⟨ca, hca, hcrt⟩, hissuer⟩, hk⟩

/-! ## The condition -/

/-- Of the certificates of the issuer, no other shares a text of the serial. -/
def State.Fits (s : State) (caref : ℕ) (crt : Stored) : Prop :=
  inRange crt.serial = true ∧
    ∀ k ∈ known s.db.cas s.stored caref, Shares k.serial crt.serial → k = crt
  deriving Decidable

/-- No row among `rows` and no CA certificate of the issuer carries the serial. -/
def Db.Unborne (db : Db) (rows : List CertRow) (caref n : ℕ) : Prop :=
  (∀ row ∈ rows, SameIssuer db.cas caref row.caref → row.crt.serial ≠ n) ∧
    ∀ ca ∈ db.cas, ∀ crt ∈ ca.crt, issuerOf db.cas caref = some crt.signedBy → crt.serial ≠ n
  deriving Decidable

/-- No record of the issuer names the serial. -/
def Db.Unrecorded (db : Db) (caref n : ℕ) : Prop :=
  ∀ r ∈ db.records, SameIssuer db.cas caref r.caref → serialToInt r.serialNumber ≠ some n
  deriving Decidable

def Db.Free (db : Db) (caref n : ℕ) : Prop :=
  db.Unborne db.certificates caref n ∧ db.Unrecorded caref n
  deriving Decidable

/-- The steps under which the CRL and the responder agree. -/
def Orderly (s : State) : Label → Prop
  | .issue spelling caref crt =>
    spelling.ReadsBack crt.serial ∧ s.Fits caref crt ∧ s.db.Free caref crt.serial
  | .importCertificate none caref crt => s.Fits caref crt ∧ s.db.Free caref crt.serial
  | .importCertificate (some id) caref crt => s.Fits caref crt ∧
    ∀ row ∈ s.db.certificate? id,
      -- the certificate of the row again, or one whose serial is new to the issuer and the row
      row.crt = crt ∧ SameIssuer s.db.cas row.caref caref ∨
        row.crt.serial ≠ crt.serial ∧ s.db.Free caref crt.serial ∧ s.Unlinked id crt.serial
  | .renew id caref crt =>
    Spelling.lowerHex.ReadsBack crt.serial ∧ s.Fits caref crt ∧ s.db.Free caref crt.serial ∧
      ∀ row ∈ s.db.certificate? id, ¬ Shares row.crt.serial crt.serial ∧
        s.Unlinked id crt.serial ∧ s.Fits caref row.crt ∧
        s.db.Unborne (s.db.certificates.filter fun q => q.id ≠ id) caref row.crt.serial
  | _ => True

instance (s : State) (l : Label) : Decidable (Orderly s l) := by
  induction l using Label.casesOn <;> unfold Orderly <;> try infer_instance
  induction ‹Option ℕ› using Option.casesOn <;> infer_instance

theorem Orderly.readable {s : State} {l : Label} (h : Orderly s l) : l.Readable := by
  cases l with
  | issue | renew => exact h.1
  | _ => trivial

/-! ## Rows and records of one serial -/

/-- What the rows, records and CA certificates of one serial of one issuer are to each other. -/
structure Db.Clear (db : Db) : Prop where
  unique : ∀ row ∈ db.certificates, ∀ q ∈ db.certificates, SameIssuer db.cas row.caref q.caref →
    row.crt.serial = q.crt.serial → row.id = q.id
  links : ∀ row ∈ db.certificates, ∀ r ∈ db.records,
    serialToInt r.serialNumber = some row.crt.serial →
      (r.certificateId = some row.id ↔ SameIssuer db.cas row.caref r.caref)
  rows : ∀ row ∈ db.certificates, ∀ child, ¬ Child db.cas row.caref row.crt.serial child
  records : ∀ r ∈ db.records, ∀ n, serialToInt r.serialNumber = some n →
    ∀ child, Child db.cas r.caref n child →
      child.revoked = true ∧ r.revokeReason = child.revokeReason

section Clear

variable {db : Db} {stored : List Fact} {id caref n instant : ℕ} {crt : Stored}

theorem Db.Unborne.not_child {rows : List CertRow} (h : db.Unborne rows caref n) (child : CaRow) :
    ¬ Child db.cas caref n child := by
  intro hchild
  obtain ⟨hmem, crt, hcrt, hissuer, hserial⟩ := hchild
  exact h.2 child hmem crt hcrt hissuer hserial

variable (h : db.Clear)

section Enter

variable (hfree : db.Free caref crt.serial) (hlinked : ∀ r ∈ db.records,
  r.certificateId = some id → serialToInt r.serialNumber ≠ some crt.serial)

include h hfree hlinked

/-- One row has a certificate whose serial is not in use and is not recorded for it, and the others
are as they were. -/
theorem Db.Clear.enter {certificates : List CertRow} (hrows : ∀ row ∈ certificates,
      row ∈ db.certificates ∨ row.id = id ∧ row.crt = crt ∧ row.caref = caref) :
    ({ db with certificates := certificates } : Db).Clear := by
  obtain ⟨hborne, hrecord⟩ := hfree
  refine ⟨?_, ?_, ?_, h.records⟩
  · intro row hrow q hq hsame hserial
    rcases hrows row hrow with hrow | ⟨hid, hnew, hcaref⟩
    · rcases hrows q hq with hq | ⟨-, hnew, hcaref⟩
      · exact h.unique row hrow q hq hsame hserial
      · rw [hnew] at hserial
        rw [hcaref] at hsame
        exact absurd hserial (hborne.1 row hrow hsame.symm)
    · rcases hrows q hq with hq | ⟨hid', -, -⟩
      · rw [hnew] at hserial
        rw [hcaref] at hsame
        exact absurd hserial.symm (hborne.1 q hq hsame)
      · rw [hid, hid']
  · intro row hrow r hr hserial
    rcases hrows row hrow with hrow | ⟨hid, hnew, hcaref⟩
    · exact h.links row hrow r hr hserial
    · rw [hnew] at hserial
      rw [hid, hcaref]
      constructor
      · intro hlink
        exact absurd hserial (hlinked r hr hlink)
      · intro hsame
        exact absurd hserial (hrecord r hr hsame)
  · intro row hrow
    rcases hrows row hrow with hrow | ⟨-, hnew, hcaref⟩
    · exact h.rows row hrow
    · rw [hnew, hcaref]
      exact hborne.not_child

/-- A row that takes a certificate whose serial is not in use and is not recorded for it. -/
theorem Db.Clear.replace {f : CertRow → CertRow} (hf : ∀ row, (f row).id = row.id)
    (hcrt : ∀ row ∈ db.certificates, row.id = id → (f row).crt = crt ∧ (f row).caref = caref) :
    (db.setCertificate id f).Clear := by
  refine h.enter hfree hlinked fun row hrow => ?_
  rcases mem_setCertificate hrow with ⟨hrow, -⟩ | ⟨q, hq, hid, rfl⟩
  · exact .inl hrow
  · obtain ⟨hcrt', hcaref⟩ := hcrt q hq hid
    exact .inr ⟨(hf q).trans hid, hcrt', hcaref⟩

end Enter

include h

theorem Db.Clear.insertCertificate (ht : Tidy db stored)
    (hfree : db.Free caref crt.serial) (text : List Char) :
    (db.insertCertificate caref crt text).Clear := by
  refine h.enter hfree (fun r hr hlink => ?_)
    (forall_mem_concat.mpr ⟨fun row => .inl, .inr ⟨rfl, rfl, rfl⟩⟩)
  -- the new row is linked to nothing
  obtain ⟨q, hq, hqid⟩ := ht.links r hr _ hlink
  exact absurd hqid (Nat.ne_of_lt (ht.lt_nextId hq))

variable {f : CertRow → CertRow}

theorem Db.Clear.setCertificate
    (hf : ∀ row ∈ db.certificates, row.id = id → (f row).id = row.id ∧ (f row).crt = row.crt ∧
      SameIssuer db.cas row.caref (f row).caref) : (db.setCertificate id f).Clear := by
  have hfrom : ∀ row ∈ (db.setCertificate id f).certificates, ∃ q ∈ db.certificates,
      row.id = q.id ∧ row.crt = q.crt ∧ SameIssuer db.cas q.caref row.caref := by
    intro row hrow
    rcases mem_setCertificate hrow with ⟨hrow, -⟩ | ⟨q, hq, hid, rfl⟩
    · exact ⟨row, hrow, rfl, rfl, sameIssuer_self _ _⟩
    · obtain ⟨hid', hcrt, hsame⟩ := hf q hq hid
      exact ⟨q, hq, hid', hcrt, hsame⟩
  refine ⟨?_, ?_, ?_, h.records⟩
  · intro row hrow q hq hsame hserial
    obtain ⟨row', hrow', hid, hcrt, hissuer⟩ := hfrom row hrow
    obtain ⟨q', hq', hid', hcrt', hissuer'⟩ := hfrom q hq
    rw [hid, hid']
    rw [hcrt, hcrt'] at hserial
    exact h.unique row' hrow' q' hq' ((hissuer.trans hsame).trans hissuer'.symm) hserial
  · intro row hrow r hr hserial
    obtain ⟨q, hq, hid, hcrt, hissuer⟩ := hfrom row hrow
    rw [hcrt] at hserial
    have hlinks := h.links q hq r hr hserial
    rw [hid]
    constructor
    · intro hlink
      exact hissuer.symm.trans (hlinks.mp hlink)
    · intro hsame
      exact hlinks.mpr (hissuer.trans hsame)
  · intro row hrow child hchild
    obtain ⟨q, hq, -, hcrt, hissuer⟩ := hfrom row hrow
    rw [hcrt] at hchild
    exact h.rows q hq child (hchild.sameIssuer hissuer.symm)

theorem Db.Clear.filterRecords (p : Record → Bool) :
    ({ db with records := db.records.filter p } : Db).Clear :=
  ⟨h.unique, fun row hrow r hr => h.links row hrow r (mem_of_mem_filter hr), h.rows,
    fun r hr => h.records r (mem_of_mem_filter hr)⟩

theorem Db.Clear.deleteCertificate (id : ℕ) : (db.deleteCertificate id).Clear := by
  refine ⟨?_, ?_, ?_, ?_⟩
  · intro row hrow q hq
    exact h.unique row (mem_of_mem_filter hrow) q (mem_of_mem_filter hq)
  · intro row hrow r hr hserial
    have hkept : row.id ≠ id := by simpa using of_mem_filter hrow
    rcases mem_amend.mp hr with ⟨hr, -⟩ | ⟨q, hq, hlink, rfl⟩
    · exact h.links row (mem_of_mem_filter hrow) r hr hserial
    · -- the record was that of the deleted row
      have hlinks := h.links row (mem_of_mem_filter hrow) q hq hserial
      have hgone : q.certificateId = some id := by simpa using hlink
      constructor
      · intro hnone
        cases hnone
      · intro hsame
        have hrow := hlinks.mpr hsame
        rw [hgone] at hrow
        exact absurd (Option.some.inj hrow).symm hkept
  · intro row hrow
    exact h.rows row (mem_of_mem_filter hrow)
  · exact forall_mem_amend h.records fun _ _ _ h => h

theorem Db.Clear.putRecord (hids : (db.records.map Record.id).Nodup)
    {text : List Char} {reason : Option Reason} {validTo : ℕ} {link : Option ℕ → Option ℕ}
    (htext : Spells text n)
    (hlink : ∀ row ∈ db.certificates, row.crt.serial = n → ∀ c, (c = none ∨
      ∃ q ∈ db.records, q.caref = caref ∧ q.serialNumber = text ∧ c = q.certificateId) →
        (link c = some row.id ↔ SameIssuer db.cas row.caref caref))
    (hchild : ∀ child, Child db.cas caref n child →
      child.revoked = true ∧ reason = child.revokeReason) :
    (db.putRecord caref text instant reason validTo link).Clear := by
  have hcert : (db.putRecord caref text instant reason validTo link).certificates =
      db.certificates := certificates_putRecord
  have hcas : (db.putRecord caref text instant reason validTo link).cas = db.cas := cas_putRecord
  refine ⟨?_, ?_, ?_, ?_⟩
  · rw [hcert, hcas]
    exact h.unique
  · rw [hcert, hcas]
    intro row hrow r hr hserial
    rcases mem_putRecord hr hids with hr | ⟨hcaref, hnew, -, -, hid⟩
    · exact h.links row hrow r hr hserial
    · rw [hnew, htext.2] at hserial
      have hn : row.crt.serial = n := (Option.some.inj hserial).symm
      rw [hcaref]
      rcases hid with hid | ⟨q, hq, hqcaref, hqtext, hid⟩
      · rw [hid]
        exact hlink row hrow hn none (.inl rfl)
      · rw [hid]
        exact hlink row hrow hn _ (.inr ⟨q, hq, hqcaref, hqtext, rfl⟩)
  · rw [hcert, hcas]
    exact h.rows
  · rw [hcas]
    intro r hr m hm child hm'
    rcases mem_putRecord hr hids with hr | ⟨hcaref, hnew, -, hreason, -⟩
    · exact h.records r hr m hm child hm'
    · rw [hnew, htext.2] at hm
      rw [hcaref, ← Option.some.inj hm] at hm'
      rw [hreason]
      exact hchild child hm'

theorem Db.Clear.setRevocation (id : ℕ)
    (hf : ∀ row, (f row).id = row.id ∧ (f row).crt = row.crt ∧ (f row).caref = row.caref) :
    (db.setCertificate id f).Clear := by
  refine h.setCertificate fun row _ _ => ?_
  obtain ⟨hid, hcrt, hcaref⟩ := hf row
  exact ⟨hid, hcrt, hcaref ▸ sameIssuer_self _ _⟩

theorem Db.Clear.revokeCertificate (ht : Tidy db stored) (reason : Reason) :
    (db.revokeCertificate id reason instant).Clear := by
  unfold Db.revokeCertificate
  split
  · exact h
  · next row hrow =>
    obtain ⟨hmem, hid⟩ := certificate?_mem hrow
    have hmarked : (db.setCertificate id fun row => { row with
        revoked := true, revokedAt := some instant, revokeReason := some reason }).Clear :=
      h.setRevocation id fun _ => ⟨rfl, rfl, rfl⟩
    split
    · refine hmarked.putRecord ht.recordIds (ht.rows row hmem).text ?_ ?_
      · intro q hq hserial c _
        -- of the rows of the issuer only the revoked one carries its serial
        have hfrom : ∃ q' ∈ db.certificates, q'.id = q.id ∧ q'.crt = q.crt ∧
            q'.caref = q.caref := by
          rcases mem_setCertificate hq with ⟨hq, -⟩ | ⟨q', hq', -, rfl⟩
          · exact ⟨q, hq, rfl, rfl, rfl⟩
          · exact ⟨q', hq', rfl, rfl, rfl⟩
        obtain ⟨q', hq', hqid, hqcrt, hqcaref⟩ := hfrom
        rw [← hqid, ← hqcaref]
        rw [← hqcrt] at hserial
        constructor
        · intro hlink
          have hsame : q' = row := ht.row_eq hq' hmem ((Option.some.inj hlink).symm.trans hid.symm)
          rw [hsame]
          exact sameIssuer_self _ _
        · intro hsame
          rw [h.unique q' hq' row hmem hsame hserial, hid]
      · intro child hchild
        exact absurd hchild (h.rows row hmem child)
    · exact hmarked

theorem Db.Clear.stageUnhold : (db.stageUnhold id instant).Clear :=
  h.setRevocation id fun _ => ⟨rfl, rfl, rfl⟩

theorem Db.Clear.liftHold : (db.liftHold id).Clear := by
  unfold Db.liftHold
  split
  · exact h
  · next row hrow =>
    have hset : (db.setCertificate id fun row =>
        { row with revoked := false, revokedAt := none, revokeReason := none }).Clear :=
      h.setRevocation id fun _ => ⟨rfl, rfl, rfl⟩
    exact hset.filterRecords _

theorem Db.Clear.renewCertificate (ht : Tidy db stored) {row : CertRow}
    (hrow : db.certificate? id = some row) (hfree : db.Free caref crt.serial)
    (hne : row.crt.serial ≠ crt.serial)
    (hlinked : ∀ r ∈ db.records, r.certificateId = some id →
      serialToInt r.serialNumber ≠ some crt.serial)
    (hborne : db.Unborne (db.certificates.filter fun q => q.id ≠ id) caref row.crt.serial) :
    (db.renewCertificate id caref crt instant).Clear := by
  obtain ⟨hmem, hid⟩ := certificate?_mem hrow
  simp only [Db.renewCertificate, hrow]
  refine Db.Clear.putRecord ?_ ?_ (ht.rows row hmem).text ?_ ?_
  · exact h.replace hfree hlinked (fun _ => rfl) fun _ _ _ => ⟨rfl, rfl⟩
  · exact ht.recordIds
  · -- the old serial is on no row of the issuer any more
    intro q hq hserial c _
    rcases mem_setCertificate hq with ⟨hq, hqid⟩ | ⟨q', -, -, rfl⟩
    · constructor
      · intro hlink
        exact absurd (Option.some.inj hlink).symm hqid
      · intro hsame
        have hother : q ∈ db.certificates.filter fun q => q.id ≠ id :=
          mem_filter.mpr ⟨hq, by simpa using hqid⟩
        exact absurd hserial (hborne.1 q hother hsame.symm)
    · exact absurd hserial.symm hne
  · intro child hchild
    exact absurd hchild (hborne.not_child child)

theorem Db.Clear.runHousekeeping (purgeStale autoDelete : Bool) (ca : CaRow)
    (now : ℕ) : (db.runHousekeeping purgeStale autoDelete ca now).Clear :=
  Db.runHousekeeping_rule h (h.filterRecords _) fun _ i hdb => hdb.deleteCertificate i

/-- The flag of a CA whose certificate is not recorded as revoked yet. -/
theorem Db.Clear.setCa {caId : ℕ} {f : CaRow → CaRow} (hf : Marks f)
    (hrecord : ∀ ca ∈ db.cas, ca.id = caId → ca.revoked = false) : (db.setCa caId f).Clear := by
  refine ⟨?_, ?_, ?_, ?_⟩
  · intro row hrow q hq hsame
    exact h.unique row hrow q hq ((sameIssuer_setCa hf _ _).mp hsame)
  · intro row hrow r hr hserial
    rw [sameIssuer_setCa hf]
    exact h.links row hrow r hr hserial
  · intro row hrow child hchild
    obtain ⟨q, hq, -⟩ := child_setCa hf hchild
    exact h.rows row hrow q hq
  · intro r hr n hn child hchild
    obtain ⟨q, hq, ⟨rfl, -⟩ | ⟨-, hid⟩⟩ := child_setCa hf hchild
    · exact h.records r hr n hn child hq
    · have hrevoked := (h.records r hr n hn q hq).1
      rw [hrecord q hq.1 hid] at hrevoked
      cases hrevoked

end Clear

/-! ## Runs -/

/-- Every certificate of an issuer can be told apart from the others by any text of its serial. -/
def Discerned (cas : List CaRow) (stored : List Fact) : Prop :=
  ∀ a, ∀ k ∈ known cas stored a, inRange k.serial = true ∧
    ∀ j ∈ known cas stored a, Shares k.serial j.serial → k = j

/-- The revocation of a CA is recorded by its issuer until its certificate ends. -/
def Backed (now : ℕ) (db : Db) : Prop :=
  ∀ child ∈ db.cas, child.revoked = true → ∃ crt ∈ child.crt,
    child.validTo = some crt.notAfter ∧ crt.signedBy ≠ ⟨crt.subject, crt.key⟩ ∧
      (now ≤ crt.notAfter → ∃ r ∈ db.records, Child db.cas r.caref crt.serial child ∧
        serialToInt r.serialNumber = some crt.serial)

structure Coherent (s : State) : Prop where
  tidy : Tidy s.db s.stored
  cas : WellFormed s.db.cas
  discerned : Discerned s.db.cas s.stored
  clear : s.db.Clear
  backed : Backed s.now s.db

section Known

variable {cas : List CaRow} {stored : List Fact} {a b caref : ℕ} {crt k : Stored}

theorem known_sameIssuer (h : SameIssuer cas a b) (hk : k ∈ known cas stored a) :
    k ∈ known cas stored b := by
  rw [mem_known] at hk ⊢
  rcases hk with ⟨f, hf, hsame, hk⟩ | ⟨ca, hca, crt, hcrt, hissuer, hk⟩
  · exact .inl ⟨f, hf, h.symm.trans hsame, hk⟩
  · exact .inr ⟨ca, hca, crt, hcrt, h.issuerOf_eq ▸ hissuer, hk⟩

theorem mem_known_append (hk : k ∈ known cas (stored ++ [crt.fact caref]) a) :
    k ∈ known cas stored a ∨ SameIssuer cas a caref ∧ k = crt := by
  rcases mem_known.mp hk with ⟨f, hf, hsame, hk⟩ | hca
  · rcases mem_concat.mp hf with hf | rfl
    · exact .inl (mem_known.mpr (.inl ⟨f, hf, hsame, hk⟩))
    · exact .inr ⟨hsame, hk.symm⟩
  · exact .inl (mem_known.mpr (.inr hca))

theorem Discerned.append (h : Discerned cas stored) (hrange : inRange crt.serial = true)
    (hfit : ∀ k ∈ known cas stored caref, Shares k.serial crt.serial → k = crt) :
    Discerned cas (stored ++ [crt.fact caref]) := by
  intro a k hk
  rcases mem_known_append hk with hold | ⟨hsame, hnew⟩
  · refine ⟨(h a k hold).1, fun j hj hshares => ?_⟩
    rcases mem_known_append hj with hj | ⟨hsame, hnew⟩
    · exact (h a k hold).2 j hj hshares
    · rw [hnew] at hshares ⊢
      exact hfit k (known_sameIssuer hsame hold) hshares
  · rw [hnew]
    refine ⟨hrange, fun j hj hshares => ?_⟩
    rcases mem_known_append hj with hold | ⟨-, hnew'⟩
    · exact (hfit j (known_sameIssuer hsame hold) hshares.symm).symm
    · exact hnew'.symm

theorem Discerned.weaken {cas' : List CaRow} {stored' : List Fact} (h : Discerned cas stored)
    (hsub : ∀ a, ∀ k ∈ known cas' stored' a, k ∈ known cas stored a) : Discerned cas' stored' :=
  fun a k hk => ⟨(h a k (hsub a k hk)).1, fun j hj => (h a k (hsub a k hk)).2 j (hsub a j hj)⟩

end Known

section RevokeCa

variable {db db' : Db} {caId instant : ℕ} {reason : Reason} {ca parent : CaRow} {crt : CaStored}

theorem marks_markRevoked (crt : CaStored) (reason : Reason) (instant : ℕ) :
    Marks (CaRow.markRevoked crt reason instant) :=
  fun _ => ⟨rfl, rfl, rfl, rfl, rfl⟩

theorem cas_revokeCa (hca : db.ca? caId = some ca) (hcrt : ca.crt = some crt)
    (hparent : db.issuingCa ca = some parent) (hdb : db.revokeCa caId reason instant = some db') :
    db'.cas = (db.setCa caId (CaRow.markRevoked crt reason instant)).cas := by
  rw [(revokeCa_eq hca hcrt hparent hdb).2]
  exact cas_putRecord

theorem child_issuingCa (h : WellFormed db.cas) (hca : db.ca? caId = some ca)
    (hcrt : ca.crt = some crt) (hparent : db.issuingCa ca = some parent) :
    Child db.cas parent.refid crt.serial ca := by
  obtain ⟨hmem, -⟩ := find?_key hca
  exact ⟨hmem, crt, hcrt, (issuingCa_spec h hmem hcrt hparent).2.1, rfl⟩

theorem Db.Clear.revokeCa (h : db.Clear) (hcas : WellFormed db.cas) {stored : List Fact}
    (ht : Tidy db stored) (hca : db.ca? caId = some ca) (hcrt : ca.crt = some crt)
    (hparent : db.issuingCa ca = some parent) (hdb : db.revokeCa caId reason instant = some db') :
    db'.Clear := by
  obtain ⟨hrev, rfl⟩ := revokeCa_eq hca hcrt hparent hdb
  obtain ⟨hmem, hid⟩ := find?_key hca
  have hmarks := marks_markRevoked crt reason instant
  have hchild := child_issuingCa hcas hca hcrt hparent
  have hset : (db.setCa caId (CaRow.markRevoked crt reason instant)).Clear := by
    refine h.setCa hmarks fun q hq hqid => ?_
    rw [eq_of_key hcas.ids hq hmem (hqid.trans hid.symm)]
    exact hrev
  refine Db.Clear.putRecord hset ?_ (spells_decimal crt.serial) ?_ ?_
  · exact ht.recordIds
  · -- neither a row nor an older record has the serial of the CA
    intro row hrow hserial c hc
    have hrow' : ¬ SameIssuer db.cas row.caref parent.refid := by
      intro hsame
      refine h.rows row hrow ca ?_
      rw [hserial]
      exact hchild.sameIssuer hsame.symm
    rw [sameIssuer_setCa hmarks]
    refine iff_of_false (fun hlink => ?_) hrow'
    rcases hc with rfl | ⟨q, hq, hcaref, htext, -⟩
    · cases hlink
    · have hread : serialToInt q.serialNumber = some crt.serial := by
        rw [htext]
        exact (spells_decimal crt.serial).2
      have hrevoked := (h.records q hq crt.serial hread ca (hcaref ▸ hchild)).1
      rw [hrev] at hrevoked
      cases hrevoked
  · intro child' hchild'
    obtain ⟨q, hq, hcases⟩ := child_setCa hmarks hchild'
    have hqca : q = ca := hq.unique hcas hchild
    rw [hqca] at hcases
    rcases hcases with ⟨-, hne⟩ | ⟨rfl, -⟩
    · exact absurd hid hne
    · exact ⟨rfl, rfl⟩

end RevokeCa

section Steps

variable {s : State} {l : Label}

theorem clear_step (h : Coherent s) (hl : Orderly s l) : (step s l).db.Clear := by
  generalize hs' : step s l = s'
  have hstep := hs' ▸ step_steps s l
  cases hstep with
  | issue => exact h.clear.insertCertificate h.tidy hl.2.2 _
  | imported => exact h.clear.insertCertificate h.tidy hl.2 _
  | @updated id caref crt =>
    by_cases hkept : ∀ row ∈ s.db.certificate? id,
        row.crt = crt ∧ SameIssuer s.db.cas row.caref caref
    · refine h.clear.setCertificate fun row hrow hid => ?_
      obtain ⟨hcrt, hsame⟩ := hkept row (hid ▸ h.tidy.certificate? hrow)
      simp only [hcrt, ne_eq, not_true_eq_false, if_false]
      exact ⟨trivial, trivial, hsame⟩
    · obtain ⟨row, hrow, hother⟩ := not_forall₂.mp hkept
      obtain ⟨-, hfree, hlinked⟩ := (hl.2 row hrow).resolve_left hother
      refine h.clear.replace hfree hlinked (fun row => ?_) fun row _ _ => ?_
      · split <;> rfl
      · split <;> exact ⟨rfl, rfl⟩
  | revoke hrow hrev hreason => exact h.clear.revokeCertificate h.tidy _
  | stageUnhold hrow hrev hreason => exact h.clear.stageUnhold
  | unhold hrow hrev hreason => exact h.clear.liftHold
  | delete => exact h.clear.deleteCertificate _
  | @renew id caref crt row hrow =>
    obtain ⟨-, -, hfree, hrest⟩ := hl
    obtain ⟨hapart, hlinked, -, hborne⟩ := hrest row hrow
    refine h.clear.renewCertificate h.tidy hrow hfree (fun heq => hapart ?_) hlinked hborne
    rw [heq]
    exact shares_self _
  | revokeCa hca hcrt hparent hdb => exact h.clear.revokeCa h.cas h.tidy hca hcrt hparent hdb
  | housekeeping hca => exact h.clear.runHousekeeping _ _ _ _
  | @generate caId ca hca hsign =>
    exact { h.clear.runHousekeeping s.purgeStale s.autoDelete ca s.now with }
  | _ => exact h.clear

theorem discerned_step (h : Coherent s) (hl : Orderly s l) :
    Discerned (step s l).db.cas (step s l).stored := by
  by_cases hca : ∃ caId reason, l = .revokeCa caId reason
  · obtain ⟨caId, reason, rfl⟩ := hca
    generalize hs' : step s (.revokeCa caId reason) = s'
    have hstep := hs' ▸ step_steps s (.revokeCa caId reason)
    cases hstep with
    | idle => exact h.discerned
    | @revokeCa _ _ ca crt parent db hca hcrt hparent hdb =>
      -- the certificate of the CA is known already
      have hmarks := marks_markRevoked crt reason s.now
      obtain ⟨hmem, -⟩ := find?_key hca
      have hissued := (issuingCa_spec h.cas hmem hcrt hparent).2.1
      simp only [cas_revokeCa hca hcrt hparent hdb]
      refine h.discerned.weaken fun a k hk => ?_
      rcases mem_known_append hk with hk | ⟨hsame, rfl⟩
      · rw [mem_known] at hk ⊢
        rcases hk with ⟨f, hf, hsame, hk⟩ | ⟨child, hchild, crt', hcrt', hissuer, hk⟩
        · exact .inl ⟨f, hf, (sameIssuer_setCa hmarks _ _).mp hsame, hk⟩
        · obtain ⟨q, hq, -, -, -, -, hqcrt, -⟩ := mem_setCa hmarks hchild
          exact .inr ⟨q, hq, crt', hqcrt ▸ hcrt', issuerOf_setCa hmarks a ▸ hissuer, hk⟩
      · have hsame := (sameIssuer_setCa hmarks _ _).mp hsame
        exact mem_known.mpr (.inr ⟨ca, hmem, crt, hcrt, hsame.issuerOf_eq.trans hissued, rfl⟩)
  · have hcas : (step s l).db.cas = s.db.cas :=
      cas_step fun caId reason heq => hca ⟨caId, reason, heq⟩
    rw [hcas]
    generalize hs' : step s l = s'
    have hstep := hs' ▸ step_steps s l
    have hnew : ∀ {caref crt}, s.Fits caref crt →
        Discerned s.db.cas (s.stored ++ [crt.fact caref]) :=
      fun hfits => h.discerned.append hfits.1 hfits.2
    cases hstep with
    | issue => exact hnew hl.2.1
    | imported | updated => exact hnew hl.1
    | @renew id caref crt row hrow =>
      obtain ⟨-, hfits, -, hrest⟩ := hl
      obtain ⟨hapart, -, hold, -⟩ := hrest row hrow
      have hboth : Discerned s.db.cas ((s.stored ++ [crt.fact caref]) ++ [row.crt.fact caref]) := by
        refine (hnew hfits).append hold.1 fun k hk hshares => ?_
        rcases mem_known_append hk with hk | ⟨-, rfl⟩
        · exact hold.2 k hk hshares
        · exact absurd hshares.symm hapart
      simpa using hboth
    | @revokeCa caId reason => exact absurd ⟨caId, reason, rfl⟩ hca
    | _ => exact h.discerned

theorem Coherent.validTo_eq (h : Coherent s) {a : ℕ} {k : Stored} {r : Record}
    (hk : k ∈ known s.db.cas s.stored a) (hr : r ∈ s.db.records)
    (hsame : SameIssuer s.db.cas a r.caref) (hserial : serialToInt r.serialNumber = some k.serial) :
    r.validTo = k.notAfter := by
  obtain ⟨n, hn⟩ := h.tidy.records r hr
  have heq : n = k.serial := Option.mem_unique hn.text.2 hserial
  have hmem : (⟨n, r.validTo⟩ : Stored) ∈ known s.db.cas s.stored a :=
    mem_known.mpr (.inl ⟨_, hn.stored, hsame, rfl⟩)
  have hshares : Shares k.serial (⟨n, r.validTo⟩ : Stored).serial := by
    rw [heq]
    exact shares_self _
  rw [(h.discerned a k hk).2 _ hmem hshares]

/-- The record of a revoked CA that has not ended survives the step. -/
theorem Coherent.child_record (h : Coherent s) (l : Label) {child : CaRow} {crt : CaStored}
    {r : Record} (hcrt : child.crt = some crt) (hends : s.now ≤ crt.notAfter)
    (hr : r ∈ s.db.records) (hchild : Child s.db.cas r.caref crt.serial child)
    (hserial : serialToInt r.serialNumber = some crt.serial) :
    ∃ q ∈ (step s l).db.records, q.caref = r.caref ∧ q.serialNumber = r.serialNumber := by
  obtain ⟨hmem, crt', hcrt', hissuer, -⟩ := hchild
  have hcrts : crt' = crt := Option.mem_unique hcrt' hcrt
  have hknown : crt.toStored ∈ known s.db.cas s.stored r.caref :=
    mem_known.mpr (.inr ⟨child, hmem, crt, hcrt, hcrts ▸ hissuer, rfl⟩)
  have hvalid := h.validTo_eq hknown hr (sameIssuer_self _ _) hserial
  refine record_survives l hr (hvalid ▸ hends) fun row hrow _ _ hsame => ?_
  -- a held row with the text of the record would carry the serial of the CA
  have hread : row.crt.serial = crt.serial := by
    have htext := (h.tidy.rows row hrow).text.2
    rw [← hsame.2, hserial] at htext
    exact (Option.some.inj htext).symm
  refine h.clear.rows row hrow child ⟨hmem, crt, hcrt, ?_, hread.symm⟩
  rw [← hsame.1]
  exact hcrts ▸ hissuer

theorem backed_step (h : Coherent s) : Backed (step s l).now (step s l).db := by
  have hnow := now_le_step s l
  have hkept : ∀ child ∈ s.db.cas, child.revoked = true → ∃ crt ∈ child.crt,
      child.validTo = some crt.notAfter ∧ crt.signedBy ≠ ⟨crt.subject, crt.key⟩ ∧
        ((step s l).now ≤ crt.notAfter → ∃ r ∈ (step s l).db.records,
          Child s.db.cas r.caref crt.serial child ∧
            serialToInt r.serialNumber = some crt.serial) := by
    intro child hmem hrev
    obtain ⟨crt, hcrt, hends, hself, hrecord⟩ := h.backed child hmem hrev
    refine ⟨crt, hcrt, hends, hself, fun hlive => ?_⟩
    obtain ⟨r, hr, hchild, hserial⟩ := hrecord (hnow.trans hlive)
    obtain ⟨q, hq, hcaref, htext⟩ := h.child_record l hcrt (hnow.trans hlive) hr hchild hserial
    exact ⟨q, hq, hcaref ▸ hchild, htext ▸ hserial⟩
  by_cases hca : ∃ caId reason, l = .revokeCa caId reason
  · obtain ⟨caId, reason, rfl⟩ := hca
    generalize hs' : step s (.revokeCa caId reason) = s' at hkept ⊢
    have hstep := hs' ▸ step_steps s (.revokeCa caId reason)
    cases hstep with
    | idle => exact hkept
    | @revokeCa _ _ ca crt parent db hca hcrt hparent hdb =>
      obtain ⟨hmem, hid⟩ := find?_key hca
      obtain ⟨-, hissued, hself⟩ := issuingCa_spec h.cas hmem hcrt hparent
      have hmarks := marks_markRevoked crt reason s.now
      have hchild := child_issuingCa h.cas hca hcrt hparent
      have hcas := cas_revokeCa hca hcrt hparent hdb
      intro child' hchild' hrev
      simp only [hcas] at hchild' ⊢
      obtain ⟨q, hq, -, -, -, -, hqcrt, ⟨rfl, hne⟩ | ⟨rfl, hqid⟩⟩ := mem_setCa hmarks hchild'
      · obtain ⟨crt', hcrt', hends, hself', hrecord⟩ := hkept child' hq hrev
        refine ⟨crt', hcrt', hends, hself', fun hlive => ?_⟩
        obtain ⟨r, hr, hold, hserial⟩ := hrecord hlive
        have hnew : Child (s.db.setCa caId _).cas _ _ _ := child_setCa_of_child hmarks hold
        rw [decide_eq_false hne] at hnew
        exact ⟨r, hr, hnew, hserial⟩
      · have hqca : q = ca := eq_of_key h.cas.ids hq hmem (hqid.trans hid.symm)
        rw [hqca]
        refine ⟨crt, hcrt, rfl, hself, fun _ => ?_⟩
        rw [(revokeCa_eq hca hcrt hparent hdb).2]
        obtain ⟨r, hr, hcaref, htext⟩ := exists_putRecord
        have hnew : Child (s.db.setCa caId _).cas _ _ _ := child_setCa_of_child hmarks hchild
        rw [decide_eq_true hid] at hnew
        refine ⟨r, hr, hcaref ▸ hnew, ?_⟩
        rw [htext]
        exact (spells_decimal crt.serial).2
  · have hcas : (step s l).db.cas = s.db.cas :=
      cas_step fun caId reason heq => hca ⟨caId, reason, heq⟩
    rw [Backed, hcas]
    exact hkept

theorem wellFormed_step (h : Coherent s) : WellFormed (step s l).db.cas := by
  by_cases hca : ∃ caId reason, l = .revokeCa caId reason
  · obtain ⟨caId, reason, rfl⟩ := hca
    generalize hs' : step s (.revokeCa caId reason) = s'
    have hstep := hs' ▸ step_steps s (.revokeCa caId reason)
    cases hstep with
    | idle => exact h.cas
    | @revokeCa _ _ ca crt parent db hca hcrt hparent hdb =>
      obtain ⟨hmem, hid⟩ := find?_key hca
      simp only [cas_revokeCa hca hcrt hparent hdb]
      refine h.cas.setCa (marks_markRevoked crt reason s.now) fun q hq hqid c hc => ?_
      rw [eq_of_key h.cas.ids hq hmem (hqid.trans hid.symm)]
      refine ⟨crt, hcrt, ?_⟩
      rw [← Option.some.inj hc]
      exact spells_decimal crt.serial
  · rw [cas_step fun caId reason heq => hca ⟨caId, reason, heq⟩]
    exact h.cas

theorem Coherent.step (h : Coherent s) (hl : Orderly s l) : Coherent (step s l) :=
  ⟨tidy_step hl.readable h.tidy, wellFormed_step h, discerned_step h hl, clear_step h hl,
    backed_step h⟩

end Steps

theorem coherent_initial (now : ℕ) (hcas : WellFormed cas)
    (hrev : ∀ ca ∈ cas, ca.revoked = false) : Coherent (initial now cas) := by
  refine ⟨tidy_initial now cas, hcas, ?_, ?_, ?_⟩
  · intro a k hk
    have hca : ∀ {k}, k ∈ known cas [] a → ∃ ca ∈ cas, ∃ crt ∈ ca.crt,
        issuerOf cas a = some crt.signedBy ∧ crt.toStored = k := by
      intro k hk
      rcases mem_known.mp hk with ⟨f, hf, -⟩ | hca
      · cases hf
      · exact hca
    obtain ⟨ca, hmem, crt, hcrt, hissuer, rfl⟩ := hca hk
    refine ⟨hcas.range ca hmem crt hcrt, fun j hj hshares => ?_⟩
    obtain ⟨ca', hmem', crt', hcrt', hissuer', rfl⟩ := hca hj
    have hsigned : crt.signedBy = crt'.signedBy := Option.mem_unique hissuer hissuer'
    have hsame : ca = ca' := eq_of_key hcas.ids hmem hmem'
      (hcas.serials ca hmem crt hcrt ca' hmem' crt' hcrt' hsigned hshares)
    rw [hsame] at hcrt
    rw [Option.mem_unique hcrt hcrt']
  · constructor <;> simp [initial]
  · intro ca hmem hrevoked
    rw [hrev ca hmem] at hrevoked
    cases hrevoked

end UltimateCaManager.Revocation
