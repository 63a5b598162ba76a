import UltimateCaManager.CrlServer
import UltimateCaManager.RevocationTidy

/-!
# Base plus delta

A delta CRL lists what was revoked after the date of its base, by the instants that revocations
carry. A full CRL takes its date after it has read its rows, and a revocation takes its instant
before it commits, so that what a base misses is in its deltas only when every revocation that
commits after the rows were read carries an instant after the date of the base.
-/
namespace UltimateCaManager.Revocation

open List Runs Concurrency Tables

/-- The serials that are revoked for whoever applies a delta CRL to its base. -/
def applyDelta (base delta : Crl) : List ℕ :=
  ((base.entries.map CrlEntry.serial).filter fun n =>
      !delta.entries.any fun e => e.serial = n && e.reason = some .removeFromCRL) ++
    (delta.entries.filter fun e => e.reason ≠ some .removeFromCRL).map CrlEntry.serial

/-- Revoked, and not with a hold whose removal is staged. -/
def CertRow.standsRevoked (row : CertRow) : Bool :=
  row.revoked && row.revokeReason ≠ some .removeFromCRL

/-- On the certificates of the CA that have not ended, the delta CRL on its base says exactly which
ones were revoked in the tables that its rows were read from. -/
def DeltaRead.Exact (d : DeltaRead) : Prop :=
  ∀ ca, d.db.ca? d.crl.caId = some ca → ∀ row ∈ d.db.certificates,
    row.caref ∈ d.db.sameKeyRefids ca → notExpired row.validTo d.crl.thisUpdate = true →
      (row.crt.serial ∈ applyDelta d.base d.crl ↔ row.standsRevoked = true)

/-- The base that the delta CRL names is the stored one that it was generated on. -/
def DeltaRead.Names (d : DeltaRead) (crls : List Crl) : Prop :=
  d.base ∈ crls ∧ d.base.isDelta = false ∧ d.base.caId = d.crl.caId ∧
    d.crl.baseNumber = some d.base.number
  deriving Decidable

/-! ## The condition -/

/-- The certificate is still revoked, and if its removal is staged then after the date of the base. -/
def CertRow.Outlasts (base : Crl) (row : CertRow) : Prop :=
  row.revoked = true ∧ (row.revokeReason = some .removeFromCRL →
    ∃ t ∈ row.revokedAt, base.thisUpdate < t)
  deriving Decidable

def Task.Timely (s : Server) : Task → Prop
  -- every full CRL that has read its rows is dated before the instant of the revocation
  | .revokeCommit _ _ instant => ∀ d ∈ s.dates, ∃ date ∈ d, date < instant
  -- a removal is not staged under an instant before that of the revocation
  | .unholdStage id instant => ∀ row ∈ s.db.certificate? id, row.revoked = true →
      ∀ t ∈ row.revokedAt, t ≤ instant
  -- no hold that the base lists was lifted, nor staged before the date of the base
  | .deltaRows ca base instant => ∀ row ∈ s.db.certificates, row.caref ∈ s.db.sameKeyRefids ca →
      notExpired row.validTo instant = true → row.crt.serial ∈ base.entries.map CrlEntry.serial →
        row.Outlasts base
  -- no two full CRLs of the CA carry one number
  | .fullCommit ca _ number _ _ => ∀ crl ∈ s.db.crls, crl.caId = ca.id → crl.isDelta = false →
      crl.number ≠ number
  | _ => True

/-- The steps of revocations, holds and self-signed CRLs under which deltas are exact. -/
def Timely (w : World Server Task) : Concurrency.Label Request Unit Event → Prop
  | .event (.tick _) => True
  | .event (.configure _ autoDelete) => autoDelete = false
  | .event (.setKey ..) => False
  | .request _ (.upload ..) => False
  | .request .. => True
  | .advance i _ => ∀ t ∈ w.tasks i, t.Timely w.shared

instance (s : Server) (t : Task) : Decidable (t.Timely s) := by
  induction t using Task.casesOn <;> unfold Task.Timely <;> infer_instance

instance (w : World Server Task) (l : Concurrency.Label Request Unit Event) :
    Decidable (Timely w l) := by
  induction l using Concurrency.Label.casesOn with
  | event e => induction e using Event.casesOn <;> unfold Timely <;> infer_instance
  | request _ r => induction r using Request.casesOn <;> unfold Timely <;> infer_instance
  | advance i _ => exact inferInstanceAs (Decidable (∀ t ∈ w.tasks i, _))

/-- Tables before any revocation, with one certificate for each serial of an issuer. -/
structure Fresh (db : Db) : Prop where
  ids : (db.certificates.map CertRow.id).Nodup
  rows : ∀ row ∈ db.certificates, row.revoked = false
  range : ∀ row ∈ db.certificates, inRange row.crt.serial = true
  serials : ∀ ca ∈ db.cas, ∀ row ∈ db.certificates, ∀ q ∈ db.certificates,
    row.caref ∈ db.sameKeyRefids ca → q.caref ∈ db.sameKeyRefids ca →
      row.crt.serial = q.crt.serial → row.id = q.id
  cas : ∀ ca ∈ db.cas, ca.revoked = false
  records : db.records = []
  crls : db.crls = []

/-! ## Rows and records -/

/-- What a row says apart from its revocation. -/
def CertRow.plain (row : CertRow) : CertRow :=
  { row with revoked := false, revokedAt := none, revokeReason := none }

theorem plain_fields {row q : CertRow} (h : row.plain = q.plain) : row.id = q.id ∧
    row.caref = q.caref ∧ row.crt = q.crt ∧ row.serialNumber = q.serialNumber ∧
      row.validTo = q.validTo := by
  simpa [CertRow.plain] using h

def Record.key (r : Record) : ℕ × List Char := (r.caref, r.serialNumber)

/-- The row that the record was written for. -/
def Record.Speaks (r : Record) (row : CertRow) : Prop :=
  row.caref = r.caref ∧ row.serialNumber = r.serialNumber ∧ row.revoked = true ∧
    (∀ e ∈ row.validTo, e = r.validTo) ∧ ∃ t ∈ row.revokedAt, r.revokedAt ≤ t

/-- The tables differ from the first ones in revocations alone, and each record is that of a
revoked row. -/
structure Ledger (db₀ db : Db) : Prop where
  cas : db.cas = db₀.cas
  rows : db.certificates.map CertRow.plain = db₀.certificates.map CertRow.plain
  dated : ∀ row ∈ db.certificates, row.revoked = true → row.revokedAt.isSome = true
  recordIds : (db.records.map Record.id).Nodup
  counted : ∀ r ∈ db.records, r.id < db.recordIds
  keys : (db.records.map Record.key).Nodup
  owned : ∀ r ∈ db.records, (db.caByRefid? r.caref).isSome = true
  records : ∀ r ∈ db.records, ∃ row ∈ db.certificates, r.Speaks row

section Ledger

variable {db₀ db : Db} {row q : CertRow} {ca : CaRow} {id instant : ℕ}

theorem key_ne_of_none {r : Record} {caref : ℕ} {text : List Char}
    (h : db.record? caref text = none) (hr : r ∈ db.records) : r.key ≠ (caref, text) := by
  intro hsame
  have hnot := find?_eq_none.mp h r hr
  simp only [Record.key, Prod.mk.injEq] at hsame
  simp [hsame.1, hsame.2] at hnot

/-- A record of the table is one of another text, or the one that was written. -/
theorem mem_putRecord_key {r : Record} {caref validTo : ℕ} {text : List Char}
    {reason : Option Reason} {link : Option ℕ → Option ℕ} (hids : (db.records.map Record.id).Nodup)
    (hkeys : (db.records.map Record.key).Nodup)
    (h : r ∈ (db.putRecord caref text instant reason validTo link).records) :
    r ∈ db.records ∧ r.key ≠ (caref, text) ∨
      r.key = (caref, text) ∧ r.validTo = validTo ∧ r.revokedAt = instant := by
  unfold Db.putRecord at h
  split at h
  · next found hfound =>
    obtain ⟨hmem, hcaref, htext⟩ := record?_mem hfound
    have hkey : found.key = (caref, text) := by rw [Record.key, hcaref, htext]
    rcases mem_amend.mp h with ⟨hr, hne⟩ | ⟨q, hq, hid, rfl⟩
    · refine .inl ⟨hr, fun hsame => ?_⟩
      rw [eq_of_key hkeys hr hmem (hsame.trans hkey.symm)] at hne
      simp at hne
    · rw [eq_of_key hids hq hmem (by simpa using hid)]
      exact .inr ⟨hkey, rfl, rfl⟩
  · next hnone =>
    rcases mem_concat.mp h with hr | rfl
    · exact .inl ⟨hr, key_ne_of_none hnone hr⟩
    · exact .inr ⟨rfl, rfl, rfl⟩

theorem keys_putRecord {caref validTo : ℕ} {text : List Char} {reason : Option Reason}
    {link : Option ℕ → Option ℕ} (hkeys : (db.records.map Record.key).Nodup) :
    ((db.putRecord caref text instant reason validTo link).records.map Record.key).Nodup := by
  unfold Db.putRecord
  split
  · exact nodup_amend (fun _ => rfl) hkeys
  · next hnone =>
    exact nodup_concat hkeys fun q hq => key_ne_of_none hnone hq

theorem Record.Speaks.of_ne {r : Record} {f : CertRow → CertRow} (hrow : row ∈ db.certificates)
    (hspeaks : r.Speaks row) (hid : row.id ≠ id) :
    ∃ q ∈ (db.setCertificate id f).certificates, r.Speaks q :=
  ⟨row, mem_amend.mpr (.inl ⟨hrow, by simpa using hid⟩), hspeaks⟩

theorem mem_setCertificate_self {f : CertRow → CertRow} (hrow : row ∈ db.certificates)
    (hid : row.id = id) : f row ∈ (db.setCertificate id f).certificates :=
  mem_amend.mpr (.inr ⟨row, hrow, by simpa using hid, rfl⟩)

variable (h : Ledger db₀ db)

include h

theorem Ledger.from_first (hrow : row ∈ db.certificates) :
    ∃ q ∈ db₀.certificates, q.plain = row.plain := by
  have hmem : row.plain ∈ db₀.certificates.map CertRow.plain := h.rows ▸ mem_map_of_mem hrow
  exact mem_map.mp hmem

theorem Ledger.sameKeyRefids (ca : CaRow) :
    db.sameKeyRefids ca = db₀.sameKeyRefids ca := by
  simp [Db.sameKeyRefids, h.cas]

theorem Ledger.rows_set {f : CertRow → CertRow}
    (hf : ∀ row, (f row).plain = row.plain) :
    (db.setCertificate id f).certificates.map CertRow.plain =
      db₀.certificates.map CertRow.plain :=
  (map_amend hf _).trans h.rows

theorem Ledger.dated_set {f : CertRow → CertRow}
    (hf : ∀ row, (f row).revoked = true → (f row).revokedAt.isSome = true) :
    ∀ row ∈ (db.setCertificate id f).certificates,
      row.revoked = true → row.revokedAt.isSome = true :=
  forall_mem_amend h.dated fun row _ _ _ => hf row

theorem Ledger.filterRecords (p : Record → Bool) :
    Ledger db₀ { db with records := db.records.filter p } :=
  { h with
    recordIds := h.recordIds.sublist (filter_sublist.map _)
    counted := fun r hr => h.counted r (mem_of_mem_filter hr)
    keys := h.keys.sublist (filter_sublist.map _)
    owned := fun r hr => h.owned r (mem_of_mem_filter hr)
    records := fun r hr => h.records r (mem_of_mem_filter hr) }

/-- Housekeeping that deletes no certificate drops records at most. -/
theorem Ledger.runHousekeeping (purgeStale : Bool) (ca : CaRow) (now : ℕ) :
    Ledger db₀ (db.runHousekeeping purgeStale false ca now) := by
  unfold Db.runHousekeeping
  split
  · exact h.filterRecords _
  · exact h

theorem Ledger.addCrl (crl : Crl) : Ledger db₀ (db.addCrl crl) :=
  { h with }

variable (hfresh : Fresh db₀)

include hfresh

theorem Ledger.ids :
    (db.certificates.map CertRow.id).Nodup := by
  have hplain : ∀ rows : List CertRow, rows.map CertRow.id = (rows.map CertRow.plain).map CertRow.id :=
    fun rows => by rw [map_map]; rfl
  rw [hplain, h.rows, ← hplain]
  exact hfresh.ids

theorem Ledger.range (hrow : row ∈ db.certificates) :
    inRange row.crt.serial = true := by
  obtain ⟨q, hq, hplain⟩ := h.from_first hrow
  rw [← (plain_fields hplain).2.2.1]
  exact hfresh.range q hq

theorem Ledger.unique (hca : ca ∈ db.cas)
    (hrow : row ∈ db.certificates) (hq : q ∈ db.certificates)
    (hgroup : row.caref ∈ db.sameKeyRefids ca) (hgroup' : q.caref ∈ db.sameKeyRefids ca)
    (hserial : row.crt.serial = q.crt.serial) : row = q := by
  obtain ⟨row₀, hrow₀, hplain⟩ := h.from_first hrow
  obtain ⟨q₀, hq₀, hplain'⟩ := h.from_first hq
  rw [h.sameKeyRefids] at hgroup hgroup'
  obtain ⟨hid, hcaref, hcrt, -⟩ := plain_fields hplain
  obtain ⟨hid', hcaref', hcrt', -⟩ := plain_fields hplain'
  have hsame : row₀.id = q₀.id := hfresh.serials ca (h.cas ▸ hca) row₀ hrow₀ q₀ hq₀
    (hcaref ▸ hgroup) (hcaref' ▸ hgroup') (by rw [hcrt, hcrt', hserial])
  exact eq_of_key (h.ids hfresh) hrow hq (by omega)

theorem Ledger.revokeCertificate (reason : Reason) :
    Ledger db₀ (db.revokeCertificate id reason instant) := by
  unfold Db.revokeCertificate
  split
  · exact h
  · next row hrow =>
    obtain ⟨hmem, hid⟩ := certificate?_mem hrow
    set marked := db.setCertificate id fun row => { row with
      revoked := true, revokedAt := some instant, revokeReason := some reason }
    have hrows : marked.certificates.map CertRow.plain = _ := h.rows_set fun _ => by rfl
    have hdated : ∀ q ∈ marked.certificates, q.revoked = true → _ := h.dated_set fun _ _ => rfl
    -- the records of other texts belong to rows that were not touched
    have hothers : ∀ r ∈ db.records, r.key ≠ (row.caref, row.serialNumber) →
        ∃ q ∈ marked.certificates, r.Speaks q := by
      intro r hr hne
      obtain ⟨q, hq, hspeaks⟩ := h.records r hr
      refine hspeaks.of_ne hq fun hqid => hne ?_
      have hqrow : q = row := eq_of_key (h.ids hfresh) hq hmem (hqid.trans hid.symm)
      rw [Record.key, ← hspeaks.1, ← hspeaks.2.1, hqrow]
    split
    · next hca =>
      have hids : (marked.records.map Record.id).Nodup := h.recordIds
      have hkeys : (marked.records.map Record.key).Nodup := h.keys
      obtain ⟨hids', hcounted⟩ := recordIds_putRecord hids h.counted
      refine ⟨cas_putRecord.trans h.cas, ?_, ?_, hids', hcounted, keys_putRecord hkeys, ?_, ?_⟩
      · rw [certificates_putRecord]
        exact hrows
      · rw [certificates_putRecord]
        exact hdated
      · intro r hr
        rw [Db.caByRefid?, cas_putRecord]
        rcases mem_putRecord_key hids hkeys hr with ⟨hr, -⟩ | ⟨hkey, -, -⟩
        · exact h.owned r hr
        · have hcaref : r.caref = row.caref := congrArg Prod.fst hkey
          rw [hcaref]
          exact hca
      · intro r hr
        rw [certificates_putRecord]
        rcases mem_putRecord_key hids hkeys hr with ⟨hr, hne⟩ | ⟨hkey, hends, hdate⟩
        · exact hothers r hr hne
        · simp only [Record.key, Prod.mk.injEq] at hkey
          refine ⟨_, mem_setCertificate_self hmem hid, hkey.1.symm, hkey.2.symm, rfl, ?_, instant,
            rfl, hdate.le⟩
          intro e he
          rw [hends, Option.mem_def.mp he, Option.getD_some]
    · next hca =>
      refine { h with rows := hrows, dated := hdated, records := fun r hr => ?_ }
      refine hothers r hr fun hkey => hca ?_
      have hcaref : r.caref = row.caref := congrArg Prod.fst hkey
      rw [← hcaref]
      exact h.owned r hr

theorem Ledger.stageUnhold
    (hguard : ∀ row ∈ db.certificate? id, row.revoked = true → ∀ t ∈ row.revokedAt, t ≤ instant) :
    Ledger db₀ (db.stageUnhold id instant) := by
  refine { h with
    rows := h.rows_set fun _ => by rfl
    dated := h.dated_set fun _ _ => rfl
    records := fun r hr => ?_ }
  obtain ⟨row, hrow, hspeaks⟩ := h.records r hr
  by_cases hid : row.id = id
  · obtain ⟨hcaref, htext, hrev, hends, t, ht, hle⟩ := hspeaks
    have hfind : db.certificate? id = some row := hid ▸ find?_of_mem (h.ids hfresh) hrow
    exact ⟨_, mem_setCertificate_self hrow hid, hcaref, htext, hrev, hends, instant, rfl,
      hle.trans (hguard row hfind hrev t ht)⟩
  · exact hspeaks.of_ne hrow hid

theorem Ledger.liftHold : Ledger db₀ (db.liftHold id) := by
  unfold Db.liftHold
  split
  · exact h
  · next row hrow =>
    obtain ⟨hmem, hid⟩ := certificate?_mem hrow
    refine { h.filterRecords _ with
      rows := h.rows_set fun _ => by rfl
      dated := h.dated_set nofun
      records := fun r hr => ?_ }
    obtain ⟨hr, hkept⟩ := mem_filter.mp hr
    obtain ⟨q, hq, hspeaks⟩ := h.records r hr
    refine hspeaks.of_ne hq fun hqid => ?_
    rw [← eq_of_key (h.ids hfresh) hq hmem (hqid.trans hid.symm), hspeaks.1, hspeaks.2.1] at hkept
    simp at hkept

end Ledger

/-! ## What the CRLs list -/

/-- The serials hold every certificate of the CA that is revoked and has not ended. -/
def Enumerates (db : Db) (ca : CaRow) (instant : ℕ) (serials : List ℕ) : Prop :=
  ∀ row ∈ db.certificates, row.caref ∈ db.sameKeyRefids ca → row.revoked = true →
    notExpired row.validTo instant = true → row.crt.serial ∈ serials

/-- As above, but for revocations with an instant after the date. -/
def Covers (db : Db) (ca : CaRow) (date : ℕ) (serials : List ℕ) : Prop :=
  ∀ row ∈ db.certificates, row.caref ∈ db.sameKeyRefids ca → row.revoked = true →
    notExpired row.validTo date = true → row.crt.serial ∈ serials ∨ ∀ t ∈ row.revokedAt, date < t

section Lists

variable {db₀ db : Db} {ca : CaRow} {instant date since : ℕ} {serials : List ℕ} {rows : List Listed}

theorem notExpired_of_le {validTo : Option ℕ} (h : notExpired validTo date = true)
    (hle : instant ≤ date) : notExpired validTo instant = true := by
  cases validTo with
  | none => rfl
  | some e =>
    have hlt : date < e := by simpa [notExpired] using h
    have hlt' : instant < e := by omega
    simpa [notExpired] using hlt'

theorem Enumerates.covers (h : Enumerates db ca instant serials) (hle : instant ≤ date) :
    Covers db ca date serials :=
  fun row hrow hgroup hrev hends => .inl (h row hrow hgroup hrev (notExpired_of_le hends hle))

theorem enumerates_getRevokedCertificates (db : Db) (ca : CaRow) (instant : ℕ) :
    Enumerates db ca instant ((db.getRevokedCertificates ca instant).filterMap Listed.serial) := by
  intro row hrow hgroup hrev hends
  unfold Db.getRevokedCertificates Db.listAll
  simp only [filterMap_append]
  refine mem_append_left _ ?_
  generalize hlive : ((db.certificates.filter fun row => row.caref ∈ db.sameKeyRefids ca &&
    row.revoked && notExpired row.validTo instant).map CertRow.listed ++
      (db.cas.filter fun child => child.caref = some ca.refid && child.revoked &&
        notExpired child.validTo instant).map CaRow.listed) = live
  have hmem : row.listed ∈ live := by
    rw [← hlive]
    exact mem_append_left _ (mem_map_of_mem
      (mem_filter.mpr ⟨hrow, by simp [hgroup, hrev, hends]⟩))
  have hfound : ((dedupeLive [] [] live).find? fun l => l.serial = some row.crt.serial).isSome := by
    rw [find?_dedupeLive, if_neg (by simp), find?_isSome]
    exact ⟨row.listed, hmem, by simp [CertRow.listed]⟩
  obtain ⟨l, hl⟩ := Option.isSome_iff_exists.mp hfound
  exact mem_filterMap.mpr ⟨l, mem_of_find?_eq_some hl, by simpa using find?_some hl⟩

theorem serial_mem_crlEntries {n : ℕ} (isDelta : Bool) (now : ℕ)
    (h : n ∈ rows.filterMap Listed.serial) (hn : inRange n = true) :
    n ∈ (crlEntries isDelta now rows).map CrlEntry.serial := by
  obtain ⟨l, hl, hserial⟩ := mem_filterMap.mp h
  refine mem_map.mpr ⟨⟨n, l.revokedAt.getD now, crlReason isDelta l.reason⟩, ?_, rfl⟩
  exact mem_filterMap.mpr ⟨l, hl, by simp [Listed.entry, hserial, hn]⟩

/-- Revoked after `since`, and not ended. -/
def CertRow.RevokedSince (db : Db) (ca : CaRow) (since instant : ℕ) (row : CertRow) : Bool :=
  row.caref ∈ db.sameKeyRefids ca && row.revoked && notExpired row.validTo instant &&
    row.revokedAt.any (since < ·)

/-- Every record that a delta CRL could list is that of a row that it lists. -/
theorem Ledger.getRevokedSince_eq (h : Ledger db₀ db) (hfresh : Fresh db₀) (hca : ca ∈ db.cas) :
    db.getRevokedSince ca since instant =
      (db.certificates.filter (CertRow.RevokedSince db ca since instant)).map CertRow.listed := by
  have hchildren : (db.cas.filter fun child => child.caref = some ca.refid && child.revoked &&
      child.revokedAt.any (since < ·) && notExpired child.validTo instant) = [] := by
    refine filter_eq_nil_iff.mpr fun child hchild => ?_
    simp [hfresh.cas child (h.cas ▸ hchild)]
  set live := (db.certificates.filter (CertRow.RevokedSince db ca since instant)).map CertRow.listed
  have hlive : dedupeLive [] [] live = live := by
    refine dedupeLive_eq_self (fun l hl => ?_) (pairwise_map.mpr ?_)
    · obtain ⟨row, -, rfl⟩ := mem_map.mp hl
      exact ⟨row.crt.serial, rfl, by simp⟩
    · have hnodup := (List.Nodup.of_map _ (h.ids hfresh)).filter
        (CertRow.RevokedSince db ca since instant)
      refine hnodup.imp_of_mem fun {row q} hrow hq hne hserial => hne ?_
      obtain ⟨hrow, hpred⟩ := mem_filter.mp hrow
      obtain ⟨hq, hpred'⟩ := mem_filter.mp hq
      simp only [CertRow.RevokedSince, Bool.and_eq_true, decide_eq_true_eq] at hpred hpred'
      exact h.unique hfresh hca hrow hq hpred.1.1.1 hpred'.1.1.1 (Option.some.inj hserial)
  unfold Db.getRevokedSince
  simp only [hchildren, map_nil, append_nil]
  have horphans : ∀ r ∈ db.recordsByDate.filter (fun r => r.caref ∈ db.sameKeyRefids ca &&
      since < r.revokedAt && instant < r.validTo),
        r.serialNumber ∈ live.filterMap Listed.column := by
    intro r hr
    obtain ⟨hr, hpred⟩ := mem_filter.mp hr
    simp only [Bool.and_eq_true, decide_eq_true_eq] at hpred
    obtain ⟨⟨hgroup, hsince⟩, hends⟩ := hpred
    obtain ⟨row, hrow, hcaref, htext, hrev, hvalid, t, ht, hle⟩ :=
      h.records r ((mem_insertionSort _).mp hr)
    have hlive : notExpired row.validTo instant = true := by
      cases hv : row.validTo with
      | none => rfl
      | some e =>
        rw [hvalid e hv]
        simpa [notExpired] using hends
    refine mem_filterMap.mpr ⟨row.listed, mem_map_of_mem (mem_filter.mpr ⟨hrow, ?_⟩),
      by rw [CertRow.listed, htext]⟩
    have hlt : since < t := by omega
    simp [CertRow.RevokedSince, hcaref, hgroup, hrev, hlive, Option.mem_def.mp ht, hlt]
  change db.listAll live _ = live
  simp only [Db.listAll, hlive]
  rw [filterOrphanSerials_eq_nil _ _ horphans, map_nil, append_nil]

/-- The entries of a delta CRL are those of the rows revoked since its base. -/
theorem Ledger.mem_deltaEntries (h : Ledger db₀ db) (hfresh : Fresh db₀) (hca : ca ∈ db.cas)
    {n : ℕ} {reason : Option Reason} :
    (∃ e ∈ crlEntries true instant (db.getRevokedSince ca since instant),
        e.serial = n ∧ e.reason = reason) ↔
      ∃ row ∈ db.certificates, row.RevokedSince db ca since instant = true ∧ row.crt.serial = n ∧
        crlReason true row.revokeReason = reason := by
  rw [h.getRevokedSince_eq hfresh hca]
  constructor
  · rintro ⟨e, he, hserial, hreason⟩
    obtain ⟨l, hl, hentry⟩ := mem_filterMap.mp he
    obtain ⟨row, hrow, rfl⟩ := mem_map.mp hl
    obtain ⟨hrow, hsince⟩ := mem_filter.mp hrow
    simp only [Listed.entry, CertRow.listed, Option.bind_eq_bind, Option.bind_some,
      h.range hfresh hrow, if_true, Option.some.injEq] at hentry
    subst hentry
    exact ⟨row, hrow, hsince, hserial, hreason⟩
  · rintro ⟨row, hrow, hsince, hserial, hreason⟩
    refine ⟨⟨row.crt.serial, row.revokedAt.getD instant, crlReason true row.revokeReason⟩, ?_,
      hserial, hreason⟩
    refine mem_filterMap.mpr ⟨row.listed,
      mem_map_of_mem (mem_filter.mpr ⟨hrow, hsince⟩), ?_⟩
    simp [Listed.entry, CertRow.listed, h.range hfresh hrow]

theorem crlReason_remove {reason : Option Reason} :
    crlReason true reason = some .removeFromCRL ↔ reason = some .removeFromCRL := by
  rcases reason with _ | reason
  · simp [crlReason]
  · cases reason <;> simp [crlReason]

theorem mem_applyDelta {base delta : Crl} {n : ℕ} : n ∈ applyDelta base delta ↔
    (n ∈ base.entries.map CrlEntry.serial ∧
        ¬ ∃ e ∈ delta.entries, e.serial = n ∧ e.reason = some .removeFromCRL) ∨
      ∃ e ∈ delta.entries, e.serial = n ∧ e.reason ≠ some .removeFromCRL := by
  simp only [applyDelta, mem_append, mem_filter, mem_map, Bool.not_eq_eq_eq_not,
    Bool.not_true, any_eq_false, Bool.and_eq_true, decide_eq_true_eq,
    not_exists, not_and]
  exact or_congr Iff.rfl (exists_congr fun e => and_right_comm.trans and_assoc)

/-- A delta CRL is exact when its base lists what carries no later instant, and what the base lists
was not lifted without a trace. -/
theorem Ledger.exact (h : Ledger db₀ db) (hfresh : Fresh db₀) (hca : db.ca? ca.id = some ca)
    {base : Crl} (hcovers : Covers db ca base.thisUpdate (base.entries.map CrlEntry.serial))
    (hle : base.thisUpdate ≤ instant)
    (hkept : ∀ row ∈ db.certificates, row.caref ∈ db.sameKeyRefids ca →
      notExpired row.validTo instant = true →
        row.crt.serial ∈ base.entries.map CrlEntry.serial → row.Outlasts base) (number : ℕ) :
    DeltaRead.Exact ⟨⟨ca.id, number, instant, true, some base.number, false,
      crlEntries true instant (db.getRevokedSince ca base.thisUpdate instant)⟩, base, db⟩ := by
  intro ca' hca' row hrow hgroup hends
  obtain rfl : ca = ca' := Option.mem_unique hca hca'
  obtain ⟨hmem, -⟩ := find?_key hca
  have hentries : ∀ {n : ℕ} {reason : Option Reason},
      (∃ e ∈ crlEntries true instant (db.getRevokedSince ca base.thisUpdate instant),
        e.serial = n ∧ e.reason = reason) ↔ _ := h.mem_deltaEntries hfresh hmem
  -- the entries of the serial are those of the row
  have hown : ∀ q ∈ db.certificates, q.RevokedSince db ca base.thisUpdate instant = true →
      q.crt.serial = row.crt.serial → q = row := by
    intro q hq hsince hserial
    simp only [CertRow.RevokedSince, Bool.and_eq_true, decide_eq_true_eq] at hsince
    exact h.unique hfresh hmem hq hrow hsince.1.1.1 hgroup hserial
  have hin : ∀ t ∈ row.revokedAt, row.revoked = true → base.thisUpdate < t →
      row.RevokedSince db ca base.thisUpdate instant = true := by
    intro t ht hrev hlt
    simp [CertRow.RevokedSince, hgroup, hrev, hends, Option.mem_def.mp ht, hlt]
  rw [mem_applyDelta]
  simp only [CertRow.standsRevoked, Bool.and_eq_true, decide_eq_true_eq]
  constructor
  · rintro (⟨hbase, hnot⟩ | ⟨e, he, hserial, hreason⟩)
    · obtain ⟨hrev, hstaged⟩ := hkept row hrow hgroup hends hbase
      refine ⟨hrev, fun hremove => hnot (hentries.mpr ?_)⟩
      obtain ⟨t, ht, hlt⟩ := hstaged hremove
      exact ⟨row, hrow, hin t ht hrev hlt, rfl, crlReason_remove.mpr hremove⟩
    · obtain ⟨q, hq, hsince, hqserial, hqreason⟩ := hentries.mp ⟨e, he, hserial, rfl⟩
      have hqrow := hown q hq hsince hqserial
      rw [hqrow] at hsince hqreason
      simp only [CertRow.RevokedSince, Bool.and_eq_true] at hsince
      exact ⟨hsince.1.1.2, fun hremove => hreason (hqreason ▸ crlReason_remove.mpr hremove)⟩
  · rintro ⟨hrev, hstands⟩
    obtain ⟨t, ht⟩ := Option.isSome_iff_exists.mp (h.dated row hrow hrev)
    by_cases hlt : base.thisUpdate < t
    · obtain ⟨e, he, hserial, hreason⟩ := hentries.mpr ⟨row, hrow, hin t ht hrev hlt, rfl, rfl⟩
      exact .inr ⟨e, he, hserial, hreason ▸ mt crlReason_remove.mp hstands⟩
    · have hbase := (hcovers row hrow hgroup hrev (notExpired_of_le hends hle)).resolve_right
        fun hlater => hlt (hlater t ht)
      refine .inl ⟨hbase, fun hremoved => ?_⟩
      obtain ⟨q, hq, hsince, hqserial, -⟩ := hentries.mp hremoved
      rw [hown q hq hsince hqserial] at hsince
      simp only [CertRow.RevokedSince, Bool.and_eq_true, ht, Option.any_some,
        decide_eq_true_eq] at hsince
      exact hlt hsince.2

end Lists

/-! ## Requests in flight -/

/-- The place of the date of a full CRL that has read its rows and is not dated yet. -/
def Task.slot : Task → Option ℕ
  | .fullNumber _ _ slot => some slot
  | .fullDate _ _ slot _ _ => some slot
  | _ => none

def Base (s : Server) (ca : CaRow) (base : Crl) : Prop :=
  base ∈ s.db.crls ∧ base.isDelta = false ∧ base.caId = ca.id

/-- The delta CRL that was generated from the rows is exact, whatever its number. -/
def ExactRows (ca : CaRow) (base : Crl) (instant : ℕ) (rows : List Listed) (db : Db) : Prop :=
  db.ca? ca.id = some ca ∧ ∀ number, DeltaRead.Exact ⟨⟨ca.id, number, instant, true, some base.number, false,
    crlEntries true instant rows⟩, base, db⟩

def Task.Kept (s : Server) : Task → Prop
  | .fullHousekeeping ca | .fullClock ca | .deltaBase ca => s.db.ca? ca.id = some ca
  | .fullRows ca instant => s.db.ca? ca.id = some ca ∧ instant ≤ s.now
  | .fullNumber ca rows slot | .fullDate ca rows slot _ _ => s.db.ca? ca.id = some ca ∧
      s.dates[slot]? = some none ∧
        ∃ instant ≤ s.now, Enumerates s.db ca instant (rows.filterMap Listed.serial)
  | .fullCommit ca rows _ _ date => s.db.ca? ca.id = some ca ∧ some date ∈ s.dates ∧
      date ≤ s.now ∧ Covers s.db ca date (rows.filterMap Listed.serial)
  | .deltaClock ca base => s.db.ca? ca.id = some ca ∧ Base s ca base
  | .deltaRows ca base instant => s.db.ca? ca.id = some ca ∧ Base s ca base ∧
      base.thisUpdate ≤ instant
  | .deltaNumber ca base instant rows db | .deltaCommit ca base instant rows db _ _ =>
    Base s ca base ∧ ExactRows ca base instant rows db
  | .uploadLatest .. | .uploadCommit .. => False
  | .revokeClock .. | .revokeCommit .. | .unholdClock _ | .unholdStage .. | .unholdLift _ => True

def Task.Apart (t u : Task) : Prop := ∀ a ∈ t.slot, ∀ b ∈ u.slot, a ≠ b

structure Recorded (db₀ : Db) (s : Server) : Prop where
  settings : s.autoDelete = false
  ledger : Ledger db₀ s.db
  fulls : ∀ crl ∈ s.db.crls, crl.isDelta = false → some crl.thisUpdate ∈ s.dates ∧
    crl.thisUpdate ≤ s.now ∧ ∀ ca, s.db.ca? crl.caId = some ca →
      Covers s.db ca crl.thisUpdate (crl.entries.map CrlEntry.serial)
  named : ∀ a ∈ s.db.crls, ∀ b ∈ s.db.crls, a.isDelta = false → b.isDelta = false →
    a.caId = b.caId → a.number = b.number → a = b
  deltas : ∀ d ∈ s.deltas, d.Names s.db.crls ∧ (d.db.ca? d.crl.caId).isSome = true ∧ d.Exact
  stored : ∀ crl ∈ s.db.crls, crl.isDelta = true → ∃ d ∈ s.deltas, d.crl = crl

/-- What no step of another request takes away. -/
structure Evolves (s s' : Server) : Prop where
  cas : s'.db.cas = s.db.cas
  now : s.now ≤ s'.now
  crls : s.db.crls ⊆ s'.db.crls
  dates : ∀ d, some d ∈ s.dates → some d ∈ s'.dates
  covers : ∀ ca d serials, some d ∈ s.dates → Covers s.db ca d serials → Covers s'.db ca d serials

/-- A full CRL that waits for its date keeps its place, and its rows stay complete. -/
def KeepsOpen (s s' : Server) (slot : ℕ) : Prop :=
  s.dates[slot]? = some none → s'.dates[slot]? = some none ∧
    ∀ ca instant serials, Enumerates s.db ca instant serials → Enumerates s'.db ca instant serials

section Evolves

variable {db₀ db db' : Db} {s s' : Server} {t : Task}

theorem Evolves.ca? (h : Evolves s s') (caId : ℕ) : s'.db.ca? caId = s.db.ca? caId := by
  rw [Db.ca?, h.cas]
  rfl

theorem Task.Kept.mono (h : Evolves s s') (hopen : ∀ b ∈ t.slot, KeepsOpen s s' b)
    (ht : t.Kept s) : t.Kept s' := by
  have hbase : ∀ {ca base}, Base s ca base → Base s' ca base :=
    fun hb => ⟨h.crls hb.1, hb.2⟩
  cases t with
  | fullHousekeeping | fullClock | deltaBase => exact (h.ca? _).trans ht
  | fullRows ca instant => exact ⟨(h.ca? _).trans ht.1, ht.2.trans h.now⟩
  | fullNumber | fullDate =>
    obtain ⟨hca, hslot, instant, hle, hrows⟩ := ht
    obtain ⟨hslot', hkeep⟩ := hopen _ rfl hslot
    exact ⟨(h.ca? _).trans hca, hslot', instant, hle.trans h.now, hkeep _ _ _ hrows⟩
  | fullCommit ca rows number seen date =>
    obtain ⟨hca, hdate, hle, hrows⟩ := ht
    exact ⟨(h.ca? _).trans hca, h.dates _ hdate, hle.trans h.now, h.covers _ _ _ hdate hrows⟩
  | deltaClock ca base => exact ⟨(h.ca? _).trans ht.1, hbase ht.2⟩
  | deltaRows ca base instant => exact ⟨(h.ca? _).trans ht.1, hbase ht.2.1, ht.2.2⟩
  | deltaNumber | deltaCommit => exact ⟨hbase ht.1, ht.2⟩
  | uploadLatest | uploadCommit => exact ht
  | revokeClock | revokeCommit | unholdClock | unholdStage | unholdLift => trivial

theorem Recorded.mono (h : Recorded db₀ s) (hev : Evolves s s') (hset : s'.autoDelete = false)
    (hledger : Ledger db₀ s'.db) (hcrls : s'.db.crls = s.db.crls) (hdeltas : s'.deltas = s.deltas) :
    Recorded db₀ s' := by
  refine ⟨hset, hledger, ?_, hcrls ▸ h.named, hcrls ▸ hdeltas ▸ h.deltas,
    hcrls ▸ hdeltas ▸ h.stored⟩
  rw [hcrls]
  intro crl hcrl hfull
  obtain ⟨hdate, hle, hcovers⟩ := h.fulls crl hcrl hfull
  refine ⟨hev.dates _ hdate, hle.trans hev.now, fun ca hca => ?_⟩
  exact hev.covers _ _ _ hdate (hcovers ca (hev.ca? _ ▸ hca))

/-- Every revoked row was revoked before, under no later instant. -/
def Fades (db db' : Db) : Prop :=
  ∀ row' ∈ db'.certificates, row'.revoked = true → ∃ row ∈ db.certificates, row.revoked = true ∧
    row.plain = row'.plain ∧ ∀ t' ∈ row'.revokedAt, ∃ t ∈ row.revokedAt, t ≤ t'

theorem Fades.of_subset (h : ∀ row ∈ db'.certificates, row ∈ db.certificates) : Fades db db' :=
  fun row hrow hrev => ⟨row, h row hrow, hrev, rfl, fun t ht => ⟨t, ht, Nat.le_refl t⟩⟩

theorem Fades.refl (db : Db) : Fades db db := .of_subset fun _ h => h

/-- What the lists of a CA ask of a row depends on the rest of it. -/
theorem plain_listed {ca : CaRow} {row row' : CertRow} {date : ℕ} (hcas : db'.cas = db.cas)
    (hplain : row.plain = row'.plain) (hgroup : row'.caref ∈ db'.sameKeyRefids ca)
    (hends : notExpired row'.validTo date = true) :
    row.caref ∈ db.sameKeyRefids ca ∧ notExpired row.validTo date = true ∧ row.crt = row'.crt := by
  obtain ⟨-, hcaref, hcrt, -, hvalid⟩ := plain_fields hplain
  have hrefids : db'.sameKeyRefids ca = db.sameKeyRefids ca := by
    simp [Db.sameKeyRefids, hcas]
  exact ⟨hcaref ▸ hrefids ▸ hgroup, hvalid ▸ hends, hcrt⟩

/-- Rows that are not old ones carry an instant after the date. -/
theorem Covers.of_rows {ca : CaRow} {date : ℕ} {serials : List ℕ} (h : Covers db ca date serials)
    (hcas : db'.cas = db.cas) (hrows : ∀ row' ∈ db'.certificates, row'.revoked = true →
      (∃ row ∈ db.certificates, row.revoked = true ∧ row.plain = row'.plain ∧
        ∀ t' ∈ row'.revokedAt, ∃ t ∈ row.revokedAt, t ≤ t') ∨ ∀ t ∈ row'.revokedAt, date < t) :
    Covers db' ca date serials := by
  intro row' hrow' hgroup hrev hends
  rcases hrows row' hrow' hrev with ⟨row, hrow, hrev, hplain, hlater⟩ | hlater
  · obtain ⟨hgroup, hends, hcrt⟩ := plain_listed hcas hplain hgroup hends
    rw [← hcrt]
    rcases h row hrow hgroup hrev hends with hlisted | hlt
    · exact .inl hlisted
    · refine .inr fun t' ht' => ?_
      obtain ⟨t, ht, hle⟩ := hlater t' ht'
      have hdate := hlt t ht
      omega
  · exact .inr hlater

theorem Enumerates.fades {ca : CaRow} {instant : ℕ} {serials : List ℕ}
    (h : Enumerates db ca instant serials) (hcas : db'.cas = db.cas) (hfades : Fades db db') :
    Enumerates db' ca instant serials := by
  intro row' hrow' hgroup hrev hends
  obtain ⟨row, hrow, hrev, hplain, -⟩ := hfades row' hrow' hrev
  obtain ⟨hgroup, hends, hcrt⟩ := plain_listed hcas hplain hgroup hends
  rw [← hcrt]
  exact h row hrow hgroup hrev hends

theorem Evolves.of_fades (hcas : s'.db.cas = s.db.cas) (hfades : Fades s.db s'.db)
    (hnow : s.now ≤ s'.now) (hcrls : s.db.crls ⊆ s'.db.crls)
    (hdates : ∀ d, some d ∈ s.dates → some d ∈ s'.dates) : Evolves s s' :=
  ⟨hcas, hnow, hcrls, hdates, fun _ _ _ _ hcovers =>
    hcovers.of_rows hcas fun row hrow hrev => .inl (hfades row hrow hrev)⟩

theorem keepsOpen_of_fades {slot : ℕ} (hcas : s'.db.cas = s.db.cas) (hfades : Fades s.db s'.db)
    (hslot : s.dates[slot]? = some none → s'.dates[slot]? = some none) : KeepsOpen s s' slot :=
  fun hopen => ⟨hslot hopen, fun _ _ _ henum => henum.fades hcas hfades⟩

theorem Evolves.refl (s : Server) : Evolves s s :=
  .of_fades rfl (.refl _) (Nat.le_refl _) (fun _ h => h) fun _ h => h

theorem KeepsOpen.refl (s : Server) (slot : ℕ) : KeepsOpen s s slot :=
  keepsOpen_of_fades rfl (.refl _) fun h => h

end Evolves

section Rows

variable {db : Db} {row : CertRow} {id instant : ℕ}

theorem mem_revokeCertificate {reason : Reason}
    (h : row ∈ (db.revokeCertificate id reason instant).certificates) :
    row ∈ db.certificates ∨ row.revokedAt = some instant := by
  cases hheld : db.certificate? id with
  | none =>
    simp only [Db.revokeCertificate, hheld] at h
    exact .inl h
  | some held =>
    rw [certificates_revokeCertificate reason hheld] at h
    rcases mem_setCertificate h with ⟨hrow, -⟩ | ⟨q, -, -, rfl⟩
    · exact .inl hrow
    · exact .inr rfl

theorem fades_stageUnhold (hids : (db.certificates.map CertRow.id).Nodup)
    (hdated : ∀ row ∈ db.certificates, row.revoked = true → row.revokedAt.isSome = true)
    (hguard : ∀ row ∈ db.certificate? id, row.revoked = true → ∀ t ∈ row.revokedAt, t ≤ instant) :
    Fades db (db.stageUnhold id instant) := by
  intro row' hrow' hrev
  rcases mem_setCertificate hrow' with ⟨hrow, -⟩ | ⟨row, hrow, hid, rfl⟩
  · exact Fades.refl db row' hrow hrev
  · refine ⟨row, hrow, hrev, rfl, fun t' ht' => ?_⟩
    obtain ⟨t, ht⟩ := Option.isSome_iff_exists.mp (hdated row hrow hrev)
    have hfind : db.certificate? id = some row := hid ▸ find?_of_mem hids hrow
    obtain rfl : instant = t' := Option.some.inj ht'
    exact ⟨t, ht, hguard row hfind hrev t ht⟩

theorem fades_liftHold (db : Db) (id : ℕ) : Fades db (db.liftHold id) := by
  unfold Db.liftHold
  split
  · exact .refl db
  · intro row' hrow' hrev
    rcases mem_setCertificate hrow' with ⟨hrow, -⟩ | ⟨row, -, -, rfl⟩
    · exact Fades.refl db row' hrow hrev
    · cases hrev

end Rows

/-! ## Every run -/

/-- What a step of the task brings about. -/
structure Moves (db₀ : Db) (s : Server) (t : Task) (s' : Server) (t' : Option Task) : Prop where
  recorded : Recorded db₀ s'
  evolves : Evolves s s'
  next : ∀ v ∈ t', v.Kept s' ∧ ∀ a ∈ v.slot, t.slot = some a ∨ a = s.dates.length
  opens : ∀ b, t.slot ≠ some b → KeepsOpen s s' b

section Moves

variable {db₀ : Db} {s s' : Server} {t : Task} {t' : Option Task}

theorem Moves.read (h : Recorded db₀ s)
    (hnext : ∀ v ∈ t', v.Kept s ∧ ∀ a ∈ v.slot, t.slot = some a) : Moves db₀ s t s t' :=
  ⟨h, .refl s, fun v hv => ⟨(hnext v hv).1, fun a ha => .inl ((hnext v hv).2 a ha)⟩,
    fun b _ => .refl s b⟩

theorem Moves.goesOn (h : Recorded db₀ s) {v : Task} (hv : v.Kept s)
    (hslot : ∀ a ∈ v.slot, t.slot = some a := by simp [Task.slot]) : Moves db₀ s t s (some v) :=
  .read h fun _ hnext => Option.some.inj hnext ▸ ⟨hv, hslot⟩

theorem Moves.fades (h : Recorded db₀ s) {db : Db} (hcas : db.cas = s.db.cas)
    (hfades : Fades s.db db) (hcrls : db.crls = s.db.crls) (hledger : Ledger db₀ db)
    (hnext : ∀ v ∈ t', v.Kept { s with db := db } ∧ v.slot = none) :
    Moves db₀ s t { s with db := db } t' := by
  have hev : Evolves s { s with db := db } :=
    .of_fades hcas hfades (Nat.le_refl _) (by rw [hcrls]; exact fun _ h => h) fun _ h => h
  refine ⟨h.mono hev h.settings hledger hcrls rfl, hev, fun v hv => ?_, fun b _ => ?_⟩
  · obtain ⟨hkept, hslot⟩ := hnext v hv
    exact ⟨hkept, by simp [hslot]⟩
  · exact keepsOpen_of_fades hcas hfades fun h => h

theorem moves_revokeCommit (h : Recorded db₀ s) (hfresh : Fresh db₀) {id instant : ℕ}
    {reason : Reason} (hguard : ∀ d ∈ s.dates, ∃ date ∈ d, date < instant) :
    Moves db₀ s t { s with db := s.db.revokeCertificate id reason instant } none := by
  have hcas : (s.db.revokeCertificate id reason instant).cas = s.db.cas :=
    cas_revokeCertificate reason
  have hcrls : (s.db.revokeCertificate id reason instant).crls = s.db.crls :=
    crls_revokeCertificate reason
  have hev : Evolves s { s with db := s.db.revokeCertificate id reason instant } := by
    refine ⟨hcas, Nat.le_refl _, ?_, fun _ h => h, fun ca d serials hd hcovers => ?_⟩
    · rw [hcrls]
      exact fun _ h => h
    · refine hcovers.of_rows hcas fun row hrow hrev => ?_
      rcases mem_revokeCertificate hrow with hold | hnew
      · exact .inl (Fades.refl s.db row hold hrev)
      · -- the date of every CRL that may miss the row is before its instant
        refine .inr fun t ht => ?_
        obtain ⟨date, hdate, hlt⟩ := hguard _ hd
        obtain rfl : d = date := Option.some.inj hdate
        obtain rfl : instant = t := Option.mem_unique hnew ht
        exact hlt
  refine ⟨h.mono hev h.settings (h.ledger.revokeCertificate hfresh reason) hcrls rfl, hev,
    by simp, fun b _ hopen => ?_⟩
  obtain ⟨date, hdate, -⟩ := hguard none (mem_of_getElem? hopen)
  cases hdate

theorem Moves.add (h : Recorded db₀ s) {new : Crl} {read : List DeltaRead}
    (hfull : new.isDelta = false → (some new.thisUpdate ∈ s.dates ∧ new.thisUpdate ≤ s.now ∧
      ∀ ca, s.db.ca? new.caId = some ca →
        Covers s.db ca new.thisUpdate (new.entries.map CrlEntry.serial)) ∧
      ∀ crl ∈ s.db.crls, crl.caId = new.caId → crl.isDelta = false → crl.number ≠ new.number)
    (hread : ∀ d ∈ read, d.Names s.db.crls ∧ (d.db.ca? d.crl.caId).isSome = true ∧ d.Exact)
    (hdelta : new.isDelta = true → ∃ d ∈ read, d.crl = new) :
    Moves db₀ s t { s with db := s.db.addCrl new, deltas := s.deltas ++ read } none := by
  have hsub : s.db.crls ⊆ (s.db.addCrl new).crls := subset_append_left _ _
  have hmem : ∀ crl ∈ (s.db.addCrl new).crls, crl ∈ s.db.crls ∨ crl = new := by
    simp [Db.addCrl]
  refine ⟨⟨h.settings, h.ledger.addCrl _, ?_, ?_, ?_, ?_⟩,
    .of_fades rfl (.refl _) (Nat.le_refl _) hsub fun _ h => h, by simp,
    fun b _ => keepsOpen_of_fades rfl (.refl _) fun h => h⟩
  · intro crl hcrl hf
    rcases hmem crl hcrl with hold | rfl
    · exact h.fulls crl hold hf
    · exact (hfull hf).1
  · intro a ha b hb hf hf' hcaId hnumber
    rcases hmem a ha with hold | rfl <;> rcases hmem b hb with hold' | rfl
    · exact h.named a hold b hold' hf hf' hcaId hnumber
    · exact absurd hnumber ((hfull hf').2 a hold hcaId hf)
    · exact absurd hnumber.symm ((hfull hf).2 b hold' hcaId.symm hf')
    · rfl
  · intro d hd
    obtain ⟨⟨hbase, hnames⟩, hexact⟩ := (mem_append.mp hd).elim (h.deltas d) (hread d)
    exact ⟨⟨hsub hbase, hnames⟩, hexact⟩
  · intro crl hcrl hd
    rcases hmem crl hcrl with hold | rfl
    · obtain ⟨d, hd, hcrl⟩ := h.stored crl hold hd
      exact ⟨d, mem_append_left _ hd, hcrl⟩
    · obtain ⟨d, hd, hcrl⟩ := hdelta hd
      exact ⟨d, mem_append_right _ hd, hcrl⟩

theorem moves_fullCommit (h : Recorded db₀ s) (hfresh : Fresh db₀) {ca : CaRow} {rows : List Listed}
    {number seen date : ℕ} (ht : Task.Kept s (.fullCommit ca rows number seen date))
    (hguard : ∀ crl ∈ s.db.crls, crl.caId = ca.id → crl.isDelta = false → crl.number ≠ number) :
    Moves db₀ s t { s with db := s.db.addCrl ⟨ca.id, number, date, false, none, false,
      crlEntries false date rows⟩ } none := by
  obtain ⟨hca, hdate, hle, hrows⟩ := ht
  have hadd : Moves db₀ s t { s with
      db := s.db.addCrl ⟨ca.id, number, date, false, none, false, crlEntries false date rows⟩,
      deltas := s.deltas ++ [] } none := by
    refine .add h (fun _ => ⟨⟨hdate, hle, fun ca' hca' row hrow hgroup hrev hends => ?_⟩, hguard⟩)
      (by simp) (by simp)
    obtain rfl : ca = ca' := Option.mem_unique hca hca'
    rcases hrows row hrow hgroup hrev hends with hlisted | hlater
    · exact .inl (serial_mem_crlEntries _ _ hlisted (h.ledger.range hfresh hrow))
    · exact .inr hlater
  rwa [append_nil] at hadd

theorem moves_deltaCommit (h : Recorded db₀ s) {ca : CaRow} {base : Crl} {rows : List Listed}
    {db : Db} {number instant : ℕ} (hbase : Base s ca base)
    (hexact : ExactRows ca base instant rows db) {new : Crl}
    (hnew : new = ⟨ca.id, number, instant, true, some base.number, false,
      crlEntries true instant rows⟩) :
    Moves db₀ s t
      { s with db := s.db.addCrl new, deltas := s.deltas ++ [⟨new, base, db⟩] } none := by
  subst hnew
  refine .add h (by simp) (fun d hd => ?_) fun _ => ⟨_, mem_singleton.mpr rfl, rfl⟩
  rw [mem_singleton.mp hd]
  exact ⟨⟨hbase.1, hbase.2.1, hbase.2.2, rfl⟩, by rw [hexact.1]; rfl, hexact.2 number⟩

theorem advance_moves (h : Recorded db₀ s) (hfresh : Fresh db₀) (hguard : t.Timely s)
    (ht : t.Kept s) (hadv : s.advance t () = some (s', t')) : Moves db₀ s t s' t' := by
  cases t with
  | fullHousekeeping ca =>
    cases hadv
    obtain ⟨hcas, hcrls, hrows⟩ := runHousekeeping_frame s.db s.purgeStale s.autoDelete ca s.now
    have hledger := h.ledger.runHousekeeping s.purgeStale ca s.now
    rw [← h.settings] at hledger
    refine .fades h hcas (.of_subset hrows) hcrls hledger ?_
    rintro v ⟨⟩
    refine ⟨?_, rfl⟩
    rw [Task.Kept, Db.ca?, hcas]
    exact ht
  | fullClock ca =>
    cases hadv
    exact .goesOn h ⟨ht, Nat.le_refl _⟩
  | fullRows ca instant =>
    cases hadv
    obtain ⟨hca, hle⟩ := ht
    have hev : Evolves s { s with dates := s.dates ++ [none] } :=
      .of_fades rfl (.refl _) (Nat.le_refl _) (fun _ h => h)
        fun d hd => mem_append_left _ hd
    refine ⟨h.mono hev h.settings h.ledger rfl rfl, hev, ?_, fun b _ => ?_⟩
    · rintro v ⟨⟩
      refine ⟨⟨hca, by simp, instant, hle, enumerates_getRevokedCertificates s.db ca instant⟩, ?_⟩
      rintro a ⟨⟩
      exact .inr rfl
    · refine keepsOpen_of_fades rfl (.refl _) fun hopen => ?_
      have hlt : b < s.dates.length := (List.getElem?_eq_some_iff.mp hopen).1
      rw [getElem?_append_left hlt]
      exact hopen
  | fullNumber | deltaNumber =>
    cases hadv
    exact .goesOn h ht
  | fullDate ca rows slot number seen =>
    cases hadv
    obtain ⟨hca, hslot, instant, hle, hrows⟩ := ht
    have hlt : slot < s.dates.length := (List.getElem?_eq_some_iff.mp hslot).1
    have hev : Evolves s { s with dates := s.dates.set slot (some s.now) } := by
      refine .of_fades rfl (.refl _) (Nat.le_refl _) (fun _ h => h) fun d hd => ?_
      obtain ⟨b, hb⟩ := mem_iff_getElem?.mp hd
      have hne : slot ≠ b := by
        rintro rfl
        rw [hslot] at hb
        cases hb
      exact mem_iff_getElem?.mpr ⟨b, by rw [getElem?_set_ne hne]; exact hb⟩
    refine ⟨h.mono hev h.settings h.ledger rfl rfl, hev, ?_, fun b hb => ?_⟩
    · rintro v ⟨⟩
      exact ⟨⟨hca, mem_set hlt _, Nat.le_refl _, hrows.covers hle⟩, by simp [Task.slot]⟩
    · refine keepsOpen_of_fades rfl (.refl _) fun hopen => ?_
      have hne : slot ≠ b := fun hsame => hb (congrArg some hsame)
      rw [getElem?_set_ne hne]
      exact hopen
  | fullCommit ca rows number seen date =>
    cases hadv
    exact moves_fullCommit h hfresh ht hguard
  | deltaBase ca =>
    cases hadv
    refine .read h fun v hv => ?_
    obtain ⟨base, hbase, rfl⟩ := Option.map_eq_some_iff.mp hv
    obtain ⟨hmem, hfull⟩ := mem_filter.mp (argmax_mem hbase)
    obtain ⟨hmem, hcaId⟩ := mem_filter.mp hmem
    exact ⟨⟨ht, hmem, by simpa using hfull, by simpa using hcaId⟩, by simp [Task.slot]⟩
  | deltaClock ca base =>
    cases hadv
    obtain ⟨hca, hbase⟩ := ht
    exact .goesOn h ⟨hca, hbase, (h.fulls base hbase.1 hbase.2.1).2.1⟩
  | deltaRows ca base instant =>
    cases hadv
    obtain ⟨hca, hbase, hle⟩ := ht
    have hcovers := (h.fulls base hbase.1 hbase.2.1).2.2 ca (by rw [hbase.2.2]; exact hca)
    exact .goesOn h ⟨hbase, hca, h.ledger.exact hfresh hca hcovers hle hguard⟩
  | deltaCommit ca base instant rows db number seen =>
    cases hadv
    exact moves_deltaCommit h ht.1 ht.2 rfl
  | uploadLatest | uploadCommit => exact ht.elim
  | revokeClock | unholdClock =>
    cases hadv
    exact .goesOn h trivial
  | revokeCommit id reason instant =>
    cases hadv
    exact moves_revokeCommit h hfresh hguard
  | unholdStage id instant =>
    cases hadv
    have hfades := fades_stageUnhold (h.ledger.ids hfresh) h.ledger.dated hguard
    refine .fades h rfl hfades rfl (h.ledger.stageUnhold hfresh hguard) ?_
    rintro v ⟨⟩
    exact ⟨trivial, rfl⟩
  | unholdLift id =>
    cases hadv
    exact .fades h (by unfold Db.liftHold; split <;> rfl) (fades_liftHold s.db id) crls_liftHold
      (h.ledger.liftHold hfresh) (by simp)

theorem start_kept {r : Request} (hr : ∀ caId u, r ≠ .upload caId u)
    (hstart : s.start r = some t) : t.Kept s ∧ t.slot = none := by
  have hfound : ∀ {caId ca}, s.db.ca? caId = some ca → s.db.ca? ca.id = some ca :=
    fun hca => (find?_key hca).2 ▸ hca
  cases r with
  | full | delta =>
    obtain ⟨ca, hca, hstart⟩ := Option.bind_eq_some_iff.mp hstart
    split at hstart <;> cases hstart
    exact ⟨hfound hca, rfl⟩
  | upload caId u => exact absurd rfl (hr caId u)
  | revoke id reason =>
    obtain ⟨row, -, hstart⟩ := Option.bind_eq_some_iff.mp hstart
    split at hstart <;> cases hstart
    exact ⟨trivial, rfl⟩
  | unhold id =>
    obtain ⟨row, -, hstart⟩ := Option.bind_eq_some_iff.mp hstart
    split at hstart
    · split at hstart <;> cases hstart <;> exact ⟨trivial, rfl⟩
    · cases hstart

end Moves

theorem recorded_inductive {db₀ : Db} (hfresh : Fresh db₀) :
    Server.system.Inductive Timely (Recorded db₀) (fun s t => t.Kept s) Task.Apart where
  symm h := fun a ha b hb hab => h b hb a ha hab.symm
  event := by
    intro w e hguard hP
    have hevent : ∀ s' : Server, s'.db = w.shared.db → s'.dates = w.shared.dates →
        w.shared.now ≤ s'.now → Evolves w.shared s' ∧ ∀ b, KeepsOpen w.shared s' b := by
      intro s' hdb hdates hnow
      have hfades : Fades w.shared.db s'.db := hdb ▸ .refl _
      exact ⟨.of_fades (by rw [hdb]) hfades hnow (hdb ▸ fun _ h => h) (hdates ▸ fun _ h => h),
        fun b => keepsOpen_of_fades (by rw [hdb]) hfades (hdates ▸ fun h => h)⟩
    cases e with
    | tick seconds =>
      obtain ⟨hev, hopen⟩ := hevent (w.shared.event (.tick seconds)) rfl rfl (Nat.le_add_right _ _)
      exact ⟨hP.mono hev hP.settings hP.ledger rfl rfl, Task.Kept.mono hev fun b _ => hopen b⟩
    | configure purgeStale autoDelete =>
      obtain ⟨hev, hopen⟩ := hevent (w.shared.event (.configure purgeStale autoDelete)) rfl rfl
        (Nat.le_refl _)
      exact ⟨hP.mono hev hguard hP.ledger rfl rfl, Task.Kept.mono hev fun b _ => hopen b⟩
    | setKey caId hasPrivateKey offline => exact hguard.elim
  start := by
    intro w i r t hguard _ hstart
    have hr : ∀ caId u, r ≠ .upload caId u := by
      rintro caId u rfl
      exact hguard
    obtain ⟨hkept, hslot⟩ := start_kept hr hstart
    exact ⟨hkept, fun _ => by simp [Task.Apart, hslot]⟩
  advance := by
    intro w i input t s' t' hguard hP ht hQ hadv
    have hmoves := advance_moves hP hfresh (hguard t ht) hQ hadv
    refine ⟨hmoves.recorded, fun {v} hv => ⟨(hmoves.next v hv).1, ?_⟩, ?_⟩
    · intro u hu hapart a ha b hb
      rcases (hmoves.next v hv).2 a ha with hold | hnew
      · exact hapart a hold b hb
      · -- the place is new, and the other task waits at an old one
        have hopen : w.shared.dates[b]? = some none := by
          cases u <;> cases hb
          · exact hu.2.1
          · exact hu.2.1
        have hlt := (List.getElem?_eq_some_iff.mp hopen).1
        omega
    · intro u hu hapart
      refine hu.mono hmoves.evolves fun b hb => hmoves.opens b fun hsame => ?_
      exact hapart b hsame b hb rfl

theorem Fresh.recorded {db₀ : Db} (h : Fresh db₀) (now : ℕ) :
    Recorded db₀ (Server.init now db₀) := by
  refine ⟨rfl, ⟨rfl, rfl, ?_, ?_, ?_, ?_, ?_, ?_⟩, ?_, ?_, ?_, ?_⟩
  · intro row hrow hrev
    rw [h.rows row hrow] at hrev
    cases hrev
  all_goals simp [Server.init, h.records, h.crls]

/-- In every such run a stored delta CRL names one stored base, and on it says exactly what was
revoked in the tables that its rows were read from. -/
theorem delta_completes_base (now : ℕ) (db₀ : Db) (hfresh : Fresh db₀) (w : World Server Task)
    (hw : Reach Server.system.step Timely (World.initial (Server.init now db₀)) w) (crl : Crl)
    (hcrl : crl ∈ w.shared.db.crls) (hdelta : crl.isDelta = true) :
    ∃ d ∈ w.shared.deltas, d.crl = crl ∧ d.Names w.shared.db.crls ∧
      (∀ base ∈ w.shared.db.crls, base.isDelta = false → base.caId = crl.caId →
        crl.baseNumber = some base.number → base = d.base) ∧
      (d.db.ca? crl.caId).isSome = true ∧ d.Exact := by
  have h := ((recorded_inductive hfresh).reach (hfresh.recorded now) hw).shared
  obtain ⟨d, hd, rfl⟩ := h.stored crl hcrl hdelta
  obtain ⟨hnames, hca, hexact⟩ := h.deltas d hd
  refine ⟨d, hd, rfl, hnames, fun base hbase hfull hcaId hnumber => ?_, hca, hexact⟩
  obtain ⟨hstored, hfull', hcaId', hnumber'⟩ := hnames
  exact h.named base hbase d.base hstored hfull hfull' (hcaId.trans hcaId'.symm)
    (Option.mem_unique hnumber hnumber')

def twoCertificates : Db :=
  ⟨[rootCa], [⟨1, 10, ⟨26, 900⟩, ['2', '6'], some 900, false, none, none⟩,
    ⟨2, 10, ⟨43, 900⟩, ['2', 'b'], some 900, false, none, none⟩], [], 0, []⟩

/-- A hold, a full CRL, another revocation, and the delta CRL of the end of the hold. -/
def holdAndRelease : List (Concurrency.Label Request Unit Event) :=
  .event (.tick 1) :: .request 0 (.revoke 1 .certificateHold) :: finish 0 2 ++
    .event (.tick 1) :: .request 1 (.full 1) :: finish 1 6 ++
    .event (.tick 1) :: .request 2 (.revoke 2 .keyCompromise) :: finish 2 2 ++
    .request 3 (.unhold 1) :: finish 3 2 ++ .request 4 (.delta 1) :: finish 4 5

theorem delta_completes_base_hold_and_release :
    let w := exec Server.system.step (World.initial (Server.init 0 twoCertificates)) holdAndRelease
    ∃ crl ∈ w.shared.db.crls, crl.isDelta = true ∧ ∃ d ∈ w.shared.deltas, d.crl = crl ∧
      d.Names w.shared.db.crls ∧ applyDelta d.base d.crl = [43] ∧ d.Exact := by
  have hfresh : Fresh twoCertificates := by
    constructor <;> decide
  intro w
  have hstored : ∃ crl ∈ w.shared.db.crls, crl.isDelta = true := by decide
  have happlied : ∀ d ∈ w.shared.deltas, applyDelta d.base d.crl = [43] := by decide
  obtain ⟨crl, hcrl, hdelta⟩ := hstored
  obtain ⟨d, hd, hsame, hnames, -, -, hexact⟩ :=
    delta_completes_base 0 twoCertificates hfresh w (Reach.start.exec (by decide)) crl hcrl hdelta
  exact ⟨crl, hcrl, hdelta, d, hd, hsame, hnames, happlied d hd, hexact⟩

/-- A revocation between the rows and the date of a full CRL, then a delta CRL. -/
def lateDate : List (Concurrency.Label Request Unit Event) :=
  .request 0 (.full 1) :: finish 0 3 ++
    .event (.tick 1) :: .request 1 (.revoke 1 .keyCompromise) :: finish 1 2 ++
    .event (.tick 1) :: finish 0 3 ++ .event (.tick 1) :: .request 2 (.delta 1) :: finish 2 5

/-- The revocation is on neither of the two CRLs. -/
theorem revocation_missed_by_both :
    let w := exec Server.system.step (World.initial (Server.init 0 twoCertificates)) lateDate
    ∃ d ∈ w.shared.deltas, d.crl ∈ w.shared.db.crls ∧ d.Names w.shared.db.crls ∧ ¬ d.Exact := by
  have hmissed :
      let w := exec Server.system.step (World.initial (Server.init 0 twoCertificates)) lateDate
      ∃ d ∈ w.shared.deltas, d.crl ∈ w.shared.db.crls ∧ d.Names w.shared.db.crls ∧
        d.db.ca? d.crl.caId = some rootCa ∧ ∃ row ∈ d.db.certificates,
          row.caref ∈ d.db.sameKeyRefids rootCa ∧ notExpired row.validTo d.crl.thisUpdate = true ∧
            row.crt.serial ∉ applyDelta d.base d.crl ∧ row.standsRevoked = true := by
    decide
  obtain ⟨d, hd, hcrl, hnames, hca, row, hrow, hgroup, hlive, hnot, hrev⟩ := hmissed
  exact ⟨d, hd, hcrl, hnames, fun h => hnot ((h rootCa hca row hrow hgroup hlive).mpr hrev)⟩

end UltimateCaManager.Revocation
