import UltimateCaManager.RevocationRuns

/-!
# Tidy tables

What every run keeps as long as the serial texts that it writes are read back: a row says when its
certificate ends and spells its serial, a record spells the serial of a stored certificate and ends
with it, and a record is linked to an existing row.
-/
namespace UltimateCaManager.Revocation

open List Tables

/-- A spelling of `n` that is read back. -/
def Spells (text : List Char) (n : ℕ) : Prop :=
  text ∈ serialVariants n ∧ serialToInt text = some n
  deriving Decidable

theorem spells_write {s : Spelling} {n : ℕ} (h : s.ReadsBack n) : Spells (s.write n) n :=
  ⟨mem_serialVariants.mpr ⟨s, rfl⟩, h⟩

theorem spells_decimal (n : ℕ) : Spells (Spelling.decimal.write n) n :=
  spells_write (readsBack_decimal n)

structure CertRow.Tidy (stored : List Fact) (row : CertRow) : Prop where
  text : Spells row.serialNumber row.crt.serial
  ends : row.validTo = some row.crt.notAfter
  stored : row.fact ∈ stored

/-- The record is that of a stored certificate with serial `n`. -/
structure Record.Names (stored : List Fact) (r : Record) (n : ℕ) : Prop where
  text : Spells r.serialNumber n
  stored : ⟨r.caref, n, r.validTo⟩ ∈ stored

structure Tidy (db : Db) (stored : List Fact) : Prop where
  ids : (db.certificates.map CertRow.id).Pairwise (· < ·)
  rows : ∀ row ∈ db.certificates, row.Tidy stored
  records : ∀ r ∈ db.records, ∃ n, r.Names stored n
  recordIds : (db.records.map Record.id).Nodup
  counted : ∀ r ∈ db.records, r.id < db.recordIds
  links : ∀ r ∈ db.records, ∀ id, r.certificateId = some id →
    ∃ row ∈ db.certificates, row.id = id

section Tables

variable {db : Db} {stored stored' : List Fact} {row : CertRow} {id : ℕ}

theorem certificate?_mem (h : db.certificate? id = some row) :
    row ∈ db.certificates ∧ row.id = id :=
  find?_key h

theorem Tidy.nodup (h : Tidy db stored) : (db.certificates.map CertRow.id).Nodup :=
  h.ids.imp fun hlt => Nat.ne_of_lt hlt

theorem Tidy.row_eq (h : Tidy db stored) {q : CertRow} (hrow : row ∈ db.certificates)
    (hq : q ∈ db.certificates) (hid : row.id = q.id) : row = q :=
  eq_of_key h.nodup hrow hq hid

theorem Tidy.certificate? (h : Tidy db stored) (hrow : row ∈ db.certificates) :
    db.certificate? row.id = some row :=
  find?_of_mem h.nodup hrow

theorem Tidy.lt_nextId (h : Tidy db stored) (hrow : row ∈ db.certificates) : row.id < db.nextId := by
  unfold Db.nextId
  split
  · next hnone =>
    rw [getLast?_eq_none_iff.mp hnone] at hrow
    cases hrow
  · next last hlast =>
    obtain ⟨front, hfront⟩ := getLast?_eq_some_iff.mp hlast
    have hids := h.ids
    rw [hfront, map_append, pairwise_append] at hids
    rw [hfront] at hrow
    rcases mem_concat.mp hrow with hrow | rfl
    · have hlt := hids.2.2 row.id (mem_map_of_mem hrow) last.id (by simp)
      omega
    · omega

theorem Record.Names.mono (hsub : stored ⊆ stored') {r : Record} {n : ℕ}
    (h : r.Names stored n) : r.Names stored' n :=
  ⟨h.text, hsub h.stored⟩

theorem CertRow.Tidy.mono (hsub : stored ⊆ stored') (h : row.Tidy stored) : row.Tidy stored' :=
  ⟨h.text, h.ends, hsub h.stored⟩

theorem Tidy.mono (hsub : stored ⊆ stored') (h : Tidy db stored) : Tidy db stored' := by
  refine ⟨h.ids, fun row hrow => (h.rows row hrow).mono hsub, fun r hr => ?_, h.recordIds,
    h.counted, h.links⟩
  obtain ⟨n, hn⟩ := h.records r hr
  exact ⟨n, hn.mono hsub⟩

/-- Tidiness is about the certificates and the records only. -/
theorem Tidy.congr {db' : Db} (h : Tidy db stored) (hc : db'.certificates = db.certificates)
    (hr : db'.records = db.records) (hn : db'.recordIds = db.recordIds) : Tidy db' stored := by
  refine ⟨hc ▸ h.ids, hc ▸ h.rows, hr ▸ h.records, hr ▸ h.recordIds, ?_, ?_⟩
  · rw [hr, hn]
    exact h.counted
  · rw [hr, hc]
    exact h.links

theorem Tidy.insertCertificate (h : Tidy db stored) {caref : ℕ} {crt : Stored} {text : List Char}
    (htext : Spells text crt.serial) (hmem : crt.fact caref ∈ stored) :
    Tidy (db.insertCertificate caref crt text) stored := by
  refine ⟨?_, ?_, h.records, h.recordIds, h.counted, ?_⟩
  · rw [Db.insertCertificate, map_append, pairwise_append]
    refine ⟨h.ids, pairwise_singleton _ _, ?_⟩
    intro a ha b hb
    obtain ⟨row, hrow, rfl⟩ := mem_map.mp ha
    have hb : b = db.nextId := by simpa using hb
    rw [hb]
    exact h.lt_nextId hrow
  · exact forall_mem_concat.mpr ⟨h.rows, htext, rfl, hmem⟩
  · intro r hr i hi
    obtain ⟨row, hrow, hid⟩ := h.links r hr i hi
    exact ⟨row, mem_append_left _ hrow, hid⟩

theorem mem_setCertificate {f : CertRow → CertRow} (h : row ∈ (db.setCertificate id f).certificates) :
    row ∈ db.certificates ∧ row.id ≠ id ∨ ∃ q ∈ db.certificates, q.id = id ∧ row = f q := by
  rcases mem_amend.mp h with ⟨hmem, hne⟩ | ⟨q, hq, hid, rfl⟩
  · exact .inl ⟨hmem, by simpa using hne⟩
  · exact .inr ⟨q, hq, by simpa using hid, rfl⟩

theorem exists_setCertificate {f : CertRow → CertRow} {i : ℕ} (hf : ∀ row, (f row).id = row.id)
    (h : row ∈ db.certificates) (hid : row.id = i) :
    ∃ q ∈ (db.setCertificate id f).certificates, q.id = i := by
  subst hid
  refine ⟨_, exists_mem_amend h, ?_⟩
  split
  · exact hf row
  · rfl

theorem Tidy.setCertificate (h : Tidy db stored) {f : CertRow → CertRow}
    (hf : ∀ row, (f row).id = row.id)
    (hrow : ∀ row ∈ db.certificates, row.id = id → (f row).Tidy stored) :
    Tidy (db.setCertificate id f) stored := by
  refine ⟨?_, ?_, h.records, h.recordIds, h.counted, ?_⟩
  · have hmap : (db.setCertificate id f).certificates.map CertRow.id =
        db.certificates.map CertRow.id := map_amend hf _
    rw [hmap]
    exact h.ids
  · exact forall_mem_amend h.rows fun q hq hid _ => hrow q hq (by simpa using hid)
  · intro r hr i hi
    obtain ⟨row, hmem, hid⟩ := h.links r hr i hi
    exact exists_setCertificate hf hmem hid

end Tables

/-! ## Records -/

section Records

variable {db : Db} {stored : List Fact} {r : Record} {caref instant validTo : ℕ}
  {text : List Char} {reason : Option Reason} {link : Option ℕ → Option ℕ}

theorem record?_mem (h : db.record? caref text = some r) :
    r ∈ db.records ∧ r.caref = caref ∧ r.serialNumber = text := by
  have hp := find?_some h
  simp only [Bool.and_eq_true, decide_eq_true_eq] at hp
  exact ⟨mem_of_find?_eq_some h, hp⟩

theorem mem_putRecord (h : r ∈ (db.putRecord caref text instant reason validTo link).records)
    (hids : (db.records.map Record.id).Nodup) :
    r ∈ db.records ∨ r.caref = caref ∧ r.serialNumber = text ∧ r.validTo = validTo ∧
      r.revokeReason = reason ∧ (r.certificateId = link none ∨
        ∃ q ∈ db.records, q.caref = caref ∧ q.serialNumber = text ∧
          r.certificateId = link q.certificateId) := by
  unfold Db.putRecord at h
  split at h
  · next found hfound =>
    obtain ⟨hmem, hcaref, htext⟩ := record?_mem hfound
    rcases mem_amend.mp h with ⟨hr, -⟩ | ⟨q, hq, hid, rfl⟩
    · exact .inl hr
    · obtain rfl : q = found := eq_of_key hids hq hmem (by simpa using hid)
      exact .inr ⟨hcaref, htext, rfl, rfl, .inr ⟨q, hmem, hcaref, htext, rfl⟩⟩
  · rcases mem_concat.mp h with h | rfl
    · exact .inl h
    · exact .inr ⟨rfl, rfl, rfl, rfl, .inl rfl⟩

theorem exists_putRecord : ∃ q ∈ (db.putRecord caref text instant reason validTo link).records,
    q.caref = caref ∧ q.serialNumber = text := by
  unfold Db.putRecord
  split
  · next found hfound =>
    obtain ⟨hmem, hcaref, htext⟩ := record?_mem hfound
    refine ⟨_, exists_mem_amend hmem, ?_⟩
    simp [hcaref, htext]
  · exact ⟨_, mem_concat_self, rfl, rfl⟩

theorem exists_putRecord_of_mem (h : r ∈ db.records) :
    ∃ q ∈ (db.putRecord caref text instant reason validTo link).records,
      q.caref = r.caref ∧ q.serialNumber = r.serialNumber := by
  unfold Db.putRecord
  split
  · refine ⟨_, exists_mem_amend h, ?_⟩
    split <;> exact ⟨rfl, rfl⟩
  · exact ⟨r, mem_append_left _ h, rfl, rfl⟩

theorem certificates_putRecord :
    (db.putRecord caref text instant reason validTo link).certificates = db.certificates := by
  unfold Db.putRecord
  split <;> rfl

theorem recordIds_putRecord (hids : (db.records.map Record.id).Nodup)
    (hcounted : ∀ r ∈ db.records, r.id < db.recordIds) :
    ((db.putRecord caref text instant reason validTo link).records.map Record.id).Nodup ∧
      ∀ r ∈ (db.putRecord caref text instant reason validTo link).records,
        r.id < (db.putRecord caref text instant reason validTo link).recordIds := by
  unfold Db.putRecord
  split
  · exact ⟨nodup_amend (fun _ => rfl) hids, forall_mem_amend hcounted fun _ _ _ h => h⟩
  · exact ⟨nodup_concat hids fun q hq => Nat.ne_of_lt (hcounted q hq), forall_mem_concat.mpr
      ⟨fun r hr => Nat.lt_succ_of_lt (hcounted r hr), Nat.lt_succ_self _⟩⟩

theorem Tidy.putRecord (h : Tidy db stored) {n : ℕ} (htext : Spells text n)
    (hmem : ⟨caref, n, validTo⟩ ∈ stored)
    (hlink : ∀ c id, link c = some id → c = some id ∨ ∃ row ∈ db.certificates, row.id = id) :
    Tidy (db.putRecord caref text instant reason validTo link) stored := by
  have hcert : (db.putRecord caref text instant reason validTo link).certificates =
      db.certificates := certificates_putRecord
  obtain ⟨hids, hcounted⟩ := recordIds_putRecord h.recordIds h.counted
  refine ⟨hcert ▸ h.ids, hcert ▸ h.rows, ?_, hids, hcounted, ?_⟩
  · intro r hr
    rcases mem_putRecord hr h.recordIds with hr | ⟨hcaref, hserial, hends, -⟩
    · exact h.records r hr
    · exact ⟨n, hserial ▸ htext, by rwa [hcaref, hends]⟩
  · intro r hr id hid
    rw [hcert]
    rcases mem_putRecord hr h.recordIds with hr | ⟨-, -, -, -, hnew | ⟨q, hq, -, -, hq'⟩⟩
    · exact h.links r hr id hid
    · exact (hlink none id (hnew ▸ hid)).resolve_left (by simp)
    · rcases hlink q.certificateId id (hq' ▸ hid) with hold | hrow
      · exact h.links q hq id hold
      · exact hrow

theorem Tidy.filterRecords (h : Tidy db stored) (p : Record → Bool) :
    Tidy { db with records := db.records.filter p } stored :=
  ⟨h.ids, h.rows, fun r hr => h.records r (mem_of_mem_filter hr),
    h.recordIds.sublist (filter_sublist.map _),
    fun r hr => h.counted r (mem_of_mem_filter hr),
    fun r hr => h.links r (mem_of_mem_filter hr)⟩

theorem Tidy.deleteCertificate (h : Tidy db stored) (id : ℕ) :
    Tidy (db.deleteCertificate id) stored := by
  refine ⟨h.ids.sublist (filter_sublist.map _),
    fun row hrow => h.rows row (mem_of_mem_filter hrow),
    forall_mem_amend h.records fun _ _ _ ⟨n, hn⟩ => ⟨n, hn.text, hn.stored⟩,
    nodup_amend (fun _ => rfl) h.recordIds, forall_mem_amend h.counted fun _ _ _ h => h, ?_⟩
  · intro r hr i hi
    rcases mem_amend.mp hr with ⟨hr, hne⟩ | ⟨q, hq, -, rfl⟩
    · obtain ⟨row, hrow, rfl⟩ := h.links r hr i hi
      have hkeep : row.id ≠ id := by
        rintro rfl
        simp [hi] at hne
      exact ⟨row, mem_filter.mpr ⟨hrow, by simpa using hkeep⟩, rfl⟩
    · cases hi

end Records

/-! ## Steps -/

section Steps

variable {db : Db} {stored : List Fact} {id caref instant : ℕ} {crt : Stored}

theorem Tidy.setRevocation (h : Tidy db stored) (id : ℕ) {f : CertRow → CertRow}
    (hf : ∀ row, (f row).id = row.id ∧ (f row).caref = row.caref ∧ (f row).crt = row.crt ∧
      (f row).serialNumber = row.serialNumber ∧ (f row).validTo = row.validTo) :
    Tidy (db.setCertificate id f) stored := by
  refine h.setCertificate (fun row => (hf row).1) fun row hrow _ => ?_
  obtain ⟨-, hcaref, hcrt, htext, hends⟩ := hf row
  have htidy := h.rows row hrow
  refine ⟨by rw [htext, hcrt]; exact htidy.text, by rw [hends, hcrt]; exact htidy.ends, ?_⟩
  have hfact : (f row).fact = row.fact := by simp [CertRow.fact, hcaref, hcrt]
  rw [hfact]
  exact htidy.stored

theorem Tidy.revokeCertificate (h : Tidy db stored) (reason : Reason) :
    Tidy (db.revokeCertificate id reason instant) stored := by
  unfold Db.revokeCertificate
  split
  · exact h
  · next row hrow =>
    obtain ⟨hmem, hid⟩ := certificate?_mem hrow
    have htidy := h.rows row hmem
    have hmarked := h.setRevocation id (f := fun row =>
      { row with revoked := true, revokedAt := some instant, revokeReason := some reason })
      fun _ => ⟨rfl, rfl, rfl, rfl, rfl⟩
    split
    · refine hmarked.putRecord htidy.text ?_ fun c i hi => .inr ?_
      · rw [htidy.ends]
        exact htidy.stored
      · cases hi
        exact exists_setCertificate (fun _ => rfl) hmem hid
    · exact hmarked

theorem Tidy.stageUnhold (h : Tidy db stored) : Tidy (db.stageUnhold id instant) stored :=
  h.setRevocation id fun _ => ⟨rfl, rfl, rfl, rfl, rfl⟩

theorem Tidy.liftHold (h : Tidy db stored) : Tidy (db.liftHold id) stored := by
  unfold Db.liftHold
  split
  · exact h
  · next row hrow =>
    have hset := h.setRevocation id (f := fun row =>
      { row with revoked := false, revokedAt := none, revokeReason := none })
      fun _ => ⟨rfl, rfl, rfl, rfl, rfl⟩
    exact hset.filterRecords _

theorem Tidy.renewCertificate (h : Tidy db stored) {row : CertRow}
    (hrow : db.certificate? id = some row) (htext : Spelling.lowerHex.ReadsBack crt.serial)
    (hnew : crt.fact caref ∈ stored) (hold : row.crt.fact caref ∈ stored) :
    Tidy (db.renewCertificate id caref crt instant) stored := by
  obtain ⟨hmem, hid⟩ := certificate?_mem hrow
  have htidy := h.rows row hmem
  simp only [Db.renewCertificate, hrow]
  refine Tidy.putRecord (h.setCertificate (fun _ => rfl) fun _ _ _ =>
    ⟨spells_write htext, rfl, hnew⟩) htidy.text ?_ fun c i hi => .inr ?_
  · rw [htidy.ends]
    exact hold
  · cases hi
    exact exists_setCertificate (fun _ => rfl) hmem hid

theorem Tidy.updateCertificate (h : Tidy db stored) (hnew : crt.fact caref ∈ stored) :
    Tidy (db.updateCertificate id caref crt) stored := by
  refine h.setCertificate (fun row => ?_) fun row _ _ => ?_
  · split <;> rfl
  · have htext := spells_decimal crt.serial
    split <;> exact ⟨htext, rfl, hnew⟩

/-- What the purge of records and each deletion keep holds after the housekeeping. -/
theorem Db.runHousekeeping_rule {P : Db → Prop} {purgeStale autoDelete : Bool} {ca : CaRow} {now : ℕ}
    (h : P db) (hpurge : P (db.purgeStaleRevokedSerials ca now))
    (hdelete : ∀ db id, P db → P (db.deleteCertificate id)) :
    P (db.runHousekeeping purgeStale autoDelete ca now) := by
  have hstale : P (if purgeStale then db.purgeStaleRevokedSerials ca now else db) := by
    split
    · exact hpurge
    · exact h
  unfold Db.runHousekeeping
  simp only
  split
  · exact foldlRecOn _ _ hstale fun db hdb id _ => hdelete db id hdb
  · exact hstale

theorem Tidy.runHousekeeping (h : Tidy db stored) (purgeStale autoDelete : Bool) (ca : CaRow)
    (now : ℕ) : Tidy (db.runHousekeeping purgeStale autoDelete ca now) stored :=
  Db.runHousekeeping_rule (P := fun db => Tidy db stored) h (h.filterRecords _)
    fun _ i hdb => hdb.deleteCertificate i

end Steps

section RevokeCa

variable {db db' : Db} {stored : List Fact} {caId instant : ℕ} {reason : Reason}
  {ca parent : CaRow} {crt : CaStored} (hca : db.ca? caId = some ca) (hcrt : ca.crt = some crt)
  (hparent : db.issuingCa ca = some parent) (hdb : db.revokeCa caId reason instant = some db')

include hca hcrt hparent hdb

theorem revokeCa_eq :
    ca.revoked = false ∧ db' = (db.setCa caId (CaRow.markRevoked crt reason instant)).putRecord
      parent.refid (Spelling.decimal.write crt.serial) instant (some reason) crt.notAfter id := by
  simp only [Db.revokeCa, hca, hcrt, hparent, Option.bind_eq_bind, Option.bind_some] at hdb
  split at hdb
  · cases hdb
  · next hnot =>
    rw [not_or] at hnot
    exact ⟨by simpa using hnot.1, (Option.some.inj hdb).symm⟩

theorem Tidy.revokeCa (h : Tidy db stored) (hmem : crt.toStored.fact parent.refid ∈ stored) :
    Tidy db' stored := by
  obtain ⟨-, rfl⟩ := revokeCa_eq hca hcrt hparent hdb
  refine Tidy.putRecord (h.congr rfl rfl rfl) (spells_decimal crt.serial) hmem ?_
  exact fun c i hi => .inl hi

end RevokeCa

/-! ## What stays the same -/

section Frames

variable {db : Db} {id caref instant validTo : ℕ} {text : List Char} {reason : Option Reason}
  {link : Option ℕ → Option ℕ}

theorem cas_putRecord : (db.putRecord caref text instant reason validTo link).cas = db.cas := by
  unfold Db.putRecord
  split <;> rfl

theorem crls_revokeCertificate (r : Reason) :
    (db.revokeCertificate id r instant).crls = db.crls := by
  unfold Db.revokeCertificate
  split
  · rfl
  · simp only
    split
    · unfold Db.putRecord
      split <;> rfl
    · rfl

theorem crls_liftHold : (db.liftHold id).crls = db.crls := by
  unfold Db.liftHold
  split <;> rfl

theorem cas_revokeCertificate (r : Reason) : (db.revokeCertificate id r instant).cas = db.cas := by
  unfold Db.revokeCertificate
  split
  · rfl
  · split
    · rw [cas_putRecord]
      rfl
    · rfl

theorem certificates_revokeCertificate (r : Reason) {row : CertRow}
    (h : db.certificate? id = some row) :
    (db.revokeCertificate id r instant).certificates = (db.setCertificate id fun row => { row with
      revoked := true, revokedAt := some instant, revokeReason := some r }).certificates := by
  simp only [Db.revokeCertificate, h]
  split
  · exact certificates_putRecord
  · rfl

theorem runHousekeeping_frame (db : Db) (purgeStale autoDelete : Bool) (ca : CaRow) (now : ℕ) :
    (db.runHousekeeping purgeStale autoDelete ca now).cas = db.cas ∧
      (db.runHousekeeping purgeStale autoDelete ca now).crls = db.crls ∧
      ∀ row ∈ (db.runHousekeeping purgeStale autoDelete ca now).certificates,
        row ∈ db.certificates := by
  refine Db.runHousekeeping_rule (P := fun d => d.cas = db.cas ∧ d.crls = db.crls ∧
    ∀ row ∈ d.certificates, row ∈ db.certificates) ⟨rfl, rfl, fun _ h => h⟩
    ⟨rfl, rfl, fun _ h => h⟩ ?_
  rintro d id ⟨hcas, hcrls, hrows⟩
  exact ⟨hcas, hcrls, fun row hrow => hrows row (mem_of_mem_filter hrow)⟩

end Frames

/-! ## Runs -/

/-- The texts that the step writes are read back. -/
def Label.Readable : Label → Prop
  | .issue spelling _ crt => spelling.ReadsBack crt.serial
  | .renew _ _ crt => Spelling.lowerHex.ReadsBack crt.serial
  | _ => True

instance (l : Label) : Decidable l.Readable := by
  induction l using Label.casesOn <;> unfold Label.Readable <;> infer_instance

theorem tidy_step {s : State} {l : Label} (hl : l.Readable) (h : Tidy s.db s.stored) :
    Tidy (step s l).db (step s l).stored := by
  generalize hs' : step s l = s'
  have hstep := hs' ▸ step_steps s l
  have hgrow : ∀ facts, Tidy s.db (s.stored ++ facts) :=
    fun facts => h.mono (subset_append_left _ _)
  cases hstep with
  | idle | tick | configure => exact h
  | issue => exact (hgrow _).insertCertificate (spells_write hl) (by simp)
  | imported => exact (hgrow _).insertCertificate (spells_decimal _) (by simp)
  | updated => exact (hgrow _).updateCertificate (by simp)
  | revoke hrow hrev hreason => exact h.revokeCertificate _
  | stageUnhold hrow hrev hreason => exact h.stageUnhold
  | unhold hrow hrev hreason => exact h.liftHold
  | delete => exact h.deleteCertificate _
  | renew hrow => exact (hgrow _).renewCertificate hrow hl (by simp) (by simp)
  | revokeCa hca hcrt hparent hdb => exact (hgrow _).revokeCa hca hcrt hparent hdb (by simp)
  | housekeeping hca => exact h.runHousekeeping _ _ _ _
  | generate hca hsign => exact (h.runHousekeeping _ _ _ _).congr rfl rfl rfl

/-- A record that has not ended is still there after the step, unless the hold that it records is
lifted. -/
theorem record_survives {s : State} (l : Label) {r : Record} (hr : r ∈ s.db.records)
    (hends : s.now ≤ r.validTo) (hunhold : ∀ row ∈ s.db.certificates, row.revoked = true →
      (row.revokeReason = some .certificateHold ∨ row.revokeReason = some .removeFromCRL) →
        ¬ (r.caref = row.caref ∧ r.serialNumber = row.serialNumber)) :
    ∃ q ∈ (step s l).db.records, q.caref = r.caref ∧ q.serialNumber = r.serialNumber := by
  have hdelete : ∀ (db : Db) (id : ℕ), (∃ q ∈ db.records, q.caref = r.caref ∧
      q.serialNumber = r.serialNumber) → ∃ q ∈ (db.deleteCertificate id).records,
        q.caref = r.caref ∧ q.serialNumber = r.serialNumber := by
    rintro db id ⟨q, hq, hcaref, htext⟩
    refine ⟨_, exists_mem_amend hq, ?_⟩
    split <;> exact ⟨hcaref, htext⟩
  have hhouse : ∀ ca : CaRow, ∃ q ∈ (s.db.runHousekeeping s.purgeStale s.autoDelete ca s.now).records,
      q.caref = r.caref ∧ q.serialNumber = r.serialNumber := by
    intro ca
    refine Db.runHousekeeping_rule (P := fun db => ∃ q ∈ db.records, q.caref = r.caref ∧
      q.serialNumber = r.serialNumber) ⟨r, hr, rfl, rfl⟩ ⟨r, ?_, rfl, rfl⟩ hdelete
    exact mem_filter.mpr ⟨hr, by simp [Nat.not_lt.mpr hends]⟩
  generalize hs' : step s l = s'
  have hstep := hs' ▸ step_steps s l
  cases hstep with
  | revoke hrow hrev hreason =>
    simp only [Db.revokeCertificate, hrow]
    split
    · exact exists_putRecord_of_mem hr
    · exact ⟨r, hr, rfl, rfl⟩
  | @unhold id row hrow hrev hreason =>
    have hother := hunhold row (certificate?_mem hrow).1 hrev hreason
    simp only [Db.liftHold, hrow]
    refine ⟨r, mem_filter.mpr ⟨hr, ?_⟩, rfl, rfl⟩
    by_contra hsame
    exact hother (by simpa using hsame)
  | @delete id => exact hdelete s.db id ⟨r, hr, rfl, rfl⟩
  | renew hrow =>
    simp only [Db.renewCertificate, hrow]
    exact exists_putRecord_of_mem hr
  | revokeCa hca hcrt hparent hdb =>
    obtain ⟨-, rfl⟩ := revokeCa_eq hca hcrt hparent hdb
    exact exists_putRecord_of_mem hr
  | housekeeping hca => exact hhouse _
  | @generate caId ca hca hsign => exact hhouse ca
  | _ => exact ⟨r, hr, rfl, rfl⟩

theorem tidy_initial (now : ℕ) (cas : List CaRow) :
    Tidy (initial now cas).db (initial now cas).stored :=
  ⟨.nil, by simp [initial], by simp [initial], .nil, by simp [initial], by simp [initial]⟩

end UltimateCaManager.Revocation
