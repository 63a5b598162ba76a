import UltimateCaManager.RevocationTidy

/-!
# Revocation is permanent

A revoked or superseded serial has a record, and the record is on every full CRL until the
certificate ends: it survives the deletion and the renewal of the row, and no purge reaches it
before. This needs that the text of the serial is read back, that a serial names one certificate
of its CA, and that a row does not take up a serial again whose record is linked to it.
-/
namespace UltimateCaManager.Revocation

open List Tables Runs

/-- No other certificate of the CA has the serial. -/
def State.Consistent (s : State) (caref : ℕ) (crt : Stored) : Prop :=
  ∀ f ∈ s.stored, f.caref = caref → f.serial = crt.serial → f.notAfter = crt.notAfter
  deriving Decidable

/-- No record linked to the row names the serial. -/
def State.Unlinked (s : State) (id serial : ℕ) : Prop :=
  ∀ r ∈ s.db.records, r.certificateId = some id → serialToInt r.serialNumber ≠ some serial
  deriving Decidable

/-- A new certificate has a serial that a CRL can carry and that names no other certificate. -/
def State.Admits (s : State) (caref : ℕ) (crt : Stored) : Prop :=
  inRange crt.serial = true ∧ s.Consistent caref crt
  deriving Decidable

/-- The steps under which revocation is permanent. -/
def Permanent (s : State) : Label → Prop
  | .issue spelling caref crt => spelling.ReadsBack crt.serial ∧ s.Admits caref crt
  | .importCertificate none caref crt => s.Admits caref crt
  | .importCertificate (some id) caref crt => s.Admits caref crt ∧
    ∀ row ∈ s.db.certificate? id, row.crt.serial ≠ crt.serial → s.Unlinked id crt.serial
  | .renew id caref crt => Spelling.lowerHex.ReadsBack crt.serial ∧ s.Admits caref crt ∧
    ∀ row ∈ s.db.certificate? id, s.Consistent caref row.crt ∧ row.crt.serial ≠ crt.serial ∧
      s.Unlinked id crt.serial
  | .revoke _ reason => reason ≠ .certificateHold
  | .revokeCa .. => False
  | _ => True

instance (s : State) (l : Label) : Decidable (Permanent s l) := by
  induction l using Label.casesOn <;> unfold Permanent <;> try infer_instance
  induction ‹Option ℕ› using Option.casesOn <;> infer_instance

variable {s : State} {l : Label} {f : Fact} {r : Record} {db : Db}

theorem Permanent.readable (h : Permanent s l) : l.Readable := by
  cases l with
  | issue | renew => exact h.1
  | _ => trivial

/-! ## Records that were not lifted -/

/-- A record of the serial that its linked row carries is that of a revoked row. -/
def Db.Unlifted (db : Db) : Prop :=
  ∀ r ∈ db.records, ∀ row ∈ db.certificates, r.certificateId = some row.id →
    serialToInt r.serialNumber = some row.crt.serial → row.revoked = true

section Unlifted

variable {db : Db} {stored : List Fact} {id caref instant : ℕ} {crt : Stored}

theorem Db.Unlifted.insertCertificate (h : db.Unlifted) (ht : Tidy db stored) (text : List Char) :
    (db.insertCertificate caref crt text).Unlifted := by
  intro r hr row hrow hlink hserial
  rcases mem_concat.mp hrow with hrow | hrow
  · exact h r hr row hrow hlink hserial
  · -- no record is linked to the new row
    have hid : row.id = db.nextId := by rw [hrow]
    obtain ⟨q, hq, hqid⟩ := ht.links r hr row.id hlink
    have hlt := ht.lt_nextId hq
    omega

theorem Db.Unlifted.updateCertificate (h : db.Unlifted)
    (hguard : ∀ row ∈ db.certificates, row.id = id → row.crt.serial ≠ crt.serial →
      ∀ r ∈ db.records, r.certificateId = some id →
        serialToInt r.serialNumber ≠ some crt.serial) :
    (db.updateCertificate id caref crt).Unlifted := by
  intro r hr row hrow hlink hserial
  rcases mem_setCertificate hrow with ⟨hrow, -⟩ | ⟨q, hq, hid, rfl⟩
  · exact h r hr row hrow hlink hserial
  · by_cases hsame : q.crt.serial = crt.serial
    · simp only [ne_eq, hsame, not_true_eq_false, if_false] at hlink hserial ⊢
      exact h r hr q hq hlink (hserial.trans (by rw [hsame]))
    · simp only [ne_eq, hsame] at hlink hserial
      exact absurd hserial (hguard q hq hid hsame r hr (hid ▸ hlink))

theorem Db.Unlifted.revokeCertificate (h : db.Unlifted) (ht : Tidy db stored) (reason : Reason) :
    (db.revokeCertificate id reason instant).Unlifted := by
  have hmarked : (db.setCertificate id fun row => { row with
      revoked := true, revokedAt := some instant, revokeReason := some reason }).Unlifted := by
    intro r hr row hrow hlink hserial
    rcases mem_setCertificate hrow with ⟨hrow, -⟩ | ⟨q, hq, hid, rfl⟩
    · exact h r hr row hrow hlink hserial
    · rfl
  unfold Db.revokeCertificate
  split
  · exact h
  · split
    · intro r hr row hrow hlink hserial
      rw [certificates_putRecord] at hrow
      rcases mem_putRecord hr ht.recordIds with hr | ⟨-, -, -, -, hnew⟩
      · exact hmarked r hr row hrow hlink hserial
      · have hself : r.certificateId = some id := by
          rcases hnew with hnew | ⟨-, -, -, -, hnew⟩ <;> exact hnew
        have hid : row.id = id := Option.mem_unique hlink hself
        rcases mem_setCertificate hrow with ⟨-, hne⟩ | ⟨q, -, -, rfl⟩
        · exact absurd hid hne
        · rfl
    · exact hmarked

theorem Db.Unlifted.deleteCertificate (h : db.Unlifted) (id : ℕ) :
    (db.deleteCertificate id).Unlifted := by
  intro r hr row hrow hlink hserial
  rcases mem_amend.mp hr with ⟨hr, -⟩ | ⟨q, hq, -, rfl⟩
  · exact h r hr row (mem_of_mem_filter hrow) hlink hserial
  · cases hlink

theorem Db.Unlifted.filterRecords (h : db.Unlifted) (p : Record → Bool) :
    { db with records := db.records.filter p }.Unlifted :=
  fun r hr row hrow => h r (mem_of_mem_filter hr) row hrow

theorem Db.Unlifted.renewCertificate (h : db.Unlifted) (ht : Tidy db stored) {row : CertRow}
    (hrow : db.certificate? id = some row) (hne : row.crt.serial ≠ crt.serial)
    (hguard : ∀ r ∈ db.records, r.certificateId = some id →
      serialToInt r.serialNumber ≠ some crt.serial) :
    (db.renewCertificate id caref crt instant).Unlifted := by
  obtain ⟨hmem, -⟩ := certificate?_mem hrow
  have htext := (ht.rows row hmem).text
  intro r hr q hq hlink hserial
  simp only [Db.renewCertificate, hrow, certificates_putRecord] at hr hq
  rcases mem_setCertificate hq with ⟨hq, hqid⟩ | ⟨q₀, -, hid, rfl⟩
  · -- another row, to which the superseded record is not linked
    rcases mem_putRecord hr ht.recordIds with hr | ⟨-, -, -, -, hnew⟩
    · exact h r hr q hq hlink hserial
    · have hself : r.certificateId = some id := by
        rcases hnew with hnew | ⟨-, -, -, -, hnew⟩ <;> exact hnew
      exact absurd (Option.mem_unique hlink hself) hqid
  · -- the renewed row, whose serial no linked record names
    rcases mem_putRecord hr ht.recordIds with hr | ⟨-, hold, -, -⟩
    · exact absurd hserial (hguard r hr (hid ▸ hlink))
    · rw [hold, htext.2] at hserial
      exact absurd (Option.some.inj hserial) hne

theorem Db.Unlifted.runHousekeeping (h : db.Unlifted) (purgeStale autoDelete : Bool) (ca : CaRow)
    (now : ℕ) : (db.runHousekeeping purgeStale autoDelete ca now).Unlifted :=
  Db.runHousekeeping_rule h (h.filterRecords _) fun _ i hdb => hdb.deleteCertificate i

end Unlifted

/-! ## The invariant -/

/-- A serial names one certificate of a CA, and one that a CRL can carry. -/
structure Distinct (stored : List Fact) : Prop where
  range : ∀ f ∈ stored, inRange f.serial = true
  ends : ∀ f ∈ stored, ∀ g ∈ stored, f.caref = g.caref → f.serial = g.serial →
    f.notAfter = g.notAfter

def Db.Calm (db : Db) : Prop :=
  ∀ row ∈ db.certificates,
    row.revokeReason ≠ some .certificateHold ∧ row.revokeReason ≠ some .removeFromCRL

theorem Db.Calm.not_held (h : db.Calm) {row : CertRow} (hrow : row ∈ db.certificates) :
    ¬(row.revokeReason = some .certificateHold ∨ row.revokeReason = some .removeFromCRL) :=
  not_or.mpr (h row hrow)

/-- The record that puts a revoked certificate on the CRLs of its CA. -/
def Db.Remembers (db : Db) (f : Fact) : Prop :=
  ∃ r ∈ db.records, r.caref = f.caref ∧ serialToInt r.serialNumber = some f.serial

structure Lasting (s : State) : Prop where
  tidy : Tidy s.db s.stored
  distinct : Distinct s.stored
  unlifted : s.db.Unlifted
  calm : s.db.Calm
  trusted : ∀ ca ∈ s.db.cas, ca.revoked = false
  known : ∀ f ∈ s.revoked, f ∈ s.stored
  kept : ∀ f ∈ s.revoked, s.now ≤ f.notAfter → (∃ ca ∈ s.db.cas, ca.refid = f.caref) →
    s.db.Remembers f

theorem Distinct.append {stored : List Fact} (h : Distinct stored)
    (hrange : inRange f.serial = true)
    (hends : ∀ g ∈ stored, g.caref = f.caref → g.serial = f.serial → g.notAfter = f.notAfter) :
    Distinct (stored ++ [f]) := by
  refine ⟨forall_mem_concat.mpr ⟨h.range, hrange⟩, fun g hg k hk hcaref hserial => ?_⟩
  · rcases mem_concat.mp hg with hg' | rfl <;> rcases mem_concat.mp hk with hk' | rfl
    · exact h.ends g hg' k hk' hcaref hserial
    · exact hends g hg' hcaref hserial
    · exact (hends k hk' hcaref.symm hserial.symm).symm
    · rfl

theorem distinct_step (h : Lasting s) (hl : Permanent s l) : Distinct (step s l).stored := by
  generalize hs' : step s l = s'
  have hstep := hs' ▸ step_steps s l
  have hnew : ∀ {caref crt}, s.Admits caref crt → Distinct (s.stored ++ [crt.fact caref]) :=
    fun hadm => h.distinct.append hadm.1 fun g hg => hadm.2 g hg
  cases hstep with
  | issue => exact hnew hl.2
  | imported => exact hnew hl
  | updated => exact hnew hl.1
  | @renew id caref crt row hrow =>
    obtain ⟨-, hadm, hrest⟩ := hl
    obtain ⟨hcons, hne, -⟩ := hrest row hrow
    obtain ⟨hmem, -⟩ := certificate?_mem hrow
    have hrange := h.distinct.range _ (h.tidy.rows row hmem).stored
    have hboth := (hnew hadm).append (f := row.crt.fact caref) hrange fun g hg hcaref hserial => by
      rcases mem_concat.mp hg with hg | rfl
      · exact hcons g hg hcaref hserial
      · exact absurd hserial.symm hne
    simpa using hboth
  | revokeCa => exact hl.elim
  | _ => exact h.distinct

theorem unlifted_step (h : Lasting s) (hl : Permanent s l) : (step s l).db.Unlifted := by
  generalize hs' : step s l = s'
  have hstep := hs' ▸ step_steps s l
  cases hstep with
  | issue | imported => exact h.unlifted.insertCertificate h.tidy _
  | @updated id caref crt =>
    refine h.unlifted.updateCertificate fun row hrow hid hne => hl.2 row ?_ hne
    rw [← hid]
    exact h.tidy.certificate? hrow
  | revoke hrow hrev hreason => exact h.unlifted.revokeCertificate h.tidy _
  | stageUnhold hrow hrev hreason => exact absurd hreason (h.calm _ (certificate?_mem hrow).1).1
  | unhold hrow hrev hreason => exact absurd hreason (h.calm.not_held (certificate?_mem hrow).1)
  | delete => exact h.unlifted.deleteCertificate _
  | renew hrow =>
    obtain ⟨-, -, hrest⟩ := hl
    obtain ⟨-, hne, hunlinked⟩ := hrest _ hrow
    exact h.unlifted.renewCertificate h.tidy hrow hne hunlinked
  | revokeCa => exact hl.elim
  | housekeeping hca => exact h.unlifted.runHousekeeping _ _ _ _
  | @generate caId ca hca hsign =>
    have hhouse := h.unlifted.runHousekeeping s.purgeStale s.autoDelete ca s.now
    exact hhouse
  | _ => exact h.unlifted

theorem cas_step (hl : ∀ caId reason, l ≠ .revokeCa caId reason) :
    (step s l).db.cas = s.db.cas := by
  generalize hs' : step s l = s'
  have hstep := hs' ▸ step_steps s l
  cases hstep with
  | revoke hrow hrev hreason => exact cas_revokeCertificate _
  | unhold hrow hrev hreason => simp only [Db.liftHold, hrow]; rfl
  | renew hrow => simp only [Db.renewCertificate, hrow]; exact cas_putRecord
  | @revokeCa caId reason => exact absurd rfl (hl caId reason)
  | housekeeping | generate => exact (runHousekeeping_frame _ _ _ _ _).1
  | _ => rfl

theorem calm_step (h : Lasting s) (hl : Permanent s l) : (step s l).db.Calm := by
  generalize hs' : step s l = s'
  have hstep := hs' ▸ step_steps s l
  have hinsert : ∀ {caref crt text}, (s.db.insertCertificate caref crt text).Calm :=
    forall_mem_concat.mpr ⟨h.calm, by simp, by simp⟩
  have hset : ∀ {id} {f : CertRow → CertRow}, (∀ row ∈ s.db.certificates,
      (f row).revokeReason ≠ some .certificateHold ∧
        (f row).revokeReason ≠ some .removeFromCRL) → (s.db.setCertificate id f).Calm :=
    fun hf => forall_mem_amend h.calm fun q hq _ _ => hf q hq
  cases hstep with
  | issue | imported => exact hinsert
  | updated =>
    refine hset fun row hrow => ?_
    split
    · exact ⟨by simp, by simp⟩
    · exact h.calm row hrow
  | @revoke id reason row hrow hrev hreason =>
    have hhold : reason ≠ .certificateHold := hl
    have hmarked : (s.db.setCertificate id fun row => { row with
        revoked := true, revokedAt := some s.now, revokeReason := some reason }).Calm :=
      hset fun _ _ => ⟨by simpa using hhold, by simpa using hreason⟩
    simp only [Db.revokeCertificate, hrow]
    split
    · intro q hq
      rw [certificates_putRecord] at hq
      exact hmarked q hq
    · exact hmarked
  | stageUnhold hrow hrev hreason => exact absurd hreason (h.calm _ (certificate?_mem hrow).1).1
  | unhold hrow hrev hreason => exact absurd hreason (h.calm.not_held (certificate?_mem hrow).1)
  | delete => exact fun row hrow => h.calm row (mem_of_mem_filter hrow)
  | renew hrow =>
    intro q hq
    simp only [Db.renewCertificate, hrow, certificates_putRecord] at hq
    exact hset (fun _ _ => ⟨by simp, by simp⟩) q hq
  | revokeCa => exact hl.elim
  | housekeeping | generate =>
    exact fun row hrow => h.calm row ((runHousekeeping_frame _ _ _ _ _).2.2 row hrow)
  | _ => exact h.calm

theorem Lasting.validTo_eq (h : Lasting s) (hf : f ∈ s.stored)
    (hr : r ∈ s.db.records) (hcaref : r.caref = f.caref)
    (hserial : serialToInt r.serialNumber = some f.serial) : r.validTo = f.notAfter := by
  obtain ⟨n, hn⟩ := h.tidy.records r hr
  have heq : n = f.serial := Option.mem_unique hn.text.2 hserial
  exact h.distinct.ends _ hn.stored f hf hcaref heq

theorem now_le_step (s : State) (l : Label) : s.now ≤ (step s l).now := by
  generalize hs' : step s l = s'
  have hstep := hs' ▸ step_steps s l
  cases hstep with
  | tick => exact Nat.le_add_right _ _
  | _ => exact Nat.le_refl _

theorem stored_subset (s : State) (l : Label) : s.stored ⊆ (step s l).stored := by
  generalize hs' : step s l = s'
  have hstep := hs' ▸ step_steps s l
  cases hstep with
  | issue | imported | updated | renew | revokeCa => exact subset_append_left _ _
  | _ => exact List.Subset.refl _

theorem revoked_step (h : Lasting s)
    (hf : f ∈ (step s l).revoked) : f ∈ s.revoked ∨ f ∈ (step s l).stored ∧
      ((∃ ca ∈ s.db.cas, ca.refid = f.caref) → (step s l).db.Remembers f) := by
  generalize hs' : step s l = s' at hf ⊢
  have hstep := hs' ▸ step_steps s l
  cases hstep with
  | @revoke id reason row hrow hrev hreason =>
    rcases mem_concat.mp hf with hf | rfl
    · exact .inl hf
    · have htidy := h.tidy.rows row (certificate?_mem hrow).1
      refine .inr ⟨htidy.stored, fun ⟨ca, hca, hrefid⟩ => ?_⟩
      have hknown : (s.db.caByRefid? row.caref).isSome = true :=
        find?_isSome.mpr ⟨ca, hca, by simpa [CertRow.fact] using hrefid⟩
      simp only [Db.revokeCertificate, hrow, hknown, if_true]
      obtain ⟨q, hq, hcaref, htext⟩ := exists_putRecord
      exact ⟨q, hq, hcaref, by rw [htext]; exact htidy.text.2⟩
  | @renew id caref crt row hrow =>
    rcases mem_concat.mp hf with hf | rfl
    · exact .inl hf
    · have htidy := h.tidy.rows row (certificate?_mem hrow).1
      refine .inr ⟨by simp, fun _ => ?_⟩
      simp only [Db.renewCertificate, hrow]
      obtain ⟨q, hq, hcaref, htext⟩ := exists_putRecord
      exact ⟨q, hq, hcaref, by rw [htext]; exact htidy.text.2⟩
  | _ => exact .inl hf

theorem remembers_step (h : Lasting s)
    (hf : f ∈ s.revoked) (hends : s.now ≤ f.notAfter) (hca : ∃ ca ∈ s.db.cas, ca.refid = f.caref) :
    (step s l).db.Remembers f := by
  obtain ⟨r, hr, hcaref, hserial⟩ := h.kept f hf hends hca
  have hvalid := h.validTo_eq (h.known f hf) hr hcaref hserial
  obtain ⟨q, hq, hqcaref, hqtext⟩ := record_survives l hr (hvalid ▸ hends)
    fun row hrow _ hreason => absurd hreason (h.calm.not_held hrow)
  exact ⟨q, hq, hqcaref.trans hcaref, by rw [hqtext]; exact hserial⟩

theorem Lasting.step (h : Lasting s) (hl : Permanent s l) : Lasting (step s l) := by
  have hcas := cas_step (s := s) (l := l) fun caId reason heq => by
    rw [heq] at hl
    exact hl
  refine ⟨tidy_step hl.readable h.tidy, distinct_step h hl, unlifted_step h hl, calm_step h hl,
    hcas ▸ h.trusted, ?_, ?_⟩
  · intro f hf
    rcases revoked_step h hf with hf | ⟨hf, -⟩
    · exact stored_subset s l (h.known f hf)
    · exact hf
  · intro f hf hends hca
    rw [hcas] at hca
    rcases revoked_step h hf with hf | ⟨-, hnew⟩
    · exact remembers_step h hf ((now_le_step s l).trans hends) hca
    · exact hnew hca

theorem lasting_reach {now : ℕ} {cas : List CaRow} (hcas : ∀ ca ∈ cas, ca.revoked = false)
    (h : Reach step Permanent (initial now cas) s) : Lasting s := by
  refine h.invariant ?_ fun s l _ hs hl => hs.step hl
  refine ⟨tidy_initial now cas, ⟨?_, ?_⟩, ?_, ?_, hcas, ?_, ?_⟩ <;>
    simp [initial, Db.Unlifted, Db.Calm]

/-! ## The CRL -/

/-- A record is lifted by the row that it is linked to, when that row carries its serial and is not
revoked. -/
theorem holder_of_lifted {stored : List Fact} (ht : Tidy db stored)
    (h : db.lifted r = true) : ∃ row ∈ db.certificates, r.certificateId = some row.id ∧
      row.revoked = false ∧ serialToInt r.serialNumber = some row.crt.serial := by
  unfold Db.lifted at h
  split at h
  · cases h
  · next holder hholder =>
    obtain ⟨id, hlink, hfind⟩ := Option.bind_eq_some_iff.mp hholder
    obtain ⟨hmem, hid⟩ := certificate?_mem hfind
    simp only [Bool.and_eq_true, Bool.not_eq_eq_eq_not, sameSerial, Bool.or_eq_true,
      Record.listed, CertRow.listed, Option.isSome_some, Option.some.injEq, decide_eq_true_eq,
      true_and] at h
    obtain ⟨hrev, hsame⟩ := h
    refine ⟨holder, hmem, hid ▸ hlink, hrev, ?_⟩
    rcases hsame with htext | ⟨-, hserial⟩
    · rw [htext]
      exact (ht.rows holder hmem).text.2
    · exact of_decide_eq_true hserial

theorem Lasting.not_lifted (h : Lasting s) (hr : r ∈ s.db.records) : s.db.lifted r = false := by
  by_contra hlifted
  obtain ⟨row, hmem, hlink, hrev, hserial⟩ := holder_of_lifted h.tidy (by simpa using hlifted)
  have hrevoked := h.unlifted r hr row hmem hlink hserial
  rw [hrev] at hrevoked
  cases hrevoked

theorem mem_recordsByDate : r ∈ db.recordsByDate ↔ r ∈ db.records :=
  mem_insertionSort _

theorem Lasting.listed (h : Lasting s) {ca : CaRow} (hf : f ∈ s.stored) (hkept : s.db.Remembers f)
    (hissuer : f.caref ∈ s.db.sameKeyRefids ca) (hends : s.now < f.notAfter) :
    ((s.db.getRevokedCertificates ca s.now).find? fun l => l.serial = some f.serial).isSome := by
  obtain ⟨r, hr, hcaref, hserial⟩ := hkept
  have hvalid := h.validTo_eq hf hr hcaref hserial
  have hchildren : (s.db.cas.filter fun child =>
      child.caref = some ca.refid && child.revoked && notExpired child.validTo s.now) = [] := by
    refine filter_eq_nil_iff.mpr fun child hchild => ?_
    simp [h.trusted child hchild]
  unfold Db.getRevokedCertificates
  simp only [hchildren, map_nil, append_nil]
  rw [find?_listAll]
  · rw [Option.isSome_or, Option.isSome_map, Bool.or_eq_true]
    refine .inr (find?_isSome.mpr ⟨r, mem_filter.mpr ⟨mem_recordsByDate.mpr hr, ?_⟩, ?_⟩)
    · simp [hcaref, hissuer, hvalid, hends]
    · simp [hserial, h.not_lifted hr]
  · intro l hl c hc
    obtain ⟨row, hrow, rfl⟩ := mem_map.mp hl
    cases hc
    exact (h.tidy.rows row (mem_of_mem_filter hrow)).text.2

theorem exists_refid {ca : CaRow} {caref : ℕ} (hca : ca ∈ db.cas)
    (h : caref ∈ db.sameKeyRefids ca) : ∃ other ∈ db.cas, other.refid = caref := by
  rcases mem_cons.mp h with hself | h
  · exact ⟨ca, hca, hself.symm⟩
  · cases hcrt : ca.crt with
    | none => simp [hcrt] at h
    | some crt =>
      simp only [hcrt] at h
      obtain ⟨other, hother, rfl⟩ := mem_map.mp h
      exact ⟨other, mem_of_mem_filter hother, rfl⟩

/-- In every such run, a full CRL generated by the CA of a revoked or superseded certificate before
that certificate ends lists its serial. -/
theorem revocation_permanent (now : ℕ) (cas : List CaRow) (hcas : ∀ ca ∈ cas, ca.revoked = false)
    (s : State) (hs : Reach step Permanent (initial now cas) s) (caId : ℕ) (ca : CaRow)
    (hca : s.db.ca? caId = some ca) (hsign : ca.canSign = true) (f : Fact) (hf : f ∈ s.revoked)
    (hissuer : f.caref ∈ s.db.sameKeyRefids ca) (hends : s.now < f.notAfter) :
    ∃ crl, (step s (.generate caId)).db.crls = s.db.crls ++ [crl] ∧ crl.isDelta = false ∧
      ∃ e ∈ crl.entries, e.serial = f.serial := by
  have hlasting := lasting_reach hcas hs
  -- the CRL is generated from the tables as housekeeping leaves them
  have hafter := hlasting.step (l := .housekeeping caId) trivial
  obtain ⟨hcas', hcrls, -⟩ := runHousekeeping_frame s.db s.purgeStale s.autoDelete ca s.now
  have hkept : (step s (.housekeeping caId)).db.Remembers f :=
    remembers_step hlasting (l := .housekeeping caId) hf (Nat.le_of_lt hends)
      (exists_refid (find?_key hca).1 hissuer)
  simp only [step, hca] at hafter hkept
  have hrefids : (s.db.runHousekeeping s.purgeStale s.autoDelete ca s.now).sameKeyRefids ca =
      s.db.sameKeyRefids ca := by
    simp [Db.sameKeyRefids, hcas']
  have hlisted := hafter.listed (hlasting.known f hf) hkept (hrefids ▸ hissuer) hends
  have hentry := find?_crlEntries false s.now
    ((s.db.runHousekeeping s.purgeStale s.autoDelete ca s.now).getRevokedCertificates ca s.now)
    (hlasting.distinct.range f (hlasting.known f hf))
  obtain ⟨l, hl⟩ := Option.isSome_iff_exists.mp hlisted
  rw [hl] at hentry
  have hgenerated : (step s (.generate caId)).db =
      s.db.generateCrl s.purgeStale s.autoDelete ca s.now := by
    simp [step, hca, hsign]
  rw [hgenerated, Db.generateCrl]
  simp only [hcrls]
  exact ⟨_, rfl, rfl, _, mem_of_find?_eq_some hentry, rfl⟩

/-- A certificate is issued under a hexadecimal serial, superseded by its renewal, and the renewed
one is revoked and deleted. -/
def revokedAndDeleted (serial renewed : ℕ) : List Label :=
  [.issue .lowerHex 10 ⟨serial, 900⟩, .tick 1, .renew 1 10 ⟨renewed, 950⟩, .revoke 1 .keyCompromise,
    .delete 1]

theorem revocation_permanent_after_delete :
    ∃ crl, (step (exec step (initial 0 [rootCa]) (revokedAndDeleted 26 43)) (.generate 1)).db.crls =
        [crl] ∧ crl.isDelta = false ∧ ∃ e ∈ crl.entries, e.serial = 26 :=
  revocation_permanent 0 [rootCa] (by decide) _ (Reach.start.exec (by decide)) 1 rootCa (by decide)
    (by decide) ⟨10, 26, 900⟩ (by decide) (by decide) (by decide)

/-- The hexadecimal text of 16 is `10`. Once the row is gone its record is read as decimal, and the
CRL lists ten in place of sixteen. -/
theorem hexadecimal_serial_misread :
    let s := exec step (initial 0 [rootCa])
      [.issue .lowerHex 10 ⟨16, 900⟩, .revoke 1 .keyCompromise, .delete 1, .generate 1]
    s.revoked = [⟨10, 16, 900⟩] ∧ s.now < 900 ∧
      s.db.crls.map (fun crl => crl.entries.map CrlEntry.serial) = [[10]] := by
  decide

end UltimateCaManager.Revocation
