import UltimateCaManager.RevocationCoherence
import Mathlib.Data.List.Find

/-!
# The full CRL and the responder agree

In a coherent state a serial of an issuer is on one certificate row, or on one CA certificate, or
on records alone. The CRL and the responder are compared in each of the three cases.
-/
namespace UltimateCaManager.Revocation

open List Tables Runs

section Agreement

variable {s : State} {ca : CaRow} {k : Stored} {row : CertRow} {n : ℕ}

/-- The row carries the serial for the issuer of `ca`. -/
def Carries (s : State) (ca : CaRow) (n : ℕ) (row : CertRow) : Prop :=
  row ∈ s.db.certificates ∧ SameIssuer s.db.cas ca.refid row.caref ∧ row.crt.serial = n

theorem Carries.unique (h : Coherent s) {q : CertRow} (hrow : Carries s ca n row)
    (hq : Carries s ca n q) : row = q := by
  obtain ⟨hmem, hsame, hserial⟩ := hrow
  obtain ⟨hmem', hsame', hserial'⟩ := hq
  exact h.tidy.row_eq hmem hmem'
    (h.clear.unique row hmem q hmem' (hsame.symm.trans hsame') (hserial.trans hserial'.symm))

theorem Carries.validTo_eq (h : Coherent s) (hk : k ∈ known s.db.cas s.stored ca.refid)
    (hrow : Carries s ca k.serial row) : row.validTo = some k.notAfter := by
  obtain ⟨hmem, hsame, hserial⟩ := hrow
  have htidy := h.tidy.rows row hmem
  have hknown : row.crt ∈ known s.db.cas s.stored ca.refid :=
    mem_known.mpr (.inl ⟨_, htidy.stored, hsame, rfl⟩)
  have hshares : Shares k.serial row.crt.serial := by
    rw [hserial]
    exact shares_self _
  rw [htidy.ends, (h.discerned _ k hk).2 _ hknown hshares]

/-! ## Certificate rows -/

theorem certificateWithSerial_carries (h : Coherent s) (hca : ca ∈ s.db.cas)
    (hfound : s.db.certificateWithSerial ca n = some row) : Carries s ca n row := by
  have hserial := find?_some hfound
  have hmem : row ∈ s.db.certificates.filter fun row =>
      row.caref ∈ s.db.sameKeyRefids ca && row.serialNumber ∈ serialVariants n := by
    rcases mem_append.mp (mem_of_find?_eq_some hfound) with hmem | hmem
    · exact mem_of_mem_filter hmem
    · exact mem_of_mem_filter hmem
  obtain ⟨hrow, hgroup⟩ := mem_filter.mp hmem
  simp only [Bool.and_eq_true, decide_eq_true_eq] at hgroup hserial
  exact ⟨hrow, (mem_sameKeyRefids h.cas hca).mp hgroup.1, hserial⟩

theorem certificateWithSerial_of_carries (h : Coherent s) (hca : ca ∈ s.db.cas)
    (hrow : Carries s ca n row) : s.db.certificateWithSerial ca n = some row := by
  have hfound : (s.db.certificateWithSerial ca n).isSome := by
    obtain ⟨hmem, hsame, hserial⟩ := hrow
    have htext := (h.tidy.rows row hmem).text.1
    rw [hserial] at htext
    have hgroup := (mem_sameKeyRefids h.cas hca).mpr hsame
    have hselected : row ∈ s.db.certificates.filter fun row =>
        row.caref ∈ s.db.sameKeyRefids ca && row.serialNumber ∈ serialVariants n :=
      mem_filter.mpr ⟨hmem, by simp [hgroup, htext]⟩
    rw [Db.certificateWithSerial, find?_isSome]
    refine ⟨row, mem_append.mpr ?_, by simpa using hserial⟩
    by_cases hrev : row.revoked = true
    · exact .inl (mem_filter.mpr ⟨hselected, hrev⟩)
    · exact .inr (mem_filter.mpr ⟨hselected, by simpa using hrev⟩)
  obtain ⟨found, hsome⟩ := Option.isSome_iff_exists.mp hfound
  rw [hsome, (certificateWithSerial_carries h hca hsome).unique h hrow]

theorem certificateWithSerial_eq_none (h : Coherent s) (hca : ca ∈ s.db.cas)
    (hno : ∀ row, ¬ Carries s ca n row) : s.db.certificateWithSerial ca n = none := by
  cases hfound : s.db.certificateWithSerial ca n with
  | none => rfl
  | some row => exact absurd (certificateWithSerial_carries h hca hfound) (hno row)

/-! ## What the CRL lists -/

/-- The live rows of the CRL that can list the serial. -/
def Db.liveRow (db : Db) (ca : CaRow) (now n : ℕ) : Option CertRow :=
  db.certificates.find? fun row => (row.caref ∈ db.sameKeyRefids ca && row.revoked &&
    notExpired row.validTo now) && row.crt.serial = n

/-- The revoked CAs linked to `ca` that can list it. -/
def Db.liveChild (db : Db) (ca : CaRow) (now n : ℕ) : Option CaRow :=
  db.cas.find? fun child => (child.caref = some ca.refid && child.revoked &&
    notExpired child.validTo now) && child.listed.serial = some n

/-- The records that can list it. -/
def Db.orphan (db : Db) (ca : CaRow) (now n : ℕ) : Option Record :=
  db.recordsByDate.find? fun r => (r.caref ∈ db.sameKeyRefids ca && now < r.validTo) &&
    (serialToInt r.serialNumber = some n && !db.lifted r)

section Agreement

variable (h : Coherent s)

include h

theorem find?_getRevokedCertificates (ca : CaRow) (n : ℕ) :
    (s.db.getRevokedCertificates ca s.now).find? (fun l => l.serial = some n) =
      (((s.db.liveRow ca s.now n).map CertRow.listed).or
        ((s.db.liveChild ca s.now n).map CaRow.listed)).or
          ((s.db.orphan ca s.now n).map Record.listed) := by
  unfold Db.getRevokedCertificates
  rw [find?_listAll]
  · simp [Db.liveRow, Db.liveChild, Db.orphan, CertRow.listed]
  · intro l hl c hc
    rcases mem_append.mp hl with hl | hl
    · obtain ⟨row, hrow, rfl⟩ := mem_map.mp hl
      cases hc
      exact (h.tidy.rows row (mem_of_mem_filter hrow)).text.2
    · obtain ⟨child, hchild, rfl⟩ := mem_map.mp hl
      obtain ⟨crt, hcrt, hspells⟩ := h.cas.columns child (mem_of_mem_filter hchild) c hc
      rw [hspells.2, CaRow.listed, Option.mem_def.mp hcrt]

theorem lifted_of_carries (hrow : Carries s ca n row) (hrev : row.revoked = false)
    {r : Record} (hr : r ∈ s.db.records) (hsame : SameIssuer s.db.cas ca.refid r.caref)
    (hserial : serialToInt r.serialNumber = some n) : s.db.lifted r = true := by
  obtain ⟨hmem, hissuer, hn⟩ := hrow
  have hlink := (h.clear.links row hmem r hr (hn ▸ hserial)).mpr (hissuer.symm.trans hsame)
  rw [Db.lifted, hlink, Option.bind_some, h.tidy.certificate? hmem]
  simp [hrev, sameSerial, Record.listed, CertRow.listed, hserial, hn]

/-- A record is lifted only by a row of its issuer that carries the serial. -/
theorem not_lifted_of_not_carries (hno : ∀ row, ¬ Carries s ca n row) {r : Record}
    (hr : r ∈ s.db.records) (hsame : SameIssuer s.db.cas ca.refid r.caref)
    (hserial : serialToInt r.serialNumber = some n) : s.db.lifted r = false := by
  by_contra hlifted
  obtain ⟨row, hmem, hlink, -, hcarried⟩ := holder_of_lifted h.tidy (by simpa using hlifted)
  have hn : row.crt.serial = n := Option.mem_unique hcarried hserial
  have hissuer := (h.clear.links row hmem r hr hcarried).mp hlink
  exact hno row ⟨hmem, hsame.trans hissuer.symm, hn⟩

/-- Of the records of the issuer, those with a text of the serial are those that are read as it. -/
theorem text_mem_iff (hk : k ∈ known s.db.cas s.stored ca.refid) {r : Record}
    (hr : r ∈ s.db.records) (hsame : SameIssuer s.db.cas ca.refid r.caref) :
    r.serialNumber ∈ serialVariants k.serial ↔ serialToInt r.serialNumber = some k.serial := by
  obtain ⟨m, hm⟩ := h.tidy.records r hr
  have hknown : (⟨m, r.validTo⟩ : Stored) ∈ known s.db.cas s.stored ca.refid :=
    mem_known.mpr (.inl ⟨_, hm.stored, hsame, rfl⟩)
  constructor
  · intro htext
    have heq := (h.discerned _ k hk).2 _ hknown ⟨_, htext, hm.text.1⟩
    rw [heq]
    exact hm.text.2
  · intro hread
    rw [← Option.mem_unique hm.text.2 hread]
    exact hm.text.1

variable (hca : ca ∈ s.db.cas)

include hca

theorem liveRow_carries (hfound : s.db.liveRow ca s.now n = some row) :
    Carries s ca n row ∧ row.revoked = true := by
  have hpred := find?_some hfound
  simp only [Bool.and_eq_true, decide_eq_true_eq] at hpred
  obtain ⟨⟨⟨hgroup, hrev⟩, -⟩, hserial⟩ := hpred
  exact ⟨⟨mem_of_find?_eq_some hfound, (mem_sameKeyRefids h.cas hca).mp hgroup, hserial⟩, hrev⟩

theorem liveChild_child {child : CaRow} (hfound : s.db.liveChild ca s.now n = some child) :
    Child s.db.cas ca.refid n child ∧ child.revoked = true := by
  have hmem := mem_of_find?_eq_some hfound
  have hpred := find?_some hfound
  simp only [Bool.and_eq_true, decide_eq_true_eq] at hpred
  obtain ⟨⟨⟨hlink, hrev⟩, -⟩, hserial⟩ := hpred
  obtain ⟨crt, hcrt, -⟩ := h.backed child hmem hrev
  rw [CaRow.listed, Option.mem_def.mp hcrt] at hserial
  rw [← Option.some.inj hserial]
  exact ⟨child_of_link h.cas hmem hcrt hca ⟨ca.refid, hlink, sameIssuer_self _ _⟩, hrev⟩

theorem orphan_eq_none (hrow : Carries s ca n row) (hrev : row.revoked = false) :
    s.db.orphan ca s.now n = none := by
  refine find?_eq_none.mpr fun r hr hpred => ?_
  simp only [Bool.and_eq_true, decide_eq_true_eq] at hpred
  obtain ⟨⟨hgroup, -⟩, hserial, hkept⟩ := hpred
  have hsame := (mem_sameKeyRefids h.cas hca).mp hgroup
  rw [lifted_of_carries h hrow hrev (mem_recordsByDate.mp hr) hsame hserial] at hkept
  cases hkept

theorem child_id_ne {child : CaRow} (hchild : Child s.db.cas ca.refid n child)
    (hrev : child.revoked = true) : child.id ≠ ca.id := by
  intro hid
  obtain ⟨hmem, crt, hcrt, hissuer, -⟩ := hchild
  obtain ⟨crt', hcrt', -, hself, -⟩ := h.backed child hmem hrev
  have hcrts : crt' = crt := Option.mem_unique hcrt' hcrt
  have hsame : child = ca := eq_of_key h.cas.ids hmem hca hid
  rw [issuerOf_of_mem h.cas hca, ← hsame, CaRow.issuer?, Option.mem_def.mp hcrt,
    h.cas.subjects child hmem crt hcrt] at hissuer
  exact hself (hcrts ▸ (Option.some.inj hissuer).symm)

variable (hk : k ∈ known s.db.cas s.stored ca.refid) (hlive : s.now < k.notAfter)

include hk hlive

theorem liveRow_of_carries (hrow : Carries s ca k.serial row) (hrev : row.revoked = true) :
    s.db.liveRow ca s.now k.serial = some row := by
  have hends := hrow.validTo_eq h hk
  refine find?_unique hrow.1 ?_ fun q hq hpred => ?_
  · have hgroup := (mem_sameKeyRefids h.cas hca).mpr hrow.2.1
    simp [hgroup, hrev, hends, notExpired, hlive, hrow.2.2]
  · simp only [Bool.and_eq_true, decide_eq_true_eq] at hpred
    have hgroup := (mem_sameKeyRefids h.cas hca).mp hpred.1.1.1
    exact Carries.unique h ⟨hq, hgroup, hpred.2⟩ hrow

/-- The record that the CRL lists for a serial that no row carries is the one that the responder
answers from. -/
theorem orphan_eq_persisted (hno : ∀ row, ¬ Carries s ca k.serial row) :
    s.db.orphan ca s.now k.serial = s.db.persistedRevocation ca k.serial := by
  apply find?_congr
  intro r hr
  have hr := mem_recordsByDate.mp hr
  by_cases hgroup : r.caref ∈ s.db.sameKeyRefids ca
  · have hsame := (mem_sameKeyRefids h.cas hca).mp hgroup
    have htext := text_mem_iff h hk hr hsame
    by_cases hserial : serialToInt r.serialNumber = some k.serial
    · have hvalid := h.validTo_eq hk hr hsame hserial
      have hkept := not_lifted_of_not_carries h hno hr hsame hserial
      simp [htext.mpr hserial, hserial, hvalid, hlive, hkept]
    · have hother := mt htext.mp hserial
      simp [hserial, hother]
  · simp [hgroup]

/-- A revoked CA that has not ended is recorded with its issuer, under the reason on its row. -/
theorem persisted_of_child {child : CaRow} (hchild : Child s.db.cas ca.refid k.serial child)
    (hrev : child.revoked = true) :
    ∃ r, s.db.persistedRevocation ca k.serial = some r ∧ r.revokeReason = child.revokeReason := by
  obtain ⟨hmem, crt, hcrt, hissuer, hserial⟩ := hchild
  obtain ⟨crt', hcrt', -, -, hrecord⟩ := h.backed child hmem hrev
  have hcrts : crt' = crt := Option.mem_unique hcrt' hcrt
  rw [hcrts] at hrecord
  have hends : crt.toStored = k := by
    have hknown : crt.toStored ∈ known s.db.cas s.stored ca.refid :=
      mem_known.mpr (.inr ⟨child, hmem, crt, hcrt, hissuer, rfl⟩)
    refine ((h.discerned _ k hk).2 _ hknown ?_).symm
    rw [hserial]
    exact shares_self _
  obtain ⟨r, hr, ⟨-, crt'', hcrt'', hrissuer, -⟩, hread⟩ := hrecord (by
    have hend : crt.notAfter = k.notAfter := congrArg Stored.notAfter hends
    omega)
  have hcrts' : crt'' = crt := Option.mem_unique hcrt'' hcrt
  have hsame : SameIssuer s.db.cas ca.refid r.caref :=
    sameIssuer_of_issuerOf hissuer (hcrts' ▸ hrissuer)
  have hfound : (s.db.persistedRevocation ca k.serial).isSome := by
    rw [Db.persistedRevocation, find?_isSome]
    have hgroup := (mem_sameKeyRefids h.cas hca).mpr hsame
    have htext := (text_mem_iff h hk hr hsame).mpr (hserial ▸ hread)
    exact ⟨r, mem_recordsByDate.mpr hr, by simp [hgroup, htext]⟩
  obtain ⟨q, hq⟩ := Option.isSome_iff_exists.mp hfound
  have hqmem := mem_recordsByDate.mp (mem_of_find?_eq_some hq)
  have hpred := find?_some hq
  simp only [Bool.and_eq_true, decide_eq_true_eq] at hpred
  have hqsame := (mem_sameKeyRefids h.cas hca).mp hpred.1
  have hqread := (text_mem_iff h hk hqmem hqsame).mp hpred.2
  have hqchild : Child s.db.cas ca.refid k.serial child := ⟨hmem, crt, hcrt, hissuer, hserial⟩
  exact ⟨q, hq, (h.clear.records q hqmem _ hqread child (hqchild.sameIssuer hqsame)).2⟩

/-- In a coherent state the responder answers from what the CRL lists. -/
theorem status_iff_listed (reason : Reason) :
    s.db.statusForSerial ca k.serial = .revoked reason ↔
      ∃ l, (s.db.getRevokedCertificates ca s.now).find? (fun l => l.serial = some k.serial) =
        some l ∧ ocspReason l.reason = reason := by
  rw [find?_getRevokedCertificates h, Db.statusForSerial]
  by_cases hrow : ∃ row, Carries s ca k.serial row
  · obtain ⟨row, hrow⟩ := hrow
    rw [certificateWithSerial_of_carries h hca hrow]
    by_cases hrev : row.revoked = true
    · simp [liveRow_of_carries h hca hk hlive hrow hrev, hrev, CertRow.listed]
    · -- a row that is not revoked keeps everything else off the list
      have hrev : row.revoked = false := by simpa using hrev
      have hnorow : s.db.liveRow ca s.now k.serial = none := by
        refine Option.eq_none_iff_forall_not_mem.mpr fun q hfound => ?_
        obtain ⟨hq, hqrev⟩ := liveRow_carries h hca hfound
        rw [hq.unique h hrow, hrev] at hqrev
        cases hqrev
      have hnochild : s.db.liveChild ca s.now k.serial = none := by
        refine Option.eq_none_iff_forall_not_mem.mpr fun child hfound => ?_
        obtain ⟨hmem, hissuer, hserial⟩ := hrow
        have hchild := (liveChild_child h hca hfound).1.sameIssuer hissuer
        exact h.clear.rows row hmem child (hserial ▸ hchild)
      simp [hnorow, hnochild, orphan_eq_none h hca hrow hrev, hrev]
  · have hno := not_exists.mp hrow
    have hnorow : s.db.liveRow ca s.now k.serial = none :=
      Option.eq_none_iff_forall_not_mem.mpr fun q hq => hno q (liveRow_carries h hca hq).1
    rw [certificateWithSerial_eq_none h hca hno, hnorow, orphan_eq_persisted h hca hk hlive hno]
    by_cases hchild : ∃ child, Child s.db.cas ca.refid k.serial child ∧ child.revoked = true
    · obtain ⟨child, hchild, hrev⟩ := hchild
      obtain ⟨r, hr, hreason⟩ := persisted_of_child h hca hk hlive hchild hrev
      rw [childCaForSerial_of_child h.cas hca hchild (child_id_ne h hca hchild hrev), hr]
      cases hfound : s.db.liveChild ca s.now k.serial with
      | none => simp [Record.listed, hreason]
      | some other =>
        rw [(liveChild_child h hca hfound).1.unique h.cas hchild]
        simp [hrev, CaRow.listed]
    · have hnochild : s.db.liveChild ca s.now k.serial = none :=
        Option.eq_none_iff_forall_not_mem.mpr fun q hq => hchild ⟨q, liveChild_child h hca hq⟩
      rw [hnochild]
      cases hfound : s.db.childCaForSerial ca k.serial with
      | none => cases s.db.persistedRevocation ca k.serial <;> simp [Record.listed]
      | some child =>
        have hrev : child.revoked = false := by
          by_contra hrev
          exact hchild ⟨child, childCaForSerial_child h.cas hca hfound, by simpa using hrev⟩
        cases s.db.persistedRevocation ca k.serial <;> simp [hrev, Record.listed]

end Agreement

end Agreement

/-! ## Housekeeping before the CRL -/

section Housekeeping

variable {db db' : Db} {ca : CaRow} {n : ℕ}

instance : Std.Total fun r q : Record => r.before q = true where
  total r q := by
    simp only [Record.before, Bool.or_eq_true, Bool.and_eq_true, decide_eq_true_eq]
    omega

instance : IsTrans Record fun r q => r.before q = true where
  trans r q t := by
    simp only [Record.before, Bool.or_eq_true, Bool.and_eq_true, decide_eq_true_eq]
    omega

theorem persistedRevocation_least {r : Record} (h : db.persistedRevocation ca n = some r) :
    r ∈ db.records ∧ (r.caref ∈ db.sameKeyRefids ca ∧ r.serialNumber ∈ serialVariants n) ∧
      ∀ q ∈ db.records, q.caref ∈ db.sameKeyRefids ca → q.serialNumber ∈ serialVariants n →
        r.before q = true := by
  have hmem := mem_recordsByDate.mp (mem_of_find?_eq_some h)
  obtain ⟨hr, front, back, hsplit, hfront⟩ := find?_eq_some_iff_append.mp h
  simp only [Bool.and_eq_true, decide_eq_true_eq] at hr
  refine ⟨hmem, hr, fun q hq hgroup htext => ?_⟩
  have hsorted : db.recordsByDate.Pairwise fun r q => r.before q = true :=
    pairwise_insertionSort _ _
  have hq : q ∈ front ++ r :: back := hsplit ▸ mem_recordsByDate.mpr hq
  rw [hsplit, pairwise_append, pairwise_cons] at hsorted
  rcases mem_append.mp hq with hq | hq
  · have hnot := hfront q hq
    simp [hgroup, htext] at hnot
  · rcases mem_cons.mp hq with rfl | hq
    · simp [Record.before]
    · exact hsorted.2.1.1 q hq

/-- Two records that differ in their link at most. -/
def Record.Same (r q : Record) : Prop :=
  r.id = q.id ∧ r.caref = q.caref ∧ r.serialNumber = q.serialNumber ∧
    r.revokedAt = q.revokedAt ∧ r.revokeReason = q.revokeReason

/-- The answer of the records stays when those of the serial stay. -/
theorem persistedRevocation_reason (hids : (db.records.map Record.id).Nodup)
    (hcas : db'.cas = db.cas) (hfrom : ∀ q ∈ db'.records, ∃ r ∈ db.records, q.Same r)
    (hto : ∀ r ∈ db.records, r.caref ∈ db.sameKeyRefids ca → r.serialNumber ∈ serialVariants n →
      ∃ q ∈ db'.records, q.Same r) :
    (db'.persistedRevocation ca n).map Record.revokeReason =
      (db.persistedRevocation ca n).map Record.revokeReason := by
  have hrefids : db'.sameKeyRefids ca = db.sameKeyRefids ca := by
    simp [Db.sameKeyRefids, hcas]
  cases hfound : db.persistedRevocation ca n with
  | none =>
    cases hfound' : db'.persistedRevocation ca n with
    | none => rfl
    | some q =>
      obtain ⟨hq, hgroup, -⟩ := persistedRevocation_least hfound'
      obtain ⟨r, hr, -, hcaref, htext, -⟩ := hfrom q hq
      have hnot := find?_eq_none.mp hfound r (mem_recordsByDate.mpr hr)
      rw [hcaref, htext, hrefids] at hgroup
      simp [hgroup.1, hgroup.2] at hnot
  | some r =>
    obtain ⟨hr, hgroup, hleast⟩ := persistedRevocation_least hfound
    obtain ⟨q₀, hq₀, hid₀, hcaref₀, htext₀, hdate₀, -⟩ := hto r hr hgroup.1 hgroup.2
    cases hfound' : db'.persistedRevocation ca n with
    | none =>
      have hnot := find?_eq_none.mp hfound' q₀ (mem_recordsByDate.mpr hq₀)
      simp [hrefids, hcaref₀, htext₀, hgroup.1, hgroup.2] at hnot
    | some q =>
      obtain ⟨hq, hgroup', hleast'⟩ := persistedRevocation_least hfound'
      obtain ⟨r₀, hr₀, hid, hcaref, htext, hdate, hreason⟩ := hfrom q hq
      rw [hcaref, htext, hrefids] at hgroup'
      have hle := hleast r₀ hr₀ hgroup'.1 hgroup'.2
      have hle' := hleast' q₀ hq₀ (by rw [hrefids, hcaref₀]; exact hgroup.1)
        (by rw [htext₀]; exact hgroup.2)
      simp only [Record.before, Bool.or_eq_true, Bool.and_eq_true, decide_eq_true_eq] at hle hle'
      -- each of the two is before the other, so they are the same record
      have hsame : r₀ = r := eq_of_key hids hr₀ hr (by omega)
      rw [Option.map_some, Option.map_some, hreason, hsame]

theorem foldl_deleteCertificate_mem {row : CertRow} (ids : List ℕ) (db : Db)
    (h : row ∈ db.certificates) (hid : row.id ∉ ids) :
    row ∈ (ids.foldl Db.deleteCertificate db).certificates := by
  refine foldlRecOn (motive := fun db : Db => row ∈ db.certificates) ids _ h fun db h i hi => ?_
  exact mem_filter.mpr ⟨h, decide_eq_true fun heq => hid (heq ▸ hi)⟩

theorem runHousekeeping_keeps {stored : List Fact} (ht : Tidy db stored)
    (purgeStale autoDelete : Bool) (ca : CaRow) (now : ℕ) :
    (∀ row ∈ db.certificates, (∀ e ∈ row.validTo, now ≤ e) →
        row ∈ (db.runHousekeeping purgeStale autoDelete ca now).certificates) ∧
      (∀ q ∈ (db.runHousekeeping purgeStale autoDelete ca now).records,
        ∃ r ∈ db.records, q.Same r) ∧
      ∀ r ∈ db.records, now ≤ r.validTo →
        ∃ q ∈ (db.runHousekeeping purgeStale autoDelete ca now).records, q.Same r := by
  refine ⟨fun row hrow hends => ?_, ?_, fun r hr hends => ?_⟩
  · have hrows : (if purgeStale then db.purgeStaleRevokedSerials ca now else db).certificates =
        db.certificates := by split <;> rfl
    unfold Db.runHousekeeping
    simp only
    split
    · refine foldl_deleteCertificate_mem _ _ (hrows ▸ hrow) fun hid => ?_
      obtain ⟨q, hq, hqid⟩ := mem_map.mp hid
      obtain ⟨hqmem, hended⟩ := mem_filter.mp hq
      rw [ht.row_eq (hrows ▸ hqmem) hrow hqid] at hended
      simp only [Bool.and_eq_true, Option.any_eq_true, decide_eq_true_eq] at hended
      obtain ⟨-, e, he, hlt⟩ := hended
      have hle := hends e he
      omega
    · exact hrows ▸ hrow
  · refine Db.runHousekeeping_rule (P := fun d => ∀ q ∈ d.records, ∃ r ∈ db.records, q.Same r)
      (fun q hq => ⟨q, hq, rfl, rfl, rfl, rfl, rfl⟩)
      (fun q hq => ⟨q, mem_of_mem_filter hq, rfl, rfl, rfl, rfl, rfl⟩) fun d id hd => ?_
    exact forall_mem_amend hd fun _ _ _ h => h
  · refine Db.runHousekeeping_rule (P := fun d => ∃ q ∈ d.records, q.Same r)
      ⟨r, hr, rfl, rfl, rfl, rfl, rfl⟩ ⟨r, mem_filter.mpr ⟨hr, ?_⟩, rfl, rfl, rfl, rfl, rfl⟩ ?_
    · simp [Nat.not_lt.mpr hends]
    · rintro d id ⟨q, hq, hsame⟩
      refine ⟨_, exists_mem_amend hq, ?_⟩
      split <;> exact hsame

end Housekeeping

theorem status_housekeeping {s : State} (h : Coherent s) {caId : ℕ} {ca : CaRow}
    (hca : s.db.ca? caId = some ca) {k : Stored} (hk : k ∈ known s.db.cas s.stored ca.refid)
    (hlive : s.now < k.notAfter) :
    (step s (.housekeeping caId)).db.statusForSerial ca k.serial =
      s.db.statusForSerial ca k.serial := by
  obtain ⟨hmem, -⟩ := find?_key hca
  have hafter := h.step (l := .housekeeping caId) trivial
  simp only [step, hca] at hafter ⊢
  obtain ⟨hcas, -, hsub⟩ := runHousekeeping_frame s.db s.purgeStale s.autoDelete ca s.now
  obtain ⟨hrows, hfrom, hto⟩ := runHousekeeping_keeps h.tidy s.purgeStale s.autoDelete ca s.now
  generalize s.db.runHousekeeping s.purgeStale s.autoDelete ca s.now = db at *
  have hchild : db.childCaForSerial ca k.serial = s.db.childCaForSerial ca k.serial := by
    have hrefids : db.sameKeyRefids ca = s.db.sameKeyRefids ca := by simp [Db.sameKeyRefids, hcas]
    rw [Db.childCaForSerial, Db.childCaForSerial, hcas, hrefids]
  have hrow : db.certificateWithSerial ca k.serial = s.db.certificateWithSerial ca k.serial := by
    by_cases hcarried : ∃ row, Carries s ca k.serial row
    · obtain ⟨row, hrow⟩ := hcarried
      have hends := hrow.validTo_eq h hk
      rw [certificateWithSerial_of_carries h hmem hrow]
      refine certificateWithSerial_of_carries hafter (hcas ▸ hmem) ⟨hrows row hrow.1 ?_, ?_⟩
      · simp [hends, hlive.le]
      · simp only [hcas]
        exact hrow.2
    · have hno := not_exists.mp hcarried
      rw [certificateWithSerial_eq_none h hmem hno]
      refine certificateWithSerial_eq_none hafter (hcas ▸ hmem) fun row hrow' => ?_
      obtain ⟨hmem', hsame, hserial⟩ := hrow'
      simp only [hcas] at hsame
      exact hno row ⟨hsub row hmem', hsame, hserial⟩
  have hkept : ∀ r ∈ s.db.records, r.caref ∈ s.db.sameKeyRefids ca →
      r.serialNumber ∈ serialVariants k.serial →
        ∃ q ∈ db.records, q.Same r := by
    intro r hr hgroup htext
    have hsame := (mem_sameKeyRefids h.cas hmem).mp hgroup
    have hread := (text_mem_iff h hk hr hsame).mp htext
    refine hto r hr ?_
    rw [h.validTo_eq hk hr hsame hread]
    exact Nat.le_of_lt hlive
  have hreason := persistedRevocation_reason h.tidy.recordIds hcas hfrom hkept
  simp only [Db.statusForSerial, hrow, hchild]
  cases hfound : s.db.persistedRevocation ca k.serial with
  | none =>
    rw [hfound, Option.map_none, Option.map_eq_none_iff] at hreason
    rw [hreason]
  | some r =>
    rw [hfound, Option.map_some, Option.map_eq_some_iff] at hreason
    obtain ⟨q, hq, hqreason⟩ := hreason
    rw [hq]
    simp [hqreason]

/-- Both formats leave out the reason that a CRL cannot carry. -/
theorem crlReason_getD (reason : Option Reason) :
    (crlReason false reason).getD .unspecified = ocspReason reason := by
  rcases reason with _ | reason
  · rfl
  · cases reason <;> rfl

/-- In every such run, for every CA and every certificate of its issuer that has not ended, the
responder answers revoked if and only if the full CRL generated in that state lists the serial,
and with the reason of the entry. -/
theorem crl_ocsp_agree (now : ℕ) (cas : List CaRow) (hcas : WellFormed cas)
    (hrev : ∀ ca ∈ cas, ca.revoked = false) (s : State)
    (hs : Reach step Orderly (initial now cas) s) (caId : ℕ) (ca : CaRow)
    (hca : s.db.ca? caId = some ca) (hsign : ca.canSign = true) (k : Stored)
    (hk : k ∈ known s.db.cas s.stored ca.refid) (hlive : s.now < k.notAfter) :
    ∃ crl, (step s (.generate caId)).db.crls = s.db.crls ++ [crl] ∧ crl.isDelta = false ∧
      ∀ reason, s.db.statusForSerial ca k.serial = .revoked reason ↔
        ∃ e, crl.entries.find? (fun e => e.serial = k.serial) = some e ∧
          e.reason.getD .unspecified = reason := by
  have h : Coherent s :=
    hs.invariant (coherent_initial now hcas hrev) fun _ _ _ h hl => h.step hl
  have hafter := h.step (l := .housekeeping caId) trivial
  have hstatus := status_housekeeping h hca hk hlive
  obtain ⟨hmem, -⟩ := find?_key hca
  obtain ⟨hcas', hcrls, -⟩ := runHousekeeping_frame s.db s.purgeStale s.autoDelete ca s.now
  have hgenerated : (step s (.generate caId)).db =
      s.db.generateCrl s.purgeStale s.autoDelete ca s.now := by
    simp [step, hca, hsign]
  rw [hgenerated, Db.generateCrl, ← hstatus]
  simp only [step, hca] at hafter ⊢
  simp only [hcrls]
  refine ⟨_, rfl, rfl, fun reason => ?_⟩
  rw [find?_crlEntries false s.now _ (h.discerned _ k hk).1]
  rw [status_iff_listed hafter (hcas'.symm ▸ hmem) (hcas'.symm ▸ hk) hlive reason]
  simp only [Option.map_eq_some_iff]
  constructor
  · rintro ⟨l, hl, hreason⟩
    exact ⟨_, ⟨l, hl, rfl⟩, (crlReason_getD l.reason).trans hreason⟩
  · rintro ⟨e, ⟨l, hl, rfl⟩, hreason⟩
    exact ⟨l, hl, (crlReason_getD l.reason).symm.trans hreason⟩

def subordinateCa : CaRow :=
  ⟨2, 11, some 10, 6, some ⟨⟨171, 1000⟩, 6, 2, 5, 1, some 1⟩, none, some 1000, false, none, none,
    true, false, true, true⟩

/-- Hold and unhold, renewal, CA revocation and the import of a deleted certificate. -/
def ordinaryLife : List Label :=
  [.issue .lowerHex 10 ⟨26, 900⟩, .revoke 1 .certificateHold, .stageUnhold 1, .unhold 1,
    .renew 1 10 ⟨43, 950⟩, .delete 1, .importCertificate none 10 ⟨43, 950⟩,
    .revokeCa 2 .cessationOfOperation, .tick 1]

theorem crl_ocsp_agree_ordinary_life :
    ∃ crl, (step (exec step (initial 0 [rootCa, subordinateCa]) ordinaryLife)
        (.generate 1)).db.crls = [crl] ∧ crl.isDelta = false ∧
      ∀ reason, (exec step (initial 0 [rootCa, subordinateCa]) ordinaryLife).db.statusForSerial
          rootCa 26 = .revoked reason ↔
        ∃ e, crl.entries.find? (fun e => e.serial = 26) = some e ∧
          e.reason.getD .unspecified = reason := by
  have hcas : WellFormed [rootCa, subordinateCa] := by
    constructor <;> decide
  exact crl_ocsp_agree 0 [rootCa, subordinateCa] hcas (by decide) _
    (Reach.start.exec (by decide)) 1 rootCa (by decide) (by decide) ⟨26, 900⟩ (by decide) (by decide)

/-- A certificate that was revoked and deleted is imported again: its row answers good, its record
keeps it on the CRL. -/
theorem reimported_certificate_answered_good :
    let s := exec step (initial 0 [rootCa])
      [.issue .decimal 10 ⟨26, 900⟩, .revoke 1 .keyCompromise, .delete 1,
        .importCertificate none 10 ⟨26, 900⟩]
    s.db.statusForSerial rootCa 26 = .good ∧
      (step s (.generate 1)).db.crls.map Crl.entries = [[⟨26, 0, some .keyCompromise⟩]] := by
  decide

end UltimateCaManager.Revocation
