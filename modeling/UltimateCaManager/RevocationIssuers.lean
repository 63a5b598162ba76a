import UltimateCaManager.RevocationTidy

/-!
# Issuers

An issuer is a name with a key, and several CA records can stand for it: what was linked to one of
them is the issuer's. The records of an issuer, its certificates and the CA certificates that it
signed are found by the queries of the CRL and of the responder through different columns; on a
well-formed table they find the same ones.
-/
namespace UltimateCaManager.Revocation

open List Tables

structure Issuer where
  name : ℕ
  key : ℕ
  deriving DecidableEq

/-- The issuer that a CA record stands for, once it has its certificate. -/
def CaRow.issuer? (ca : CaRow) : Option Issuer :=
  ca.crt.map fun crt => ⟨ca.subject, crt.key⟩

/-- The issuer of the certificate of a CA. -/
def CaStored.signedBy (crt : CaStored) : Issuer := ⟨crt.issuer, crt.signer⟩

/-- Two serials share a text, so that a column cannot tell them apart. -/
def Shares (m n : ℕ) : Prop := ∃ c ∈ serialVariants m, c ∈ serialVariants n
  deriving Decidable

theorem shares_self (n : ℕ) : Shares n n :=
  ⟨Spelling.decimal.write n, (spells_decimal n).1, (spells_decimal n).1⟩

theorem Shares.symm {m n : ℕ} (h : Shares m n) : Shares n m := by
  obtain ⟨c, hm, hn⟩ := h
  exact ⟨c, hn, hm⟩

/-- A table of CA certificates as their issuers made them: each names its signer, is linked to no
other CA than its signer, and has a serial of its own. -/
structure WellFormed (cas : List CaRow) : Prop where
  ids : (cas.map CaRow.id).Nodup
  refids : (cas.map CaRow.refid).Nodup
  columns : ∀ ca ∈ cas, ∀ c ∈ ca.serialNumber, ∃ crt ∈ ca.crt, Spells c crt.serial
  subjects : ∀ ca ∈ cas, ∀ crt ∈ ca.crt, ca.subject = crt.subject
  signers : ∀ ca ∈ cas, ∀ crt ∈ ca.crt, ∀ other ∈ cas, ∀ i ∈ other.issuer?,
    i.key = crt.signer → i = crt.signedBy
  links : ∀ ca ∈ cas, ∀ crt ∈ ca.crt, ∀ other ∈ cas, ca.caref = some other.refid →
    other.issuer? = some crt.signedBy
  serials : ∀ ca ∈ cas, ∀ crt ∈ ca.crt, ∀ other ∈ cas, ∀ crt' ∈ other.crt,
    crt.signedBy = crt'.signedBy → Shares crt.serial crt'.serial → ca.id = other.id
  range : ∀ ca ∈ cas, ∀ crt ∈ ca.crt, inRange crt.serial = true

section Definitions

variable (cas : List CaRow)

/-- The issuer that the record `refid` stands for. -/
def issuerOf (refid : ℕ) : Option Issuer :=
  (cas.find? fun ca => ca.refid = refid).bind CaRow.issuer?

def SameIssuer (a b : ℕ) : Prop :=
  a = b ∨ (issuerOf cas a).isSome ∧ issuerOf cas a = issuerOf cas b
  deriving Decidable

/-- The certificate of `child` carries the serial and was signed by the issuer of the record `a`. -/
def Child (a n : ℕ) (child : CaRow) : Prop :=
  child ∈ cas ∧ ∃ crt ∈ child.crt, issuerOf cas a = some crt.signedBy ∧ crt.serial = n

end Definitions

section Issuers

variable {db : Db} {a b c n : ℕ} {ca child parent : CaRow} {crt : CaStored}

theorem sameIssuer_self (cas : List CaRow) (a : ℕ) : SameIssuer cas a a := .inl rfl

variable {cas : List CaRow}

theorem SameIssuer.symm (h : SameIssuer cas a b) : SameIssuer cas b a := by
  rcases h with rfl | ⟨hsome, heq⟩
  · exact .inl rfl
  · exact .inr ⟨heq ▸ hsome, heq.symm⟩

theorem SameIssuer.trans (hab : SameIssuer cas a b) (hbc : SameIssuer cas b c) :
    SameIssuer cas a c := by
  rcases hab with rfl | ⟨hsome, heq⟩
  · exact hbc
  · rcases hbc with rfl | ⟨-, heq'⟩
    · exact .inr ⟨hsome, heq⟩
    · exact .inr ⟨hsome, heq.trans heq'⟩

theorem SameIssuer.issuerOf_eq (h : SameIssuer cas a b) : issuerOf cas a = issuerOf cas b := by
  rcases h with rfl | ⟨-, heq⟩
  · rfl
  · exact heq

theorem sameIssuer_of_issuerOf {i : Issuer} (ha : issuerOf cas a = some i)
    (hb : issuerOf cas b = some i) : SameIssuer cas a b :=
  .inr ⟨by rw [ha]; rfl, ha.trans hb.symm⟩

theorem issuerOf_of_mem (h : WellFormed db.cas) (hca : ca ∈ db.cas) :
    issuerOf db.cas ca.refid = ca.issuer? := by
  have hfind : db.cas.find? (fun q => q.refid = ca.refid) = some ca := find?_of_mem h.refids hca
  rw [issuerOf, hfind, Option.bind_some]

theorem mem_sameKeyRefids (h : WellFormed db.cas) (hca : ca ∈ db.cas) :
    a ∈ db.sameKeyRefids ca ↔ SameIssuer db.cas ca.refid a := by
  have hself := issuerOf_of_mem h hca
  constructor
  · intro ha
    rcases mem_cons.mp ha with ha | ha
    · exact .inl ha.symm
    · cases hcrt : ca.crt with
      | none => simp [hcrt] at ha
      | some crt =>
        simp only [hcrt, mem_map, mem_filter, Bool.and_eq_true, decide_eq_true_eq,
          Option.any_eq_true] at ha
        obtain ⟨other, ⟨hother, ⟨hsubject, -⟩, crt', hcrt', hkey⟩, rfl⟩ := ha
        refine sameIssuer_of_issuerOf (i := ⟨ca.subject, crt.key⟩) ?_ ?_
        · rw [hself, CaRow.issuer?, hcrt, Option.map_some]
        · rw [issuerOf_of_mem h hother, CaRow.issuer?, hcrt', Option.map_some, hsubject, hkey]
  · intro ha
    rcases ha with rfl | ⟨hsome, heq⟩
    · exact mem_cons_self
    · obtain ⟨i, hi⟩ := Option.isSome_iff_exists.mp hsome
      obtain ⟨other, hfind, hother⟩ := Option.bind_eq_some_iff.mp (heq ▸ hi)
      obtain ⟨hmem, rfl⟩ := find?_key hfind
      obtain ⟨crt', hcrt', hi'⟩ := Option.map_eq_some_iff.mp hother
      obtain ⟨crt, hcrt, hi⟩ := Option.map_eq_some_iff.mp (hself ▸ hi)
      have hname : ca.subject = other.subject ∧ crt.key = crt'.key := by
        simpa using hi.trans hi'.symm
      by_cases hid : other.id = ca.id
      · rw [eq_of_key h.ids hmem hca hid]
        exact mem_cons_self
      · refine mem_cons_of_mem _ ?_
        simp only [hcrt]
        refine mem_map_of_mem (mem_filter.mpr ⟨hmem, ?_⟩)
        simp [hcrt', hid, hname.1, hname.2]

/-- The CA that is found to have issued a CA certificate is its issuer, and another one. -/
theorem issuingCa_spec (h : WellFormed db.cas) (hca : ca ∈ db.cas) (hcrt : ca.crt = some crt)
    (hparent : db.issuingCa ca = some parent) :
    parent ∈ db.cas ∧ issuerOf db.cas parent.refid = some crt.signedBy ∧
      crt.signedBy ≠ ⟨crt.subject, crt.key⟩ := by
  simp only [Db.issuingCa, hcrt, Option.bind_eq_bind, Option.bind_some] at hparent
  split at hparent
  · cases hparent
  · next hself =>
    have hmem := mem_of_find?_eq_some hparent
    have hsigned := find?_some hparent
    have hparent : parent ∈ db.cas := by
      simp only [mem_append, mem_filter] at hmem
      tauto
    simp only [Option.any_eq_true, decide_eq_true_eq] at hsigned
    obtain ⟨pc, hpc, hkey⟩ := hsigned
    have hissuer : parent.issuer? = some ⟨parent.subject, pc.key⟩ := by
      rw [CaRow.issuer?, hpc, Option.map_some]
    refine ⟨hparent, ?_, ?_⟩
    · rw [issuerOf_of_mem h hparent, hissuer]
      exact congrArg some (h.signers ca hca crt hcrt parent hparent _ hissuer hkey)
    · intro heq
      simp only [CaStored.signedBy, Issuer.mk.injEq] at heq
      exact hself ⟨heq.1.symm, heq.2⟩

/-- An issuer signed one CA certificate with a serial. -/
theorem Child.unique (h : WellFormed cas) {other : CaRow}
    (hchild : Child cas a n child) (hother : Child cas a n other) : child = other := by
  obtain ⟨hmem, crt, hcrt, hissuer, hserial⟩ := hchild
  obtain ⟨hmem', crt', hcrt', hissuer', hserial'⟩ := hother
  have hsigned : crt.signedBy = crt'.signedBy :=
    Option.mem_unique hissuer hissuer'
  have hshares : Shares crt.serial crt'.serial := by
    rw [hserial, hserial']
    exact shares_self n
  exact eq_of_key h.ids hmem hmem'
    (h.serials child hmem crt hcrt other hmem' crt' hcrt' hsigned hshares)

theorem Child.sameIssuer (hchild : Child cas a n child)
    (hab : SameIssuer cas a b) : Child cas b n child := by
  obtain ⟨hmem, crt, hcrt, hissuer, hserial⟩ := hchild
  exact ⟨hmem, crt, hcrt, hab.issuerOf_eq ▸ hissuer, hserial⟩

theorem child_of_link (h : WellFormed db.cas) (hchild : child ∈ db.cas)
    (hcrt : child.crt = some crt)
    (hca : ca ∈ db.cas) (hlink : ∃ a ∈ child.caref, SameIssuer db.cas ca.refid a) :
    Child db.cas ca.refid crt.serial child := by
  obtain ⟨a, ha, hsame⟩ := hlink
  refine ⟨hchild, crt, hcrt, ?_, rfl⟩
  have hparent : ∃ other ∈ db.cas, other.refid = a := by
    rcases hsame with rfl | ⟨hsome, heq⟩
    · exact ⟨ca, hca, rfl⟩
    · obtain ⟨i, hi⟩ := Option.isSome_iff_exists.mp hsome
      obtain ⟨other, hfind, -⟩ := Option.bind_eq_some_iff.mp (heq ▸ hi)
      exact ⟨other, find?_key hfind⟩
  obtain ⟨other, hother, rfl⟩ := hparent
  rw [hsame.issuerOf_eq, issuerOf_of_mem h hother]
  exact h.links child hchild crt hcrt other hother ha

/-- The responder finds CA certificates of the issuer with the serial only. -/
theorem childCaForSerial_child (h : WellFormed db.cas) (hca : ca ∈ db.cas)
    (hfound : db.childCaForSerial ca n = some child) : Child db.cas ca.refid n child := by
  rcases Option.or_eq_some_iff.mp hfound with hcolumn | ⟨-, hcrt⟩
  · have hmem := mem_of_find?_eq_some hcolumn
    have hpred := find?_some hcolumn
    simp only [Bool.and_eq_true, Option.any_eq_true, decide_eq_true_eq] at hpred
    obtain ⟨⟨⟨a, ha, hgroup⟩, c, hc, -⟩, hserial⟩ := hpred
    obtain ⟨crt, hcrt, -⟩ := h.columns child hmem c hc
    have hn : crt.serial = n := by
      rw [hcrt] at hserial
      simpa using hserial
    rw [← hn]
    exact child_of_link h hmem hcrt hca ⟨a, ha, (mem_sameKeyRefids h hca).mp hgroup⟩
  · obtain ⟨issuerCrt, hissuer, hfind⟩ := Option.bind_eq_some_iff.mp hcrt
    have hmem := mem_of_find?_eq_some hfind
    have hpred := find?_some hfind
    simp only [Bool.and_eq_true, Bool.or_eq_true, Option.any_eq_true, decide_eq_true_eq] at hpred
    obtain ⟨-, crt, hcrt, ⟨hserial, hname⟩, hsigner⟩ := hpred
    rw [← hserial]
    rcases hsigner with hlink | hsigner
    · exact child_of_link h hmem hcrt hca ⟨ca.refid, hlink, sameIssuer_self _ _⟩
    · refine ⟨hmem, crt, hcrt, ?_, rfl⟩
      rw [issuerOf_of_mem h hca, CaRow.issuer?, hissuer, Option.map_some, CaStored.signedBy,
        h.subjects ca hca issuerCrt hissuer, hname, hsigner]

theorem childCaForSerial_of_child (h : WellFormed db.cas) (hca : ca ∈ db.cas)
    (hchild : Child db.cas ca.refid n child) (hne : child.id ≠ ca.id) :
    db.childCaForSerial ca n = some child := by
  have hfound : (db.childCaForSerial ca n).isSome := by
    obtain ⟨hmem, crt, hcrt, hissuer, hserial⟩ := hchild
    rw [issuerOf_of_mem h hca] at hissuer
    obtain ⟨issuerCrt, hissuerCrt, hsigned⟩ := Option.map_eq_some_iff.mp hissuer
    simp only [CaStored.signedBy, Issuer.mk.injEq,
      h.subjects ca hca issuerCrt hissuerCrt] at hsigned
    rw [Db.childCaForSerial, Option.isSome_or, Bool.or_eq_true, hissuerCrt, Option.bind_some]
    refine .inr (find?_isSome.mpr ⟨child, hmem, ?_⟩)
    simp [hne, Option.mem_def.mp hcrt, hserial, hsigned.1, hsigned.2]
  obtain ⟨found, hsome⟩ := Option.isSome_iff_exists.mp hfound
  rw [hsome, (childCaForSerial_child h hca hsome).unique h hchild]

end Issuers

/-! ## The flag of a CA -/

section Flag

variable {db : Db} {caId : ℕ} {f : CaRow → CaRow} {ca : CaRow}

/-- A change of what a CA row says about its revocation alone. -/
def Marks (f : CaRow → CaRow) : Prop :=
  ∀ ca, (f ca).id = ca.id ∧ (f ca).refid = ca.refid ∧ (f ca).caref = ca.caref ∧
    (f ca).subject = ca.subject ∧ (f ca).crt = ca.crt

theorem mem_setCa (hf : Marks f) (h : ca ∈ (db.setCa caId f).cas) : ∃ q ∈ db.cas, ca.id = q.id ∧
    ca.refid = q.refid ∧ ca.caref = q.caref ∧ ca.subject = q.subject ∧ ca.crt = q.crt ∧
      (ca = q ∧ q.id ≠ caId ∨ ca = f q ∧ q.id = caId) := by
  rcases mem_amend.mp h with ⟨hmem, hne⟩ | ⟨q, hq, hid, rfl⟩
  · exact ⟨ca, hmem, rfl, rfl, rfl, rfl, rfl, .inl ⟨rfl, by simpa using hne⟩⟩
  · obtain ⟨h1, h2, h3, h4, h5⟩ := hf q
    exact ⟨q, hq, h1, h2, h3, h4, h5, .inr ⟨rfl, by simpa using hid⟩⟩

theorem issuerOf_setCa (hf : Marks f) (a : ℕ) :
    issuerOf (db.setCa caId f).cas a = issuerOf db.cas a := by
  simp only [issuerOf, Db.setCa, find?_amend fun ca => (hf ca).2.1]
  cases db.cas.find? (fun ca => ca.refid = a) with
  | none => rfl
  | some ca =>
    obtain ⟨-, -, -, hsubject, hcrt⟩ := hf ca
    simp only [Option.map_some]
    split
    · simp [CaRow.issuer?, hsubject, hcrt]
    · rfl

theorem sameIssuer_setCa (hf : Marks f) (a b : ℕ) :
    SameIssuer (db.setCa caId f).cas a b ↔ SameIssuer db.cas a b := by
  simp [SameIssuer, issuerOf_setCa hf]

theorem child_setCa {a n : ℕ} (hf : Marks f) (h : Child (db.setCa caId f).cas a n ca) :
    ∃ q, Child db.cas a n q ∧ (ca = q ∧ q.id ≠ caId ∨ ca = f q ∧ q.id = caId) := by
  obtain ⟨hmem, crt, hcrt, hissuer, hserial⟩ := h
  obtain ⟨q, hq, -, -, -, -, hqcrt, hcases⟩ := mem_setCa hf hmem
  exact ⟨q, ⟨hq, crt, hqcrt ▸ hcrt, issuerOf_setCa hf a ▸ hissuer, hserial⟩, hcases⟩

theorem child_setCa_of_child {a n : ℕ} (hf : Marks f) (h : Child db.cas a n ca) :
    Child (db.setCa caId f).cas a n (if decide (ca.id = caId) then f ca else ca) := by
  obtain ⟨hmem, crt, hcrt, hissuer, hserial⟩ := h
  refine ⟨exists_mem_amend hmem, crt, ?_, (issuerOf_setCa hf a).trans hissuer, hserial⟩
  split
  · exact (hf ca).2.2.2.2 ▸ hcrt
  · exact hcrt

theorem WellFormed.setCa (h : WellFormed db.cas) (hf : Marks f)
    (hcolumn : ∀ ca ∈ db.cas, ca.id = caId → ∀ c ∈ (f ca).serialNumber, ∃ crt ∈ ca.crt,
      Spells c crt.serial) : WellFormed (db.setCa caId f).cas := by
  have hissuer : ∀ {ca q : CaRow}, ca.subject = q.subject → ca.crt = q.crt →
      ca.issuer? = q.issuer? := by
    intro ca q hsubject hcrt
    simp [CaRow.issuer?, hsubject, hcrt]
  refine ⟨nodup_amend (fun ca => (hf ca).1) h.ids, nodup_amend (fun ca => (hf ca).2.1) h.refids,
    ?_, ?_, ?_, ?_, ?_, ?_⟩
  · intro ca hca c hc
    obtain ⟨q, hq, -, -, -, -, hcrt, ⟨rfl, -⟩ | ⟨rfl, hid⟩⟩ := mem_setCa hf hca
    · exact h.columns ca hq c hc
    · rw [hcrt]
      exact hcolumn q hq hid c hc
  · intro ca hca crt hcrt
    obtain ⟨q, hq, -, -, -, hsubject, hcrt', -⟩ := mem_setCa hf hca
    exact hsubject.trans (h.subjects q hq crt (hcrt' ▸ hcrt))
  · intro ca hca crt hcrt other hother i hi
    obtain ⟨q, hq, -, -, -, -, hcrt', -⟩ := mem_setCa hf hca
    obtain ⟨p, hp, -, -, -, hsubject, hpcrt, -⟩ := mem_setCa hf hother
    exact h.signers q hq crt (hcrt' ▸ hcrt) p hp i (hissuer hsubject hpcrt ▸ hi)
  · intro ca hca crt hcrt other hother hlink
    obtain ⟨q, hq, -, -, hcaref, -, hcrt', -⟩ := mem_setCa hf hca
    obtain ⟨p, hp, -, hrefid, -, hsubject, hpcrt, -⟩ := mem_setCa hf hother
    rw [hissuer hsubject hpcrt]
    exact h.links q hq crt (hcrt' ▸ hcrt) p hp (by rw [← hcaref, hlink, hrefid])
  · intro ca hca crt hcrt other hother crt' hcrt'
    obtain ⟨q, hq, hid, -, -, -, hqcrt, -⟩ := mem_setCa hf hca
    obtain ⟨p, hp, hid', -, -, -, hpcrt, -⟩ := mem_setCa hf hother
    rw [hid, hid']
    exact h.serials q hq crt (hqcrt ▸ hcrt) p hp crt' (hpcrt ▸ hcrt')
  · intro ca hca crt hcrt
    obtain ⟨q, hq, -, -, -, -, hcrt', -⟩ := mem_setCa hf hca
    exact h.range q hq crt (hcrt' ▸ hcrt)

end Flag

end UltimateCaManager.Revocation
