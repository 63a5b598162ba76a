import UltimateCaManager.BackupIdentities
import Mathlib.Data.List.Find

/-!
# Restores write by identity

One archived row is applied to the row here with its identity, so a section ends with the rows it
had, the archived ones written over them or added under the next numbers. The second pass over the
references and the removal of rows find each archived row in the same way.
-/
namespace UltimateCaManager.Backup

open List

open Tables KeyedRows

variable {carried : SectionName → Bool} {A : Archive} {T D plan : Database}

variable {n t : SectionName} {a b : ArchivedRow} {row : Row} {rows : List Row}

variable {f : String} {k : Key}

variable {done : List ArchivedRow}

/-! ## Archived identities -/

section Guarded

variable (h : Restorable carried A T)

include h

theorem Restorable.numbered_apart (n : SectionName) : Apart (numbered n (T n)) := by
  constructor
  · rw [map_fst_pairs]
    exact h.ids n
  · rw [map_snd_pairs]
    exact h.keys n

theorem Restorable.exists_number (ha : a ∈ A n) (hf : f ∈ (sections n).identity)
    (ht : (sections n).references.lookup f = some t) (hk : a.identityOf f = some k) :
    ∃ i, numberHere A T t k = some i := by
  rw [← Option.ne_none_iff_exists', ne_eq, numberHere, numberOf_eq_none, not_not, mem_keys_place,
    map_snd_pairs]
  rcases h.linked n (f, t) (mem_of_lookup ht) hf a ha k hk with hk | ⟨-, hk⟩
  · exact .inr hk
  · exact .inl hk

/-- The numbers of this installation tell the identities that are linked apart. -/
theorem Restorable.origin_eq (ha : a ∈ A n) (hb : b ∈ A n)
    (hkey : keyHere A T n a = keyHere A T n b) : origin n a = origin n b := by
  refine map_congr_left fun f hf => ?_
  have hcell := map_inj_left.mp hkey f hf
  cases ht : (sections n).references.lookup f with
  | none => simpa [isReference, ht] using hcell
  | some t =>
    simp only [isReference, ht, Option.isSome_some, if_true, Option.bind_some,
      map_number_inj] at hcell
    cases hka : a.identityOf f with
    | none =>
      cases hkb : b.identityOf f with
      | none => rfl
      | some k' =>
        obtain ⟨i, hi⟩ := h.exists_number hb hf ht hkb
        simp [hka, hkb, hi] at hcell
    | some k =>
      obtain ⟨i, hi⟩ := h.exists_number ha hf ht hka
      rw [hka, Option.bind_some, hi, eq_comm, Option.bind_eq_some_iff] at hcell
      obtain ⟨k', hkb, hi'⟩ := hcell
      have hplaces : Apart (place (numbered t (T t)) ((A t).map fun a => key t a.toRow)) :=
        (h.numbered_apart t).place
      rw [numberHere, numberOf_eq_some hplaces] at hi hi'
      have hpair : (i, k) = (i, k') := eq_of_key hplaces.numbers hi hi' rfl
      rw [hkb, (Prod.mk.inj hpair).2]

theorem Restorable.eq_of_keyHere (ha : a ∈ A n) (hb : b ∈ A n)
    (hkey : keyHere A T n a = keyHere A T n b) : a = b :=
  eq_of_key (h.origins n) ha hb (h.origin_eq ha hb hkey)

theorem Restorable.nodup_keyHere : ((A n).map (keyHere A T n)).Nodup :=
  (h.origins n).of_map.map_on fun _ ha _ hb hkey => h.eq_of_keyHere ha hb hkey

theorem Restorable.keyHere_stated (hs : (sections n).singleton = false) (ha : a ∈ A n) :
    ∃ c ∈ keyHere A T n a, empty c = false := by
  obtain ⟨f, hf, hstated⟩ := h.stated n hs a ha
  refine ⟨_, mem_map_of_mem hf, ?_⟩
  cases ht : (sections n).references.lookup f with
  | none => simpa [isReference, ht] using hstated
  | some t =>
    have hne : a.identityOf f ≠ none := by simpa [isReference, ht] using hstated
    obtain ⟨k, hk⟩ := Option.ne_none_iff_exists'.mp hne
    obtain ⟨i, hi⟩ := h.exists_number ha hf ht hk
    simp [isReference, ht, hk, hi, empty]

/-! ## Applying the sections -/

omit h in
/-- A row found by the index of the plan is the row with the identity. -/
theorem Planned.found_eq {Q : ArchivedRow → Row → Prop} (hplan : Planned A T plan n)
    (hapart : ∀ row ∈ plan n, key n row = key n a.toRow → key n row = keyHere A T n a)
    (hnew : keyHere A T n a ∉ done.map (keyHere A T n))
    (hrows : Upserted Row.id (key n) (keyHere A T n) Q (plan n) done rows) :
    (existingId plan n a).bind (row? rows) =
      rows.find? fun row => key n row = keyHere A T n a := by
  have hrowsApart := hrows.apart hplan.here
  rw [hplan.existingId_eq hapart]
  cases hnum : numberOf (numbered n (plan n)) (keyHere A T n a) with
  | none =>
    rw [numberOf_eq_none, map_snd_pairs] at hnum
    rw [Option.bind_none, eq_comm, find?_eq_none]
    intro row hrow hkey
    have hmem := (mem_keys_of_places hrows).mp (mem_map.mpr ⟨row, hrow, of_decide_eq_true hkey⟩)
    exact hmem.elim hnum hnew
  | some i =>
    rw [numberOf_eq_some hplan.here] at hnum
    have hmem : (i, keyHere A T n a) ∈ numbered n rows := by
      rw [numbered, hrows.places]
      exact mem_place hnum
    obtain ⟨row, hrow, rfl, hkey⟩ := mem_pairs.mp hmem
    rw [Option.bind_some, row?, find?_of_mem hrowsApart.nodup_numbers hrow, ← hkey,
      find?_of_mem hrowsApart.nodup_keys hrow]

variable (A T n) in
/-- The rows of a section once the archived rows `done` are applied. -/
abbrev Applied (done : List ArchivedRow) (rows : List Row) : Prop :=
  Upserted Row.id (key n) (keyHere A T n) (fun a row => row.text = a.text) (T n) done rows

theorem Restorable.targetRow_eq (hplan : Planned A T plan n) (hT : plan n = T n) (ha : a ∈ A n)
    (hdone : ∀ b ∈ done, b ∈ A n) (hnew : keyHere A T n a ∉ done.map (keyHere A T n))
    (hrows : Applied A T n done rows) :
    targetRow plan A n rows a = rows.find? fun row => key n row = keyHere A T n a := by
  have hfacts := (manifest_facts n (mem_restoreOrder n)).2.2
  unfold targetRow
  cases hr : (sections n).restorer with
  | manifest =>
    refine hplan.found_eq (fun row hrow => ?_) hnew (by rwa [hT])
    exact h.apart n a ha _ (mem_append_left _ (mem_map_of_mem (hT ▸ hrow)))
  | queried columns =>
    rw [hr, Bool.not_eq_true'] at hfacts
    have hcolumns : (sections n).columns = columns := by simp [Section.columns, hr]
    refine find?_congr fun row hrow => ?_
    have htext : row.text ∈ (T n).map Row.text ++ (A n).map (·.text) := by
      rcases hrows.origin row hrow with ⟨hstart, -⟩ | ⟨b, hb, -, htext⟩
      · exact mem_append_left _ (mem_map_of_mem hstart)
      · exact mem_append_right _ (mem_map.mpr ⟨b, hdone b hb, htext.symm⟩)
    have hagree := h.agree n a ha row.text htext
    rw [hcolumns, ← key_eq_iff_text hfacts] at hagree
    rw [decide_eq_decide, hagree, keyHere, keyWith_of_plain hfacts]
  | identified =>
    rw [hr, Bool.not_eq_true'] at hfacts
    obtain ⟨c, hc, hstated⟩ := h.keyHere_stated hfacts ha
    have hblank : (keyHere A T n a).all empty ≠ true := fun hall => by
      simp [all_eq_true.mp hall c hc] at hstated
    simp only [hplan.resolvedKey_eq, if_neg hblank]
  | only =>
    rw [hr] at hfacts
    have hid := Section.identity_of_singleton hfacts
    cases rows with
    | nil => rfl
    | cons row rows => simp [key, keyHere, keyWith, hid]

omit h in
theorem id_appliedRow {found : Option Row} : (appliedRow plan A n a rows found).id =
    (found.map Row.id).getD (nextNumber (rows.map Row.id)) := by
  unfold appliedRow
  cases (sections n).verbatim <;> cases found <;> rfl

omit h in
theorem text_appliedRow {found : Option Row} :
    (appliedRow plan A n a rows found).text = a.text := by
  unfold appliedRow
  cases (sections n).verbatim <;> rfl

omit h in
theorem Planned.key_appliedRow (hplan : Planned A T plan n) {found : Option Row} :
    key n (appliedRow plan A n a rows found) = keyHere A T n a := by
  refine key_eq_keyHere.mpr fun f hf => ?_
  cases ht : (sections n).references.lookup f with
  | none => simp [cell, isReference, ht, text_appliedRow]
  | some t =>
    have hisReference : isReference n f = true := by simp [isReference, ht]
    cases hv : (sections n).verbatim with
    | none => simp [appliedRow, hv, linkedTo, hisReference, hplan.resolve_eq hf ht]
    | some columns =>
      have hplain := (manifest_facts n (mem_restoreOrder n)).2.1 (by simp [hv])
      have hnot := not_isReference hplain hf
      simp [hisReference] at hnot

omit h in
theorem Planned.of_applied (hhere : Apart (numbered n (plan n)))
    (hT : ∀ t, Apart (numbered t (T t)))
    (happlied : ∀ f t, f ∈ (sections n).identity → (sections n).references.lookup f = some t →
      Applied A T t (A t) (plan t)) : Planned A T plan n := by
  refine ⟨hhere, fun f t hf ht k => ?_⟩
  have hplaces := (happlied f t hf ht).places
  rw [index_eq ((happlied f t hf ht).apart (hT t)), numbered, hplaces,
    map_keyHere_of_plain (plain_of_identity hf ht).2]
  rfl

theorem Restorable.keyHere_new {rest : List ArchivedRow} (hl : A n = done ++ a :: rest) :
    a ∈ A n ∧ (∀ b ∈ done, b ∈ A n) ∧ keyHere A T n a ∉ done.map (keyHere A T n) := by
  refine ⟨by simp [hl], fun b hb => by simp [hl, hb], fun hmem => ?_⟩
  have hnodup := h.nodup_keyHere (n := n)
  rw [hl, map_append, map_cons, nodup_append] at hnodup
  exact hnodup.2.2 _ hmem _ mem_cons_self rfl

theorem Restorable.applied_rows {db : Database} (hplan : Planned A T plan n) (hT : plan n = T n)
    (hrows : (A n).foldlM (applyOne plan A db n) (T n) = some rows) :
    Applied A T n (A n) rows := by
  refine foldlM_induction hrows Upserted.nil fun done a rest rows rows' hl hdone hstep => ?_
  obtain ⟨ha, hmem, hnew⟩ := h.keyHere_new hl
  have hkept : passedOver A db n a = false := by
    obtain ⟨hneeds, hissuer⟩ := h.kept n a ha
    simp only [passedOver, Bool.or_eq_false_iff, any_eq_false, Option.any_eq_false,
      decide_eq_false_iff_not, not_not]
    exact ⟨fun c hc => by simp [hneeds c hc], fun c hc => mem_append_right _ (hissuer c hc)⟩
  rw [applyOne, hkept, if_neg Bool.false_ne_true, Option.ite_none_right_eq_some,
    h.targetRow_eq hplan hT ha hmem hnew hdone] at hstep
  rw [← Option.some.inj hstep.2]
  exact hdone.write (h.numbered_apart n) id_appliedRow hplan.key_appliedRow text_appliedRow

/-- The sections are applied one after the other, each after those its identity names. -/
theorem Restorable.applied (hD : applyAll A T = some D) (n : SectionName) :
    Applied A T n (A n) (D n) := by
  obtain ⟨p, hp, rfl⟩ := Option.map_eq_some_iff.mp hD
  have hall : ∀ m, (m ∈ restoreOrder → Applied A T m (A m) (p.db m)) ∧
      (m ∉ restoreOrder → p.db m = T m ∧ p.plan m = T m) := by
    refine foldlM_induction (P := fun done (p : Progress) => ∀ m,
      (m ∈ done → Applied A T m (A m) (p.db m)) ∧ (m ∉ done → p.db m = T m ∧ p.plan m = T m))
      hp (by simp) fun done n rest p p' horder hdone hstep => ?_
    obtain ⟨rows, hrows, rfl⟩ := Option.map_eq_some_iff.mp hstep
    have hpairwise := pairwise_restoreOrder
    rw [horder, pairwise_append, pairwise_cons] at hpairwise
    have hn : n ∉ done := fun hn => (hpairwise.2.2 n hn n mem_cons_self).1 rfl
    obtain ⟨hdb, hplan⟩ := (hdone n).2 hn
    have hhere : refresh n p.plan p.db n = T n := by simp [refresh, hdb, hplan]
    have hplanned : Planned A T (refresh n p.plan p.db) n := by
      refine Planned.of_applied (hhere ▸ h.numbered_apart n) h.numbered_apart fun f t hf ht => ?_
      have htarget : t ∈ done := by
        have hmem := mem_restoreOrder t
        rw [horder, mem_append, mem_cons] at hmem
        rcases hmem with hmem | rfl | hmem
        · exact hmem
        · exact absurd rfl (plain_of_identity hf ht).1
        · have hlater := (hpairwise.2.1.1 t hmem).2
          exact absurd rfl (hlater (f, t) (mem_of_lookup ht) hf)
      have hrefresh : refresh n p.plan p.db t = p.db t :=
        if_pos (mem_map.mpr ⟨(f, t), mem_of_lookup ht, rfl⟩)
      rw [hrefresh]
      exact (hdone t).1 htarget
    rw [hdb] at hrows
    have happlied := h.applied_rows hplanned hhere hrows
    intro m
    by_cases hm : m = n
    · subst hm
      simpa using happlied
    · simp only [mem_append, mem_singleton, hm, or_false, ne_eq, not_false_eq_true,
        Function.update_of_ne]
      refine ⟨(hdone m).1, fun hnot => ⟨((hdone m).2 hnot).1, ?_⟩⟩
      simp [refresh, (hdone m).2 hnot]
  exact (hall n).1 (mem_restoreOrder n)

end Guarded

end UltimateCaManager.Backup
