import UltimateCaManager.BackupRefinement

/-!
# Exact restores

Once the references are resolved again and a replacing restore has removed what the archive does
not carry, the rows are numbered as placing the archived identities says. So a replacing restore
leaves one row for each archived row and no other, and each reference of a restored row names the
row with the identity that it had in the source.
-/
namespace UltimateCaManager.Backup

open List

open Tables KeyedRows

variable {carried pruned : SectionName → Bool} {A : Archive} {S T D F : Database}

variable {n t : SectionName} {a b : ArchivedRow} {row : Row} {rows : List Row}

variable {f : String} {k : Key}

section Guarded

variable (h : Restorable carried A T)

include h

/-! ## The second pass and the removal -/

theorem Restorable.apart_applied (hrows : Applied A T n (A n) rows) (ha : a ∈ A n)
    (hrow : row ∈ rows) (hkey : key n row = key n a.toRow) : key n row = keyHere A T n a :=
  h.apart n a ha _ (mem_append.mpr ((mem_keys_of_places hrows).mp (mem_map_of_mem hrow))) hkey

theorem Restorable.planned (hD : ∀ n, Applied A T n (A n) (D n)) (n : SectionName) :
    Planned A T D n :=
  Planned.of_applied ((hD n).apart (h.numbered_apart n)) h.numbered_apart fun _ t _ _ => hD t

/-- What a row restored from an archived one holds. -/
def IsRestored (A : Archive) (D : Database) (n : SectionName) (a : ArchivedRow)
    (row : Row) : Prop :=
  row.text = a.text ∧ ∀ c, isReference n c → row.ref c = resolve D A n a c

theorem Restorable.relinked (hD : ∀ n, Applied A T n (A n) (D n)) (n : SectionName) :
    Upserted Row.id (key n) (keyHere A T n) (IsRestored A D n) (T n) (A n) (relink A D n) := by
  have hplan := h.planned hD n
  have hkeys : ∀ k ∈ (A n).map (keyHere A T n), k ∈ (D n).map (key n) :=
    fun k hk => (mem_keys_of_places (hD n)).mpr (.inr hk)
  have hloop : Upserted Row.id (key n) (keyHere A T n) (IsRestored A D n) (D n) (A n)
      (relink A D n) := by
    have hfold : (A n).foldlM (fun rows a => some (relinkRow D A n rows a)) (D n) =
        some (relink A D n) := foldlM_pure
    refine foldlM_induction hfold Upserted.nil fun done a rest rows rows' hl hdone hstep => ?_
    obtain ⟨ha, -, hnew⟩ := h.keyHere_new hl
    obtain ⟨row, hrow, hkey⟩ := mem_map.mp
      ((mem_keys_of_places hdone).mpr (.inl (hkeys _ (mem_map_of_mem ha))))
    have hfind := find?_of_mem (hdone.apart hplan.here).nodup_keys hrow
    rw [hkey] at hfind
    -- the row is one that was applied, from this archived row
    have htext : row.text = a.text := by
      rcases hdone.origin row hrow with ⟨hD', -⟩ | ⟨b, hb, hkey', -⟩
      · rcases (hD n).origin row hD' with ⟨-, hout⟩ | ⟨b, hb, hkey', htext⟩
        · exact absurd (hkey ▸ mem_map_of_mem ha) hout
        · rw [h.eq_of_keyHere ha hb (hkey.symm.trans hkey'), htext]
      · exact absurd (mem_map.mpr ⟨b, hb, hkey'.symm.trans hkey⟩) hnew
    have hlinked : key n (linkedTo D A n a row) = keyHere A T n a := by
      refine key_eq_keyHere.mpr fun f hf => ?_
      cases ht : (sections n).references.lookup f with
      | none => simp [cell, isReference, ht, linkedTo, htext]
      | some t => simp [linkedTo, isReference, ht, hplan.resolve_eq hf ht]
    have hwritten := hdone.write hplan.here (a := a) (by rw [hfind]; rfl) hlinked
      ⟨htext, fun c hc => if_pos hc⟩
    rw [hfind] at hwritten
    rw [← Option.some.inj hstep, relinkRow,
      hplan.found_eq (fun row hrow => h.apart_applied (hD n) ha hrow) hnew hdone, hfind]
    exact hwritten
  constructor
  · rw [hloop.places, place_of_forall_mem (by rwa [map_snd_pairs]), (hD n).places]
  · intro row hrow
    rcases hloop.origin row hrow with ⟨hstart, hout⟩ | hfrom
    · rcases (hD n).origin row hstart with hkept | ⟨b, hb, hkey, -⟩
      · exact .inl hkept
      · exact absurd (mem_map.mpr ⟨b, hb, hkey.symm⟩) hout
    · exact .inr hfrom

theorem Restorable.mem_spellings (hD : ∀ n, Applied A T n (A n) (D n))
    (hs : (sections n).singleton = false) (ha : a ∈ A n) (hrow : row ∈ D n) :
    key n row ∈ spellings D A n a ↔ key n row = keyHere A T n a := by
  have hsome : (keyHere A T n a).any Option.isSome = true := by
    obtain ⟨c, hc, hstated⟩ := h.keyHere_stated hs ha
    cases c with
    | none => simp [empty] at hstated
    | some c => exact any_eq_true.mpr ⟨some c, hc, rfl⟩
  rw [spellings, (h.planned hD n).resolvedKey_eq, if_pos hsome, mem_cons, mem_singleton]
  exact ⟨fun hkey => hkey.elim (h.apart_applied (hD n) ha hrow) id, .inr⟩

/-- Removing the rows that no archived identity is spelled as leaves those that have one. -/
theorem Restorable.prune_eq (hD : ∀ n, Applied A T n (A n) (D n)) (hn : carried n = true) :
    prune carried D A (relink A D) n =
      (relink A D n).filter fun row => key n row ∈ (A n).map (keyHere A T n) := by
  have hplaces : numbered n (relink A D n) = numbered n (D n) :=
    (h.relinked hD n).places.trans (hD n).places.symm
  rw [prune, if_pos hn]
  refine filter_congr fun row hrow => ?_
  have hpair : (row.id, key n row) ∈ numbered n (D n) :=
    hplaces ▸ mem_pairs.mpr ⟨row, hrow, rfl, rfl⟩
  obtain ⟨r, hr, hid, hkey⟩ := mem_pairs.mp hpair
  rw [decide_eq_decide, doomed]
  by_cases hs : (sections n).singleton = true
  · -- a table of one row is not pruned; the archive carries its row or there is none
    have hid := Section.identity_of_singleton hs
    rw [if_pos hs]
    refine iff_of_true not_mem_nil ?_
    rcases (mem_keys_of_places (hD n)).mp (mem_map.mpr ⟨r, hr, hkey⟩) with hstart | harchived
    · cases hA : A n with
      | nil => simp [h.only n hs hn hA] at hstart
      | cons a l => simp [key, keyHere, keyWith, hid]
    · exact harchived
  · have hindex : index D n (key n r) = some r.id := by
      rw [index_eq (h.planned hD n).here, numberOf_eq_some (h.planned hD n).here]
      exact mem_pairs.mpr ⟨r, hr, rfl, rfl⟩
    have hspelled : (A n).any (fun a => key n r ∈ spellings D A n a) = true ↔
        key n row ∈ (A n).map (keyHere A T n) := by
      simp only [any_eq_true, decide_eq_true_eq, mem_map]
      refine exists_congr fun a => and_congr_right fun ha => ?_
      rw [h.mem_spellings hD (Bool.eq_false_iff.mpr hs) ha hr, hkey, eq_comm]
    rw [if_neg hs, ← hspelled, ← hid, mem_map]
    constructor
    · intro hkept
      by_contra hout
      exact hkept ⟨r, mem_filter.mpr ⟨hr, by simpa [hindex] using hout⟩, rfl⟩
    · rintro hin ⟨r', hr', hr'id⟩
      obtain ⟨hmem, hdoomed⟩ := mem_filter.mp hr'
      rw [(h.planned hD n).here.eq_of_number hmem hr hr'id] at hdoomed
      simp [hindex, hin] at hdoomed

end Guarded

/-! ## The outcome -/

/-- The database that a restore ends with, when the references are resolved against `D` and the
sections `pruned` keep the archived rows alone. -/
structure Outcome (pruned : SectionName → Bool) (A : Archive) (T D F : Database) : Prop where
  applied : ∀ n, Applied A T n (A n) (D n)
  places : ∀ n, numbered n (F n) = (place (numbered n (T n)) ((A n).map (keyHere A T n))).filter
    fun p => !pruned n || p.2 ∈ (A n).map (keyHere A T n)
  origin : ∀ n, ∀ row ∈ F n,
    (row ∈ T n ∧ pruned n = false ∧ key n row ∉ (A n).map (keyHere A T n)) ∨
      ∃ a ∈ A n, key n row = keyHere A T n a ∧ IsRestored A D n a row

theorem Restorable.outcome (h : Restorable carried A T) {replace : Bool}
    (hF : restore replace carried A T = some F) :
    ∃ D, Outcome (fun n => replace && carried n) A T D F := by
  rw [restore, Option.ite_none_right_eq_some] at hF
  obtain ⟨D, hD, hF⟩ := Option.bind_eq_some_iff.mp hF.2
  have happlied := h.applied hD
  have hrows : ∀ n, F n = (relink A D n).filter
      fun row => !(replace && carried n) || key n row ∈ (A n).map (keyHere A T n) := by
    intro n
    cases replace with
    | false =>
      rw [← Option.some.inj hF]
      simp
    | true =>
      simp only [if_true, Option.ite_none_left_eq_some] at hF
      rw [← Option.some.inj hF.2]
      cases hn : carried n with
      | false => simp [prune, hn]
      | true => simpa using h.prune_eq happlied hn
  refine ⟨D, happlied, fun n => ?_, fun n row hrow => ?_⟩
  · rw [hrows n, ← (h.relinked happlied n).places]
    simp only [numbered, pairs, filter_map]
    rfl
  · rw [hrows n, mem_filter] at hrow
    rcases (h.relinked happlied n).origin row hrow.1 with ⟨hstart, hout⟩ | hfrom
    · refine .inl ⟨hstart, ?_, hout⟩
      cases replace with
      | false => rfl
      | true => simpa [hout] using hrow.2
    · exact .inr hfrom

section Ended

variable (h : Restorable carried A T) (hF : Outcome pruned A T D F)

include h hF

theorem Outcome.apart (n : SectionName) : Apart (numbered n (F n)) := by
  rw [hF.places]
  exact (h.numbered_apart n).place.filter _

omit h in
theorem Outcome.mem_iff (hk : pruned n = false ∨ k ∈ (A n).map (keyHere A T n)) {i : ℕ} :
    (i, k) ∈ numbered n (F n) ↔
      (i, k) ∈ place (numbered n (T n)) ((A n).map (keyHere A T n)) := by
  rw [hF.places, mem_filter]
  refine and_iff_left ?_
  rcases hk with hk | hk <;> simp [hk]

theorem Outcome.row?_of_mem {i : ℕ} (hi : (i, k) ∈ numbered n (F n)) :
    ∃ row, row? (F n) i = some row ∧ key n row = k := by
  obtain ⟨row, hrow, rfl, hkey⟩ := mem_pairs.mp hi
  exact ⟨row, find?_of_mem (hF.apart h n).nodup_numbers hrow, hkey⟩

/-- A row with the identity of an archived row here has the identity that it had in the source. -/
theorem Outcome.identity_eq (hpruned : ∀ t, carried t = false → pruned t = false) (ha : a ∈ A n)
    (hkey : key n row = keyHere A T n a) : identity F n row = Backup.origin n a := by
  refine map_congr_left fun f hf => ?_
  have hcell := key_eq_keyHere.mp hkey f hf
  cases ht : (sections n).references.lookup f with
  | none =>
    rw [ht] at hcell
    exact congrArg Sum.inl hcell
  | some t =>
    rw [ht] at hcell
    cases hk : a.identityOf f with
    | none => simp [hcell, hk]
    | some k =>
      obtain ⟨i, hi⟩ := h.exists_number ha hf ht hk
      have hplain := (plain_of_identity hf ht).2
      have hmem : (i, k) ∈ numbered t (F t) := by
        have hplaced := (numberOf_eq_some (h.numbered_apart t).place).mp hi
        rw [← map_keyHere_of_plain hplain] at hplaced
        refine (hF.mem_iff ?_).mpr hplaced
        rcases h.linked n (f, t) (mem_of_lookup ht) hf a ha k hk with hin | ⟨hout, -⟩
        · exact .inr (map_keyHere_of_plain hplain ▸ hin)
        · exact .inl (hpruned t hout)
      obtain ⟨w, hw, hwkey⟩ := hF.row?_of_mem h hmem
      simp [hcell, hk, hi, hw, hwkey]

end Ended

/-! ## Replacing restores -/

section Replaced

variable (h : Restorable carried A T) (hF : Outcome carried A T D F)

include h hF

end Replaced

end UltimateCaManager.Backup
