import UltimateCaManager.BackupExactness

/-!
# Restored references

The archive of a whole database carries, beside each reference, the identity of the row that it
names. Resolved here, it gives the row that was restored from that row, so a restored reference
names the row with the same identity.
-/
namespace UltimateCaManager.Backup

open List

open Tables KeyedRows

variable {pruned : SectionName → Bool} {S T D F : Database}

variable {n t : SectionName} {row x z : Row} {c : String}

/-- What a reference names: the identity of the row with its number, if there is one. -/
def named (D : Database) (t : SectionName) (row : Row) (c : String) : Option (Option Identity) :=
  (row.ref c).map fun i => (row? (D t) i).map (identity D t)

theorem origin_exportRow : origin n (exportRow S n x) = identity S n x := by
  refine map_congr_left fun f _ => ?_
  cases ht : (sections n).references.lookup f with
  | none => rfl
  | some t => simp [exportRow, ht]

section Restored

variable (h : Restorable (fun _ => true) (archiveOf S) T) (hF : Outcome pruned (archiveOf S) T D F)

include h hF

/-- Of the rows here one has the identity of a restored row. -/
theorem Outcome.eq_of_identity (hwhole : ∀ n, ∀ p ∈ (sections n).references,
      p.1 ∈ (sections n).identity → ∀ row ∈ T n, ∀ i ∈ row.ref p.1, i ∈ (T p.2).map Row.id)
    (hpruned : ∀ n t, pruned n = pruned t) (hx : x ∈ S n) {y y' : Row} (hy : y ∈ F n)
    (hkey : key n y = keyHere (archiveOf S) T n (exportRow S n x)) (hy' : y' ∈ F n)
    (heq : identity F n y' = identity S n x) : y' = y := by
  have ha : exportRow S n x ∈ archiveOf S n := mem_map_of_mem hx
  have heq := heq.trans origin_exportRow.symm
  refine (hF.apart h n).eq_of_identity hy' hy (Eq.trans ?_ hkey.symm)
  rcases hF.origin n y' hy' with ⟨hT, hkept, -⟩ | ⟨b, hb, hkey', -⟩
  · -- a row of `T` that the archive does not carry: its references name rows that are still here
    refine key_eq_keyHere.mpr fun f hf => ?_
    have hcell := map_inj_left.mp heq f hf
    cases ht : (sections n).references.lookup f with
    | none =>
      rw [ht] at hcell
      exact Sum.inl.inj hcell
    | some t =>
      rw [ht] at hcell
      have hcell := Sum.inr.inj hcell
      show y'.ref f = ((exportRow S n x).identityOf f).bind (numberHere (archiveOf S) T t)
      cases href : y'.ref f with
      | none =>
        rw [href, Option.bind_none] at hcell
        rw [← hcell, Option.bind_none]
      | some i =>
        obtain ⟨w, hw, rfl⟩ := mem_map.mp (hwhole n (f, t) (mem_of_lookup ht) hf y' hT i href)
        have hplaced : (w.id, key t w) ∈ place (numbered t (T t))
            ((archiveOf S t).map (keyHere (archiveOf S) T t)) :=
          mem_place (mem_pairs.mpr ⟨w, hw, rfl, rfl⟩)
        obtain ⟨w', hw', hw'key⟩ :=
          hF.row?_of_mem h ((hF.mem_iff (.inl ((hpruned t n).trans hkept))).mpr hplaced)
        rw [href, Option.bind_some, hw', Option.map_some, hw'key] at hcell
        rw [← hcell, Option.bind_some, eq_comm, numberHere,
          numberOf_eq_some (h.numbered_apart t).place,
          ← map_keyHere_of_plain (plain_of_identity hf ht).2]
        exact hplaced
  · have hb' := hF.identity_eq h (by simp) hb hkey'
    rw [eq_of_key (h.origins n) ha hb (heq.symm.trans hb')]
    exact hkey'

end Restored

end UltimateCaManager.Backup
