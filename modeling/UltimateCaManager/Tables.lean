import Mathlib.Data.List.Infix
import Mathlib.Data.List.Nodup

/-!
# Tables of rows

A table is the list of its rows in insertion order. An `UPDATE` rewrites the rows that its
`WHERE` clause selects; the lemmas say which rows the updated table holds, that a key which the
update leaves alone still finds the same row, and that unique keys stay unique.
-/
namespace UltimateCaManager.Tables

open List

variable {ρ κ : Type*}

-- Texts are compared, and their characters tested one by one, in the same way whatever is imported.
instance lawfulBEqText : LawfulBEq (List Char) := inferInstance

instance decidableText (text : List Char) (p : Char → Prop) [DecidablePred p] :
    Decidable (∀ c ∈ text, p c) :=
  text.decidableBAll p

/-- Rewrite the rows selected by `p` with `f`. -/
def amend (p : ρ → Bool) (f : ρ → ρ) (rows : List ρ) : List ρ :=
  rows.map fun r => if p r then f r else r

variable {p : ρ → Bool} {f : ρ → ρ} {rows : List ρ} {r : ρ} {key : ρ → κ}

theorem mem_amend :
    r ∈ amend p f rows ↔ (r ∈ rows ∧ p r = false) ∨ ∃ q ∈ rows, p q = true ∧ r = f q := by
  simp only [amend, mem_map]
  constructor
  · rintro ⟨q, hq, rfl⟩
    by_cases hp : p q = true
    · exact .inr ⟨q, hq, hp, by simp [hp]⟩
    · exact .inl ⟨by simpa [hp] using hq, by simp [hp]⟩
  · rintro (⟨hr, hp⟩ | ⟨q, hq, hp, rfl⟩)
    · exact ⟨r, hr, by simp [hp]⟩
    · exact ⟨q, hq, by simp [hp]⟩

/-- What the update leaves to the rows that it selects, all rows keep. -/
theorem forall_mem_amend {P : ρ → Prop} (h : ∀ q ∈ rows, P q)
    (hf : ∀ q ∈ rows, p q = true → P q → P (f q)) : ∀ q ∈ amend p f rows, P q := by
  intro r hr
  rcases mem_amend.mp hr with ⟨hr, -⟩ | ⟨q, hq, hp, rfl⟩
  · exact h r hr
  · exact hf q hq hp (h q hq)

/-- What the rows and the new row have, the rows of the longer table have. -/
theorem mem_concat {q : ρ} : q ∈ rows ++ [r] ↔ q ∈ rows ∨ q = r := by
  simp

theorem forall_mem_concat {P : ρ → Prop} :
    (∀ q ∈ rows ++ [r], P q) ↔ (∀ q ∈ rows, P q) ∧ P r := by
  simp [or_imp, forall_and]

/-- A column that the update does not write keeps its values. -/
theorem map_amend (hf : ∀ r, key (f r) = key r)
    (rows : List ρ) : (amend p f rows).map key = rows.map key := by
  simp only [amend, map_map]
  refine map_congr_left fun r _ => ?_
  by_cases hp : p r <;> simp [hp, hf]

theorem nodup_amend (hf : ∀ r, key (f r) = key r) (h : (rows.map key).Nodup) :
    ((amend p f rows).map key).Nodup := by
  rwa [map_amend hf]

theorem exists_mem_amend {q : ρ} (hq : q ∈ rows) : (if p q then f q else q) ∈ amend p f rows :=
  mem_map_of_mem hq

/-- Looking a row up by a key that the update leaves alone finds the updated row. -/
theorem find?_amend [DecidableEq κ] (hf : ∀ r, key (f r) = key r) (rows : List ρ) (k : κ) :
    (amend p f rows).find? (fun r => key r = k) =
      (rows.find? fun r => key r = k).map fun r => if p r then f r else r := by
  induction rows with
  | nil => rfl
  | cons r rows ih =>
    have hkey : key (if p r then f r else r) = key r := by by_cases hp : p r <;> simp [hp, hf]
    simp only [amend, map_cons, find?_cons, hkey]
    by_cases hr : key r = k
    · simp [hr]
    · simpa [hr, amend] using ih

theorem find?_key [DecidableEq κ] {k : κ}
    (h : rows.find? (fun r => key r = k) = some r) : r ∈ rows ∧ key r = k :=
  ⟨mem_of_find?_eq_some h, by simpa using find?_some h⟩

/-- Adding what a list lacks, one by one, adds all of it. -/
theorem mem_foldl_insert {α β : Type*} [BEq β] [LawfulBEq β] {f : α → β} {l : List α}
    {found : List β} {b : β} :
    b ∈ l.foldl (fun found a => if f a ∈ found then found else found ++ [f a]) found ↔
      b ∈ found ∨ ∃ a ∈ l, f a = b := by
  induction l generalizing found with
  | nil => simp
  | cons a l ih =>
    rw [foldl_cons, ih, exists_mem_cons_iff, ← or_assoc]
    refine or_congr_left ?_
    split
    next hmem => exact ⟨.inl, fun h => h.elim id fun heq => heq ▸ hmem⟩
    next => rw [mem_append, mem_singleton, eq_comm]

/-- Two rows of a table with unique keys that carry the same key are the same row. -/
theorem eq_of_key (hu : (rows.map key).Nodup) {q : ρ}
    (hr : r ∈ rows) (hq : q ∈ rows) (hk : key r = key q) : r = q :=
  inj_on_of_nodup_map hu hr hq hk

theorem nodup_concat (h : (rows.map key).Nodup) (hr : ∀ q ∈ rows, key q ≠ key r) :
    ((rows ++ [r]).map key).Nodup := by
  rw [map_append, nodup_append]
  refine ⟨h, by simp, ?_⟩
  intro k hk k' hk'
  obtain ⟨q, hq, rfl⟩ := mem_map.mp hk
  simp only [map_cons, map_nil, mem_singleton] at hk'
  rw [hk']
  exact hr q hq

theorem find?_of_mem [DecidableEq κ] (hu : (rows.map key).Nodup)
    (hr : r ∈ rows) : rows.find? (fun q => key q = key r) = some r := by
  cases hf : rows.find? (fun q => key q = key r) with
  | none => simpa using find?_eq_none.mp hf r hr
  | some q =>
    obtain ⟨hq, hk⟩ := find?_key hf
    rw [eq_of_key hu hq hr hk]

theorem find?_unique (hr : r ∈ rows) (hp : p r = true)
    (hu : ∀ q ∈ rows, p q = true → q = r) : rows.find? p = some r := by
  cases hf : rows.find? p with
  | none => exact absurd hp (find?_eq_none.mp hf r hr)
  | some q => rw [hu q (mem_of_find?_eq_some hf) (find?_some hf)]

/-- The `LIKE` of a pattern without an escape: `%` stands for any text, `_` for any symbol. -/
def like : List Char → List Char → Bool
  | [], text => text.isEmpty
  | c :: pattern, text =>
    if c = '%' then text.tails.any (like pattern)
    else match text with
      | [] => false
      | d :: rest => (c = '_' || c = d) && like pattern rest

/-- Every text is like itself, wildcards included. -/
theorem like_append (text : List Char) {pattern rest : List Char} (h : like pattern rest = true) :
    like (text ++ pattern) (text ++ rest) = true := by
  induction text with
  | nil => exact h
  | cons c text ih =>
    rw [cons_append, cons_append, like]
    split
    · exact any_eq_true.mpr ⟨text ++ rest, (mem_tails _ _).mpr (suffix_cons _ _), ih⟩
    · simp [ih]

theorem like_percent (text : List Char) : like ['%'] text = true :=
  any_eq_true.mpr ⟨[], (mem_tails _ _).mpr nil_suffix, rfl⟩

theorem length_filter_key_le_one [DecidableEq κ] (k : κ)
    (h : (rows.map key).Nodup) : (rows.filter fun r => key r = k).length ≤ 1 := by
  have hcount := nodup_iff_count_le_one.mp h k
  rw [count_eq_countP, countP_map, countP_eq_length_filter] at hcount
  exact hcount

end UltimateCaManager.Tables
