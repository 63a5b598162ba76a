import Mathlib.Data.Int.Basic
import Mathlib.Data.List.Chain
import Mathlib.Data.List.Nodup
import Mathlib.Order.Lattice

/-!
# Lists that ascend in an integer key

A condition that bounds the key from above cuts such a list in two, and removing the keys of a
front part leaves the rest.
-/
namespace UltimateCaManager.Ascending

open List

variable {α : Type*} {key : α → ℤ} {l : List α} {n : ℕ} {bound : ℤ}

/-- The keys grow strictly along the list. -/
def Ascends (key : α → ℤ) (l : List α) : Prop := l.Pairwise fun a b => key a < key b

theorem Ascends.sublist {l' : List α} (h : Ascends key l) (hsub : l'.Sublist l) : Ascends key l' :=
  List.Pairwise.sublist hsub h

theorem Ascends.filter_lt (h : Ascends key l) (bound : ℤ) :
    ∃ n ≤ l.length, l.filter (key · < bound) = l.take n := by
  induction l with
  | nil => exact ⟨0, le_rfl, rfl⟩
  | cons a l ih =>
    obtain ⟨hlt, hl⟩ := pairwise_cons.mp h
    by_cases ha : key a < bound
    · obtain ⟨n, hn, heq⟩ := ih hl
      exact ⟨n + 1, by simpa using hn, by simp [ha, heq]⟩
    · refine ⟨0, Nat.zero_le _, ?_⟩
      rw [take_zero, filter_eq_nil_iff]
      intro b hb
      rcases mem_cons.mp hb with rfl | hb
      · simpa using ha
      · have := hlt b hb
        simp only [decide_eq_true_eq]
        omega

variable {a b : α} {p : α → Bool}

theorem pairwise_concat {R : α → α → Prop} (h : l.Pairwise R) (ha : ∀ b ∈ l, R b a) :
    (l ++ [a]).Pairwise R :=
  pairwise_append.mpr ⟨h, pairwise_singleton _ _, by simpa using ha⟩

theorem Ascends.take_lt_drop (h : Ascends key l) (n : ℕ) (ha : a ∈ l.take n)
    (hb : b ∈ l.drop n) : key a < key b := by
  have h' := h
  unfold Ascends at h'
  rw [← take_append_drop n l, pairwise_append] at h'
  exact h'.2.2 a ha b hb

theorem filter_eq_take (htake : ∀ a ∈ l.take n, p a) (hdrop : ∀ a ∈ l.drop n, ¬p a) :
    l.filter p = l.take n :=
  calc l.filter p = (l.take n).filter p ++ (l.drop n).filter p := by
        rw [← filter_append, take_append_drop]
    _ = l.take n := by
        rw [filter_eq_self.mpr htake, filter_eq_nil_iff.mpr hdrop, append_nil]

theorem filter_eq_drop (htake : ∀ a ∈ l.take n, ¬p a) (hdrop : ∀ a ∈ l.drop n, p a) :
    l.filter p = l.drop n :=
  calc l.filter p = (l.take n).filter p ++ (l.drop n).filter p := by
        rw [← filter_append, take_append_drop]
    _ = l.drop n := by
        rw [filter_eq_nil_iff.mpr htake, filter_eq_self.mpr hdrop, nil_append]

/-- Removing the keys of a front part leaves the rest. -/
theorem Ascends.filter_notMem_take (h : Ascends key l) (n : ℕ) :
    l.filter (fun a => key a ∉ (l.take n).map key) = l.drop n := by
  refine filter_eq_drop (fun a ha => ?_) fun b hb => ?_
  · simpa using mem_map_of_mem ha
  · simp only [mem_map, not_exists, not_and, decide_eq_true_eq]
    intro a ha heq
    have := h.take_lt_drop n ha hb
    omega

theorem Ascends.filter_notMem_drop [DecidableEq α] (h : Ascends key l) (n : ℕ) :
    l.filter (· ∉ l.drop n) = l.take n := by
  refine filter_eq_take (fun a ha => ?_) fun b hb => by simpa using hb
  simp only [decide_eq_true_eq]
  intro hmem
  have := h.take_lt_drop n ha hmem
  omega

theorem Ascends.min?_map (h : Ascends key l) : (l.map key).min? = l.head?.map key := by
  rw [min?_eq_head?, head?_map]
  rw [pairwise_map]
  refine h.imp fun hab => ?_
  omega

/-- A front part whose keys are below a bound that some element reaches is not the whole list. -/
theorem lt_length_of_take (ha : a ∈ l) (hbound : bound ≤ key a)
    (h : ∀ b ∈ l.take n, key b < bound) : n < l.length := by
  by_contra hn
  rw [take_of_length_le (by omega)] at h
  have := h a ha
  omega

theorem Ascends.eq_of_key (h : Ascends key l) (ha : a ∈ l) (hb : b ∈ l)
    (heq : key a = key b) : a = b := by
  have hnodup : (l.map key).Nodup := pairwise_map.mpr (h.imp fun hlt => by omega)
  exact inj_on_of_nodup_map hnodup ha hb heq

/-- The first element that satisfies a condition has the smallest key of those that do. -/
theorem Ascends.le_of_find? {f : α} (h : Ascends key l) (hf : l.find? p = some f)
    (ha : a ∈ l) (hp : p a) : key f ≤ key a := by
  obtain ⟨-, before, after, rfl, hbefore⟩ := find?_eq_some_iff_append.mp hf
  rcases mem_append.mp ha with ha | ha
  · exact absurd hp (by simpa using hbefore a ha)
  · rcases mem_cons.mp ha with rfl | ha
    · exact le_rfl
    · have hlt := (pairwise_cons.mp (pairwise_append.mp h).2.1).1 a ha
      omega

theorem Ascends.head_le (h : Ascends key l) (ha : l.head? = some a) (hb : b ∈ l) :
    key a ≤ key b := by
  have hcons := cons_head?_tail ha
  rw [← hcons] at h hb
  rcases mem_cons.mp hb with rfl | hb
  · exact le_rfl
  · exact le_of_lt ((pairwise_cons.mp h).1 b hb)

/-- Where a condition, once it holds, holds to the end, the first element of a rest that satisfies
it is the first of all, or the rest starts with it. -/
theorem find?_drop {f : α} (h : l.Pairwise fun a b => p a → p b)
    (hf : (l.drop n).find? p = some f) : l.find? p = some f ∨ (l.drop n).head? = some f := by
  rw [← take_append_drop n l, pairwise_append] at h
  cases htake : (l.take n).find? p with
  | none =>
    left
    rw [← take_append_drop n l, find?_append, htake, hf]
    rfl
  | some f' =>
    right
    cases hdrop : l.drop n with
    | nil => simp [hdrop] at hf
    | cons a rest =>
      have ha := h.2.2 f' (mem_of_find?_eq_some htake) a (by simp [hdrop]) (find?_some htake)
      simpa [hdrop, ha] using hf

/-- Where a condition, once it holds, holds to the end, what satisfies it is a rest of the list. -/
theorem exists_filter_eq_drop (h : l.Pairwise fun a b => p a → p b) :
    ∃ n, l.filter p = l.drop n := by
  induction l with
  | nil => exact ⟨0, rfl⟩
  | cons a l ih =>
    obtain ⟨ha, hl⟩ := pairwise_cons.mp h
    by_cases hp : p a
    · exact ⟨0, filter_eq_self.mpr (forall_mem_cons.mpr ⟨hp, fun b hb => ha b hb hp⟩)⟩
    · obtain ⟨n, hn⟩ := ih hl
      exact ⟨n + 1, by rw [filter_cons_of_neg hp, hn, drop_succ_cons]⟩

/-- Elements of a list that are linked to each other are a part of it, if a link always leads to the
neighbour before. -/
theorem exists_part {R : α → α → Prop} {whole part : List α}
    (hnext : ∀ front b back, whole = front ++ b :: back → ∀ a ∈ whole, R a b →
      front.getLast? = some a) (hsub : part ⊆ whole) (hchain : part.IsChain R) :
    ∃ front back, whole = front ++ part ++ back := by
  induction part with
  | nil => exact ⟨[], whole, rfl⟩
  | cons a rest ih =>
    obtain ⟨ha, hrest⟩ := cons_subset.mp hsub
    cases rest with
    | nil =>
      obtain ⟨front, back, heq⟩ := append_of_mem ha
      exact ⟨front, back, by simp [heq]⟩
    | cons b rest =>
      obtain ⟨hab, hchain⟩ := isChain_cons_cons.mp hchain
      obtain ⟨front, back, heq⟩ := ih hrest hchain
      have hlast := hnext front b (rest ++ back) (by simp [heq]) a ha hab
      refine ⟨front.dropLast, back, ?_⟩
      rw [heq, ← dropLast_append_getLast? a hlast]
      simp

end UltimateCaManager.Ascending
