import Mathlib.Data.List.Basic

/-!
# Ordered dictionaries

A dictionary that remembers the order in which its keys were last used, least recently used first.
Its lemmas say what a key reads after each operation; a bound on the number of keys drops the
oldest ones, and a key that is not among them reads as before.
-/
namespace UltimateCaManager.OrderedDict

variable {κ ν : Type*} [DecidableEq κ]

def get? (d : List (κ × ν)) (k : κ) : Option ν := (d.find? fun e => e.1 = k).map Prod.snd

def delete (d : List (κ × ν)) (k : κ) : List (κ × ν) := d.filter fun e => e.1 ≠ k

/-- Write a key and make it the most recently used one. -/
def put (d : List (κ × ν)) (k : κ) (v : ν) : List (κ × ν) := delete d k ++ [(k, v)]

def moveToEnd (d : List (κ × ν)) (k : κ) : List (κ × ν) :=
  match get? d k with
  | some v => put d k v
  | none => d

def evicted (size : ℕ) (d : List (κ × ν)) : List κ := (d.take (d.length - size)).map Prod.fst

def bound (size : ℕ) (d : List (κ × ν)) : List (κ × ν) := d.drop (d.length - size)

variable {d : List (κ × ν)} {k k' : κ} {v : ν} {size : ℕ}

@[simp] theorem get?_delete_self : get? (delete d k) k = none := by
  simp [get?, delete]

theorem get?_delete_of_ne (h : k' ≠ k) : get? (delete d k) k' = get? d k' := by
  simp only [get?, delete, List.find?_filter]
  congr 2
  funext e
  by_cases he : e.1 = k'
  · simp [he, h]
  · simp [he]

theorem get?_append (l r : List (κ × ν)) : get? (l ++ r) k = (get? l k).or (get? r k) := by
  simp only [get?, List.find?_append]
  cases l.find? fun e => e.1 = k <;> simp

@[simp] theorem get?_put_self : get? (put d k v) k = some v := by
  rw [put, get?_append, get?_delete_self]
  simp [get?]

theorem get?_put_of_ne (h : k' ≠ k) : get? (put d k v) k' = get? d k' := by
  have hlast : get? [(k, v)] k' = none := by simp [get?, h.symm]
  rw [put, get?_append, get?_delete_of_ne h, hlast, Option.or_none]

@[simp] theorem get?_moveToEnd : get? (moveToEnd d k) k' = get? d k' := by
  unfold moveToEnd
  cases hv : get? d k with
  | none => rfl
  | some v =>
    by_cases hk : k' = k
    · rw [hk, get?_put_self, hv]
    · exact get?_put_of_ne hk

theorem get?_bound (h : k ∉ evicted size d) : get? (bound size d) k = get? d k := by
  have hnone : get? (d.take (d.length - size)) k = none := by
    simp only [get?, Option.map_eq_none_iff, List.find?_eq_none, decide_eq_true_eq]
    intro e he hk
    exact h (List.mem_map.mpr ⟨e, he, hk⟩)
  have hsplit : d.take (d.length - size) ++ d.drop (d.length - size) = d := List.take_append_drop ..
  calc get? (bound size d) k
      = (get? (d.take (d.length - size)) k).or (get? (d.drop (d.length - size)) k) := by
        rw [hnone, Option.none_or, bound]
    _ = get? d k := by rw [← get?_append, hsplit]

end UltimateCaManager.OrderedDict
