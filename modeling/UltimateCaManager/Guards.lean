import Mathlib.Data.List.Basic

/-!
# Sequences of guards

A handler that refuses a request at the first check that fails is a sequence of guards in
`Except`. The lemmas say what the success of such a sequence establishes, one guard at a time,
and what a loop of steps that may fail preserves when it does not.
-/
namespace UltimateCaManager.Guards

open List

universe u

/-- Refuse with `e` unless the condition holds. -/
def require {ε : Type*} (c : Bool) (e : ε) : Except ε Unit := if c then .ok () else .error e

/-- The value of an option, or the refusal `e`. -/
def expect {ε α : Type*} (x : Option α) (e : ε) : Except ε α :=
  match x with
  | some a => .ok a
  | none => .error e

/-- Refuse with what the option holds. -/
def forbid {ε : Type*} (x : Option ε) : Except ε Unit :=
  match x with
  | some e => .error e
  | none => .ok ()

theorem bind_eq_ok {ε : Type*} {α β : Type u} {x : Except ε α} {f : α → Except ε β} {b : β} :
    (x >>= f) = .ok b ↔ ∃ a, x = .ok a ∧ f a = .ok b := by
  cases x with
  | error | ok => simp [bind, Except.bind]

theorem require_eq_ok {ε : Type*} {c : Bool} {e : ε} {u : Unit} :
    require c e = .ok u ↔ c = true := by
  cases c <;> simp [require]

theorem expect_eq_ok {ε α : Type*} {x : Option α} {e : ε} {a : α} :
    expect x e = .ok a ↔ x = some a := by
  cases x <;> simp [expect]

theorem mapError_eq_ok {ε ε' α : Type*} {x : Except ε α} {f : ε → ε'} {a : α} :
    x.mapError f = .ok a ↔ x = .ok a := by
  cases x <;> simp [Except.mapError]

theorem pure_eq_ok {ε α : Type*} {a b : α} : (pure a : Except ε α) = .ok b ↔ a = b := by
  simp [pure, Except.pure]

/-- A loop that succeeds gives each of its entries its own result. -/
theorem mapM_eq_ok {ε : Type*} {α β : Type u} {f : α → Except ε β} {l : List α} {l' : List β}
    (h : l.mapM f = .ok l') :
    (∀ a ∈ l, ∃ b, (a, b) ∈ l.zip l') ∧ ∀ e ∈ l.zip l', f e.1 = .ok e.2 := by
  induction l generalizing l' with
  | nil => simp
  | cons a l ih =>
    rw [mapM_cons] at h
    simp only [bind_eq_ok, pure_eq_ok] at h
    obtain ⟨b, hb, bs, hbs, rfl⟩ := h
    obtain ⟨hzip, hall⟩ := ih hbs
    constructor
    · intro x hx
      rcases mem_cons.mp hx with rfl | hx
      · exact ⟨b, mem_cons_self⟩
      · obtain ⟨y, hy⟩ := hzip x hx
        exact ⟨y, mem_cons_of_mem _ hy⟩
    · exact forall_mem_cons.mpr ⟨hb, hall⟩

theorem exists_of_mapM_ok {ε : Type*} {α β : Type u} {f : α → Except ε β} {l : List α} {l' : List β}
    (h : l.mapM f = .ok l') {b : β} (hb : b ∈ l') : ∃ a ∈ l, f a = .ok b := by
  induction l generalizing l' with
  | nil =>
    cases h
    cases hb
  | cons a l ih =>
    rw [mapM_cons] at h
    simp only [bind_eq_ok, pure_eq_ok] at h
    obtain ⟨c, hc, cs, hcs, rfl⟩ := h
    rcases mem_cons.mp hb with rfl | hb
    · exact ⟨a, mem_cons_self, hc⟩
    · obtain ⟨x, hx, hfx⟩ := ih hcs hb
      exact ⟨x, mem_cons_of_mem _ hx, hfx⟩

section Loops

variable {ε α β : Type*} {f : β → α → Except ε β} {l : List α} {b b' : β}

/-- A loop whose rounds all relate what they take to what they give relates its ends. -/
theorem foldlM_rel {R : β → β → Prop} (hrefl : ∀ b, R b b)
    (htrans : ∀ b c d, R b c → R c d → R b d)
    (hstep : ∀ b b', ∀ a ∈ l, f b a = .ok b' → R b b') (h : l.foldlM f b = .ok b') : R b b' := by
  induction l generalizing b with
  | nil =>
    cases h
    exact hrefl _
  | cons a l ih =>
    rw [foldlM_cons, bind_eq_ok] at h
    obtain ⟨c, hc, hrest⟩ := h
    have hbc := hstep b c a mem_cons_self hc
    have hcb' := ih (fun b b' a' ha' => hstep b b' a' (mem_cons_of_mem _ ha')) hrest
    exact htrans b c b' hbc hcb'

/-- What one round establishes and the others keep holds after the loop. -/
theorem foldlM_establishes {P : β → Prop} {a : α} (ha : a ∈ l)
    (hat : ∀ b b', f b a = .ok b' → P b')
    (hstep : ∀ b b', ∀ a ∈ l, f b a = .ok b' → P b → P b') (h : l.foldlM f b = .ok b') :
    P b' := by
  obtain ⟨l₁, l₂, rfl⟩ := append_of_mem ha
  rw [foldlM_append, bind_eq_ok] at h
  obtain ⟨c, -, h⟩ := h
  rw [foldlM_cons, bind_eq_ok] at h
  obtain ⟨d, hd, h⟩ := h
  have hrest : ∀ b b', ∀ a' ∈ l₂, f b a' = .ok b' → P b → P b' := fun b b' a' ha' =>
    hstep b b' a' (by simp [ha'])
  exact foldlM_rel (R := fun b b' => P b → P b') (fun _ hb => hb)
    (fun _ _ _ hbc hcd hb => hcd (hbc hb)) hrest h (hat c d hd)

/-- Rounds that do nothing can be left out. -/
theorem foldlM_filter_eq {p : α → Bool} (hskip : ∀ b, ∀ a ∈ l, p a = false → f b a = .ok b) :
    (l.filter p).foldlM f b = l.foldlM f b := by
  induction l generalizing b with
  | nil => rfl
  | cons a l ih =>
    have hrest : ∀ b, (l.filter p).foldlM f b = l.foldlM f b := fun b =>
      ih fun b a' ha' => hskip b a' (mem_cons_of_mem _ ha')
    cases hp : p a with
    | true =>
      rw [filter_cons_of_pos hp]
      exact bind_congr hrest
    | false =>
      rw [filter_cons_of_neg (by simp [hp]), foldlM_cons,
        hskip b a mem_cons_self hp]
      exact hrest b

end Loops

end UltimateCaManager.Guards
