import UltimateCaManager.Runs

/-!
# Concurrent requests over a shared state

A request becomes a task, which advances by atomic steps over a shared state; between two of its
steps any other task, or the outside, may take a step. A safety proof names a property of the
shared state, a property of each task in flight, and a relation between any two of them; the rule
below says what has to be checked for a single step.
-/
namespace UltimateCaManager.Concurrency

open Runs

variable {σ τ ρ ι ε : Type*}

/-- Shared states `σ`, tasks `τ`, requests `ρ`, inputs `ι` from outside to a task, and events `ε`
that belong to no task. -/
structure System (σ τ ρ ι ε : Type*) where
  event : σ → ε → σ
  /-- The reads of a request up to its first step, `none` when it ends there. -/
  start : σ → ρ → Option τ
  /-- One step of a task; `none` when the input does not fit. -/
  advance : σ → τ → ι → Option (σ × Option τ)

structure World (σ τ : Type*) where
  shared : σ
  tasks : ℕ → Option τ

def World.initial (s : σ) : World σ τ := ⟨s, fun _ => none⟩

inductive Label (ρ ι ε : Type*)
  | event (e : ε)
  | request (task : ℕ) (r : ρ)
  | advance (task : ℕ) (input : ι)

def Label.slot? : Label ρ ι ε → Option ℕ
  | .event _ => none
  | .request i _ => some i
  | .advance i _ => some i

namespace System

def step (S : System σ τ ρ ι ε) (w : World σ τ) : Label ρ ι ε → World σ τ
  | .event e => { w with shared := S.event w.shared e }
  | .request i r =>
    if (w.tasks i).isSome then w
    else { w with tasks := Function.update w.tasks i (S.start w.shared r) }
  | .advance i input =>
    match (w.tasks i).bind fun t => S.advance w.shared t input with
    | none => w
    | some (s, t) => ⟨s, Function.update w.tasks i t⟩

inductive Steps (S : System σ τ ρ ι ε) (w : World σ τ) : Label ρ ι ε → World σ τ → Prop
  | idle {l} : Steps S w l w
  | event {e} : Steps S w (.event e) { w with shared := S.event w.shared e }
  | refused {i r} (hfree : w.tasks i = none) (h : S.start w.shared r = none) :
      Steps S w (.request i r) w
  | request {i r t} (hfree : w.tasks i = none) (h : S.start w.shared r = some t) :
      Steps S w (.request i r) { w with tasks := Function.update w.tasks i (some t) }
  | advance {i input t s t'} (ht : w.tasks i = some t)
      (h : S.advance w.shared t input = some (s, t')) :
      Steps S w (.advance i input) ⟨s, Function.update w.tasks i t'⟩

theorem step_steps (S : System σ τ ρ ι ε) (w : World σ τ) (l : Label ρ ι ε) :
    Steps S w l (S.step w l) := by
  cases l with
  | event e => exact .event
  | request i r =>
    simp only [step]
    split
    · exact .idle
    · next hfree =>
      have hnone : w.tasks i = none := by simpa using hfree
      cases h : S.start w.shared r with
      | none =>
        rw [← hnone, Function.update_eq_self]
        exact .refused hnone h
      | some t => exact .request hnone h
  | advance i input =>
    simp only [step]
    split
    · exact .idle
    · next s t' h =>
      obtain ⟨t, ht, hadv⟩ := Option.bind_eq_some_iff.mp h
      exact .advance ht hadv

/-- A run that only ever uses one slot leaves the others empty. -/
theorem idle_of_slot (S : System σ τ ρ ι ε) {guard : World σ τ → Label ρ ι ε → Prop} {s₀ : σ}
    {w : World σ τ} {i : ℕ} (hguard : ∀ w l, guard w l → ∀ k ∈ l.slot?, k = i)
    (hw : Reach S.step guard (World.initial s₀) w) {j : ℕ} (hj : j ≠ i) : w.tasks j = none := by
  refine hw.invariant (P := fun w => w.tasks j = none) rfl fun w l _ hnone hl => ?_
  have hslot := hguard w l hl
  have hsteps := S.step_steps w l
  generalize S.step w l = w' at hsteps
  cases hsteps with
  | @request k r t hfree hstart =>
    have hk : k = i := hslot k rfl
    simpa [hk, hj] using hnone
  | @advance k input t s t' ht hadv =>
    have hk : k = i := hslot k rfl
    simpa [hk, hj] using hnone
  | _ => exact hnone

/-- A property of the shared state, one of the tasks in flight, one of any two of them. -/
structure Holds (P : σ → Prop) (Q : σ → τ → Prop) (R : τ → τ → Prop) (w : World σ τ) : Prop where
  shared : P w.shared
  task : ∀ {i t}, w.tasks i = some t → Q w.shared t
  apart : ∀ {i j t u}, i ≠ j → w.tasks i = some t → w.tasks j = some u → R t u

/-- The three properties are kept by every single step: a task keeps them for itself, and does not
disturb any other task it is apart from. -/
structure Inductive (S : System σ τ ρ ι ε) (guard : World σ τ → Label ρ ι ε → Prop)
    (P : σ → Prop) (Q : σ → τ → Prop) (R : τ → τ → Prop) : Prop where
  symm : ∀ {t u}, R t u → R u t
  event : ∀ {w e}, guard w (.event e) → P w.shared →
    P (S.event w.shared e) ∧ ∀ {t}, Q w.shared t → Q (S.event w.shared e) t
  start : ∀ {w : World σ τ} {i r t}, guard w (.request i r) → P w.shared →
    S.start w.shared r = some t → Q w.shared t ∧ ∀ {u}, Q w.shared u → R t u
  advance : ∀ {w : World σ τ} {i input t s t'}, guard w (.advance i input) → P w.shared →
    w.tasks i = some t → Q w.shared t → S.advance w.shared t input = some (s, t') →
    P s ∧ (∀ {v}, t' = some v → Q s v ∧ ∀ {u}, Q w.shared u → R t u → R v u) ∧
      ∀ {u}, Q w.shared u → R t u → Q s u

variable {S : System σ τ ρ ι ε} {guard : World σ τ → Label ρ ι ε → Prop} {P : σ → Prop}
  {Q : σ → τ → Prop} {R : τ → τ → Prop} {w w' : World σ τ} {l : Label ρ ι ε} {s₀ : σ}

/-- A task after one slot was rewritten is the new one, or an old one of another slot. -/
theorem update_eq_some {f : ℕ → Option τ} {i j : ℕ} {t' : Option τ} {u : τ}
    (h : Function.update f i t' j = some u) : j = i ∧ t' = some u ∨ j ≠ i ∧ f j = some u := by
  by_cases hji : j = i
  · subst hji
    rw [Function.update_self] at h
    exact .inl ⟨rfl, h⟩
  · rw [Function.update_of_ne hji] at h
    exact .inr ⟨hji, h⟩

/-- What the new task and the old ones have, every task has. -/
theorem forall_update {Q : τ → Prop} {f : ℕ → Option τ} {i : ℕ} {t' : Option τ}
    (hnew : ∀ t, t' = some t → Q t) (hold : ∀ j t, f j = some t → Q t) (j : ℕ) (t : τ)
    (h : Function.update f i t' j = some t) : Q t := by
  rcases update_eq_some h with ⟨-, h⟩ | ⟨-, h⟩
  · exact hnew t h
  · exact hold j t h

/-- Rewriting one slot keeps the properties when the new task has them and the others keep them. -/
theorem Holds.update {s : σ} {i : ℕ} {t' : Option τ} (hsymm : ∀ {t u}, R t u → R u t)
    (hw : Holds P Q R w) (hP : P s) (hself : ∀ {v}, t' = some v → Q s v)
    (hnew : ∀ {v j u}, t' = some v → j ≠ i → w.tasks j = some u → R v u)
    (hother : ∀ {j u}, j ≠ i → w.tasks j = some u → Q s u) :
    Holds P Q R ⟨s, Function.update w.tasks i t'⟩ := by
  refine ⟨hP, ?_, ?_⟩
  · intro j u hu
    rcases update_eq_some hu with ⟨-, hu⟩ | ⟨hj, hu⟩
    · exact hself hu
    · exact hother hj hu
  · intro j k u v hjk hu hv
    rcases update_eq_some hu with ⟨rfl, hu'⟩ | ⟨hj, hu'⟩ <;>
      rcases update_eq_some hv with ⟨rfl, hv'⟩ | ⟨hk, hv'⟩
    · exact absurd rfl hjk
    · exact hnew hu' hk hv'
    · exact hsymm (hnew hv' hj hu')
    · exact hw.apart hjk hu' hv'

theorem Inductive.steps (h : Inductive S guard P Q R) (hl : guard w l) (hw : Holds P Q R w)
    (hstep : Steps S w l w') : Holds P Q R w' := by
  cases hstep with
  | idle | refused => exact hw
  | event =>
    obtain ⟨hP, hQ⟩ := h.event hl hw.shared
    exact ⟨hP, fun ht => hQ (hw.task ht), hw.apart⟩
  | @request i r t hfree hstart =>
    obtain ⟨hQ, hR⟩ := h.start hl hw.shared hstart
    refine hw.update h.symm hw.shared ?_ ?_ fun _ hu => hw.task hu
    · rintro v ⟨⟩
      exact hQ
    · rintro v j u ⟨⟩ - hu
      exact hR (hw.task hu)
  | @advance i input t s t' ht hadv =>
    obtain ⟨hP, hself, hother⟩ := h.advance hl hw.shared ht (hw.task ht) hadv
    refine hw.update h.symm hP (fun hv => (hself hv).1) ?_ ?_
    · intro v j u hv hj hu
      exact (hself hv).2 (hw.task hu) (hw.apart hj.symm ht hu)
    · intro j u hj hu
      exact hother (hw.task hu) (hw.apart hj.symm ht hu)

/-- What every single step keeps holds along every run from a state that has it. -/
theorem Inductive.reach_from {w₀ : World σ τ} (h : Inductive S guard P Q R) (h₀ : Holds P Q R w₀)
    (hw : Reach S.step guard w₀ w) : Holds P Q R w :=
  hw.invariant h₀ fun w l _ hinv hl => h.steps hl hinv (S.step_steps w l)

theorem Inductive.reach (h : Inductive S guard P Q R) (h₀ : P s₀)
    (hw : Reach S.step guard (World.initial s₀) w) : Holds P Q R w :=
  h.reach_from ⟨h₀, by simp [World.initial], by simp [World.initial]⟩ hw

end System

end UltimateCaManager.Concurrency
