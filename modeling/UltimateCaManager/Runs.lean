import Mathlib.Data.List.Basic

/-!
# Guarded runs of a step system

A system is a total step function: a label that does not apply in a state leaves it unchanged.
A run is guarded when every label taken meets a condition on the state it is taken in. The
invariant rule below is the only induction over runs that the safety results need; concrete
runs are label lists, whose guard is checked by evaluation.
-/
namespace UltimateCaManager.Runs

variable {σ ℓ : Type*}

/-- The states reached from `s₀` by steps whose labels all meet `guard`. -/
inductive Reach (step : σ → ℓ → σ) (guard : σ → ℓ → Prop) (s₀ : σ) : σ → Prop
  | start : Reach step guard s₀ s₀
  | next {s : σ} (l : ℓ) : Reach step guard s₀ s → guard s l → Reach step guard s₀ (step s l)

variable {step : σ → ℓ → σ} {guard guard' : σ → ℓ → Prop} {s₀ s : σ}

/-- A property of the initial state that every guarded step keeps holds along the whole run.
The step may use that the state it starts from was itself reached. -/
theorem Reach.invariant {P : σ → Prop} (h₀ : P s₀)
    (hstep : ∀ s l, Reach step guard s₀ s → P s → guard s l → P (step s l))
    (h : Reach step guard s₀ s) : P s := by
  induction h with
  | start => exact h₀
  | next l hr hg ih => exact hstep _ l hr ih hg

/-- A guard that implies another in every state reached under it. -/
theorem Reach.imp (hg : ∀ s l, Reach step guard s₀ s → guard s l → guard' s l)
    (h : Reach step guard s₀ s) : Reach step guard' s₀ s := by
  induction h with
  | start => exact .start
  | next l hr hl ih => exact .next l ih (hg _ l hr hl)

theorem Reach.weaken (hg : ∀ s l, guard s l → guard' s l) (h : Reach step guard s₀ s) :
    Reach step guard' s₀ s :=
  h.imp fun s l _ => hg s l

def exec (step : σ → ℓ → σ) (s : σ) (labels : List ℓ) : σ :=
  labels.foldl step s

@[simp] theorem exec_nil (s : σ) : exec step s [] = s := rfl

@[simp] theorem exec_cons (s : σ) (l : ℓ) (ls : List ℓ) :
    exec step s (l :: ls) = exec step (step s l) ls := rfl

theorem exec_append (s : σ) (ls ls' : List ℓ) :
    exec step s (ls ++ ls') = exec step (exec step s ls) ls' :=
  List.foldl_append

/-- Every label of the list meets the guard in the state it is taken in. -/
def Meets (step : σ → ℓ → σ) (guard : σ → ℓ → Prop) : σ → List ℓ → Prop
  | _, [] => True
  | s, l :: ls => guard s l ∧ Meets step guard (step s l) ls

instance Meets.decidable (step : σ → ℓ → σ) (guard : σ → ℓ → Prop)
    [h : ∀ s l, Decidable (guard s l)] : ∀ s ls, Decidable (Meets step guard s ls)
  | _, [] => .isTrue trivial
  | s, l :: ls =>
    have := Meets.decidable step guard (step s l) ls
    inferInstanceAs (Decidable (_ ∧ _))

theorem Reach.exec (h : Reach step guard s₀ s) {ls : List ℓ} (hls : Meets step guard s ls) :
    Reach step guard s₀ (exec step s ls) := by
  induction ls generalizing s with
  | nil => exact h
  | cons l ls ih => exact ih (h.next l hls.1) hls.2

/-- Going from `a` on to the next state, as long as there is one, meets the states of `path`. -/
inductive Leads (next : σ → Option σ) : σ → List σ → Prop
  | last {a : σ} (h : next a = none) : Leads next a [a]
  | step {a b : σ} {path : List σ} (h : next a = some b) (hb : Leads next b path) :
      Leads next a (a :: path)

theorem Leads.mem {next : σ → Option σ} {path : List σ} (h : Leads next s path) : s ∈ path := by
  cases h <;> exact List.mem_cons_self

end UltimateCaManager.Runs
