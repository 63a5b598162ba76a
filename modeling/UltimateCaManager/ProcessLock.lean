import UltimateCaManager.Runs
import Mathlib.Logic.Function.Basic

/-!
# The lock between processes

`process_lock` with `fail_open` false. A lock belongs to an open file description; the nesting is
counted for each thread of each process and for each path. Several paths may name one file.
-/
namespace UltimateCaManager.ProcessLock

open Runs

/-- Where a thread is: outside the code of the lock, or at one of its calls for a path. -/
inductive Phase (π : Type)
  | body
  | acquiring (p : π)
  | unlocking (p : π)
  | closing (p : π)
  deriving DecidableEq

variable {θ π φ : Type} [DecidableEq θ] [DecidableEq π] [DecidableEq φ]

/-- The counters, the description that each thread has open for a path, and the description that
holds the lock of each file. -/
structure Locks (θ π φ : Type) where
  depth : θ × π → ℕ
  fd : θ × π → Option ℕ
  phase : θ → Phase π
  holder : φ → Option ℕ
  nextFd : ℕ

def start : Locks θ π φ := ⟨fun _ => 0, fun _ => none, fun _ => .body, fun _ => none, 0⟩

/-- The calls of a thread. A description is also closed when the lock stays busy for too long or the
system refuses it; a block that raises is left as any other. -/
inductive Call (π : Type)
  | enter (p : π)
  | flock
  | leave (p : π)
  | unlock (fails : Bool)
  | close

/-- What a description that is unlocked or closed leaves of the lock. -/
def Locks.release (s : Locks θ π φ) (f : φ) (fd : Option ℕ) (g : φ) : Option ℕ :=
  if g = f ∧ s.holder f = fd then none else s.holder g

/-- A call that the thread cannot make where it is leaves everything as it is. -/
def step (file : π → φ) (s : Locks θ π φ) : θ × Call π → Locks θ π φ
  | (t, call) =>
    match s.phase t, call with
    | .body, .enter p =>
      if 0 < s.depth (t, p) then
        { s with depth := Function.update s.depth (t, p) (s.depth (t, p) + 1) }
      else
        { s with
          fd := Function.update s.fd (t, p) (some s.nextFd)
          phase := Function.update s.phase t (.acquiring p)
          nextFd := s.nextFd + 1 }
    | .acquiring p, .flock =>
      if s.holder (file p) = none then
        { s with
          depth := Function.update s.depth (t, p) 1
          phase := Function.update s.phase t .body
          holder := Function.update s.holder (file p) (s.fd (t, p)) }
      else s
    | .body, .leave p =>
      if s.depth (t, p) = 1 then
        { s with
          depth := Function.update s.depth (t, p) 0
          phase := Function.update s.phase t (.unlocking p) }
      else { s with depth := Function.update s.depth (t, p) (s.depth (t, p) - 1) }
    | .unlocking p, .unlock fails =>
      { s with
        phase := Function.update s.phase t (.closing p)
        holder := if fails then s.holder else s.release (file p) (s.fd (t, p)) }
    | .acquiring p, .close | .closing p, .close =>
      { s with
        fd := Function.update s.fd (t, p) none
        phase := Function.update s.phase t .body
        holder := s.release (file p) (s.fd (t, p)) }
    | _, _ => s

/-- Who is inside holds the lock by the description of its outermost block. -/
structure Inv (file : π → φ) (s : Locks θ π φ) : Prop where
  fresh : ∀ x n, s.fd x = some n → n < s.nextFd
  distinct : ∀ x y, s.fd x ≠ none → s.fd x = s.fd y → x = y
  inside : ∀ x, 0 < s.depth x → s.fd x ≠ none ∧ s.holder (file x.2) = s.fd x
  calling : ∀ t p, s.phase t = .acquiring p ∨ s.phase t = .unlocking p ∨ s.phase t = .closing p →
    s.fd (t, p) ≠ none ∧ s.depth (t, p) = 0

variable {file : π → φ} {s : Locks θ π φ}

omit [DecidableEq θ] [DecidableEq π] in
/-- A description that no block uses takes nothing from who is inside when it is released. -/
theorem Inv.release (h : Inv file s) {t : θ} {p : π} (hfd : s.fd (t, p) ≠ none)
    (hx : s.depth (t, p) = 0) (y : θ × π) (hy : 0 < s.depth y) :
    s.release (file p) (s.fd (t, p)) (file y.2) = s.holder (file y.2) := by
  have hinside := h.inside y hy
  have hdistinct := h.distinct (t, p) y hfd
  grind [Locks.release]

theorem inv_step (h : Inv file s) (l : θ × Call π) : Inv file (step file s l) := by
  have hrelease := fun t p => h.release (t := t) (p := p)
  have ⟨hfresh, hdistinct, hinside, hcalling⟩ := h
  obtain ⟨t, call⟩ := l
  simp only [step]
  repeat' split
  -- a call leaves the state as it is, or writes at the place of its thread and path
  all_goals first
    | exact h
    | constructor <;> simp only [Function.update_apply] <;> grind

theorem inv_exec (h : Inv file s) (run : List (θ × Call π)) :
    Inv file (exec (step file) s run) := by
  induction run generalizing s with
  | nil => exact h
  | cons l run ih => exact ih (inv_step h l)

omit [DecidableEq θ] [DecidableEq π] [DecidableEq φ] in
theorem Inv.exclusive (h : Inv file s) {t u : θ} {p : π} (ht : 0 < s.depth (t, p))
    (hu : 0 < s.depth (u, p)) : t = u := by
  obtain ⟨hopen, hholder⟩ := h.inside _ ht
  exact congrArg Prod.fst (h.distinct _ (u, p) hopen (hholder.symm.trans (h.inside _ hu).2))

/-- A lock is free, or a block is inside it or has not finished its exit. -/
def Used (file : π → φ) (s : Locks θ π φ) (f : φ) : Prop :=
  s.holder f = none ∨ ∃ x, file x.2 = f ∧ s.holder f = s.fd x ∧
    (0 < s.depth x ∨ s.phase x.1 = .unlocking x.2 ∨ s.phase x.1 = .closing x.2)

theorem used_step {f : φ} (h : Used file s f) (l : θ × Call π) : Used file (step file s l) f := by
  unfold Used step at *
  repeat' split
  all_goals try simp only [Locks.release, Function.update_apply]
  all_goals grind

theorem used_exec {f : φ} (h : Used file s f) (run : List (θ × Call π)) :
    Used file (exec (step file) s run) f := by
  induction run generalizing s with
  | nil => exact h
  | cons l run ih => exact ih (used_step h l)

/-- A lock that nobody holds is taken by a thread that comes and by one that waits for it. -/
theorem take_free {u : θ} {p : π} (hfree : s.holder (file p) = none) :
    (s.phase u = .body → s.depth (u, p) = 0 →
      0 < (exec (step file) s [(u, .enter p), (u, .flock)]).depth (u, p)) ∧
    (s.phase u = .acquiring p → 0 < (step file s (u, .flock)).depth (u, p)) := by
  constructor
  · intro hphase hdepth
    simp [step, hphase, hdepth, hfree]
  · intro hphase
    simp [step, hphase, hfree]

/-- The calls of the other threads do not move a thread. -/
theorem exec_others (file : π → φ) (s : Locks θ π φ) {t : θ} {others : List (θ × Call π)}
    (h : ∀ l ∈ others, l.1 ≠ t) (p : π) :
    (exec (step file) s others).phase t = s.phase t ∧
      (exec (step file) s others).depth (t, p) = s.depth (t, p) := by
  induction others generalizing s with
  | nil => exact ⟨rfl, rfl⟩
  | cons l others ih =>
    have hstep : (step file s l).phase t = s.phase t ∧
        (step file s l).depth (t, p) = s.depth (t, p) := by
      have hne := h l List.mem_cons_self
      obtain ⟨u, call⟩ := l
      simp only [step]
      repeat' split
      all_goals simp [Ne.symm hne]
    rw [← hstep.1, ← hstep.2]
    exact ih _ fun l hl => h l (List.mem_cons_of_mem _ hl)

/-- In every interleaving at most one thread is inside a path, and an inner exit leaves the outer
block inside. The outermost exit ends whatever the others do, and a lock that nobody is inside of
or about to release can be taken. -/
theorem processLock_excludes (run : List (θ × Call π)) :
    let s : Locks θ π φ := exec (step file) start run
    (∀ t u p, 0 < s.depth (t, p) → 0 < s.depth (u, p) → t = u) ∧
    (∀ t p, s.phase t = .body → 1 < s.depth (t, p) →
      let left := step file s (t, .leave p)
      0 < left.depth (t, p) ∧ ∀ u, 0 < left.depth (u, p) → u = t) ∧
    (∀ t p fails (others later : List (θ × Call π)), (∀ l ∈ others ++ later, l.1 ≠ t) →
      s.phase t = .body → s.depth (t, p) = 1 →
      let left := exec (step file) s
        ((t, .leave p) :: others ++ (t, .unlock fails) :: later ++ [(t, .close)])
      left.phase t = .body ∧ left.depth (t, p) = 0) ∧
    ∀ p, (∀ x, file x.2 = file p →
        s.depth x = 0 ∧ s.phase x.1 ≠ .unlocking x.2 ∧ s.phase x.1 ≠ .closing x.2) →
      ∀ u, (s.phase u = .body →
          0 < (exec (step file) s [(u, .enter p), (u, .flock)]).depth (u, p)) ∧
        (s.phase u = .acquiring p → 0 < (step file s (u, .flock)).depth (u, p)) := by
  intro s
  have h : Inv file s := inv_exec (by constructor <;> simp [start]) run
  refine ⟨fun t u p => h.exclusive, ?_, ?_, ?_⟩
  · intro t p ht hdepth
    have hinside : 0 < (step file s (t, .leave p)).depth (t, p) := by
      simp only [step, ht, if_neg (Nat.ne_of_gt hdepth), Function.update_self]
      omega
    exact ⟨hinside, fun u hu => (inv_step h _).exclusive hu hinside⟩
  · intro t p fails others later hothers ht hdepth
    obtain ⟨hfirst, hlast⟩ := List.forall_mem_append.mp hothers
    simp only [exec_append, exec_cons, List.cons_append]
    have hleft : (step file s (t, .leave p)).phase t = .unlocking p ∧
        (step file s (t, .leave p)).depth (t, p) = 0 := by simp [step, ht, hdepth]
    generalize step file s (t, .leave p) = left at hleft
    have hwaited := exec_others file left hfirst p
    rw [hleft.1, hleft.2] at hwaited
    generalize exec (step file) left others = waited at hwaited
    have hunlocked : (step file waited (t, .unlock fails)).phase t = .closing p ∧
        (step file waited (t, .unlock fails)).depth (t, p) = 0 := by simp [step, hwaited]
    generalize step file waited (t, .unlock fails) = unlocked at hunlocked
    have hclosing := exec_others file unlocked hlast p
    rw [hunlocked.1, hunlocked.2] at hclosing
    simp [step, hclosing]
  · intro p hnobody u
    have hfree : s.holder (file p) = none := by
      rcases used_exec (s := start) (f := file p) (.inl rfl) run with hfree | ⟨x, hx, -, hused⟩
      · exact hfree
      · have := hnobody x hx
        grind
    exact ⟨fun hu => (take_free hfree).1 hu (hnobody (u, p) rfl).1, (take_free hfree).2⟩

/-- A thread that waits is refused until the outer of two blocks was left. -/
theorem processLock_excludes_nested :
    let run : List (Fin 2 × Call Unit) := [(0, .enter ()), (0, .flock), (0, .enter ()),
      (1, .enter ()), (0, .leave ()), (1, .flock), (0, .leave ()), (0, .unlock false), (0, .close)]
    let s : ℕ → Locks (Fin 2) Unit Unit := fun n => exec (step id) start (run.take n)
    (s 3).depth (0, ()) = 2 ∧ (s 6).depth (0, ()) = 1 ∧ (s 6).depth (1, ()) = 0 ∧
      0 < (step id (s 9) (1, .flock)).depth (1, ()) := by
  refine ⟨by decide, by decide, by decide, ?_⟩
  refine ((processLock_excludes _).2.2.2 () ?_ 1).2 (by decide)
  rintro ⟨t, ⟨⟩⟩ -
  revert t
  decide

/-- A held lock has a block inside it or a thread at one of its calls. -/
theorem held_used (run : List (θ × Call π)) (f : φ) :
    let s : Locks θ π φ := exec (step file) start run
    s.holder f = none ∨ ∃ x, file x.2 = f ∧ s.holder f = s.fd x ∧ (0 < s.depth x ∨
      s.phase x.1 ∈ [.acquiring x.2, .unlocking x.2, .closing x.2]) := by
  intro s
  rcases used_exec (s := start) (f := f) (.inl rfl) run with hfree | ⟨x, hx, hholder, hused⟩
  · exact .inl hfree
  · exact .inr ⟨x, hx, hholder, by simp; tauto⟩

end UltimateCaManager.ProcessLock
