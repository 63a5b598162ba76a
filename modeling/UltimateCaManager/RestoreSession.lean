import UltimateCaManager.Runs

/-!
# A restore among other requests

Every request has a session of its own, but `commit` and `rollback` are attributes of the one
`db.session` of the process. `single_transaction` replaces both for as long as its block runs, one
assignment after the other, and puts them back before the commit or the rollback at its end.
-/
namespace UltimateCaManager.Restore

open Runs

/-- A write of a request, numbered in the order of all writes. -/
structure Write where
  request : ℕ
  number : ℕ
  deriving DecidableEq

/-- How far the restore is: one function replaced, both, one put back, both. -/
inductive Phase
  | entering
  | inside
  | leaving
  | left
  deriving DecidableEq

structure Process where
  /-- `db.session.commit` is `flush_instead`. -/
  commitFlushes : Bool
  /-- `db.session.rollback` is `refuse_rollback`. -/
  rollbackRefused : Bool
  restore : Option (ℕ × Phase)
  durable : List Write
  /-- The open transaction of each request's session. -/
  pending : ℕ → List Write
  next : ℕ

/-- A call to `commit` may raise; a request that ends drops its session. -/
inductive Call
  | write (i : ℕ)
  | commit (i : ℕ) (accepted : Bool)
  | rollback (i : ℕ)
  | finish (i : ℕ)
  | enter (i : ℕ)
  | goOn

namespace Process

variable (p : Process)

def Restores (i : ℕ) : Prop := ∃ phase, p.restore = some (i, phase)

/-- The transaction of the request becomes durable, or is dropped. -/
def close (i : ℕ) (kept : List Write) : Process :=
  { p with durable := p.durable ++ kept, pending := Function.update p.pending i [] }

/-- The restore is over once the restoring request has committed or rolled back for real. -/
def concluded (i : ℕ) : Process :=
  if p.restore = some (i, .left) then { p with restore := none } else p

/-- The next assignment of `single_transaction`. -/
def goOn : Process :=
  match p.restore with
  | some (i, .entering) => { p with rollbackRefused := true, restore := some (i, .inside) }
  | some (i, .inside) => { p with commitFlushes := false, restore := some (i, .leaving) }
  | some (i, .leaving) => { p with rollbackRefused := false, restore := some (i, .left) }
  | _ => p

def step : Call → Process
  | .write i =>
    { p with
      pending := Function.update p.pending i (p.pending i ++ [⟨i, p.next⟩])
      next := p.next + 1 }
  | .commit i accepted =>
    if !accepted then p
    else if p.commitFlushes then p
    else (p.close i (p.pending i)).concluded i
  | .rollback i => if p.rollbackRefused then p else (p.close i []).concluded i
  | .finish i => p.close i []
  | .enter i =>
    -- one restore at a time: the caller holds the migration lock
    if p.restore.isSome then p else { p with commitFlushes := true, restore := some (i, .entering) }
  | .goOn => p.goOn

def init : Process := ⟨false, false, none, [], fun _ => [], 0⟩

end Process

/-! ## What the other requests may rely on -/

variable {p : Process} {i : ℕ}

/-- A commit of another request that returns has made its writes durable, and a rollback has undone
them. -/
def Honoured (p : Process) : Call → Prop
  | .commit i accepted => ¬ p.Restores i → accepted = true →
      ∀ w ∈ p.pending i, w ∈ (p.step (.commit i accepted)).durable
  | .rollback i => ¬ p.Restores i → (p.step (.rollback i)).pending i = [] ∧
      ∀ w ∈ p.pending i, w ∉ (p.step (.rollback i)).durable
  | _ => True

/-- The transaction of the restore has its own writes only. -/
def OwnWrites (p : Process) : Prop := ∀ i, p.Restores i → ∀ w ∈ p.pending i, w.request = i

/-- The function that another request calls is its own, or it has nothing to write. -/
def Unreplaced (p : Process) : Call → Prop
  | .commit i accepted => p.Restores i ∨ accepted = false ∨ p.commitFlushes = false ∨
      p.pending i = []
  | .rollback i => p.Restores i ∨ p.rollbackRefused = false ∨ p.pending i = []
  | _ => True

/-- Open writes belong to their request, are not durable, and were numbered. -/
structure Separate (p : Process) : Prop where
  own : ∀ i, ∀ w ∈ p.pending i, w.request = i
  open_ : ∀ i, ∀ w ∈ p.pending i, w ∉ p.durable
  numbered : ∀ i, ∀ w ∈ p.pending i, w.number < p.next
  durable_numbered : ∀ w ∈ p.durable, w.number < p.next

theorem Separate.congr {q : Process} (h : Separate p) (hd : q.durable = p.durable)
    (hp : q.pending = p.pending) (hn : q.next = p.next) : Separate q := by
  constructor
  · rw [hp]
    exact h.own
  · rw [hp, hd]
    exact h.open_
  · rw [hp, hn]
    exact h.numbered
  · rw [hd, hn]
    exact h.durable_numbered

theorem concluded_eq (i : ℕ) : (p.concluded i).durable = p.durable ∧
    (p.concluded i).pending = p.pending ∧ (p.concluded i).next = p.next := by
  unfold Process.concluded
  split <;> exact ⟨rfl, rfl, rfl⟩

theorem goOn_eq : p.goOn.durable = p.durable ∧ p.goOn.pending = p.pending ∧
    p.goOn.next = p.next := by
  unfold Process.goOn
  split <;> exact ⟨rfl, rfl, rfl⟩

theorem mem_close {kept : List Write} {j : ℕ} {w : Write}
    (h : w ∈ (p.close i kept).pending j) : j ≠ i ∧ w ∈ p.pending j := by
  by_cases hj : j = i
  · subst hj
    simp [Process.close] at h
  · exact ⟨hj, by simpa [Process.close, hj] using h⟩

theorem Separate.close (h : Separate p) {kept : List Write} (hkept : ∀ w ∈ kept, w ∈ p.pending i) :
    Separate (p.close i kept) where
  own := fun j w hw => h.own j w (mem_close hw).2
  open_ := by
    intro j w hw hdurable
    obtain ⟨hj, hw⟩ := mem_close hw
    rcases List.mem_append.mp hdurable with hd | hk
    · exact h.open_ j w hw hd
    · exact hj ((h.own j w hw).symm.trans (h.own i w (hkept w hk)))
  numbered := fun j w hw => h.numbered j w (mem_close hw).2
  durable_numbered := List.forall_mem_append.mpr
    ⟨h.durable_numbered, fun w hk => h.numbered i w (hkept w hk)⟩

theorem mem_write {j : ℕ} {w : Write} (h : w ∈ (p.step (.write i)).pending j) :
    w ∈ p.pending j ∨ j = i ∧ w = ⟨i, p.next⟩ := by
  by_cases hj : j = i
  · subst hj
    simpa [Process.step] using h
  · exact .inl (by simpa [Process.step, hj] using h)

theorem Separate.write (h : Separate p) (i : ℕ) : Separate (p.step (.write i)) where
  own := by
    intro j w hw
    rcases mem_write hw with hw | ⟨rfl, rfl⟩
    · exact h.own j w hw
    · rfl
  open_ := by
    intro j w hw hdurable
    rcases mem_write hw with hw | ⟨rfl, rfl⟩
    · exact h.open_ j w hw hdurable
    · exact absurd (h.durable_numbered _ hdurable) (Nat.lt_irrefl _)
  numbered := by
    intro j w hw
    rcases mem_write hw with hw | ⟨rfl, rfl⟩
    · exact Nat.lt_succ_of_lt (h.numbered j w hw)
    · exact Nat.lt_succ_self _
  durable_numbered := fun w hw => Nat.lt_succ_of_lt (h.durable_numbered w hw)

theorem Separate.step (h : Separate p) (c : Call) : Separate (p.step c) := by
  cases c with
  | write i => exact h.write i
  | commit i accepted =>
    simp only [Process.step]
    split
    · exact h
    · split
      · exact h
      · have hclosed : Separate (p.close i (p.pending i)) := h.close fun _ hw => hw
        exact hclosed.congr (concluded_eq i).1 (concluded_eq i).2.1 (concluded_eq i).2.2
  | rollback i =>
    simp only [Process.step]
    split
    · exact h
    · have hclosed : Separate (p.close i []) := h.close (by simp)
      exact hclosed.congr (concluded_eq i).1 (concluded_eq i).2.1 (concluded_eq i).2.2
  | finish i => exact h.close (by simp)
  | enter i =>
    simp only [Process.step]
    split
    · exact h
    · exact h.congr rfl rfl rfl
  | goOn => exact h.congr goOn_eq.1 goOn_eq.2.1 goOn_eq.2.2

theorem separate_reach (h : Reach Process.step (fun _ _ => True) Process.init p) : Separate p := by
  refine h.invariant (P := Separate) ?_ fun q c _ hq _ => hq.step c
  constructor <;> simp [Process.init]

section Calls

theorem step_commit_real (h : p.commitFlushes = false) :
    p.step (.commit i true) = (p.close i (p.pending i)).concluded i := by
  simp [Process.step, h]

theorem step_commit_flush (h : p.commitFlushes = true) : p.step (.commit i true) = p := by
  simp [Process.step, h]

theorem step_rollback_real (h : p.rollbackRefused = false) :
    p.step (.rollback i) = (p.close i []).concluded i := by
  simp [Process.step, h]

theorem step_rollback_refused (h : p.rollbackRefused = true) : p.step (.rollback i) = p := by
  simp [Process.step, h]

end Calls

/-- A commit is honoured when it is the real one, or there is nothing to commit. -/
theorem honoured_commit_iff (h : Separate p) (accepted : Bool) :
    Honoured p (.commit i accepted) ↔ Unreplaced p (.commit i accepted) := by
  constructor
  · intro hon
    by_cases hrestores : p.Restores i
    · exact .inl hrestores
    · cases haccepted : accepted with
      | false => exact .inr (.inl rfl)
      | true =>
        subst haccepted
        cases hflush : p.commitFlushes with
        | false => exact .inr (.inr (.inl hflush))
        | true =>
          have hdurable := hon hrestores rfl
          rw [step_commit_flush hflush] at hdurable
          refine .inr (.inr (.inr (List.eq_nil_iff_forall_not_mem.mpr fun w hw => ?_)))
          exact h.open_ i w hw (hdurable w hw)
  · rintro hun hrestores rfl w hw
    rcases hun with hun | hun | hun | hun
    · exact absurd hun hrestores
    · cases hun
    · rw [step_commit_real hun, (concluded_eq i).1]
      exact List.mem_append_right _ hw
    · rw [hun] at hw
      cases hw

theorem honoured_rollback_iff (h : Separate p) :
    Honoured p (.rollback i) ↔ Unreplaced p (.rollback i) := by
  constructor
  · intro hon
    by_cases hrestores : p.Restores i
    · exact .inl hrestores
    · cases hrefused : p.rollbackRefused with
      | false => exact .inr (.inl hrefused)
      | true =>
        have hundone := (hon hrestores).1
        rw [step_rollback_refused hrefused] at hundone
        exact .inr (.inr hundone)
  · intro hun hrestores
    cases hrefused : p.rollbackRefused with
    | false =>
      rw [step_rollback_real hrefused, (concluded_eq i).1, (concluded_eq i).2.1]
      refine ⟨by simp [Process.close], fun w hw hdurable => h.open_ i w hw ?_⟩
      simpa [Process.close] using hdurable
    | true =>
      have hempty : p.pending i = [] := by
        rcases hun with hun | hun | hun
        · exact absurd hun hrestores
        · rw [hrefused] at hun
          cases hun
        · exact hun
      rw [step_rollback_refused hrefused, hempty]
      exact ⟨rfl, by simp⟩

/-- In every state that any interleaving reaches, the next call of another request is honoured and
the restore's transaction has its own writes only, exactly when the call is not a replaced one of a
request with open writes. -/
theorem honoured_iff_unreplaced (h : Reach Process.step (fun _ _ => True) Process.init p) (c : Call) :
    Honoured p c ∧ OwnWrites p ↔ Unreplaced p c := by
  have hsep : Separate p := separate_reach h
  have hown : OwnWrites p := fun i _ => hsep.own i
  rw [and_iff_left hown]
  cases c with
  | commit i accepted => exact honoured_commit_iff hsep accepted
  | rollback i => exact honoured_rollback_iff hsep
  | write | finish | enter | goOn => exact Iff.rfl

/-- A request writes while another restores. -/
def duringRestore : List Call := [.enter 0, .goOn, .write 1]

theorem commit_after_restore_honoured :
    Honoured (exec Process.step Process.init (duringRestore ++ [.goOn, .goOn, .commit 0 true]))
        (.commit 1 true) ∧
      OwnWrites (exec Process.step Process.init (duringRestore ++ [.goOn, .goOn, .commit 0 true])) :=
  (honoured_iff_unreplaced (Reach.start.exec (by simp [Meets, duringRestore])) _).mpr
    (.inr (.inr (.inl rfl)))

theorem commit_during_restore_lost :
    ¬ Honoured (exec Process.step Process.init duringRestore) (.commit 1 true) ∧
      (exec Process.step Process.init (duringRestore ++ [.commit 1 true, .finish 1])).durable = [] := by
  refine ⟨fun h => ?_, rfl⟩
  have hlost := h (by rintro ⟨phase, hphase⟩; cases hphase) rfl ⟨1, 0⟩ (by decide)
  cases hlost

end UltimateCaManager.Restore
