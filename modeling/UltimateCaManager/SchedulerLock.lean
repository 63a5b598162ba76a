import UltimateCaManager.Runs
import Mathlib.Logic.Function.Basic

/-!
# The lock of the scheduler

The process that created the lock file runs the scheduler loop. A file that names no live process
counts as left over and is removed, also one whose creator has not written its pid yet.
-/
namespace UltimateCaManager.Scheduler

open Runs

structure LockFile where
  creator : ℕ
  /-- The content, once it is written. -/
  pid : Option ℕ

/-- What a process does next in `start` or `stop`; the number counts the tries. -/
inductive Phase
  | idle
  | create (tries : ℕ)
  | write
  | read (tries : ℕ)
  | test (tries : ℕ) (other : Option ℕ)
  | unlink (tries : ℕ)
  | join
  | release
  | dead
  deriving DecidableEq

structure Process where
  phase : Phase := .idle
  /-- The loop is to go on. -/
  running : Bool := false
  ownsLock : Bool := false
  /-- The thread is in the loop. -/
  inLoop : Bool := false

/-- The lock file, and the process of each pid. -/
structure Machine where
  file : Option LockFile
  processes : ℕ → Process

inductive Action
  | start | stop | advance | leaveLoop | die

def Machine.pidAlive (m : Machine) (pid : ℕ) : Bool := (m.processes pid).phase ≠ .dead

/-- The next step of `start` or `stop`: the lock file and the process after it. -/
def Process.advance (m : Machine) (pid : ℕ) (p : Process) : Option LockFile × Process :=
  match p.phase with
  | .create n =>
    if m.file = none then (some ⟨pid, none⟩, { p with phase := .write })
    else (m.file, { p with phase := .read n })
  -- written through the descriptor, whatever stands at the path by now
  | .write =>
    (m.file.map fun f => if f.creator = pid then { f with pid := some pid } else f,
      ⟨.idle, true, true, true⟩)
  | .read n => (m.file, { p with phase := .test n (m.file.bind LockFile.pid) })
  | .test n other =>
    if other.any fun q => 0 < q ∧ q ≠ pid ∧ m.pidAlive q then (m.file, { p with phase := .idle })
    else (m.file, { p with phase := .unlink n })
  | .unlink n => (none, { p with phase := if n = 0 then .create 1 else .idle })
  -- the wait for the thread has timed out when it is still in the loop
  | .join => (m.file, { p with phase := if p.inLoop then .idle else .release })
  | .release =>
    (if p.ownsLock then none else m.file, { p with phase := .idle, ownsLock := false })
  | .idle | .dead => (m.file, p)

def Process.act (m : Machine) (pid : ℕ) (p : Process) : Action → Option LockFile × Process
  | .start =>
    (m.file, if p.phase = .idle ∧ !p.running then { p with phase := .create 0 } else p)
  | .stop =>
    (m.file, if p.phase = .idle ∧ p.running then { p with phase := .join, running := false } else p)
  | .advance => p.advance m pid
  | .leaveLoop => (m.file, if p.running then p else { p with inLoop := false })
  | .die => (m.file, { phase := .dead })

def Machine.step (m : Machine) : ℕ × Action → Machine
  | (pid, action) =>
    let (file, p) := (m.processes pid).act m pid action
    ⟨file, Function.update m.processes pid p⟩

/-- Whatever file is left over, and whichever processes are gone. -/
def Machine.initial (file : Option LockFile) (gone : ℕ → Bool) : Machine :=
  ⟨file, fun pid => if gone pid then { phase := .dead } else {}⟩

/-- A process that takes the lock removes no file of a live process. -/
def RemovesStale (m : Machine) : ℕ × Action → Prop
  | (pid, .advance) => match (m.processes pid).phase with
    | .unlink _ => ∀ f ∈ m.file, (m.processes f.creator).phase = .dead
    | _ => True
  | _ => True

/-- The process counts on its lock file. -/
@[grind]
def Process.Holds (p : Process) : Prop := p.phase = .write ∨ p.ownsLock = true

/-- The loop runs under the lock only, and the dead have none. -/
@[grind]
def Process.Sound (p : Process) : Prop :=
  (p.inLoop = true → p.ownsLock = true ∧ p.phase ≠ .release) ∧
    (p.phase = .dead → p.ownsLock = false)

structure Sole (m : Machine) : Prop where
  held : ∀ pid, (m.processes pid).Holds → ∃ f ∈ m.file, f.creator = pid
  sound : ∀ pid, (m.processes pid).Sound

variable {m : Machine} {pid : ℕ} {file : Option LockFile} {p : Process}

theorem Sole.update (h : Sole m) (hp : p.Sound) (hself : p.Holds → ∃ f ∈ file, f.creator = pid)
    (hothers : ∀ q ≠ pid, (m.processes q).Holds → ∃ f ∈ file, f.creator = q) :
    Sole ⟨file, Function.update m.processes pid p⟩ := by
  constructor <;> intro q <;> by_cases hq : q = pid
  · subst hq
    simpa using hself
  · simpa [hq] using hothers q hq
  · subst hq
    simpa using hp
  · simpa [hq] using h.sound q

/-- A step that leaves the file as it is. -/
theorem Sole.keep (h : Sole m) (hp : p.Sound) (hself : p.Holds → (m.processes pid).Holds) :
    Sole ⟨m.file, Function.update m.processes pid p⟩ :=
  h.update hp (fun hholds => h.held pid (hself hholds)) fun q _ => h.held q

theorem Sole.step (h : Sole m) {label : ℕ × Action} (hl : RemovesStale m label) :
    Sole (m.step label) := by
  obtain ⟨pid, action⟩ := label
  have hp := h.sound pid
  have hheld := h.held pid
  cases action with
  | start | stop | leaveLoop | die =>
    simp only [Machine.step, Process.act]
    exact h.keep (by grind) (by grind)
  | advance =>
    simp only [RemovesStale] at hl
    simp only [Machine.step, Process.act, Process.advance]
    split <;> rename_i hphase <;> simp only [hphase] at hl
    case h_1 n =>
      split
      · next hnone =>
        exact h.update (by grind) (fun _ => ⟨_, rfl, rfl⟩) (by grind [h.held])
      · exact h.keep (by grind) (by grind)
    case h_2 =>
      refine h.update (by grind) (fun _ => ?_) fun q _ hq => ?_
      · obtain ⟨f, hf, hpid⟩ := hheld (.inl hphase)
        exact ⟨_, Option.mem_map_of_mem _ hf, by simp [hpid]⟩
      · obtain ⟨f, hf, hpid⟩ := h.held q hq
        exact ⟨_, Option.mem_map_of_mem _ hf, by grind⟩
    case h_4 => split <;> exact h.keep (by grind) (by grind)
    case h_5 =>
      -- the creator of the file is dead, so nobody counts on it
      have hnone : ∀ q, ¬(m.processes q).Holds := by
        intro q hq
        obtain ⟨f, hf, rfl⟩ := h.held q hq
        grind [h.sound f.creator]
      exact h.update (by grind) (by grind) fun q _ hq => absurd hq (hnone q)
    case h_7 =>
      refine h.update (by grind) (by grind) fun q hne hq => ?_
      obtain ⟨f, hf, rfl⟩ := h.held q hq
      grind [Option.mem_unique]
    all_goals exact h.keep (by grind) (by grind)

/-- As long as no file of a live process is removed by another that takes the lock, at most one
process is in the loop. -/
theorem loop_unique {file : Option LockFile} {gone : ℕ → Bool}
    (hm : Reach Machine.step RemovesStale (Machine.initial file gone) m) {pid pid' : ℕ}
    (h : (m.processes pid).inLoop = true) (h' : (m.processes pid').inLoop = true) : pid = pid' := by
  have hsole : Sole m := by
    refine hm.invariant ⟨?_, ?_⟩ fun m label _ hinv hl => hinv.step hl <;> intro pid <;>
      simp only [Machine.initial, Process.Holds, Process.Sound] <;> split <;> simp
  obtain ⟨f, hf, hpid⟩ := hsole.held pid (.inr ((hsole.sound pid).1 h).1)
  obtain ⟨f', hf', hpid'⟩ := hsole.held pid' (.inr ((hsole.sound pid').1 h').1)
  rw [← hpid, ← hpid', Option.mem_unique hf hf']

def starts (pid steps : ℕ) : List (ℕ × Action) :=
  (pid, .start) :: List.replicate steps (pid, .advance)

/-- A process takes the lock over from one that is gone, and the next is refused. -/
theorem loop_unique_taken_over :
    let m := exec Machine.step (.initial (some ⟨9, some 9⟩) (· = 9)) (starts 1 6 ++ starts 2 3)
    (m.processes 1).inLoop = true ∧ (m.processes 2).phase = .idle ∧
      ∀ pid, (m.processes pid).inLoop = true → pid = 1 := by
  have hmeets : Meets Machine.step RemovesStale (.initial (some ⟨9, some 9⟩) (· = 9))
      (starts 1 6 ++ starts 2 3) := by
    refine ⟨trivial, trivial, trivial, trivial, ?_, trivial, trivial, trivial, trivial, trivial,
      trivial, trivial⟩
    -- the file that is removed is that of the process that is gone
    intro f hf
    obtain rfl := Option.mem_some_iff.mp hf
    rfl
  refine ⟨by decide +kernel, by decide +kernel, fun pid h => ?_⟩
  exact loop_unique (Reach.start.exec hmeets) h (by decide +kernel)

/-- The second process reads the file before the first has written its pid. -/
theorem two_in_loop :
    let m := exec Machine.step (.initial none fun _ => false)
      (starts 1 1 ++ starts 2 6 ++ [(1, .advance)])
    (m.processes 1).inLoop = true ∧ (m.processes 2).inLoop = true := by
  decide +kernel

end UltimateCaManager.Scheduler
