import Mathlib.Data.List.Basic

/-!
# Restoring a backup: all or nothing

The restorers write rows in one transaction and stage files; the staged files are published one by
one at its end, each after what its destination held was read, and the commit comes last. A failure
puts the published files back, newest first, and rolls the rows back. Two paths may name the same
entry of a directory. A destination is read through a symbolic link but the link itself is replaced,
so that a failure puts a file where the link was. The key mirrors are written directly, outside of
all this.
-/
namespace UltimateCaManager.Restore

open List

structure File where
  data : List UInt8
  mode : ℕ
  deriving DecidableEq

/-- One destination, its staged content, and what it held before. -/
structure Staged (π : Type) where
  destination : π
  content : File
  existed : Bool
  previous : File
  published : Bool

section Staging

variable {π ρ : Type}

/-- `stage`: a destination staged before gets the new content in place. -/
def stage [DecidableEq π] (destination : π) (content : File) : List (Staged π) → List (Staged π)
  | [] => [⟨destination, content, false, ⟨[], content.mode⟩, false⟩]
  | e :: entries =>
    if e.destination = destination then { e with content := content } :: entries
    else e :: stage destination content entries

/-- What an entry of a directory is. -/
inductive Node (π : Type)
  | file (file : File)
  | link (target : π)
  deriving DecidableEq

/-- The entries of the directories. -/
abbrev Files (π ρ : Type) := ρ → Option (Node π)

-- the entry that a path names in its directory
variable (locate : π → ρ)

/-- What reading a path gives, through a number of links at most; `none` when there are more. -/
def read (files : Files π ρ) : ℕ → π → Option (Option File)
  | 0, _ => none
  | links + 1, path =>
    match files (locate path) with
    | none => some none
    | some (.file file) => some (some file)
    | some (.link target) => read files links target

def maxLinks : ℕ := 40

def Staged.capturePrevious (files : Files π ρ) (e : Staged π) : Option (Staged π) :=
  (read locate files (maxLinks + 1) e.destination).map fun
    | none => { e with existed := false, previous := ⟨[], e.content.mode⟩ }
    | some file => { e with existed := true, previous := file }

/-- Where publishing one file can fail: when the destination is read, before it is replaced, or at
the sync of the directory after that. -/
inductive Fault
  | capture
  | replace
  | sync

/-- `os.replace` takes the place of the entry, be it a link. -/
def Staged.place [DecidableEq ρ] (files : Files π ρ) (e : Staged π) : Files π ρ :=
  Function.update files (locate e.destination) (some (.file e.content))

/-- The loop of `publish`, up to the file that fails. -/
def publishLoop [DecidableEq ρ] (faults : ℕ → Option Fault) :
    ℕ → List (Staged π) → Files π ρ → Bool × List (Staged π) × Files π ρ
  | _, [], files => (true, [], files)
  | i, e :: entries, files =>
    match e.capturePrevious locate files, faults i with
    | none, _ | _, some .capture => (false, e :: entries, files)
    | some captured, some .replace => (false, captured :: entries, files)
    | some captured, some .sync =>
      (false, { captured with published := true } :: entries, e.place locate files)
    | some captured, none =>
      let (ok, rest, files) := publishLoop faults (i + 1) entries (e.place locate files)
      (ok, { captured with published := true } :: rest, files)

def Staged.putBack [DecidableEq ρ] (e : Staged π) (files : Files π ρ) : Files π ρ :=
  if e.published then
    Function.update files (locate e.destination)
      (if e.existed then some (.file e.previous) else none)
  else files

/-- `_compensate`, newest publication first. -/
def compensate [DecidableEq ρ] (entries : List (Staged π)) (files : Files π ρ) :
    List (Staged π) × Files π ρ :=
  (entries.map fun e => { e with published := false }, entries.foldr (Staged.putBack locate) files)

def publish [DecidableEq ρ] (faults : ℕ → Option Fault) (entries : List (Staged π))
    (files : Files π ρ) : Bool × List (Staged π) × Files π ρ :=
  match publishLoop locate faults 0 entries files with
  | (true, entries, files) => (true, entries, files)
  | (false, entries, files) => (false, compensate locate entries files)

/-! ### Publishing and putting back -/

variable {locate} {files : Files π ρ} {e e' : Staged π} {entries : List (Staged π)}

/-- No destination is a link. -/
def Unlinked (locate : π → ρ) (files : Files π ρ) (entries : List (Staged π)) : Prop :=
  ∀ e ∈ entries, ∀ target, files (locate e.destination) ≠ some (.link target)

variable [DecidableEq ρ]

theorem Unlinked.place (h : Unlinked locate files entries) :
    Unlinked locate (e.place locate files) entries := by
  intro e' he' target
  unfold Staged.place
  by_cases heq : locate e'.destination = locate e.destination
  · simp [heq]
  · rw [Function.update_of_ne heq]
    exact h e' he' target

end Staging

/-! ## The transaction -/

section Transaction

variable {δ π ρ μ : Type} [DecidableEq π]

/-- The database with the session of the restore over it, the files, and the key mirrors. -/
structure Instance (δ π ρ μ : Type) where
  committed : δ
  view : δ
  files : Files π ρ
  mirrors : μ → Option File

/-- What the restorers do. Their commits are flushes and their rollbacks are ignored. -/
inductive Action (δ π μ : Type)
  | write (rows : δ → δ)
  | commit
  | rollback
  | stage (destination : π) (content : File)
  | mirror (path : μ) (content : Option File)

/-- One action inside `single_transaction`. -/
def Action.run [DecidableEq μ] (a : Action δ π μ) (x : Instance δ π ρ μ × List (Staged π)) :
    Instance δ π ρ μ × List (Staged π) :=
  match a with
  | .write rows => ({ x.1 with view := rows x.1.view }, x.2)
  | .commit => x
  | .rollback => x
  | .stage destination content => (x.1, Restore.stage destination content x.2)
  | .mirror path content => ({ x.1 with mirrors := Function.update x.1.mirrors path content }, x.2)

/-- The archive's restore, and what goes wrong in it. -/
structure Run (δ π μ : Type) where
  /-- The archive decrypts, its checksum, schema and mode are accepted, and the plan is built. -/
  valid : Bool
  actions : List (Action δ π μ)
  failsAt : Option ℕ
  faults : ℕ → Option Fault
  commitFails : Bool
  /-- What follows the commit raises. -/
  afterFails : Bool

def Run.done (r : Run δ π μ) : List (Action δ π μ) :=
  match r.failsAt with
  | none => r.actions
  | some k => r.actions.take k

def Run.raisesInBlock (r : Run δ π μ) : Bool := r.failsAt.any fun k => k < r.actions.length

def Run.block [DecidableEq μ] (r : Run δ π μ) (s : Instance δ π ρ μ) :
    Instance δ π ρ μ × List (Staged π) :=
  r.done.foldl (fun x a => a.run x) (s, [])

/-- `single_transaction` at an exception, and `unpublish` after it. -/
def Instance.undo [DecidableEq ρ] (locate : π → ρ) (s : Instance δ π ρ μ)
    (entries : List (Staged π)) : Instance δ π ρ μ :=
  { s with view := s.committed, files := (compensate locate entries s.files).2 }

/-- `restore_backup`: whether it returned, and the instance it left. -/
def Run.restoreBackup [DecidableEq ρ] [DecidableEq μ] (locate : π → ρ) (r : Run δ π μ)
    (s : Instance δ π ρ μ) : Bool × Instance δ π ρ μ :=
  if !r.valid then (false, s)
  else
    let (s, entries) := r.block s
    if r.raisesInBlock then (false, s.undo locate entries)
    else
      let (ok, entries, files) := publish locate r.faults entries s.files
      let s := { s with files := files }
      if !ok then (false, s.undo locate entries)
      else if r.commitFails then (false, s.undo locate entries)
      else (!r.afterFails, { s with committed := s.view })

def Action.onRows (a : Action δ π μ) (rows : δ) : δ :=
  match a with
  | .write f => f rows
  | _ => rows

def Action.onStaged (a : Action δ π μ) (entries : List (Staged π)) : List (Staged π) :=
  match a with
  | .stage destination content => Restore.stage destination content entries
  | _ => entries

/-- The content that is last for a destination once an action ran. -/
def Action.onContent (destination : π) (a : Action δ π μ) (last : Option File) : Option File :=
  match a with
  | .stage d content => if d = destination then some content else last
  | _ => last

def rowsOf (actions : List (Action δ π μ)) (rows : δ) : δ :=
  actions.foldl (fun rows a => a.onRows rows) rows

def stagedOf (actions : List (Action δ π μ)) : List (Staged π) :=
  actions.foldl (fun entries a => a.onStaged entries) []

def lastStaged (actions : List (Action δ π μ)) (destination : π) : Option File :=
  actions.foldl (fun last a => a.onContent destination last) none

variable {locate : π → ρ} {s : Instance δ π ρ μ} {r : Run δ π μ}

/-- After `restore_backup` returns or raises, the database has every row of the restore and every
staged file is published, with the content that was staged last for its destination, or the
database and all files are as before. -/
def Run.AllOrNothing [DecidableEq ρ] [DecidableEq μ] (locate : π → ρ) (r : Run δ π μ)
    (s : Instance δ π ρ μ) : Prop :=
  let s' := (r.restoreBackup locate s).2
  (s'.committed = rowsOf r.actions s.view ∧
      s'.files = (stagedOf r.actions).foldl (fun files e => e.place locate files) s.files ∧
      ∀ d, ((stagedOf r.actions).find? fun e => e.destination = d).map Staged.content =
        lastStaged r.actions d) ∨
    s'.committed = s.committed ∧ s'.files = s.files

end Transaction

/-! ## A destination behind a link -/

/-- A restore of one row and one file whose commit fails. -/
def uncommitted (destination : ℕ) : Run ℕ ℕ Unit where
  valid := true
  actions := [.write fun _ => 1, .stage destination ⟨[2], 0o600⟩]
  failsAt := none
  faults := fun _ => none
  commitFails := true
  afterFails := false

/-- Path 0 is a link to the file at path 1. -/
def linked : Instance ℕ ℕ ℕ Unit where
  committed := 0
  view := 0
  files := fun path =>
    if path = 0 then some (.link 1) else if path = 1 then some (.file ⟨[1], 0o644⟩) else none
  mirrors := fun _ => none

end UltimateCaManager.Restore
