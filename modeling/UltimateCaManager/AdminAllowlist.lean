import UltimateCaManager.Concurrency
import UltimateCaManager.TrustedProxy
import Mathlib.Data.Rat.Defs

/-!
# The allowlist of the administration interface

The stored list is read through a cache of five seconds, which an update empties once its new list
is committed. A request that read the old list before can still put it back afterwards.
-/
namespace UltimateCaManager.Allowlist

open Concurrency Runs Numerals

structure Library extends Proxies.Library where
  /-- The network of the mapped addresses, for a prefix of at least 96 bits. -/
  mappedNetwork : Network → Option Network

structure Env where
  disable : List Char
  networks : Option (List Char)

def disabledByEnv (env : Env) : Bool :=
  String.ofList ((strip env.disable).map Char.toLower) ∈ ["1", "true", "yes", "on"]

/-- A blank variable counts as unset. -/
def envValue (env : Env) : Option (List Char) :=
  (env.networks.map strip).filter (· ≠ [])

def splitEntries (value : List Char) : List (List Char) :=
  (value.splitOnP fun c => isSpace c || c == ',' || c == ';').filter (· ≠ [])

variable (lib : Library) (env : Env)

def compile (raw : List Char) : List lib.Network :=
  ((splitEntries raw).filterMap lib.ipNetwork).flatMap fun net =>
    net :: (lib.mappedNetwork net).toList

def addressIn (addr : List Char) (networks : List lib.Network) : Bool :=
  match lib.ipAddress (strip addr) with
  | none => false
  | some ip => (ip :: (Proxies.mappedOf ip).toList).any fun cand =>
      networks.any (lib.contains · cand)

/-- What `is_allowed` answers once it has the list. -/
def admits (raw addr : List Char) : Bool :=
  raw.isEmpty || !addr.isEmpty && addressIn lib addr (compile lib raw)

/-! ## One process -/

structure Process where
  /-- What `time.monotonic` returns. -/
  clock : ℚ
  row : Option (List Char)
  cache : Option (List Char × ℚ) := none

def Process.stored (s : Process) : List Char := strip (s.row.getD [])

inductive Request
  | isAllowed (addr : List Char)
  | update (raw : List Char)

/-- A request in flight, named after what it does next. -/
inductive Task
  | lookUp (addr : List Char) (now : ℚ)
  | read (addr : List Char) (now : ℚ) (previous : Option (List Char))
  | store (addr : List Char) (now : ℚ) (raw : List Char)
  | answer (addr : List Char) (allowed : Bool)
  | commit (raw : List Char)
  | invalidate
  deriving DecidableEq

def cacheTtl : ℚ := 5

def start (s : Process) : Request → Option Task
  | .isAllowed addr =>
    -- neither asks for the stored list
    if disabledByEnv env || (envValue env).isSome then none else some (.lookUp addr s.clock)
  | .update raw => some (.commit raw)

/-- The input says whether the row could be read. -/
def advance (s : Process) (t : Task) (readable : Bool) : Option (Process × Option Task) :=
  match t with
  | .lookUp addr now =>
    match s.cache with
    | none => some (s, some (.read addr now none))
    | some (raw, at_) =>
      if now - at_ < cacheTtl then some (s, some (.answer addr (admits lib raw addr)))
      else some (s, some (.read addr now (some raw)))
  | .read addr now previous =>
    some (s, some (.store addr now (if readable then s.stored else previous.getD [])))
  | .store addr now raw =>
    some ({ s with cache := some (raw, now) }, some (.answer addr (admits lib raw addr)))
  | .answer _ _ => none
  | .commit raw => some ({ s with row := some raw }, some .invalidate)
  | .invalidate => some ({ s with cache := none }, none)

/-- Requests of one process; the clock may show anything. -/
def system : System Process Task Request Bool ℚ where
  event s now := { s with clock := now }
  start := start env
  advance := advance lib

abbrev Process.World := Concurrency.World Process Task

/-! ## After an update has returned -/

/-- No further list is committed, the row can be read, and no request stores a list that is not the
committed one. -/
def Orderly (w : Process.World) : Label Request Bool ℚ → Prop
  | .advance i readable => ∀ t ∈ w.tasks i, match t with
    | .read _ _ _ => readable = true
    | .store _ _ raw => raw = w.shared.stored
    | .commit _ => False
    | _ => True
  | _ => True

/-- The list a request uses, once it has one. -/
def Current (list : List Char) : Task → Prop
  | .store _ _ raw => raw = list
  | .answer addr allowed => allowed = admits lib list addr
  | _ => True

variable {lib env} {w₀ w : Process.World} {l : Label Request Bool ℚ} {list : List Char} {i : ℕ}

/-- Nothing but the list is left in the cache and with the request of one slot. -/
structure Renewed (lib : Library) (list : List Char) (i : ℕ) (w : Process.World) : Prop where
  stored : w.shared.stored = list
  cache : ∀ entry ∈ w.shared.cache, entry.1 = list
  task : ∀ t, w.tasks i = some t → Current lib list t

theorem Renewed.step (h : Renewed lib list i w) (hl : Orderly w l) :
    Renewed lib list i ((system lib env).step w l) := by
  have hsteps := (system lib env).step_steps w l
  generalize (system lib env).step w l = w' at hsteps
  have hnew : ∀ {j : ℕ} {t' : Task}, Current lib list t' → ∀ t,
      Function.update w.tasks j (some t') i = some t → Current lib list t := by
    intro j t' ht' t ht
    rcases System.update_eq_some ht with ⟨-, ⟨⟩⟩ | ⟨-, ht⟩
    · exact ht'
    · exact h.task t ht
  cases hsteps with
  | idle | refused => exact h
  | event => exact ⟨h.stored, h.cache, h.task⟩
  | @request j r t hfree hstart =>
    refine ⟨h.stored, h.cache, hnew ?_⟩
    cases r with
    | isAllowed addr =>
      obtain ⟨-, rfl⟩ : _ ∧ Task.lookUp addr _ = t := by simpa [system, start] using hstart
      trivial
    | update raw =>
      cases hstart
      trivial
  | @advance j readable t s t' ht hadv =>
    have hl : _ := hl t ht
    cases t with
    | lookUp addr now =>
      simp only [system, advance] at hadv
      split at hadv
      · cases hadv
        exact ⟨h.stored, h.cache, hnew trivial⟩
      · next raw at_ hcache =>
        split at hadv <;> cases hadv
        · exact ⟨h.stored, h.cache, hnew (by rw [← h.cache _ hcache]; rfl)⟩
        · exact ⟨h.stored, h.cache, hnew trivial⟩
    | read addr now previous =>
      obtain rfl : readable = true := hl
      cases hadv
      exact ⟨h.stored, h.cache, hnew h.stored⟩
    | store addr now raw =>
      cases hadv
      have hraw : raw = list := hl.trans h.stored
      exact ⟨h.stored, by rintro _ ⟨⟩; exact hraw, hnew (by rw [← hraw]; rfl)⟩
    | answer addr raw => cases hadv
    | commit raw => exact hl.elim
    | invalidate =>
      cases hadv
      refine ⟨h.stored, by simp, fun t ht => ?_⟩
      rcases System.update_eq_some ht with ⟨-, ⟨⟩⟩ | ⟨-, ht⟩
      exact h.task t ht

/-- Once an update has returned, a request that starts is judged by the committed list, whatever
was in flight before, as long as none of that is stored any more. -/
theorem judged_by_committed {u : ℕ} {readable : Bool} {addr : List Char} {allowed : Bool}
    (hu : w₀.tasks u = some .invalidate) (hfree : w₀.tasks i = none)
    (hw : Reach (system lib env).step Orderly ((system lib env).step w₀ (.advance u readable)) w)
    (hi : w.tasks i = some (.answer addr allowed)) :
    allowed = admits lib w₀.shared.stored addr := by
  have h₀ : Renewed lib w₀.shared.stored i ((system lib env).step w₀ (.advance u readable)) := by
    have hui : i ≠ u := by
      rintro rfl
      simp [hu] at hfree
    simp only [System.step, hu, system, advance]
    exact ⟨rfl, by simp, by simp [hui, hfree]⟩
  exact (hw.invariant h₀ fun w l _ hinv hl => hinv.step hl).task _ hi

/-- The steps of a request that finds nothing in the cache. -/
def judged (i : ℕ) : List (Label Request Bool ℚ) :=
  [.request i (.isAllowed []), .advance i true, .advance i true, .advance i true]

theorem judged_by_committed_list :
    false = admits ⟨Proxies.loopbackLibrary, some⟩ (strip ['a']) [] := by
  let w₀ : Process.World :=
    ⟨⟨0, some ['a'], none⟩, fun j => if j = 1 then some .invalidate else none⟩
  let step := (system ⟨Proxies.loopbackLibrary, some⟩ ⟨[], none⟩).step
  have hmeets : Meets step Orderly (step w₀ (.advance 1 true)) (judged 0) :=
    ⟨trivial, by rintro _ ⟨⟩; trivial, by rintro _ ⟨⟩; rfl, by rintro _ ⟨⟩; rfl, trivial⟩
  have hfree : w₀.tasks 0 = none := rfl
  exact judged_by_committed rfl hfree (Reach.start.exec hmeets) (by decide +kernel)

/-- A request that reads before the commit and stores after the return. -/
theorem old_list_after_update :
    let w := exec (system ⟨Proxies.loopbackLibrary, some⟩ ⟨[], none⟩).step
      (World.initial ⟨0, none, none⟩)
      ((judged 0).take 3 ++ [.request 1 (.update ['a']), .advance 1 true, .advance 1 true,
        .advance 0 true] ++ judged 2)
    w.tasks 2 = some (.answer [] true) ∧
      admits ⟨Proxies.loopbackLibrary, some⟩ w.shared.stored [] = false := by
  decide +kernel

end UltimateCaManager.Allowlist
