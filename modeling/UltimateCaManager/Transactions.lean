import Mathlib.Data.List.Basic

/-!
# Transactions

A request handler reads the committed database, collects writes in a session whose queries see
them, and commits the list at once. Other transactions may commit between the reads and the
commit. A write list is *admissible* when each write meets its side condition in the state left
by the writes before it; admissibility survives foreign commits whenever the side condition
does, and an admissible list accepted by the constraints keeps every invariant that its single
writes keep.
-/
namespace UltimateCaManager.Transactions

variable {δ ω ρ : Type*}

/-- What a write does to a database state, and whether its constraints let it through. -/
structure Store (δ ω : Type*) where
  apply : δ → ω → δ
  accepts : δ → ω → Bool

namespace Store

variable (S : Store δ ω)

def applyAll (db : δ) (ws : List ω) : δ :=
  ws.foldl S.apply db

def acceptsAll : δ → List ω → Bool
  | _, [] => true
  | db, w :: ws => S.accepts db w && acceptsAll (S.apply db w) ws

/-- Every write meets `ok` in the state left by the writes before it. -/
def Admissible (ok : δ → ω → Prop) : δ → List ω → Prop
  | _, [] => True
  | db, w :: ws => ok db w ∧ Admissible ok (S.apply db w) ws

variable {S} {ok : δ → ω → Prop} {db db' : δ} {w : ω} {ws vs : List ω}

@[simp] theorem applyAll_nil : S.applyAll db [] = db := rfl

@[simp] theorem applyAll_cons : S.applyAll db (w :: ws) = S.applyAll (S.apply db w) ws := rfl

theorem applyAll_append : S.applyAll db (ws ++ vs) = S.applyAll (S.applyAll db ws) vs :=
  List.foldl_append

@[simp] theorem admissible_nil : S.Admissible ok db [] := trivial

theorem admissible_append :
    S.Admissible ok db (ws ++ vs) ↔
      S.Admissible ok db ws ∧ S.Admissible ok (S.applyAll db ws) vs := by
  induction ws generalizing db with
  | nil => simp
  | cons w ws ih => simp [Admissible, ih, and_assoc]

/-- One more write after an admissible list, judged in the state the list leaves. -/
theorem Admissible.concat (h : S.Admissible ok db ws) (hw : ok (S.applyAll db ws) w) :
    S.Admissible ok db (ws ++ [w]) :=
  admissible_append.mpr ⟨h, hw, trivial⟩

/-- A foreign commit that only moves the database up in an order which writes respect leaves an
admissible list admissible. -/
theorem Admissible.mono {le : δ → δ → Prop}
    (hle : ∀ db db' w, le db db' → le (S.apply db w) (S.apply db' w))
    (hok : ∀ db db' w, le db db' → ok db w → ok db' w) (h : S.Admissible ok db ws)
    (hdb : le db db') : S.Admissible ok db' ws := by
  induction ws generalizing db db' with
  | nil => trivial
  | cons w ws ih => exact ⟨hok _ _ _ hdb h.1, ih h.2 (hle _ _ _ hdb)⟩

theorem applyAll_mono {le : δ → δ → Prop}
    (hle : ∀ db db' w, le db db' → le (S.apply db w) (S.apply db' w)) (hdb : le db db') :
    le (S.applyAll db ws) (S.applyAll db' ws) :=
  List.foldl_rel hdb fun w _ db db' => hle db db' w

/-- An invariant kept by each accepted admissible write is kept by an accepted commit. -/
theorem Admissible.keeps {inv : δ → Prop}
    (hstep : ∀ db, ∀ w ∈ ws, inv db → ok db w → S.accepts db w = true → inv (S.apply db w))
    (h : S.Admissible ok db ws) (hacc : S.acceptsAll db ws = true) (hinv : inv db) :
    inv (S.applyAll db ws) := by
  induction ws generalizing db with
  | nil => exact hinv
  | cons w ws ih =>
    simp only [acceptsAll, Bool.and_eq_true] at hacc
    exact ih (fun db v hv => hstep db v (List.mem_cons_of_mem w hv)) h.2 hacc.2
      (hstep db w List.mem_cons_self hinv h.1 hacc.1)

/-- The same for an invariant that does not need the constraints, so also for session views. -/
theorem Admissible.keeps_view {inv : δ → Prop}
    (hstep : ∀ db w, inv db → ok db w → inv (S.apply db w))
    (h : S.Admissible ok db ws) (hinv : inv db) : inv (S.applyAll db ws) := by
  induction ws generalizing db with
  | nil => exact hinv
  | cons w ws ih => exact ih h.2 (hstep db w hinv h.1)

end Store

/-- A session: what its queries see, the writes it will commit, and what it read of the rows
it decided on. -/
structure Session (δ ω ρ : Type*) where
  view : δ
  writes : List ω
  reads : List ρ

namespace Session

@[simps]
def start (db : δ) : Session δ ω ρ := ⟨db, [], []⟩

/-- Stage a write: later queries of the session see it. -/
@[simps]
def write (S : Store δ ω) (s : Session δ ω ρ) (w : ω) : Session δ ω ρ :=
  { s with view := S.apply s.view w, writes := s.writes ++ [w] }

@[simps]
def observe (s : Session δ ω ρ) (r : ρ) : Session δ ω ρ :=
  { s with reads := s.reads ++ [r] }

variable {S : Store δ ω} {s : Session δ ω ρ} {w : ω} {r : ρ}

/-- The view is the base database with the staged writes, and these are admissible on it. -/
structure Sound (S : Store δ ω) (ok : δ → ω → Prop) (db : δ) (s : Session δ ω ρ) : Prop where
  view_eq : s.view = S.applyAll db s.writes
  admissible : S.Admissible ok db s.writes

variable {ok : δ → ω → Prop} {db : δ}

theorem Sound.start : Sound S ok db (Session.start db : Session δ ω ρ) :=
  ⟨rfl, trivial⟩

theorem Sound.write (h : Sound S ok db s) (hw : ok s.view w) : Sound S ok db (s.write S w) where
  view_eq := by simp [h.view_eq, Store.applyAll_append]
  admissible := h.admissible.concat (h.view_eq ▸ hw)

theorem Sound.observe (h : Sound S ok db s) : Sound S ok db (s.observe r) :=
  ⟨h.view_eq, h.admissible⟩

end Session

end UltimateCaManager.Transactions
