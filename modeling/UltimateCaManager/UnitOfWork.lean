import Mathlib.Data.List.Basic

/-!
# Units of work

A handler works in a session over a database: it reads and stages writes in a view that nobody
else sees, commits the view or rolls it back, and may raise at any point. Work that raised after a
commit of its own has left its writes behind. The rules of pre- and postconditions below have one
postcondition for a normal end and one for an exception.
-/
namespace UltimateCaManager.UnitOfWork

structure Session (δ : Type) where
  committed : δ
  view : δ

/-- The session of a handler that has staged nothing. -/
def Session.fresh {δ : Type} (db : δ) : Session δ := ⟨db, db⟩

def Work (δ ε α : Type) : Type := Session δ → Except ε α × Session δ

variable {δ ε ε' α β : Type}

instance : Monad (Work δ ε) where
  pure a := fun s => (.ok a, s)
  bind m f := fun s => match m s with
    | (.ok a, s') => f a s'
    | (.error e, s') => (.error e, s')

namespace Work

def read : Work δ ε δ := fun s => (.ok s.view, s)

def stage (f : δ → δ) : Work δ ε Unit := fun s => (.ok (), { s with view := f s.view })

def rollback : Work δ ε Unit := fun s => (.ok (), .fresh s.committed)

def raise (e : ε) : Work δ ε α := fun s => (.error e, s)

/-- Commit, or roll back when the database does not accept it. -/
def save (accepted : Bool) : Work δ ε Bool := fun s =>
  (.ok accepted, .fresh (if accepted then s.view else s.committed))

/-- Commit, or roll back and raise. -/
def commit (accepted : Bool) (e : ε) : Work δ ε Unit := fun s =>
  if accepted then (.ok (), .fresh s.view) else (.error e, .fresh s.committed)

/-- Hand an exception to the caller as a result. -/
def attempt (m : Work δ ε α) : Work δ ε' (Except ε α) := fun s => (.ok (m s).1, (m s).2)

def run (m : Work δ ε α) (db : δ) : δ := (m (.fresh db)).2.committed

def result (m : Work δ ε α) (db : δ) : Except ε α := (m (.fresh db)).1

end Work

/-! ## Pre- and postconditions -/

/-- From a session that meets `P` the work ends normally in one that meets `Q`, or with an
exception in one that meets `R`. -/
def Triple (P : Session δ → Prop) (m : Work δ ε α) (Q : α → Session δ → Prop)
    (R : ε → Session δ → Prop) : Prop :=
  ∀ s, P s → match m s with
    | (.ok a, s') => Q a s'
    | (.error e, s') => R e s'

namespace Triple

variable {P S : Session δ → Prop} {m : Work δ ε α} {Q : α → Session δ → Prop}
  {R : ε → Session δ → Prop} {T : β → Session δ → Prop}

theorem of_post {Q' : α → Session δ → Prop} (h : Triple P m Q R)
    (hQ : ∀ a s, Q a s → Q' a s) : Triple P m Q' R := by
  intro s hs
  have hm := h s hs
  rcases hms : m s with ⟨_ | _, s'⟩ <;> rw [hms] at hm
  · exact hm
  · exact hQ _ _ hm

theorem of_pre (h : Triple P m Q R) (hP : ∀ s, S s → P s) : Triple S m Q R := fun s hs => h s (hP s hs)

theorem pure {a : α} (h : ∀ s, P s → Q a s) : Triple P (Pure.pure a : Work δ ε α) Q R := h

theorem raise {e : ε} (h : ∀ s, P s → R e s) : Triple P (Work.raise e : Work δ ε α) Q R := h

theorem assume {p : Prop} (h : p → Triple P m Q R) : Triple (fun s => P s ∧ p) m Q R :=
  fun s hs => h hs.2 s hs.1

theorem bind {f : α → Work δ ε β} (hm : Triple P m Q R) (hf : ∀ a, Triple (Q a) (f a) T R) :
    Triple P (m >>= f) T R := by
  intro s hs
  have h := hm s hs
  show match (match m s with
    | (.ok a, s') => f a s'
    | (.error e, s') => (.error e, s')) with
    | (.ok b, s') => T b s'
    | (.error e, s') => R e s'
  rcases hms : m s with ⟨e | a, s'⟩ <;> rw [hms] at h
  · exact h
  · exact hf a s' h

theorem ite {p : Prop} [Decidable p] {n : Work δ ε α} (hm : p → Triple P m Q R)
    (hn : ¬ p → Triple P n Q R) : Triple P (if p then m else n) Q R := by
  by_cases hp : p
  · rw [if_pos hp]
    exact hm hp
  · rw [if_neg hp]
    exact hn hp

/-- Reading names the view. -/
theorem read {f : δ → Work δ ε β} (h : ∀ db, Triple (fun s => P s ∧ s.view = db) (f db) T R) :
    Triple P (Work.read >>= f) T R :=
  fun s hs => h s.view s ⟨hs, rfl⟩

theorem read_any {f : δ → Work δ ε β} (h : ∀ db, Triple P (f db) T R) :
    Triple P (Work.read >>= f) T R :=
  fun s hs => h s.view s hs

theorem stage {g : δ → δ} {f : Unit → Work δ ε β} (hP : ∀ s, P s → S { s with view := g s.view })
    (h : Triple S (f ()) T R) : Triple P (Work.stage g >>= f) T R :=
  fun s hs => h _ (hP s hs)

theorem rollback {f : Unit → Work δ ε β} (hP : ∀ s, P s → S (.fresh s.committed))
    (h : Triple S (f ()) T R) : Triple P (Work.rollback >>= f) T R :=
  fun s hs => h _ (hP s hs)

theorem save {accepted : Bool} {f : Bool → Work δ ε β} (hview : ∀ s, P s → S (.fresh s.view))
    (hcommitted : ∀ s, P s → S (.fresh s.committed)) (h : Triple S (f accepted) T R) :
    Triple P (Work.save accepted >>= f) T R := by
  intro s hs
  refine h _ ?_
  cases accepted with
  | false => exact hcommitted s hs
  | true => exact hview s hs

theorem commit {accepted : Bool} {e : ε} {Q : Unit → Session δ → Prop}
    (hQ : ∀ s, P s → Q () (.fresh s.view))
    (hR : ∀ s, P s → accepted = false → R e (.fresh s.committed)) :
    Triple P (Work.commit accepted e) Q R := by
  intro s hs
  cases accepted with
  | false => exact hR s hs rfl
  | true => exact hQ s hs

/-- A handler of exceptions goes on from either end. -/
theorem attempt {f : Except ε α → Work δ ε' β} {R' : ε' → Session δ → Prop} (hm : Triple P m Q R)
    (hok : ∀ a, Triple (Q a) (f (.ok a)) T R') (herror : ∀ e, Triple (R e) (f (.error e)) T R') :
    Triple P (Work.attempt m >>= f) T R' := by
  intro s hs
  have h := hm s hs
  show match f (m s).1 (m s).2 with
    | (.ok b, s') => T b s'
    | (.error e, s') => R' e s'
  rcases hms : m s with ⟨e | a, s'⟩ <;> rw [hms] at h
  · exact herror e s' h
  · exact hok a s' h

/-- What both postconditions say of the committed database. -/
theorem run {K : δ → Prop} {db : δ} (h : Triple P m Q R) (hP : P (.fresh db))
    (hQ : ∀ a s, Q a s → K s.committed) (hR : ∀ e s, R e s → K s.committed) : K (m.run db) := by
  have hm := h _ hP
  show K (m (.fresh db)).2.committed
  rcases hms : m (.fresh db) with ⟨_ | _, s'⟩ <;> rw [hms] at hm
  · exact hR _ _ hm
  · exact hQ _ _ hm

theorem result {db : δ} {a : α} (h : Triple P m Q R) (hP : P (.fresh db))
    (ha : m.result db = .ok a) : ∃ s, Q a s ∧ m.run db = s.committed := by
  have hm := h _ hP
  rcases hms : m (.fresh db) with ⟨e | b, s'⟩ <;> rw [hms] at hm
  · simp [Work.result, hms] at ha
  · obtain rfl : b = a := by simpa [Work.result, hms] using ha
    exact ⟨s', hm, by simp [Work.run, hms]⟩

end Triple

end UltimateCaManager.UnitOfWork
