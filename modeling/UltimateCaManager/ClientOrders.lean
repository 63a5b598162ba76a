import UltimateCaManager.Concurrency

/-!
# Orders of the ACME client

Every writer of an order's status tests in its update that the order is not issued, except the
failure handler of the background worker, which has tested it when it read the order.
-/
namespace UltimateCaManager.AcmeClient

open Concurrency Runs

structure Order where
  status : String
  certificateId : Option ℕ

/-- The committed order, and the certificates imported for it. -/
structure Server where
  order : Order
  imported : List ℕ

def Server.writeOrderStatus (s : Server) (status : String) : Server :=
  if s.order.status = "issued" then s else { s with order.status := status }

/-- What a session meets in its next step. -/
inductive Input
  | answer (status : String) (certificate : Bool)
  /-- The request fails; the session shows a status that it has loaded. -/
  | shows (seen : String)
  | failed (invalid : Bool)
  | imported (certificateId : ℕ)
  | proceed
  | raised

/-- The next step of `finalize_order`. -/
inductive Finalize
  | check | submit | await | download | store
  | issue (certificateId : ℕ)
  | fail
  | record (status : Option String)

/-- The order after the step, and the next one or whether the order was finalized. -/
def Finalize.advance (s : Server) : Finalize → Input → Server × (Finalize ⊕ Bool)
  | .check, .answer status _ =>
    (s.writeOrderStatus status, if status = "ready" then .inl .submit else .inr false)
  | .check, .shows seen => (s, if seen = "ready" then .inl .submit else .inr false)
  | .submit, .answer status certificate =>
    (s.writeOrderStatus status, .inl (if certificate then .download else .await))
  | .submit, .failed _ => (s, .inr false)
  | .await, .answer status certificate =>
    (s.writeOrderStatus status, if status = "invalid" then .inr false
      else .inl (if certificate then .download else .await))
  | .await, .shows seen => (s, if seen = "invalid" then .inr false else .inl .await)
  | .await, .failed _ => (s, .inr false)
  | .download, .proceed => (s, .inl .store)
  | .store, .imported id => ({ s with imported := s.imported ++ [id] }, .inl (.issue id))
  | .issue id, .proceed => ({ s with order := ⟨"issued", some id⟩ }, .inr true)
  -- `_record_finalize_failure`, after its rollback
  | .fail, .proceed =>
    (s, .inl (.record (if s.order.status ∈ ["valid", "invalid"] then none else some "error")))
  | .record none, .proceed => (s, .inr false)
  | .record (some status), .proceed => (s.writeOrderStatus status, .inr false)
  | .fail, _ | .record _, _ => (s, .inr false)
  | _, _ => (s, .inl .fail)

/-- A session, named after what it does next. -/
inductive Task
  | ask
  | verify
  | setStatus (background : Bool) (status : String)
  | worker | start | challenge | poll
  | finalize (background : Bool) (next : Finalize)
  | settle
  | handler
  /-- The failure handler has read the order. -/
  | reset (seen : String)

def closed : List String := ["issued", "invalid", "expired"]

/-- What a verification commits once its challenges are submitted. -/
def verified (status : String) : Task :=
  .setStatus false (if status ∈ ["ready", "valid"] then status else "validating")

/-- What the background worker does when the order has this status. -/
def pollNext (status : String) : Task :=
  if status ∈ ["ready", "valid"] then .finalize true .check
  else if status = "invalid" then .setStatus true status else .poll

def Task.advance (s : Server) (t : Task) (input : Input) : Server × Option Task :=
  match t, input with
  | .ask, .answer status _ => (s.writeOrderStatus status, none)
  | .verify, .answer status _ => (s.writeOrderStatus status, some (verified status))
  | .verify, .shows seen => (s, some (verified seen))
  | .verify, .failed invalid =>
    (s, some (.setStatus false (if invalid then "invalid" else "pending")))
  | .poll, .failed invalid => (s, some (.setStatus true (if invalid then "invalid" else "pending")))
  | .setStatus _ status, .proceed => (s.writeOrderStatus status, none)
  | .worker, .proceed => (s, if s.order.status ∈ closed then none else some .start)
  | .start, .proceed => (s.writeOrderStatus "processing", some .challenge)
  | .challenge, .proceed => (s.writeOrderStatus "validating", some .poll)
  -- the worker goes on when its status is not saved
  | .start, .failed _ => (s, some .challenge)
  | .challenge, .failed _ => (s, some .poll)
  | .poll, .answer status _ => (s.writeOrderStatus status, some (pollNext status))
  | .poll, .shows seen => (s, some (pollNext seen))
  | .settle, .shows seen =>
    (s, some (.setStatus true (if seen ∈ ["valid", "invalid"] then seen else "pending")))
  | .handler, .proceed =>
    (s, if s.order.status ∈ closed then none else some (.reset s.order.status))
  -- a column that keeps the value that was read is not written
  | .reset seen, .proceed =>
    (if seen = "pending" then s else { s with order.status := "pending" }, none)
  | .worker, _ | .setStatus true _, .raised => (s, some .handler)
  | .finalize background next, input =>
    let (s, r) := next.advance s input
    (s, match r with
      | .inl next => some (.finalize background next)
      | .inr finalized => if background && !finalized then some .settle else none)
  | .start, _ | .challenge, _ | .poll, _ | .settle, _ => (s, some (.setStatus true "pending"))
  | _, _ => (s, none)

inductive Request
  | checkOrderStatus | verifyChallenges | finalizeOrder | autoPoll

def start (s : Server) : Request → Option Task
  | .checkOrderStatus => some .ask
  | .verifyChallenges =>
    if s.order.status ∈ ["pending", "processing", "validating"] then some .verify else none
  | .finalizeOrder => if s.order.status = "issued" then none else some (.finalize false .check)
  | .autoPoll => some .worker

def system : System Server Task Request Input Empty where
  event _ e := nomatch e
  start := start
  advance s t input := some (t.advance s input)

/-! ## An issued order -/

def Server.Issued (s : Server) : Prop :=
  s.order.status = "issued" ∧ ∃ id ∈ s.order.certificateId, id ∈ s.imported

/-- Not the commit of a failure handler that has read another status than `pending`. -/
def Spares (w : World Server Task) (l : Label Request Input Empty) : Prop :=
  ∀ i seen, l = .advance i .proceed → w.tasks i = some (.reset seen) → seen = "pending"

/-- What is about to be linked was imported. -/
def Task.Sound (s : Server) (t : Task) : Prop :=
  ∀ background id, t = .finalize background (.issue id) → id ∈ s.imported

variable {s : Server} {t : Task} {w : World Server Task} {input : Input}

@[grind =] theorem imported_write (s : Server) (status : String) :
    (s.writeOrderStatus status).imported = s.imported := by
  unfold Server.writeOrderStatus
  split <;> rfl

theorem finalize_sound (s : Server) (next : Finalize) (input : Input) :
    s.imported ⊆ (next.advance s input).1.imported ∧
      ∀ id, (next.advance s input).2 = .inl (.issue id) →
        id ∈ (next.advance s input).1.imported := by
  unfold Finalize.advance
  split <;> grind

/-- A step keeps what was imported, and links nothing else. -/
theorem advance_sound (s : Server) (t : Task) (input : Input) :
    s.imported ⊆ (t.advance s input).1.imported ∧
      ∀ u, (t.advance s input).2 = some u → u.Sound (t.advance s input).1 := by
  unfold Task.advance
  split <;> grind [Task.Sound, pollNext, verified, finalize_sound]

theorem system_sound :
    system.Inductive (fun _ _ => True) (fun _ => True) Task.Sound fun _ _ => True where
  symm := id
  event {_ e} := nomatch e
  start {w _ r t} _ _ h := by
    have hstart : start w.shared r = some t := h
    cases r <;> grind [start, Task.Sound]
  advance {w _ input t s t'} _ _ _ _ h := by
    have hadv : t.advance w.shared input = (s, t') := Option.some.inj h
    have hsound := advance_sound w.shared t input
    rw [hadv] at hsound
    exact ⟨trivial, fun ht' => ⟨hsound.2 _ ht', fun _ _ => trivial⟩,
      fun hu _ background id hid => hsound.1 (hu background id hid)⟩

theorem finalize_issued {next : Finalize} (ht : ∀ id, next = .issue id → id ∈ s.imported)
    (h : s.Issued) : (next.advance s input).1.Issued := by
  have hwrite : ∀ status, s.writeOrderStatus status = s := fun _ => if_pos h.1
  unfold Finalize.advance
  split <;> grind [Server.Issued]

theorem issued_advance (ht : t.Sound s) (h : s.Issued) :
    (t.advance s input).1.Issued ↔
      (input = .proceed → ∀ seen, t = .reset seen → seen = "pending") := by
  have hwrite : ∀ status, s.writeOrderStatus status = s := fun _ => if_pos h.1
  unfold Task.advance
  split <;> grind [Server.Issued, finalize_issued, Task.Sound]

theorem issued_step (hs : ∀ {i t}, w.tasks i = some t → t.Sound w.shared) (h : w.shared.Issued)
    (l : Label Request Input Empty) : (system.step w l).shared.Issued ↔ Spares w l := by
  cases l with
  | event e => exact nomatch e
  | request i r =>
    simp only [System.step]
    split <;> simpa [Spares] using h
  | advance i input =>
    unfold Spares
    cases ht : w.tasks i with
    | none =>
      simp only [System.step, ht, Option.bind_none, h]
      grind
    | some t =>
      simp only [System.step, ht, system, Option.bind_some, issued_advance (hs ht) h]
      grind

/-- The order stays issued exactly as long as no failure handler overwrites it. -/
theorem issued_kept_iff {s₀ : Server}
    (hw : Reach system.step (fun _ _ => True) (World.initial s₀) w) (h : w.shared.Issued)
    (ls : List (Label Request Input Empty)) :
    (∀ n, (exec system.step w (ls.take n)).shared.Issued) ↔ Meets system.step Spares w ls := by
  induction ls generalizing w with
  | nil => simp [Meets, h]
  | cons l ls ih =>
    have hnext := hw.next l trivial
    rw [Meets, ← issued_step (system_sound.reach trivial hw).task h l]
    constructor
    · intro hall
      exact ⟨hall 1, (ih hnext (hall 1)).mp fun n => hall (n + 1)⟩
    · rintro ⟨hone, hrest⟩ n
      cases n with
      | zero => exact h
      | succ n => exact (ih hnext hone).mpr hrest n

/-- A finalization by hand of an order that is ready. -/
def finalized : List (Label Request Input Empty) :=
  [.request 0 .finalizeOrder, .advance 0 (.answer "ready" false), .advance 0 (.answer "valid" true),
    .advance 0 .proceed, .advance 0 (.imported 5), .advance 0 .proceed]

def ready : World Server Task := .initial ⟨⟨"ready", none⟩, []⟩

/-- A poll that finds the order valid leaves it issued. -/
theorem issued_kept_polled :
    let w := exec system.step ready finalized
    w.shared.Issued ∧ ∀ n, (exec system.step w ([.request 1 .checkOrderStatus,
      .advance 1 (.answer "valid" true)].take n)).shared.Issued := by
  have h : (exec system.step ready finalized).shared.Issued := ⟨by decide, 5, by decide, by decide⟩
  refine ⟨h, (issued_kept_iff (Reach.start.exec (by decide)) h _).mpr ?_⟩
  exact ⟨nofun, nofun, trivial⟩

/-- The worker fails before the finalization, and its handler commits after it. -/
theorem issued_overwritten :
    let w := exec system.step ready
      ([.request 1 .autoPoll, .advance 1 .raised, .advance 1 .proceed] ++ finalized)
    w.shared.Issued ∧ (system.step w (.advance 1 .proceed)).shared.order.status = "pending" :=
  ⟨⟨by decide, 5, by decide, by decide⟩, by decide⟩

end UltimateCaManager.AcmeClient
