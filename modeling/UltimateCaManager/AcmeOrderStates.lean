import UltimateCaManager.AcmeStages

/-!
# The states of an order

An order moves from pending to ready to processing to valid, may be restored from processing to
ready, and may fail from any status that is not terminal. The handlers obey this as long as each
commit meets the status its session had read, and as long as a passed challenge that completes
the set of valid authorizations finds its order open. The handler does not check the latter: the
second of two validations in flight moves a valid order back to ready.
-/
namespace UltimateCaManager.Acme

open List Tables Transactions Runs Concurrency.System

inductive Moves : OrderStatus → OrderStatus → Prop
  | authorized : Moves .pending .ready
  | claimed : Moves .ready .processing
  | issued : Moves .processing .valid
  | restored : Moves .processing .ready
  | failed {status : OrderStatus} : status ≠ .valid → status ≠ .invalid → Moves status .invalid

def Steady (status status' : OrderStatus) : Prop :=
  status' = status ∨ Moves status status'

variable {status' : OrderStatus} {orderId now : ℕ} {o : Order} {s : Session} {settings : Settings}
  {t : Task} {input : Input} {t' : Option Task}

theorem not_moves_of_terminal {status : OrderStatus}
    (h : status = .valid ∨ status = .invalid) : ¬Moves status status' := by
  intro hm
  cases hm <;> simp_all

theorem steady_invalid_of_open {status : OrderStatus} (h : status.isOpen = true) :
    Steady status .invalid := by
  cases status with
  | pending | ready => exact .inr (.failed (by simp) (by simp))
  | _ => simp [OrderStatus.isOpen] at h

theorem steady_ready_of_open {status : OrderStatus} (h : status.isOpen = true) :
    Steady status .ready := by
  cases status with
  | pending => exact .inr .authorized
  | ready => exact .inl rfl
  | _ => simp [OrderStatus.isOpen] at h

/-! ## What statements do to a status -/

variable {db db' : Db} {w : Write} {ws : List Write} {text : Text}

theorem order?_apply_eq (db : Db) (w : Write) (orderId : ℕ) :
    (db.apply w).order? orderId = ((db.order? orderId).map (Order.after w)).or
      ((match w with | .addOrder o => [o] | _ => []).find? fun o => o.orderId = orderId) := by
  have hid : ∀ o : Order, (o.after w).orderId = o.orderId := fun o =>
    congrArg Prod.fst (Order.after_fixed w o)
  unfold Db.order?
  rw [orders_apply, find?_append, find?_map]
  exact congrArg (fun p => ((db.orders.find? p).map _).or _) (funext fun o => by simp [hid])

theorem order?_apply (h : db.order? orderId = some o) :
    (db.apply w).order? orderId = some (o.after w) := by
  rw [order?_apply_eq, h]
  rfl

theorem after_status (w : Write) (o : Order) :
    (o.after w).status = o.status ∨ w = .setOrderStatus o.orderId (o.after w).status := by
  unfold Order.after
  split
  · split
    · next hid => exact .inr (by rw [hid])
    · exact .inl rfl
  · split <;> exact .inl rfl
  · split <;> exact .inl rfl
  · exact .inl rfl

theorem status?_apply {status : OrderStatus} (h : db.status? orderId = some status) :
    ∃ status', (db.apply w).status? orderId = some status' ∧
      (status' = status ∨ w = .setOrderStatus orderId status') := by
  obtain ⟨o, ho, rfl⟩ := Option.map_eq_some_iff.mp h
  refine ⟨(o.after w).status, ?_, ?_⟩
  · simp [Db.status?, order?_apply ho]
  · have hid : o.orderId = orderId := (order?_mem ho).2
    rw [← hid]
    exact after_status w o

theorem status?_applyAll (ws : List Write) {status : OrderStatus}
    (h : db.status? orderId = some status) :
    ∃ status', (store.applyAll db ws).status? orderId = some status' ∧
      (status' = status ∨ .setOrderStatus orderId status' ∈ ws) := by
  induction ws generalizing db status with
  | nil => exact ⟨status, h, .inl rfl⟩
  | cons w ws ih =>
    obtain ⟨status₁, h₁, hcase₁⟩ := status?_apply (w := w) h
    obtain ⟨status₂, h₂, hcase₂⟩ := ih h₁
    refine ⟨status₂, h₂, ?_⟩
    rcases hcase₂ with rfl | hmem
    · rcases hcase₁ with rfl | rfl
      · exact .inl rfl
      · exact .inr (mem_cons_self)
    · exact .inr (mem_cons_of_mem w hmem)

/-! ## Sessions keep what they read -/

/-- Every status that the list writes is a move from a status that was read. -/
def Tracked (writes : List Write) (reads : List (ℕ × OrderStatus)) : Prop :=
  ∀ orderId status', .setOrderStatus orderId status' ∈ writes →
    ∃ status, (orderId, status) ∈ reads ∧ Steady status status'

theorem Tracked.nil (reads : List (ℕ × OrderStatus)) : Tracked [] reads := by
  intro orderId status' h
  cases h

theorem Tracked.concat {reads : List (ℕ × OrderStatus)} (h : Tracked ws reads)
    (hw : ∀ orderId status', w ≠ .setOrderStatus orderId status') : Tracked (ws ++ [w]) reads := by
  intro orderId status' hmem
  rcases mem_concat.mp hmem with hmem | heq
  · exact h orderId status' hmem
  · exact absurd heq.symm (hw orderId status')

theorem Tracked.status (h : Tracked s.writes s.reads) (hs : Steady o.status status') :
    Tracked (stageStatus s o status').writes (stageStatus s o status').reads := by
  intro orderId status'' hmem
  rcases mem_concat.mp hmem with hmem | heq
  · obtain ⟨status, hread, hst⟩ := h orderId status'' hmem
    exact ⟨status, mem_append_left _ hread, hst⟩
  · cases heq
    exact ⟨o.status, mem_concat_self, hs⟩

theorem Stages.tracked {s' : Session} (h : Stages s s') (hs : Tracked s.writes s.reads) :
    Tracked s'.writes s'.reads := by
  induction h with
  | refl => exact hs
  | quiet w _ hw ih =>
    refine ih.concat fun orderId status' heq => ?_
    subst heq
    exact hw
  | close o _ _ hopen ih => exact ih.status (steady_invalid_of_open hopen)

def Statusless (ws : List Write) : Prop :=
  ∀ orderId status, .setOrderStatus orderId status ∉ ws

theorem Statusless.tracked (h : Statusless ws) (reads : List (ℕ × OrderStatus)) :
    Tracked ws reads :=
  fun orderId status' hmem => absurd hmem (h orderId status')

theorem statusless_stageAll {a : Authorization} {cs : List Challenge} (h : Statusless s.writes) :
    Statusless (stageAll s (.addAuthorization a :: cs.map .addChallenge)).writes := by
  intro orderId status hmem
  rw [stageAll_eq] at hmem
  rcases mem_append.mp hmem with hmem | hmem
  · exact h orderId status hmem
  · simp at hmem

theorem statusless_newAuthorization {tokens : ℕ → ℕ} {orderId : Option ℕ} {accountId : ℕ}
    {identifier : Identifier} (h : Statusless s.writes) :
    Statusless (newAuthorization settings now tokens orderId accountId identifier s).writes :=
  statusless_stageAll h

theorem statusless_createAuthorization {tokens : ℕ → ℕ}
    {accountId : ℕ} {identifier : Identifier} {s' : Session} {commits : Bool}
    (hs : createAuthorization settings now tokens orderId accountId identifier s = (s', commits))
    (h : Statusless s.writes) : Statusless s'.writes := by
  unfold createAuthorization at hs
  simp only at hs
  split at hs <;> cases hs
  · exact statusless_stageAll h
  · exact statusless_newAuthorization h

/-! ## The condition on the run -/

def Task.reads : Task → List (ℕ × OrderStatus)
  | .committing _ reads _ => reads
  | _ => []

def Input.commits : Input → Bool
  | .commit ok _ => ok
  | _ => false

/-- If the authorization is the last of its order to become valid, the order is open. -/
def OpenWhenLast (db : Db) (authorizationId : ℕ) : Prop :=
  ∀ a ∈ db.authorizations, a.authorizationId = authorizationId → a.status ≠ .deactivated →
    ∀ o ∈ db.orders, a.orderId = some o.orderId →
      (∀ b ∈ db.authorizations, b.orderId = some o.orderId →
        b.authorizationId ≠ authorizationId → b.status = .valid) → o.status.isOpen = true
  deriving Decidable

/-- A commit meets the statuses its session had read, and a challenge whose passing completes the
valid authorizations of an order is passed while the order is pending or ready. -/
def Undisturbed (w : World) : Label → Prop
  | .advance i input =>
    (input.commits = true → ∀ t ∈ w.tasks i, ∀ r ∈ t.reads, ∀ status ∈ w.db.status? r.1,
      status = r.2) ∧
    (input.passes = true → ∀ authorizationId ∈ (w.tasks i).bind Task.answering?,
      OpenWhenLast w.db authorizationId)
  | _ => True

instance (w : World) (l : Label) : Decidable (Undisturbed w l) := by
  induction l using Label.casesOn <;> unfold Undisturbed <;> infer_instance

/-! ## Tasks -/

/-- Pending commits are tracked, and a creation under way has set no status. -/
def Task.Tracked : Task → Prop
  | .creating _ _ _ staged => Statusless staged
  | .committing writes reads _ => Acme.Tracked writes reads
  | _ => True

/-- What an undisturbed step asks of the commit of a task. -/
def Task.Current (t : Task) (db : Db) (input : Input) : Prop :=
  input.commits = true → ∀ r ∈ t.reads, ∀ status ∈ db.status? r.1, status = r.2

/-- What it asks of the challenge that a task answers. -/
def Task.Timely (t : Task) (db : Db) (input : Input) : Prop :=
  input.passes = true → ∀ authorizationId ∈ t.answering?, OpenWhenLast db authorizationId

theorem Undisturbed.task {w : World} {i : ℕ} (h : Undisturbed w (.advance i input))
    (ht : w.tasks i = some t) : t.Current w.db input ∧ t.Timely w.db input :=
  ⟨fun hc => h.1 hc t ht, fun hp id hid => h.2 hp id (by simpa [ht] using hid)⟩

theorem Stages.task_tracked (h : Stages (Session.start db) s) (next : Next) :
    (Session.commitThen s next).Tracked :=
  h.tracked (Acme.Tracked.nil _)

theorem finishOrder_tracked (orderId : ℕ) (h : Statusless s.writes) :
    Acme.Tracked (finishOrder s orderId).writes (finishOrder s orderId).reads := by
  unfold finishOrder
  simp only
  split
  · intro id status' hmem
    rcases mem_concat.mp hmem with hmem | heq
    · exact absurd hmem (h id status')
    · cases heq
      exact ⟨.pending, mem_concat_self, .inr .authorized⟩
  · exact h.tracked _

theorem completed_order_open {authorizationId : ℕ} {p : Option Provenance} {a : Authorization}
    {view view' : Db} (hopen : OpenWhenLast db authorizationId)
    (ha : view.authorization? authorizationId = some a) (hview : view.authorizations = db.authorizations)
    (hne : a.status ≠ .deactivated) (hords : view'.orders = db.orders)
    (hauths : view'.authorizations =
      (db.apply (.setAuthorization authorizationId .valid p)).authorizations)
    (ho : view'.orderOf a = some o)
    (hall : (view'.authorizationsOf o.orderId).all (·.status = .valid) = true) :
    o.status.isOpen = true := by
  obtain ⟨hadb, haid⟩ := authorization?_mem ha
  obtain ⟨homem, hord⟩ := orderOf_mem ho
  refine hopen a (hview ▸ hadb) haid hne o (hords ▸ homem) hord fun b hb hbord hbne => ?_
  -- the other authorizations look the same in the session
  have hb' : b ∈ view'.authorizationsOf o.orderId := by
    refine mem_filter.mpr ⟨?_, by simp [hbord]⟩
    rw [hauths, authorizations_apply]
    refine mem_append_left _ (mem_map.mpr ⟨b, hb, ?_⟩)
    simp [Authorization.after, hbne]
  simpa using all_eq_true.mp hall b hb'

theorem completeChallenge_tracked {challengeId authorizationId : ℕ} {type : ChallengeType}
    (hopen : OpenWhenLast db authorizationId) :
    let s := completeChallenge (.start db) now challengeId authorizationId type
    Acme.Tracked s.writes s.reads := by
  have h₁ : Acme.Tracked (stage (Session.start db) (.setChallenge challengeId .valid (some now)
      none)).writes (Session.start db : Session).reads :=
    (Acme.Tracked.nil _).concat (by simp)
  rcases completeChallenge_cases db now challengeId authorizationId type with
    heq | ⟨a, s₃, ha, hne, hstages, hords, hauths, heq⟩
  · simp only [heq]
    exact h₁
  have h₃ : Acme.Tracked s₃.writes s₃.reads := hstages.stages.tracked (h₁.concat (by simp))
  rcases heq with heq | ⟨o, ho, hall, heq⟩
  · simp only [heq]
    exact h₃
  simp only [heq]
  exact h₃.status (steady_ready_of_open (completed_order_open hopen ha rfl hne hords hauths ho hall))

theorem starts_tracked {r : Request} (h : Starts settings now db r t) : t.Tracked := by
  cases h with
  | newOrder =>
    intro id status hmem
    simp at hmem
  | newAuthz => exact (statusless_newAuthorization (by simp [Statusless])).tracked _
  | respond | finalize => trivial
  | deactivateExpired ha hs | pollAuthorization ha hs =>
    exact (expireAuthorizationIfNeeded_stages ha hs).stages.task_tracked _
  | deactivate ha hs => exact (deactivateAuthorization_stages hs).stages.task_tracked _
  | pollOrder ho hs => exact (expireOrderIfNeeded_stages ho hs).stages.task_tracked _

theorem tracked_singleton {status : OrderStatus} {rest : List Write}
    (hrest : Statusless rest) (h : Steady status status') :
    Acme.Tracked (.setOrderStatus orderId status' :: rest) [(orderId, status)] := by
  intro id status'' hmem
  rcases mem_cons.mp hmem with heq | hmem
  · cases heq
    exact ⟨status, mem_singleton.mpr rfl, h⟩
  · exact absurd hmem (hrest id status'')

theorem rejectOrRestore_tracked {badRequest : Bool} {detail : String} :
    (signOrder.rejectOrRestore orderId badRequest detail).Tracked := by
  unfold signOrder.rejectOrRestore
  split
  · exact tracked_singleton (by simp [Statusless]) (.inr (.failed (by simp) (by simp)))
  · trivial

/-- One step of a task: what it leaves is tracked again, and order statuses stay or move. -/
theorem advances_tracked
    (ht : t.Tracked) (hopen : t.Timely db input)
    (h : Advances text settings now db t input db' t') : ∀ u, t' = some u → u.Tracked := by
  cases h with
  | flushFailed => simp
  | finish hacc =>
    rintro u ⟨⟩
    exact finishOrder_tracked _ ht
  | authorize hacc hs =>
    rintro u ⟨⟩
    exact (statusless_createAuthorization hs ht).tracked _
  | reuse hacc hs =>
    rintro u ⟨⟩
    exact statusless_createAuthorization hs ht
  | pass =>
    rintro u ⟨⟩
    exact completeChallenge_tracked (hopen rfl _ rfl)
  | invalidateChallenge =>
    rintro u ⟨⟩
    exact (invalidateChallenge_stages _ _ _ _).stages.task_tracked _
  | signed hacc =>
    rintro u ⟨⟩
    exact tracked_singleton (by simp [Statusless]) (.inr .issued)
  | signRefused | failedAfterCommit =>
    rintro u ⟨⟩
    exact rejectOrRestore_tracked
  | restore hproc =>
    rintro u ⟨⟩
    exact tracked_singleton (by simp [Statusless]) (.inr .restored)
  | invalidateOrder hproc =>
    rintro u ⟨⟩
    exact tracked_singleton (by simp [Statusless]) (.inr (.failed (by simp) (by simp)))
  | deactivate =>
    intro u hu
    obtain ⟨a, -, ha⟩ := Option.bind_eq_some_iff.mp hu
    obtain ⟨s, hs, rfl⟩ := continueDeactivation_eq_some ha
    exact (deactivateAuthorization_stages hs).stages.task_tracked _
  | @committed writes reads next problem hacc =>
    intro u hu
    cases next <;> cases hu
    · simp [Task.Tracked, Statusless]
    · trivial
    · trivial
  | @rolledBack writes reads next =>
    intro u hu
    cases next <;> cases hu <;> trivial
  | _ =>
    intro u hu
    cases hu <;> trivial

theorem advances_status {status : OrderStatus} (h : Advances text settings now db t input db' t')
    (hs : db.status? orderId = some status) :
    ∃ status', db'.status? orderId = some status' ∧ (status' = status ∨
      status = .ready ∧ status' = .processing ∧ (∃ csr, t = .finalizing orderId csr) ∨
      input.commits = true ∧ ∃ writes reads next, t = .committing writes reads next ∧
        .setOrderStatus orderId status' ∈ writes) := by
  cases h with
  | @claim id csr problem hready =>
    obtain ⟨status', h', hcase⟩ := status?_apply (w := .setOrderStatus id .processing) hs
    refine ⟨status', h', ?_⟩
    rcases hcase with rfl | heq
    · exact .inl rfl
    · cases heq
      rw [hready] at hs
      cases hs
      exact .inr (.inl ⟨rfl, rfl, csr, rfl⟩)
  | @committed writes reads next problem hacc =>
    obtain ⟨status', h', hcase⟩ := status?_applyAll writes hs
    refine ⟨status', h', ?_⟩
    rcases hcase with rfl | hmem
    · exact .inl rfl
    · exact .inr (.inr ⟨rfl, writes, reads, next, rfl, hmem⟩)
  | _ => exact ⟨status, hs, .inl rfl⟩

theorem advances_steady {status : OrderStatus} (ht : t.Tracked)
    (hfresh : t.Current db input)
    (h : Advances text settings now db t input db' t') (hs : db.status? orderId = some status) :
    ∃ status', db'.status? orderId = some status' ∧ Steady status status' := by
  obtain ⟨status', h', hcase⟩ := advances_status h hs
  refine ⟨status', h', ?_⟩
  rcases hcase with heq | ⟨rfl, rfl, -⟩ | ⟨hcommit, writes, reads, next, rfl, hmem⟩
  · exact .inl heq
  · exact .inr .claimed
  · obtain ⟨status₀, hread, hsteady⟩ := ht orderId status' hmem
    rwa [hfresh hcommit _ hread status hs]

/-! ## Runs -/

theorem tracked_reach {w : World} (h : Reach (step text) Undisturbed (initial settings now) w) :
    ∀ i t, w.tasks i = some t → t.Tracked := by
  refine h.invariant (P := fun w => ∀ i t, w.tasks i = some t → t.Tracked) (by simp [initial])
    fun w l _ hw hl => ?_
  generalize hw' : step text w l = w'
  have hstep := hw' ▸ step_steps text w l
  cases hstep with
  | idle | tick | configure => exact hw
  | request hfree => exact forall_update (fun u hu => starts_tracked (handle_starts hu)) hw
  | @advance i input t db t' ht hadv =>
    exact forall_update (advances_tracked (hw i t ht) (hl.task ht).2 hadv) hw

/-- In every undisturbed run the status of an order stays or makes one of the moves. -/
theorem order_moves (text : Text) (settings : Settings) (now : ℕ) (w : World) (l : Label)
    (orderId : ℕ) (status : OrderStatus)
    (hw : Reach (step text) Undisturbed (initial settings now) w) (hl : Undisturbed w l)
    (hs : w.db.status? orderId = some status) :
    ∃ status', (step text w l).db.status? orderId = some status' ∧
      (status' = status ∨ Moves status status') := by
  generalize hw' : step text w l = w'
  have hstep := hw' ▸ step_steps text w l
  cases hstep with
  | @advance i input t db t' ht hadv =>
    exact advances_steady (tracked_reach hw i t ht) (hl.task ht).1 hadv hs
  | _ => exact ⟨status, hs, .inl rfl⟩

/-- A challenge POSTed twice before either validation ends; the order is authorized by the
first and issued, then the second validation passes too. -/
def twoAnswers : List Label :=
  [.request 0 (.newOrder 1 7 [⟨.dns, "a.example", ""⟩]), .advance 0 (.tokens (10 + ·)),
    .advance 0 (.commit true ⟨"", ""⟩), .advance 0 (.tokens (20 + ·)),
    .advance 0 (.commit true ⟨"", ""⟩), .request 1 (.respondToChallenge 7 11),
    .request 2 (.respondToChallenge 7 11), .advance 1 (.answer true ⟨"", ""⟩),
    .advance 1 (.commit true ⟨"", ""⟩), .request 3 (.finalize 7 1 ⟨[], some [.dns "a.example"]⟩),
    .advance 3 (.commit true ⟨"", ""⟩), .advance 3 (.checks none none),
    .advance 3 (.sign (.signed 5)), .advance 3 (.commit true ⟨"", ""⟩)]

/-- Up to there the run is undisturbed, and its last step moves the order to valid. -/
theorem order_moves_to_valid :
    let w := exec (step ⟨id, fun _ => none⟩) (initial ⟨[], [], false⟩ 0) (twoAnswers.take 13)
    ∃ status', (step ⟨id, fun _ => none⟩ w (.advance 3 (.commit true ⟨"", ""⟩))).db.status? 1 =
      some status' ∧ (status' = .processing ∨ Moves .processing status') :=
  order_moves ⟨id, fun _ => none⟩ ⟨[], [], false⟩ 0 _ (.advance 3 (.commit true ⟨"", ""⟩)) 1
    .processing (Reach.start.exec (by decide)) (by decide) (by decide)

/-- The second validation moves the valid order back to ready. -/
theorem valid_order_reopened :
    let w := exec (step ⟨id, fun _ => none⟩) (initial ⟨[], [], false⟩ 0)
      (twoAnswers ++ [.advance 2 (.answer true ⟨"", ""⟩)])
    w.db.status? 1 = some .valid ∧
      (step ⟨id, fun _ => none⟩ w (.advance 2 (.commit true ⟨"", ""⟩))).db.status? 1 =
        some .ready ∧ ¬Moves .valid .ready :=
  ⟨by decide, by decide, not_moves_of_terminal (.inl rfl)⟩

end UltimateCaManager.Acme
