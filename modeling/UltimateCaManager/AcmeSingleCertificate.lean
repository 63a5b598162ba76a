import UltimateCaManager.AcmeOrderStates

/-!
# One certificate for each order

Only the finalization that moved an order from ready to processing signs for it. The invariant
follows the claim: at most one task holds an order, a held order is processing, and a certificate
belongs to a valid order or to the task that is about to link it. A failure between the commit of
the certificate and the commit of the order breaks it, because the order is then restored to
ready and can be finalized again.
-/
namespace UltimateCaManager.Acme

open List Tables Transactions Runs Concurrency.System

variable {db db' : Db} {ws : List Write} {text : Text}

/-! ## The shapes of a pending commit -/

/-- A statement that neither issues nor links, and adds no order but a fresh one. -/
def Write.Plain : Write → Prop
  | .addOrder o => o.status = .pending ∧ o.certificateId = none
  | .addCertificate _ => False
  | .setOrderStatus _ status => status ≠ .valid
  | .linkCertificate _ _ => False
  | _ => True

def Unclaimed (reads : List (ℕ × OrderStatus)) : Prop :=
  ∀ orderId, (orderId, .processing) ∉ reads

/-- The sessions that a task can be about to commit. -/
inductive Commits : List Write → List (ℕ × OrderStatus) → Next → Prop
  | issue {orderId certificateId} :
      Commits [.setOrderStatus orderId .valid, .linkCertificate orderId certificateId]
        [(orderId, .processing)] (.issue orderId)
  | reject {orderId error} :
      Commits [.setOrderStatus orderId .invalid, .setOrderError orderId error]
        [(orderId, .processing)] (.reject orderId)
  | invalidate {orderId error} :
      Commits [.setOrderStatus orderId .invalid, .setOrderError orderId error]
        [(orderId, .processing)] .finished
  | restore {orderId} :
      Commits [.setOrderStatus orderId .ready] [(orderId, .processing)] .finished
  | plain {writes reads next} (hreads : Unclaimed reads) (hwrites : ∀ w ∈ writes, w.Plain)
      (hissue : ∀ orderId, next ≠ .issue orderId) (hreject : ∀ orderId, next ≠ .reject orderId) :
      Commits writes reads next

def Task.Shaped : Task → Prop
  | .creating _ _ _ staged => ∀ w ∈ staged, w.Plain
  | .committing writes reads next => Commits writes reads next
  | _ => True

theorem unclaimed_of_open {reads : List (ℕ × OrderStatus)} {id : ℕ} {status : OrderStatus}
    (h : Unclaimed reads) (hs : status ≠ .processing) : Unclaimed (reads ++ [(id, status)]) := by
  intro orderId hmem
  rcases mem_concat.mp hmem with hmem | heq
  · exact h orderId hmem
  · exact hs (Prod.mk.inj heq).2.symm

theorem ne_processing_of_open {status : OrderStatus} (h : status.isOpen = true) :
    status ≠ .processing := by
  rintro rfl
  simp [OrderStatus.isOpen] at h

/-- A session of plain statements that read no order as processing. -/
structure PlainSession (s : Session) : Prop where
  reads : Unclaimed s.reads
  writes : ∀ w ∈ s.writes, w.Plain

theorem PlainSession.start : PlainSession (.start db) :=
  ⟨by simp [Unclaimed], by simp⟩

variable {s : Session} {w : Write} {settings : Settings} {now orderId : ℕ} {t : Task}

theorem PlainSession.stage (h : PlainSession s) (hw : w.Plain) :
    PlainSession (stage s w) where
  reads := h.reads
  writes := forall_mem_concat.mpr ⟨h.writes, hw⟩

theorem PlainSession.stageStatus {o : Order} {status : OrderStatus}
    (h : PlainSession s) (ho : o.status ≠ .processing) (hs : status ≠ .valid) :
    PlainSession (stageStatus s o status) :=
  PlainSession.stage (s := s.observe (o.orderId, o.status))
    ⟨unclaimed_of_open h.reads ho, h.writes⟩ hs

theorem Write.Quiet.plain (h : w.Quiet) : w.Plain := by
  cases w <;> first | exact h.elim | trivial

theorem Stages.plain {s' : Session} (h : Stages s s') (hs : PlainSession s) : PlainSession s' := by
  induction h with
  | refl => exact hs
  | quiet w _ hw ih => exact ih.stage hw.plain
  | close o _ _ hopen ih => exact ih.stageStatus (ne_processing_of_open hopen) (by simp)

theorem PlainSession.stageAll (h : PlainSession s) (hws : ∀ w ∈ ws, w.Plain) :
    PlainSession (stageAll s ws) := by
  rw [stageAll_eq]
  exact ⟨h.reads, forall_mem_append.mpr ⟨h.writes, hws⟩⟩

theorem plain_addAuthorization (a : Authorization) (cs : List Challenge) :
    ∀ w ∈ Write.addAuthorization a :: cs.map .addChallenge, w.Plain :=
  forall_mem_cons.mpr ⟨trivial, forall_mem_map.mpr fun _ _ => trivial⟩

theorem PlainSession.createAuthorization {tokens : ℕ → ℕ}
    {accountId : ℕ} {identifier : Identifier} {s' : Session} {commits : Bool}
    (hs : createAuthorization settings now tokens orderId accountId identifier s = (s', commits))
    (h : PlainSession s) : PlainSession s' := by
  unfold Acme.createAuthorization at hs
  simp only at hs
  split at hs <;> cases hs <;> exact h.stageAll (plain_addAuthorization _ _)

theorem PlainSession.finishOrder (h : PlainSession s) : PlainSession (finishOrder s orderId) := by
  unfold Acme.finishOrder
  simp only
  split
  · exact PlainSession.stage (s := s.observe (orderId, .pending))
      ⟨unclaimed_of_open h.reads (by simp), h.writes⟩ (by simp [Write.Plain])
  · exact h

theorem plain_completeChallenge {challengeId authorizationId : ℕ} {type : ChallengeType}
    (hopen : OpenWhenLast db authorizationId) :
    PlainSession (completeChallenge (.start db) now challengeId authorizationId type) := by
  have h₁ : PlainSession (stage (Session.start db) (.setChallenge challengeId .valid (some now)
      none)) := PlainSession.start.stage trivial
  rcases completeChallenge_cases db now challengeId authorizationId type with
    heq | ⟨a, s₃, ha, hne, hstages, hords, hauths, heq⟩
  · rwa [heq]
  have h₃ : PlainSession s₃ := hstages.stages.plain (h₁.stage trivial)
  rcases heq with heq | ⟨o, ho, hall, heq⟩
  · rwa [heq]
  rw [heq]
  have hisOpen := completed_order_open hopen ha rfl hne hords hauths ho hall
  exact h₃.stageStatus (ne_processing_of_open hisOpen) (by simp)

/-! ## Claims on an order -/

/-- The task took the order to processing and has not let go of it. -/
def Task.Holds (orderId : ℕ) : Task → Prop
  | .claimed id _ => id = orderId
  | .signing id _ _ => id = orderId
  | .restoring id => id = orderId
  | .invalidating id _ => id = orderId
  | .committing _ reads _ => (orderId, .processing) ∈ reads
  | _ => False

/-- The task that signed a certificate and is about to link it to its order. -/
def linking (orderId certificateId : ℕ) : Task :=
  .committing [.setOrderStatus orderId .valid, .linkCertificate orderId certificateId]
    [(orderId, .processing)] (.issue orderId)

/-- A valid order is linked to a certificate of its own, any other order to none. -/
def Linked (db : Db) : Prop :=
  ∀ orderId o, db.order? orderId = some o →
    (o.status = .valid → ∃ c ∈ db.certificates, c.orderId = orderId ∧
      o.certificateId = some c.certificateId) ∧
    (o.status ≠ .valid → o.certificateId = none)

structure SingleIssue (w : World) : Prop where
  shaped : ∀ i t, w.tasks i = some t → t.Shaped
  held : ∀ i t orderId, w.tasks i = some t → t.Holds orderId →
    w.db.status? orderId = some .processing ∨
      t = .restoring orderId ∧ w.db.status? orderId = some .invalid
  sole : ∀ i j t u orderId, w.tasks i = some t → w.tasks j = some u → t.Holds orderId →
    u.Holds orderId → i = j
  linked : Linked w.db
  signed : ∀ i orderId certificateId, w.tasks i = some (linking orderId certificateId) →
    ∃ c ∈ w.db.certificates, c.orderId = orderId ∧ c.certificateId = certificateId
  kept : ∀ c ∈ w.db.certificates, w.db.status? c.orderId = some .valid ∨
    ∃ i, w.tasks i = some (linking c.orderId c.certificateId)
  once : (w.db.certificates.map Certificate.orderId).Nodup

theorem singleIssue_initial (settings : Settings) (now : ℕ) :
    SingleIssue (initial settings now) := by
  constructor <;> simp [Linked, initial, Db.empty, Db.order?]

/-! ## Commits and links -/

/-- An order after a statement is the one that it adds, or was there before. -/
theorem order?_apply_cases {o : Order} (h : (db.apply w).order? orderId = some o) :
    w = .addOrder o ∨ ∃ o₀, db.order? orderId = some o₀ ∧ o₀.after w = o := by
  rw [order?_apply_eq] at h
  cases hold : db.order? orderId with
  | some o₀ =>
    rw [hold] at h
    exact .inr ⟨o₀, rfl, Option.some.inj h⟩
  | none =>
    rw [hold] at h
    have hnew := mem_of_find?_eq_some h
    cases w with
    | addOrder o' => exact .inl (by rw [mem_singleton.mp hnew])
    | _ => cases hnew

/-- A plain statement keeps the links, if the order whose status it sets is not valid. -/
theorem Linked.apply (h : Linked db) (hw : w.Plain)
    (hset : ∀ orderId status, w = .setOrderStatus orderId status →
      db.status? orderId ≠ some .valid) : Linked (db.apply w) := by
  have hcerts : (db.apply w).certificates = db.certificates := by
    cases w <;> first | rfl | exact hw.elim
  intro orderId o ho
  rw [hcerts]
  rcases order?_apply_cases ho with rfl | ⟨o₀, hold, rfl⟩
  · refine ⟨fun hv => ?_, fun _ => hw.2⟩
    rw [hw.1] at hv
    cases hv
  · have hid : o₀.orderId = orderId := (order?_mem hold).2
    obtain ⟨hvalid, hother⟩ := h orderId o₀ hold
    cases w with
    | setOrderStatus k status =>
      by_cases hk : o₀.orderId = k
      · have hne : o₀.status ≠ .valid := by
          intro hv
          refine hset k status rfl ?_
          rw [← hk, hid]
          simp [Db.status?, hold, hv]
        simp only [Order.after, hk]
        exact ⟨fun hv => absurd hv hw, fun _ => hother hne⟩
      · simp only [Order.after, hk]
        exact ⟨hvalid, hother⟩
    | setOrderError k error =>
      simp only [Order.after]
      split <;> exact ⟨hvalid, hother⟩
    | linkCertificate k c => exact hw.elim
    | _ => exact ⟨hvalid, hother⟩

theorem Linked.applyAll (h : Linked db) (hws : ∀ w ∈ ws, w.Plain)
    (hset : ∀ orderId status, .setOrderStatus orderId status ∈ ws →
      db.status? orderId ≠ some .valid) : Linked (store.applyAll db ws) := by
  induction ws generalizing db with
  | nil => exact h
  | cons w ws ih =>
    have hw := hws w (by simp)
    refine ih (h.apply hw fun k st heq => hset k st (by simp [heq]))
      (fun v hv => hws v (mem_cons_of_mem w hv)) fun k st hmem => ?_
    intro hv
    obtain ⟨o, ho, hvalid⟩ := Option.map_eq_some_iff.mp hv
    rcases order?_apply_cases ho with rfl | ⟨o₀, hold, rfl⟩
    · rw [hw.1] at hvalid
      cases hvalid
    · rcases after_status w o₀ with heq | heq
      · refine hset k st (mem_cons_of_mem w hmem) ?_
        simp [Db.status?, hold, ← heq, hvalid]
      · rw [heq] at hw
        exact hw hvalid

/-! ## How claims pass on -/

theorem PlainSession.free {next : Next} (h : PlainSession s)
    (hnext : ∀ orderId, next ≠ .issue orderId ∧ next ≠ .reject orderId) :
    (Session.commitThen s next).Shaped ∧ ∀ orderId, ¬(Session.commitThen s next).Holds orderId :=
  ⟨.plain h.reads h.writes (fun k => (hnext k).1) fun k => (hnext k).2, h.reads⟩

theorem Stages.free {next : Next} (h : Stages (.start db) s)
    (hnext : ∀ orderId, next ≠ .issue orderId ∧ next ≠ .reject orderId) :
    (Session.commitThen s next).Shaped ∧ ∀ orderId, ¬(Session.commitThen s next).Holds orderId :=
  (h.plain .start).free hnext

theorem starts_free {r : Request} (h : Starts settings now db r t) :
    t.Shaped ∧ ∀ orderId, ¬t.Holds orderId := by
  cases h with
  | newOrder =>
    exact ⟨forall_mem_singleton.mpr ⟨rfl, rfl⟩, fun _ => id⟩
  | newAuthz => exact (PlainSession.start.stageAll (plain_addAuthorization _ _)).free (by simp)
  | respond | finalize => exact ⟨trivial, fun _ => id⟩
  | deactivateExpired ha hs | pollAuthorization ha hs =>
    exact (expireAuthorizationIfNeeded_stages ha hs).stages.free (by simp)
  | deactivate ha hs => exact (deactivateAuthorization_stages hs).stages.free (by simp)
  | pollOrder ho hs => exact (expireOrderIfNeeded_stages ho hs).stages.free (by simp)

theorem eq_of_holds {next : Next} {k : ℕ}
    (h : (Task.committing ws [(orderId, .processing)] next).Holds k) : orderId = k :=
  (Prod.mk.inj (mem_singleton.mp h)).1.symm

theorem rejectOrRestore_next {badRequest : Bool} {detail : String} :
    (signOrder.rejectOrRestore orderId badRequest detail).Shaped ∧
      ∀ k, (signOrder.rejectOrRestore orderId badRequest detail).Holds k → orderId = k := by
  unfold signOrder.rejectOrRestore
  split
  · exact ⟨.reject, fun _ => eq_of_holds⟩
  · exact ⟨trivial, fun _ => id⟩

/-- The order that a failed commit gives back was read as processing. -/
theorem Commits.reads_processing {reads : List (ℕ × OrderStatus)} {next : Next}
    (h : Commits ws reads next) (hnext : next = .issue orderId ∨ next = .reject orderId) :
    (orderId, .processing) ∈ reads := by
  cases h with
  | plain hreads hwrites hissue hreject =>
    exact (hnext.elim (hissue orderId) (hreject orderId)).elim
  | _ => rcases hnext with heq | heq <;> cases heq <;> exact mem_singleton.mpr rfl

/-- The task that a step leaves holds an order only if it held it before or has just claimed it. -/
theorem advances_next {u : Task} {input : Input}
    {t' : Option Task} (ht : t.Shaped) (hopen : t.Timely db input)
    (h : Advances text settings now db t input db' t') (hu : t' = some u) :
    u.Shaped ∧ ∀ orderId, u.Holds orderId → t.Holds orderId ∨
      db.status? orderId = some .ready ∧ db' = db.apply (.setOrderStatus orderId .processing) := by
  have hview : ∀ staged : List Write, (∀ w ∈ staged, w.Plain) →
      PlainSession ⟨store.applyAll db staged, staged, []⟩ :=
    fun staged hplain => ⟨by simp [Unclaimed], hplain⟩
  have hfree : ∀ {v : Task}, v.Shaped ∧ (∀ k, ¬v.Holds k) → some v = some u →
      u.Shaped ∧ ∀ k, u.Holds k → t.Holds k ∨
        db.status? k = some .ready ∧ db' = db.apply (.setOrderStatus k .processing) := by
    rintro v ⟨hshaped, hholds⟩ ⟨⟩
    exact ⟨hshaped, fun k hk => absurd hk (hholds k)⟩
  cases h with
  | flushFailed => cases hu
  | finish hacc => exact hfree ((hview _ ht).finishOrder.free (by simp)) hu
  | authorize hacc hs =>
    exact hfree ((PlainSession.createAuthorization hs (hview _ ht)).free (by simp)) hu
  | reuse hacc hs =>
    cases hu
    exact ⟨(PlainSession.createAuthorization hs (hview _ ht)).writes, fun _ => False.elim⟩
  | pass => exact hfree ((plain_completeChallenge (hopen rfl _ rfl)).free (by simp)) hu
  | invalidateChallenge =>
    exact hfree ((invalidateChallenge_stages _ _ _ _).stages.free (by simp)) hu
  | claim hready =>
    cases hu
    refine ⟨trivial, ?_⟩
    rintro k ⟨⟩
    exact .inr ⟨hready, rfl⟩
  | signed hacc =>
    cases hu
    exact ⟨.issue, fun _ hk => .inl (eq_of_holds hk)⟩
  | signRefused | failedAfterCommit =>
    cases hu
    exact rejectOrRestore_next.imp_right fun hholds k hk => .inl (hholds k hk)
  | restore hproc =>
    cases hu
    exact ⟨.restore, fun _ hk => .inl (eq_of_holds hk)⟩
  | invalidateOrder hproc =>
    cases hu
    exact ⟨.invalidate, fun _ hk => .inl (eq_of_holds hk)⟩
  | deactivate =>
    obtain ⟨a, -, ha⟩ := Option.bind_eq_some_iff.mp hu
    obtain ⟨s, hs, rfl⟩ := continueDeactivation_eq_some ha
    exact hfree ((deactivateAuthorization_stages hs).stages.free (by simp)) rfl
  | @committed writes reads next problem hacc =>
    cases next with
    | creating => exact hfree ⟨by simp [Task.Shaped], fun _ => id⟩ hu
    | reject id =>
      cases hu
      refine ⟨trivial, ?_⟩
      rintro k ⟨⟩
      exact .inl (Commits.reads_processing ht (.inr rfl))
    | _ => cases hu <;> exact ⟨trivial, fun _ => False.elim⟩
  | @rolledBack writes reads next ok problem hfail =>
    cases next with
    | reject id =>
      cases hu
      refine ⟨trivial, ?_⟩
      rintro k ⟨⟩
      exact .inl (Commits.reads_processing ht (.inr rfl))
    | issue id =>
      cases hu
      refine ⟨trivial, ?_⟩
      rintro k ⟨⟩
      exact .inl (Commits.reads_processing ht (.inl rfl))
    | _ => cases hu <;> exact ⟨trivial, fun _ => False.elim⟩
  | _ => cases hu <;> exact ⟨trivial, fun _ => .inl⟩

/-! ## The condition on the run -/

/-- The task has stored a certificate and is about to commit its order. -/
def Task.issuing : Task → Bool
  | .committing _ _ (.issue _) => true
  | _ => false

/-- The step fails after the certificate was stored and before its order was. -/
def Input.loses (t : Task) : Input → Bool
  | .sign (.failedAfterCommit _ _ _) => true
  | .commit ok _ => !ok && t.issuing
  | _ => false

/-- An undisturbed step that does not fail between the commit of a certificate and the commit of
its order. -/
def Unfailing (w : World) (l : Label) : Prop :=
  Undisturbed w l ∧ match l with
    | .advance i input => ∀ t ∈ w.tasks i, input.loses t = false
    | _ => True

instance (w : World) (l : Label) : Decidable (Unfailing w l) := by
  induction l using Label.casesOn <;> unfold Unfailing <;> infer_instance

/-! ## One step -/

section Step

variable {w : World} {i : ℕ} {t : Task} {input : Input} {t' : Option Task}

variable {orderId certificateId now : ℕ} {u : Task} {settings : Settings}

theorem SingleIssue.status_ne_ready (h : SingleIssue w) {j : ℕ}
    (hu : w.tasks j = some u) (hk : u.Holds orderId) : w.db.status? orderId ≠ some .ready := by
  rcases h.held j u orderId hu hk with hs | ⟨-, hs⟩ <;> simp [hs]

theorem SingleIssue.exists_status (h : SingleIssue w) {j : ℕ}
    (hu : w.tasks j = some u) (hk : u.Holds orderId) : ∃ s, w.db.status? orderId = some s := by
  rcases h.held j u orderId hu hk with hs | ⟨-, hs⟩ <;> exact ⟨_, hs⟩

/-- A certificate is only signed for an order that has none. -/
theorem SingleIssue.unsigned (h : SingleIssue w) {csr : Csr}
    {allowed : Option (List SanKind)} (ht : w.tasks i = some (.signing orderId csr allowed)) :
    ∀ c ∈ w.db.certificates, c.orderId ≠ orderId := by
  rintro c hc rfl
  rcases h.kept c hc with hvalid | ⟨j, hj⟩
  · rcases h.held i _ c.orderId ht rfl with hs | ⟨-, hs⟩ <;> simp [hs] at hvalid
  · obtain rfl : i = j := h.sole i j _ _ c.orderId ht hj rfl (mem_singleton.mpr rfl)
    rw [ht] at hj
    cases hj

theorem Linked.addCertificate (h : Linked db) (c : Certificate) :
    Linked (db.apply (.addCertificate c)) := by
  intro orderId o ho
  obtain ⟨hvalid, hother⟩ := h orderId o ho
  refine ⟨fun hv => ?_, hother⟩
  obtain ⟨d, hd, hid, hlink⟩ := hvalid hv
  exact ⟨d, mem_append_left _ hd, hid, hlink⟩

/-- The commit that issues makes its order valid and links it. -/
theorem Linked.issue (h : Linked db)
    (hc : ∃ c ∈ db.certificates, c.orderId = orderId ∧ c.certificateId = certificateId) :
    Linked (store.applyAll db
      [.setOrderStatus orderId .valid, .linkCertificate orderId certificateId]) := by
  intro k o ho
  simp only [Store.applyAll_cons, Store.applyAll_nil, store_apply] at ho
  obtain ⟨o₁, h₁, rfl⟩ := (order?_apply_cases ho).resolve_left nofun
  obtain ⟨o₀, hold, rfl⟩ := (order?_apply_cases h₁).resolve_left nofun
  have hid : o₀.orderId = k := (order?_mem hold).2
  by_cases hk : o₀.orderId = orderId
  · obtain ⟨c, hcmem, hcid, hcert⟩ := hc
    simp only [Order.after, hk, if_true]
    refine ⟨fun _ => ⟨c, hcmem, by rw [hcid, ← hk, hid], by rw [hcert]⟩, ?_⟩
    exact fun hv => absurd rfl hv
  · simp only [Order.after, hk, if_false]
    exact h k o₀ hold

theorem certificates_applyAll_plain (h : ∀ w ∈ ws, w.Plain) :
    (store.applyAll db ws).certificates = db.certificates := by
  refine foldlRecOn (motive := fun db' : Db => db'.certificates = db.certificates) ws store.apply
    rfl fun db' hdb w hw => ?_
  cases w with
  | addCertificate c => exact (h _ hw).elim
  | _ => exact hdb

/-- A step adds no certificate, or signs one and goes on to link it. -/
theorem advances_certificates_eq (ht : t.Shaped)
    (hloss : input.loses t = false) (h : Advances text settings now db t input db' t') :
    db'.certificates = db.certificates ∨ ∃ orderId csr allowed certificateId,
      t = .signing orderId csr allowed ∧ t' = some (linking orderId certificateId) ∧
      db' = db.apply (.addCertificate
        (certificateFor text certificateId orderId csr allowed)) := by
  cases h with
  | signed hacc => exact .inr ⟨_, _, _, _, rfl, rfl, rfl⟩
  | failedAfterCommit hacc => cases hloss
  | @committed writes reads next problem hacc =>
    have hcommits : Commits writes reads next := ht
    cases hcommits with
    | plain hreads hwrites => exact .inl (certificates_applyAll_plain hwrites)
    | _ => exact .inl rfl
  | _ => exact .inl rfl

theorem advances_linking (h : Advances text settings now db t input db' t')
    (hlink : t' = some (linking orderId certificateId)) :
    ∃ c ∈ db'.certificates, c.orderId = orderId ∧ c.certificateId = certificateId := by
  cases h with
  | signed hacc =>
    cases hlink
    exact ⟨_, mem_concat_self, rfl, rfl⟩
  | signRefused | failedAfterCommit =>
    unfold signOrder.rejectOrRestore at hlink
    split at hlink <;> cases hlink
  | deactivate =>
    obtain ⟨a, -, ha⟩ := Option.bind_eq_some_iff.mp hlink
    obtain ⟨s, -, hs⟩ := continueDeactivation_eq_some ha
    simp [linking, Session.commitThen] at hs
  | @committed writes reads next problem hacc => cases next <;> cases hlink
  | @rolledBack writes reads next ok problem hfail => cases next <;> cases hlink
  | _ => simp [linking, Session.commitThen] at hlink

theorem SingleIssue.held_own (h : SingleIssue w) (ht : w.tasks i = some t)
    (hopen : t.Timely w.db input)
    (hadv : Advances text w.settings w.now w.db t input db' t')
    (hu : t' = some u) (hk : u.Holds orderId) :
    db'.status? orderId = some .processing ∨
      u = .restoring orderId ∧ db'.status? orderId = some .invalid := by
  rcases (advances_next (h.shaped i t ht) hopen hadv hu).2 orderId hk with hold | ⟨hready, rfl⟩
  · rcases h.held i t orderId ht hold with hproc | ⟨rfl, hinv⟩
    · obtain ⟨status', hs', hcase⟩ := advances_status hadv hproc
      rcases hcase with rfl | ⟨hr, -⟩ | ⟨-, writes, reads, next, rfl, hmem⟩
      · exact .inl hs'
      · cases hr
      · -- a commit after which the task still holds the order has rejected it
        have hshape := h.shaped i _ ht
        cases hadv with
        | committed hacc =>
          cases hshape with
          | reject =>
            cases hu
            cases hk
            simp only [mem_cons, Write.setOrderStatus.injEq, true_and, reduceCtorEq,
              not_mem_nil, or_false] at hmem
            exact .inr ⟨rfl, hmem ▸ hs'⟩
          | plain hreads hwrites hissue hreject => exact absurd hold (hreads orderId)
          | _ => cases hu
        | rolledBack hfail => exact .inl hproc
    · cases hadv with
      | restore hproc => simp [hinv] at hproc
      | notRestored => cases hu
  · obtain ⟨o, ho, -⟩ := Option.map_eq_some_iff.mp hready
    simp [Db.status?, order?_apply ho, Order.after, (order?_mem ho).2]

/-- The step of a task that is about to link leaves its order valid. -/
theorem advances_of_linking {status : OrderStatus} (hs : db.status? orderId = some status)
    (hloss : input.loses (linking orderId certificateId) = false)
    (h : Advances text settings now db (linking orderId certificateId) input db' t') :
    db'.status? orderId = some .valid := by
  cases h with
  | committed hacc =>
    obtain ⟨o, ho, -⟩ := Option.map_eq_some_iff.mp hs
    have h₂ := order?_apply (w := .linkCertificate orderId certificateId)
      (order?_apply (w := .setOrderStatus orderId .valid) ho)
    simp only [Store.applyAll_cons, Store.applyAll_nil, store_apply, Db.status?, h₂]
    simp [Order.after, (order?_mem ho).2]
  | @rolledBack _ _ _ ok _ hfail =>
    cases ok with
    | true => exact absurd ⟨rfl, rfl⟩ hfail
    | false => cases hloss

section Advance

variable (h : SingleIssue w) (ht : w.tasks i = some t) (htr : t.Tracked)
  (hfresh : t.Current w.db input) (hadv : Advances text w.settings w.now w.db t input db' t')
include h ht htr hfresh hadv

/-- The step of one task leaves the status of an order that another task holds. -/
theorem SingleIssue.status_held {j : ℕ} (hu : w.tasks j = some u) (hne : j ≠ i)
    (hk : u.Holds orderId) :
    db'.status? orderId = w.db.status? orderId := by
  obtain ⟨status, hs⟩ := h.exists_status hu hk
  obtain ⟨status', hs', hcase⟩ := advances_status hadv hs
  rw [hs', hs]
  rcases hcase with heq | ⟨rfl, -⟩ | ⟨hcommit, writes, reads, next, rfl, hmem⟩
  · rw [heq]
  · exact absurd hs (h.status_ne_ready hu hk)
  · obtain ⟨status₀, hread, hsteady⟩ := htr orderId status' hmem
    obtain rfl := hfresh hcommit _ hread status hs
    rcases h.held j u orderId hu hk with hproc | ⟨-, hinv⟩
    · rw [hproc] at hs
      cases hs
      exact absurd (h.sole j i u _ orderId hu ht hk hread) hne
    · rw [hinv] at hs
      cases hs
      rcases hsteady with heq | hmove
      · rw [heq]
      · exact absurd hmove (not_moves_of_terminal (.inr rfl))

theorem SingleIssue.linked_advance : Linked db' := by
  have hshape := h.shaped i t ht
  cases hadv with
  | claim hready =>
    refine h.linked.apply (by simp [Write.Plain]) ?_
    simp [hready]
  | signed | failedAfterCommit => exact h.linked.addCertificate _
  | @committed writes reads next problem hacc =>
    -- a written status was read, and the read was not of a valid order
    have hset : (∀ v ∈ writes, v.Plain) → ∀ k status, .setOrderStatus k status ∈ writes →
        w.db.status? k ≠ some .valid := by
      intro hplain k status hmem hvalid
      obtain ⟨status₀, hread, hsteady⟩ := htr k status hmem
      obtain rfl : .valid = status₀ := hfresh rfl _ hread _ hvalid
      rcases hsteady with heq | hmove
      · exact hplain _ hmem heq
      · exact not_moves_of_terminal (.inl rfl) hmove
    cases hshape with
    | @issue orderId certificateId => exact h.linked.issue (h.signed i orderId certificateId ht)
    | plain hreads hwrites => exact h.linked.applyAll hwrites (hset hwrites)
    | _ => refine h.linked.applyAll ?_ (hset ?_) <;> simp [Write.Plain]
  | _ => exact h.linked

theorem SingleIssue.kept_advance (hloss : input.loses t = false) {c : Certificate}
    (hc : c ∈ db'.certificates) :
    db'.status? c.orderId = some .valid ∨
      ∃ j, Function.update w.tasks i t' j = some (linking c.orderId c.certificateId) := by
  have hnew := advances_certificates_eq (h.shaped i t ht) hloss hadv
  have hmem : c ∈ w.db.certificates ∨ t' = some (linking c.orderId c.certificateId) := by
    rcases hnew with heq | ⟨orderId, csr, allowed, certificateId, -, hlink, rfl⟩
    · exact .inl (heq ▸ hc)
    · rcases mem_certificates_apply hc with heq | hold
      · cases heq
        exact .inr hlink
      · exact .inl hold
  rcases hmem with hold | hlink
  · rcases h.kept c hold with hvalid | ⟨j, hj⟩
    · obtain ⟨status', hs', hsteady⟩ := advances_steady htr hfresh hadv hvalid
      rcases hsteady with rfl | hmove
      · exact .inl hs'
      · exact absurd hmove (not_moves_of_terminal (.inl rfl))
    · by_cases hji : j = i
      · subst hji
        rw [ht] at hj
        cases hj
        obtain ⟨status, hs⟩ := h.exists_status ht (mem_singleton.mpr rfl)
        exact .inl (advances_of_linking hs hloss hadv)
      · exact .inr ⟨j, by simp [hji, hj]⟩
  · exact .inr ⟨i, by simp [hlink]⟩

end Advance

theorem SingleIssue.advance (h : SingleIssue w) (ht : w.tasks i = some t) (htr : t.Tracked)
    (hl : Unfailing w (.advance i input))
    (hadv : Advances text w.settings w.now w.db t input db' t') :
    SingleIssue { w with db := db', tasks := Function.update w.tasks i t' } := by
  obtain ⟨hfresh, hopen⟩ := hl.1.task ht
  have hloss : input.loses t = false := hl.2 t ht
  have hnew := advances_certificates_eq (h.shaped i t ht) hloss hadv
  have hnext := fun {u} => advances_next (u := u) (h.shaped i t ht) hopen hadv
  refine ⟨?_, ?_, ?_, h.linked_advance ht htr hfresh hadv, ?_, ?_, ?_⟩
  · exact forall_update (fun u hu => (hnext hu).1) h.shaped
  · intro j u orderId hu hk
    rcases update_eq_some hu with ⟨-, hu⟩ | ⟨hne, hu⟩
    · exact h.held_own ht hopen hadv hu hk
    · rw [h.status_held ht htr hfresh hadv hu hne hk]
      exact h.held j u orderId hu hk
  · intro j k u v orderId hu hv hju hkv
    have hcross : ∀ {a b}, t' = some a → (∃ j, j ≠ i ∧ w.tasks j = some b) →
        a.Holds orderId → b.Holds orderId → False := by
      rintro a b ha ⟨j, hne, hb⟩ hka hkb
      rcases (hnext ha).2 orderId hka with hold | ⟨hready, -⟩
      · exact hne (h.sole j i b t orderId hb ht hkb hold)
      · exact h.status_ne_ready hb hkb hready
    rcases update_eq_some hu with ⟨hji, hu'⟩ | ⟨hnej, hu'⟩ <;>
      rcases update_eq_some hv with ⟨hki, hv'⟩ | ⟨hnek, hv'⟩
    · exact hji.trans hki.symm
    · exact (hcross hu' ⟨k, hnek, hv'⟩ hju hkv).elim
    · exact (hcross hv' ⟨j, hnej, hu'⟩ hkv hju).elim
    · exact h.sole j k u v orderId hu' hv' hju hkv
  · intro j orderId certificateId hu
    rcases update_eq_some hu with ⟨-, hu⟩ | ⟨-, hu⟩
    · exact advances_linking hadv hu
    · obtain ⟨c, hc, hid⟩ := h.signed j orderId certificateId hu
      refine ⟨c, ?_, hid⟩
      rcases hnew with heq | ⟨k, csr, allowed, n, -, -, rfl⟩
      · exact heq ▸ hc
      · exact mem_append_left _ hc
  · exact fun c hc => h.kept_advance ht htr hfresh hadv hloss hc
  · rcases hnew with heq | ⟨k, csr, allowed, n, rfl, -, rfl⟩
    · simpa [heq] using h.once
    · exact nodup_concat h.once fun c hc => h.unsigned ht c hc

theorem SingleIssue.request (h : SingleIssue w) {r : Request} (hfree : w.tasks i = none) :
    SingleIssue { w with
      tasks := Function.update w.tasks i (handle w.settings w.now w.db r) } := by
  have htasks : ∀ {j u}, Function.update w.tasks i (handle w.settings w.now w.db r) j = some u →
      Starts w.settings w.now w.db r u ∨ w.tasks j = some u :=
    fun hu => (update_eq_some hu).imp (fun h => handle_starts h.2) And.right
  refine ⟨?_, ?_, ?_, h.linked, ?_, ?_, h.once⟩
  · intro j u hu
    exact (htasks hu).elim (fun hs => (starts_free hs).1) (h.shaped j u)
  · intro j u orderId hu hk
    exact h.held j u orderId ((htasks hu).resolve_left fun hs => (starts_free hs).2 orderId hk) hk
  · intro j k u v orderId hu hv hju hkv
    exact h.sole j k u v orderId ((htasks hu).resolve_left fun hs => (starts_free hs).2 orderId hju)
      ((htasks hv).resolve_left fun hs => (starts_free hs).2 orderId hkv) hju hkv
  · intro j orderId certificateId hu
    refine h.signed j orderId certificateId ((htasks hu).resolve_left fun hs => ?_)
    exact (starts_free hs).2 orderId (mem_singleton.mpr rfl)
  · intro c hc
    refine (h.kept c hc).imp_right fun ⟨j, hj⟩ => ⟨j, ?_⟩
    have hji : j ≠ i := by
      rintro rfl
      rw [hfree] at hj
      cases hj
    simpa [hji] using hj

end Step

/-! ## Runs -/

theorem singleIssue_reach {w : World}
    (h : Reach (step text) Unfailing (initial settings now) w) : SingleIssue w := by
  refine h.invariant (singleIssue_initial settings now) fun w l hreach hw hl => ?_
  have htr := tracked_reach (hreach.weaken fun _ _ hl => hl.1)
  generalize hw' : step text w l = w'
  have hstep := hw' ▸ step_steps text w l
  cases hstep with
  | idle => exact hw
  | tick | configure => exact { hw with }
  | @request i r hfree => exact hw.request hfree
  | advance ht hadv => exact hw.advance ht (htr _ _ ht) hl hadv

/-- In every undisturbed run without a failure between the two commits of an issuance, at most
one certificate is kept for an order, and the order is valid exactly when it is linked to it. -/
theorem one_certificate_per_order (text : Text) (settings : Settings) (now : ℕ) (w : World)
    (orderId : ℕ) (hw : Reach (step text) Unfailing (initial settings now) w) :
    (w.db.certificates.filter fun c => c.orderId = orderId).length ≤ 1 ∧
    ∀ o, w.db.order? orderId = some o →
      (o.status = .valid ↔ ∃ c ∈ w.db.certificates, c.orderId = orderId ∧
        o.certificateId = some c.certificateId) := by
  have hsingle := singleIssue_reach hw
  refine ⟨length_filter_key_le_one orderId hsingle.once, fun o ho => ?_⟩
  obtain ⟨hvalid, hother⟩ := hsingle.linked orderId o ho
  refine ⟨hvalid, fun ⟨c, _, _, hlink⟩ => ?_⟩
  by_contra hne
  rw [hother hne] at hlink
  cases hlink

/-- The run that issues order 1 once meets the condition. -/
theorem one_certificate_per_order_issued :
    let w := exec (step ⟨id, fun _ => none⟩) (initial ⟨[], [], false⟩ 0) twoAnswers
    w.db.status? 1 = some .valid ∧
      (w.db.certificates.filter fun c => c.orderId = 1).length ≤ 1 :=
  ⟨by decide, (one_certificate_per_order ⟨id, fun _ => none⟩ ⟨[], [], false⟩ 0 _ 1
    (Reach.start.exec (by decide))).1⟩

/-- The commit of the order fails after that of certificate 5; the order is restored to ready and
finalized again. -/
def lostIssue : List Label :=
  twoAnswers.take 13 ++ [.advance 3 (.commit false ⟨"", ""⟩), .advance 3 .proceed,
    .advance 3 (.commit true ⟨"", ""⟩), .request 4 (.finalize 7 1 ⟨[], some [.dns "a.example"]⟩),
    .advance 4 (.commit true ⟨"", ""⟩), .advance 4 (.checks none none),
    .advance 4 (.sign (.signed 6)), .advance 4 (.commit true ⟨"", ""⟩)]

/-- Two certificates are signed and kept for the order. -/
theorem two_certificates_for_one_order :
    let w := exec (step ⟨id, fun _ => none⟩) (initial ⟨[], [], false⟩ 0) lostIssue
    ¬(w.db.certificates.filter fun c => c.orderId = 1).length ≤ 1 := by
  decide

end UltimateCaManager.Acme
