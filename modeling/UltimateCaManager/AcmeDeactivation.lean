import UltimateCaManager.AcmeOrderStates
import UltimateCaManager.AcmeReuse

/-!
# Deactivated authorizations

Deactivating an authorization gives up the copies of its proof with it and closes their open
orders. A set of deactivated rows that is closed under copying stays deactivated, and no
certificate is signed for its orders, as long as no request in flight works against it. A
deactivation that meets such a request may leave the proof in use: an order that is being finalized
is not closed, and finalization does not look at authorizations.
-/
namespace UltimateCaManager.Acme

open List Tables Transactions Runs Concurrency.System

/-- The authorization itself, and the copies of what derives from it. -/
inductive DerivesFrom (db : Db) (root : ℕ) : ℕ → Prop
  | self : DerivesFrom db root root
  | copy {a : Authorization} {source instant : ℕ} (ha : a ∈ db.authorizations)
      (hp : a.provenance = some (.reused source instant)) (h : DerivesFrom db root source) :
      DerivesFrom db root a.authorizationId

/-! ## Statements and tasks that leave given rows and orders alone -/

variable {S T S' T' : ℕ → Prop} {db db' : Db} {w : Write} {ws : List Write} {text : Text}

/-- A statement that copies no row of `S`, leaves the rows of `S` deactivated, sets the orders in
`T` at most to invalid and stores no certificate for them. -/
def Write.Spares (S T : ℕ → Prop) : Write → Prop
  | .addAuthorization a => ∀ source instant, a.provenance = some (.reused source instant) →
      ¬S source
  | .setOrderStatus orderId status => T orderId → status = .invalid
  | .setAuthorization authorizationId status _ => S authorizationId → status = .deactivated
  | .addCertificate c => ¬T c.orderId
  | _ => True

def Next.Spares (T : ℕ → Prop) : Next → Prop
  | .issue orderId => ¬T orderId
  | .reject orderId => ¬T orderId
  | _ => True

/-- A task that will do nothing to the rows in `S` and finalizes no order in `T`. -/
def Task.Spares (S T : ℕ → Prop) : Task → Prop
  | .creating _ _ _ staged => ∀ w ∈ staged, w.Spares S T
  | .claimed orderId _ => ¬T orderId
  | .signing orderId _ _ => ¬T orderId
  | .restoring orderId => ¬T orderId
  | .committing writes _ next => (∀ w ∈ writes, w.Spares S T) ∧ next.Spares T
  | _ => True

theorem Write.Spares.or (h : w.Spares S T) (h' : w.Spares S' T') :
    w.Spares (fun id => S id ∨ S' id) (fun id => T id ∨ T' id) := by
  cases w with
  | addAuthorization a =>
    intro source instant hp hS
    exact hS.elim (h source instant hp) (h' source instant hp)
  | setOrderStatus orderId status => exact fun ho => ho.elim h h'
  | setAuthorization id status p => exact fun hid => hid.elim h h'
  | addCertificate c => exact not_or.mpr ⟨h, h'⟩
  | _ => trivial

variable {t : Task} {orderId now : ℕ} {a row : Authorization} {settings : Settings}
  {t' : Option Task} {input : Input}

theorem Task.Spares.or (h : t.Spares S T) (h' : t.Spares S' T') :
    t.Spares (fun id => S id ∨ S' id) (fun id => T id ∨ T' id) := by
  cases t with
  | creating orderId accountId todo staged => exact fun w hw => (h w hw).or (h' w hw)
  | claimed | signing | restoring => exact not_or.mpr ⟨h, h'⟩
  | committing writes reads next =>
    refine ⟨fun w hw => (h.1 w hw).or (h'.1 w hw), ?_⟩
    cases next with
    | issue | reject => exact not_or.mpr ⟨h.2, h'.2⟩
    | _ => trivial
  | _ => trivial

/-! ## Closed rows -/

/-- An order that is neither pending nor ready. -/
def Db.Closed (db : Db) (orderId : ℕ) : Prop :=
  ∃ o, db.order? orderId = some o ∧ o.status.isOpen = false

theorem Db.Closed.apply (h : db.Closed orderId)
    (hw : ∀ status, w = .setOrderStatus orderId status → status.isOpen = false) :
    (db.apply w).Closed orderId := by
  obtain ⟨o, ho, hopen⟩ := h
  refine ⟨o.after w, order?_apply ho, ?_⟩
  rcases after_status w o with hsame | hset
  · rwa [hsame]
  · rw [(order?_mem ho).2] at hset
    exact hw _ hset

/-- The rows in `S` are deactivated with all their copies, and `T` are their orders, none of which
is open. -/
structure Shut (S T : ℕ → Prop) (db : Db) : Prop where
  rows : ∀ id, S id → ∃ a ∈ db.authorizations, a.authorizationId = id
  dead : ∀ a ∈ db.authorizations, S a.authorizationId → a.status = .deactivated
  copies : ∀ a ∈ db.authorizations, ∀ source instant,
    a.provenance = some (.reused source instant) → S source → S a.authorizationId
  orders : ∀ a ∈ db.authorizations, S a.authorizationId → ∀ orderId, a.orderId = some orderId →
    T orderId
  member : ∀ orderId, T orderId → ∃ a ∈ db.authorizations, S a.authorizationId ∧
    a.orderId = some orderId
  closed : ∀ orderId, T orderId → db.Closed orderId

theorem Shut.not_new (h : Shut S T db)
    (hacc : db.accepts (.addAuthorization a) = true) : ¬S a.authorizationId := by
  intro hS
  obtain ⟨b, hb, hid⟩ := h.rows _ hS
  exact absurd hid (of_decide_eq_true (all_eq_true.mp hacc b hb))

theorem Shut.apply (h : Shut S T db) (hspare : w.Spares S T) (hgen : w.Genuine db)
    (hacc : db.accepts w = true) : Shut S T (db.apply w) where
  rows id hid := by
    obtain ⟨a, ha, rfl⟩ := h.rows id hid
    obtain ⟨a', ha', hf, -⟩ := hgen.keeps.authorizations a ha
    exact ⟨a', ha', fixed_id hf⟩
  dead a ha hS := by
    rcases mem_authorizations_apply ha with rfl | ⟨a₀, ha₀, hf, ⟨hs, -⟩ | ⟨p, rfl, -⟩⟩
    · exact absurd hS (h.not_new hacc)
    · rw [hs]
      exact h.dead a₀ ha₀ (fixed_id hf ▸ hS)
    · exact hspare hS
  copies a ha source instant hp hS := by
    rcases mem_authorizations_apply ha with rfl | ⟨a₀, ha₀, hf, hcase⟩
    · exact absurd hS (hspare source instant hp)
    · rw [← fixed_id hf]
      refine h.copies a₀ ha₀ source instant ?_ hS
      rcases hcase with ⟨-, hp₀⟩ | ⟨p, rfl, hp₀⟩
      · rw [← hp₀, hp]
      · rw [hp] at hp₀
        cases p with
        | none => exact hp₀.symm
        | some q => exact absurd hp₀.symm (hgen.2.1 source instant)
  orders a ha hS orderId hord := by
    rcases mem_authorizations_apply ha with rfl | ⟨a₀, ha₀, hf, -⟩
    · exact absurd hS (h.not_new hacc)
    · exact h.orders a₀ ha₀ (fixed_id hf ▸ hS) orderId ((congrArg (fun x => x.2.1) hf).trans hord)
  member orderId hT := by
    obtain ⟨a, ha, hS, hord⟩ := h.member orderId hT
    obtain ⟨a', ha', hf, -⟩ := hgen.keeps.authorizations a ha
    exact ⟨a', ha', fixed_id hf ▸ hS, (congrArg (fun x => x.2.1) hf).trans hord⟩
  closed orderId hT := by
    refine (h.closed orderId hT).apply fun status heq => ?_
    rw [heq] at hspare
    rw [hspare hT]
    rfl

theorem Shut.applyAll (h : Shut S T db) (hspare : ∀ w ∈ ws, w.Spares S T)
    (hgen : store.Admissible Write.Genuine db ws) (hacc : store.acceptsAll db ws = true) :
    Shut S T (store.applyAll db ws) :=
  hgen.keeps (fun _ w hw h => h.apply (hspare w hw)) hacc h

theorem Shut.not_mem (h : Shut S T db) (ha : a ∈ db.authorizations)
    (hs : a.status ≠ .deactivated) : ¬S a.authorizationId :=
  fun hS => hs (h.dead a ha hS)

theorem Shut.not_ready (h : Shut S T db)
    (hall : (db.authorizationsOf orderId).all (·.status = .valid) = true) : ¬T orderId := by
  intro hT
  obtain ⟨a, ha, hS, hord⟩ := h.member orderId hT
  have hmem : a ∈ db.authorizationsOf orderId := mem_filter.mpr ⟨ha, by simpa using hord⟩
  have hvalid : a.status = .valid := of_decide_eq_true (all_eq_true.mp hall a hmem)
  simp [h.dead a ha hS] at hvalid

/-! ## The handlers spare them -/

variable {s s' : Session} {marks : ℕ → AuthorizationStatus → Prop}

theorem spares_concat (hs : ∀ w ∈ ws, w.Spares S T) (hw : w.Spares S T) :
    ∀ v ∈ ws ++ [w], v.Spares S T :=
  forall_mem_concat.mpr ⟨hs, hw⟩

theorem StagesFor.spares (h : StagesFor marks s s') (hs : ∀ w ∈ s.writes, w.Spares S T)
    (hm : ∀ id status, marks id status → S id → status = .deactivated) :
    ∀ w ∈ s'.writes, w.Spares S T := by
  induction h with
  | refl => exact hs
  | quiet w _ hw ih =>
    refine spares_concat ih ?_
    cases w with
    | setAuthorization id status p => exact hm id status (hw.2 id status p rfl)
    | addAuthorization | setOrderStatus | addCertificate => exact hw.1.elim
    | _ => trivial
  | close o _ _ _ ih => exact spares_concat ih fun _ => rfl

theorem Pending.spares (h : Shut S T db) :
    ∀ id status, Pending db id status → S id → status = .deactivated := by
  rintro _ status ⟨-, a, ha, rfl, hpending⟩ hS
  exact absurd hS (h.not_mem ha (by simp [hpending]))

theorem spares_addRow {cs : List Challenge}
    (hs : ∀ w ∈ s.writes, w.Spares S T) (ha : (Write.addAuthorization a).Spares S T) :
    ∀ w ∈ (stageAll s (.addAuthorization a :: cs.map .addChallenge)).writes, w.Spares S T := by
  rw [stageAll_eq]
  refine forall_mem_append.mpr ⟨hs, forall_mem_cons.mpr ⟨ha, ?_⟩⟩
  exact forall_mem_map.mpr fun _ _ => trivial

theorem newAuthorization_spares {tokens : ℕ → ℕ} {orderId : Option ℕ} {accountId : ℕ}
    {identifier : Identifier} (hs : ∀ w ∈ s.writes, w.Spares S T) :
    ∀ w ∈ (newAuthorization settings now tokens orderId accountId identifier s).writes,
      w.Spares S T := by
  refine spares_addRow hs fun source instant h => ?_
  obtain ⟨entry, -, heq⟩ := Option.map_eq_some_iff.mp h
  cases heq

/-- A source that is reused is valid, hence outside `S`. -/
theorem createAuthorization_spares {tokens : ℕ → ℕ} {accountId : ℕ} {identifier : Identifier}
    {commits : Bool} (hview : Shut S T s.view) (hs : ∀ w ∈ s.writes, w.Spares S T)
    (h : createAuthorization settings now tokens orderId accountId identifier s = (s', commits)) :
    ∀ w ∈ s'.writes, w.Spares S T := by
  rcases createAuthorization_cases h with ⟨source, hmem, hvalid, rfl⟩ | rfl
  · refine spares_addRow hs ?_
    rintro _ _ ⟨⟩
    exact hview.not_mem hmem (by simp [hvalid])
  · exact newAuthorization_spares hs

theorem finishOrder_spares (hview : Shut S T s.view)
    (hs : ∀ w ∈ s.writes, w.Spares S T) : ∀ w ∈ (finishOrder s orderId).writes, w.Spares S T := by
  unfold finishOrder
  simp only
  split
  next hall => exact spares_concat hs fun hT => absurd hT (hview.not_ready (by simpa using hall.2))
  next => exact hs

theorem Failing.spares (h : Shut S T db) {authorizationId : ℕ} :
    ∀ id status, Failing db authorizationId id status → S id → status = .deactivated := by
  rintro _ _ ⟨rfl, rfl, a, ha, rfl, hs⟩ hS
  exact absurd hS (h.not_mem ha hs)

theorem completeChallenge_spares {challengeId authorizationId : ℕ} {type : ChallengeType}
    (h : Shut S T db) (horiginal : Original db authorizationId) :
    ∀ w ∈ (completeChallenge (.start db) now challengeId authorizationId type).writes,
      w.Spares S T := by
  have h₁ : ∀ w ∈ (stage (Session.start db)
      (.setChallenge challengeId .valid (some now) none)).writes, w.Spares S T :=
    spares_concat (by simp) trivial
  rcases completeChallenge_cases db now challengeId authorizationId type with
    heq | ⟨a, s₃, ha, hne, hstages, -, hrows, heq⟩
  · rwa [heq]
  obtain ⟨hmem, rfl⟩ := authorization?_mem ha
  have hS : ¬S a.authorizationId := h.not_mem hmem hne
  have h₃ := hstages.spares (spares_concat h₁ fun hS' => absurd hS' hS) (by simp)
  rcases heq with heq | ⟨o, -, hall, heq⟩
  · rwa [heq]
  · rw [heq]
    -- the rows it counts are those of the database with this authorization valid
    have hshut : Shut S T (db.apply (.setAuthorization a.authorizationId .valid
        (some (.challenge type)))) :=
      h.apply (fun hS' => absurd hS' hS) ⟨by simp, by simp, .inr horiginal⟩ rfl
    refine spares_concat h₃ fun hT => absurd hT (hshut.not_ready ?_)
    unfold Db.authorizationsOf at hall ⊢
    rwa [← hrows]

/-! ## Tasks -/

theorem commitThen_spares (h : ∀ w ∈ s.writes, w.Spares S T) :
    (Session.commitThen s .finished).Spares S T :=
  ⟨h, trivial⟩

theorem starts_spares {r : Request} (hc : Shut S T db)
    (h : Starts settings now db r t) : t.Spares S T := by
  cases h with
  | newOrder => exact forall_mem_singleton.mpr trivial
  | newAuthz => exact commitThen_spares (newAuthorization_spares (by simp))
  | respond | finalize => trivial
  | deactivateExpired ha hs =>
    have hstages := expireAuthorizationIfNeeded_stages ha hs
    exact ⟨hstages.spares (by simp) (Pending.spares hc), trivial⟩
  | deactivate ha hs =>
    exact commitThen_spares ((deactivateAuthorization_stages hs).spares (by simp)
      fun _ _ hs _ => hs)
  | pollOrder ho hs =>
    exact commitThen_spares ((expireOrderIfNeeded_stages ho hs).spares (by simp)
      (Pending.spares hc))
  | pollAuthorization ha hs =>
    exact commitThen_spares ((expireAuthorizationIfNeeded_stages ha hs).spares (by simp)
      (Pending.spares hc))

theorem rejectOrRestore_spares {badRequest : Bool} {detail : String}
    (h : ¬T orderId) : (signOrder.rejectOrRestore orderId badRequest detail).Spares S T := by
  unfold signOrder.rejectOrRestore
  split
  · exact ⟨by simp [Write.Spares], h⟩
  · exact h

theorem Shut.addCertificate (h : Shut S T db) (c : Certificate) :
    Shut S T (db.apply (.addCertificate c)) :=
  ⟨h.rows, h.dead, h.copies, h.orders, h.member, h.closed⟩

/-- What a step of a task leaves: no certificate for an order in `T`. -/
structure LeavesShut (S T : ℕ → Prop) (db db' : Db) (t' : Option Task) : Prop where
  shut : Shut S T db'
  task : ∀ t, t' = some t → t.Spares S T
  certificates : ∀ c ∈ db'.certificates, c ∈ db.certificates ∨ ¬T c.orderId

theorem LeavesShut.same (h : Shut S T db)
    (ht : ∀ t, t' = some t → t.Spares S T) : LeavesShut S T db db t' :=
  ⟨h, ht, fun _ hc => .inl hc⟩

theorem LeavesShut.next (h : Shut S T db) (ht : t.Spares S T) : LeavesShut S T db db (some t) :=
  .same h (by rintro t ⟨⟩; exact ht)

theorem certificates_applyAll_spares (h : ∀ w ∈ ws, w.Spares S T) {c : Certificate}
    (hc : c ∈ (store.applyAll db ws).certificates) : c ∈ db.certificates ∨ ¬T c.orderId := by
  refine foldlRecOn (motive := fun db' : Db => c ∈ db'.certificates → _) ws store.apply .inl
    (fun db' hdb w hw hc => ?_) hc
  rcases mem_certificates_apply hc with rfl | hold
  · exact .inr (h _ hw)
  · exact hdb hold

theorem LeavesShut.sign (h : Shut S T db) {c : Certificate} (hT : ¬T c.orderId)
    (ht : t.Spares S T) : LeavesShut S T db (db.apply (.addCertificate c)) (some t) where
  shut := h.addCertificate c
  task := by
    rintro _ ⟨⟩
    exact ht
  certificates c' hc' := by
    rcases mem_certificates_apply hc' with heq | hold
    · cases heq
      exact .inr hT
    · exact .inl hold

/-- No step works against deactivated rows, whatever session it belongs to, as long as its task
spares them. -/
theorem advances_spares (hshut : Shut S T db) (hgen : t.Genuine db) (ht : t.Spares S T)
    (h : Advances text settings now db t input db' t') : LeavesShut S T db db' t' := by
  cases h with
  | finish hacc =>
    exact .next hshut (commitThen_spares (finishOrder_spares (hshut.applyAll ht hgen.1 hacc) ht))
  | @authorize orderId accountId identifier rest staged tokens s hacc hs =>
    exact .next hshut ⟨createAuthorization_spares (s := ⟨_, staged, _⟩)
      (hshut.applyAll ht hgen.1 hacc) ht hs, trivial⟩
  | @reuse orderId accountId identifier rest staged tokens s hacc hs =>
    exact .next hshut (createAuthorization_spares (s := ⟨_, staged, _⟩)
      (hshut.applyAll ht hgen.1 hacc) ht hs)
  | pass => exact .next hshut ⟨completeChallenge_spares hshut hgen, trivial⟩
  | invalidateChallenge =>
    exact .next hshut (commitThen_spares ((invalidateChallenge_stages _ _ _ _).spares (by simp)
      (Failing.spares hshut)))
  | @claim orderId csr problem hready =>
    -- an order in `T` is not open, so that it cannot be claimed
    have hT : ¬T orderId := by
      intro hT
      obtain ⟨o, ho, hopen⟩ := hshut.closed orderId hT
      rw [Db.status?, ho, Option.map_some, Option.some.injEq] at hready
      simp [hready, OrderStatus.isOpen] at hopen
    refine ⟨hshut.apply (fun h => absurd h hT) trivial rfl, ?_, fun c hc => .inl hc⟩
    rintro t ⟨⟩
    exact hT
  | checked | checkFailed | signFailed => exact .next hshut ht
  | signed hacc =>
    refine .sign hshut ht ⟨forall_mem_cons.mpr ⟨fun h => absurd h ht, ?_⟩, ht⟩
    exact forall_mem_singleton.mpr trivial
  | signRefused => exact .next hshut (rejectOrRestore_spares ht)
  | failedAfterCommit hacc => exact .sign hshut ht (rejectOrRestore_spares ht)
  | restore hproc =>
    exact .next hshut ⟨forall_mem_singleton.mpr fun h => absurd h ht, trivial⟩
  | invalidateOrder hproc => exact .next hshut ⟨by simp [Write.Spares], trivial⟩
  | deactivate =>
    refine .same hshut fun t ht' => ?_
    obtain ⟨a, -, ha⟩ := Option.bind_eq_some_iff.mp ht'
    obtain ⟨s, hs, rfl⟩ := continueDeactivation_eq_some ha
    exact commitThen_spares ((deactivateAuthorization_stages hs).spares (by simp)
      fun _ _ hs _ => hs)
  | @committed writes reads next problem hacc =>
    refine ⟨hshut.applyAll ht.1 hgen.1 hacc, fun t ht' => ?_,
      fun c hc => certificates_applyAll_spares ht.1 hc⟩
    cases next with
    | creating orderId accountId todo =>
      cases ht'
      exact fun w hw => absurd hw not_mem_nil
    | reject orderId =>
      cases ht'
      exact ht.2
    | _ => cases ht' <;> trivial
  | @rolledBack writes reads next ok problem =>
    refine .same hshut fun t ht' => ?_
    cases next with
    | issue | reject =>
      cases ht'
      exact ht.2
    | _ => cases ht' <;> trivial
  | _ =>
    refine .same hshut fun t ht' => ?_
    cases ht' <;> trivial

/-! ## Worlds -/

/-- The rows in `S` are shut and no task works against them. -/
structure Spared (S T : ℕ → Prop) (w : World) : Prop where
  shut : Shut S T w.db
  tasks : ∀ i t, w.tasks i = some t → t.Spares S T

theorem Spared.step {w : World} (h : Spared S T w) (hk : CopiesKept w) (text : Text) (l : Label) :
    Spared S T (Acme.step text w l) ∧ ∀ c ∈ (Acme.step text w l).db.certificates,
      c ∈ w.db.certificates ∨ ¬T c.orderId := by
  have hsteps := step_steps text w l
  generalize Acme.step text w l = w' at hsteps
  cases hsteps with
  | idle => exact ⟨h, fun c hc => .inl hc⟩
  | tick | configure => exact ⟨⟨h.1, h.2⟩, fun c hc => .inl hc⟩
  | @request i r hfree =>
    refine ⟨⟨h.shut, forall_update (fun t ht => ?_) h.tasks⟩, fun c hc => .inl hc⟩
    exact starts_spares h.shut (handle_starts ht)
  | @advance i input t db t' ht hadv =>
    have hleft := advances_spares h.shut (hk.tasks i t ht) (h.tasks i t ht) hadv
    exact ⟨⟨hleft.shut, forall_update hleft.task h.tasks⟩, hleft.certificates⟩

/-- From then on the rows stay deactivated and their orders get no certificate. -/
theorem Spared.reach {guard : World → Label → Prop} {w w' : World} (h : Spared S T w)
    (hk : CopiesKept w) (hr : Reach (Acme.step text) guard w w') :
    Spared S T w' ∧ ∀ c ∈ w'.db.certificates, c ∈ w.db.certificates ∨ ¬T c.orderId := by
  have hall := hr.invariant (P := fun v => Spared S T v ∧ CopiesKept v ∧
    ∀ c ∈ v.db.certificates, c ∈ w.db.certificates ∨ ¬T c.orderId) ⟨h, hk, fun c hc => .inl hc⟩ ?_
  · exact ⟨hall.1, hall.2.2⟩
  · intro v l _ ⟨hv, hkv, hcert⟩ _
    obtain ⟨hstep, hnew⟩ := hv.step hkv text l
    refine ⟨hstep, (hkv.step text l).1, fun c hc => ?_⟩
    rcases hnew c hc with hc | hT
    · exact hcert c hc
    · exact .inr hT

theorem DerivesFrom.spared {root id : ℕ} (h : DerivesFrom db root id) (hshut : Shut S T db)
    (hroot : S root) : S id := by
  induction h with
  | self => exact hroot
  | copy ha hp _ ih => exact hshut.copies _ ha _ _ hp ih

/-! ## The commit of a deactivation -/

def Write.deactivates? : Write → Option ℕ
  | .setAuthorization authorizationId .deactivated _ => some authorizationId
  | _ => none

def Task.deactivated : Task → List ℕ
  | .committing writes _ _ => writes.filterMap Write.deactivates?
  | _ => []

def Db.ordersOf (db : Db) (ids : List ℕ) : List ℕ :=
  (db.authorizations.filter fun a => a.authorizationId ∈ ids).filterMap Authorization.orderId

/-- A deactivation commits what its handler would decide now, and no other request in flight will
set one of the authorizations it deactivates, copy one of them, or finalize one of their orders. -/
def Settled (w : World) : Label → Prop
  | .advance i input => input.commits = true → ∀ t ∈ w.tasks i, t.deactivated ≠ [] →
      (∃ a ∈ w.db.authorizations, continueDeactivation w.db a = some t) ∧
      ∀ j, j ≠ i → ∀ u ∈ w.tasks j, u.Spares (· ∈ t.deactivated) (· ∈ w.db.ordersOf t.deactivated)
  | _ => True

theorem deactivated_applyAll (hgen : store.Admissible Write.Genuine db ws)
    (ha : a ∈ (store.applyAll db ws).authorizations) (hs : a.status = .deactivated) :
    (∃ a₀ ∈ db.authorizations, a₀.authorizationId = a.authorizationId ∧
      a₀.status = .deactivated) ∨ a.authorizationId ∈ ws.filterMap Write.deactivates? := by
  induction ws generalizing db with
  | nil => exact .inl ⟨a, ha, rfl, hs⟩
  | cons w ws ih =>
    rcases ih hgen.2 ha with ⟨b, hb, hid, hbs⟩ | hmem
    · rcases mem_authorizations_apply hb with rfl | ⟨b₀, hb₀, hf, ⟨hs₀, -⟩ | ⟨p, rfl, -⟩⟩
      · rcases hgen.1.1 with hnew | ⟨hnew, -⟩ <;> simp [hnew] at hbs
      · exact .inl ⟨b₀, hb₀, (fixed_id hf).trans hid, hs₀ ▸ hbs⟩
      · refine .inr (mem_filterMap.mpr ⟨_, mem_cons_self, ?_⟩)
        rw [hbs, hid]
        rfl
    · obtain ⟨v, hv, hval⟩ := mem_filterMap.mp hmem
      exact .inr (mem_filterMap.mpr ⟨v, mem_cons_of_mem w hv, hval⟩)

theorem deactivateRow_deactivates (s : Session) (row : Authorization) :
    (deactivateRow s row).writes.filterMap Write.deactivates? =
      s.writes.filterMap Write.deactivates? ++ [row.authorizationId] := by
  unfold deactivateRow
  simp only
  split
  · split <;> simp [stageStatus, Write.deactivates?]
  · simp [Write.deactivates?]

theorem foldl_deactivates (rows : List Authorization) (s : Session) :
    (rows.foldl deactivateRow s).writes.filterMap Write.deactivates? =
      s.writes.filterMap Write.deactivates? ++ rows.map Authorization.authorizationId := by
  induction rows generalizing s with
  | nil => simp
  | cons row rows ih =>
    rw [foldl_cons, ih, deactivateRow_deactivates]
    simp

theorem deactivateRow_authorizations (s : Session) (row : Authorization) :
    (deactivateRow s row).view.authorizations = (s.view.apply
      (.setAuthorization row.authorizationId .deactivated none)).authorizations := by
  unfold deactivateRow
  simp only
  split
  · split <;> rfl
  · rfl

theorem mem_deactivateRow {s : Session} (h : a ∈ (deactivateRow s row).view.authorizations) :
    ∃ a₀ ∈ s.view.authorizations, a₀.fixed = a.fixed ∧ a.provenance = a₀.provenance ∧
      a.status = if a.authorizationId = row.authorizationId then .deactivated else a₀.status := by
  rw [deactivateRow_authorizations, authorizations_apply, append_nil] at h
  obtain ⟨a₀, ha₀, rfl⟩ := mem_map.mp h
  refine ⟨a₀, ha₀, (Authorization.after_fixed _ a₀).symm, ?_⟩
  unfold Authorization.after
  by_cases hrow : a₀.authorizationId = row.authorizationId <;> simp [hrow]

theorem mem_foldl_deactivateRow {rows : List Authorization} {s : Session}
    (h : a ∈ (rows.foldl deactivateRow s).view.authorizations) :
    ∃ a₀ ∈ s.view.authorizations, a₀.fixed = a.fixed ∧ a.provenance = a₀.provenance ∧
      a.status = if a.authorizationId ∈ rows.map Authorization.authorizationId then .deactivated
        else a₀.status := by
  induction rows generalizing s with
  | nil => exact ⟨a, h, rfl, rfl, by simp⟩
  | cons row rows ih =>
    obtain ⟨a₁, ha₁, hf₁, hp₁, hs₁⟩ := ih h
    obtain ⟨a₀, ha₀, hf₀, hp₀, hs₀⟩ := mem_deactivateRow ha₁
    refine ⟨a₀, ha₀, hf₀.trans hf₁, hp₁.trans hp₀, ?_⟩
    rw [hs₁, hs₀, fixed_id hf₁]
    by_cases hrow : a.authorizationId = row.authorizationId <;> simp [hrow]

theorem Stages.closed (h : Stages s s') (hc : s.view.Closed orderId) : s'.view.Closed orderId := by
  induction h with
  | refl => exact hc
  | quiet w _ hw ih =>
    refine ih.apply fun status heq => ?_
    rw [heq] at hw
    exact hw.elim
  | close o _ _ _ ih =>
    refine ih.apply fun status heq => ?_
    cases heq
    rfl

theorem HasOrder.order? (h : HasOrder db orderId) : ∃ o, db.order? orderId = some o := by
  obtain ⟨o, ho, hid⟩ := h
  refine Option.isSome_iff_exists.mp (find?_isSome.mpr ⟨o, ho, ?_⟩)
  simpa using hid

theorem deactivateRow_closed (h : HasOrder s.view orderId)
    (hord : row.orderId = some orderId) : (deactivateRow s row).view.Closed orderId := by
  obtain ⟨o, ho⟩ := (hasOrder_apply (w := .setAuthorization row.authorizationId .deactivated none)
    h).order?
  have hrow : (stage s (.setAuthorization row.authorizationId .deactivated none)).view.orderOf row =
      some o := by
    rw [Db.orderOf, hord]
    exact ho
  unfold deactivateRow
  simp only [hrow]
  split
  next hopen =>
    refine Db.Closed.apply ⟨_, order?_apply ho, ?_⟩ (by simp)
    simp [Order.after, OrderStatus.isOpen]
  next hopen => exact ⟨o, ho, by simpa using hopen⟩

theorem Stages.hasOrder (h : Stages s s') (ho : HasOrder s.view orderId) :
    HasOrder s'.view orderId := by
  induction h with
  | refl => exact ho
  | quiet w _ _ ih => exact hasOrder_apply ih
  | close o _ _ _ ih => exact hasOrder_apply ih

theorem foldl_closed {rows : List Authorization}
    (hrow : row ∈ rows) (hord : row.orderId = some orderId) (h : HasOrder s.view orderId) :
    (rows.foldl deactivateRow s).view.Closed orderId := by
  induction rows generalizing s with
  | nil => cases hrow
  | cons r rows ih =>
    rcases mem_cons.mp hrow with rfl | hrow
    · have hloop : StagesFor (fun _ _ => True) (deactivateRow s row)
          (rows.foldl deactivateRow (deactivateRow s row)) :=
        .foldl _ fun s row _ => (deactivateRow_stages s row).mono fun _ _ _ => trivial
      exact hloop.stages.closed (deactivateRow_closed h hord)
    · exact ih hrow ((deactivateRow_stages s r).stages.hasOrder h)

/-- The authorizations that the deactivation of `a` gives up. -/
def givenUp (db : Db) (a : Authorization) : List ℕ :=
  (a :: validCopies db a).map Authorization.authorizationId

theorem validCopies_mem {b : Authorization} (h : b ∈ validCopies db a) :
    b ∈ db.authorizations ∧ b.proof = a.proof := by
  unfold validCopies at h
  split at h
  · obtain ⟨hmem, hsame⟩ := mem_filter.mp h
    simp only [Bool.and_eq_true, decide_eq_true_eq] at hsame
    obtain ⟨⟨⟨⟨⟨-, haccount⟩, hidentifier⟩, hwildcard⟩, -⟩, hexpires⟩ := hsame
    refine ⟨hmem, ?_⟩
    simp [Authorization.proof, haccount, hidentifier, hwildcard, hexpires]
  · cases h

theorem givenUp_mem {key : ℕ} (ha : a ∈ db.authorizations) (h : key ∈ givenUp db a) :
    ∃ b ∈ db.authorizations, b.authorizationId = key ∧ b.proof = a.proof ∧
      (a.status ≠ .valid → b = a) := by
  obtain ⟨b, hb, hid⟩ := mem_map.mp h
  rcases mem_cons.mp hb with rfl | hb
  · exact ⟨b, ha, hid, rfl, fun _ => rfl⟩
  · obtain ⟨hmem, hproof⟩ := validCopies_mem hb
    refine ⟨b, hmem, hid, hproof, fun hne => ?_⟩
    rw [validCopies, if_neg hne] at hb
    cases hb

/-- A valid row with the proof of a valid one is given up with it. -/
theorem mem_givenUp {c : Authorization} (hc : c ∈ db.authorizations) (hproof : c.proof = a.proof)
    (hvalid : a.status = .valid) (hcvalid : c.status = .valid) :
    c.authorizationId ∈ givenUp db a := by
  simp only [Authorization.proof, Prod.mk.injEq] at hproof
  obtain ⟨haccount, hidentifier, hwildcard, hexpires⟩ := hproof
  by_cases hid : c.authorizationId = a.authorizationId
  · exact mem_map.mpr ⟨a, mem_cons_self, hid.symm⟩
  · refine mem_map_of_mem (mem_cons_of_mem a ?_)
    rw [validCopies, if_pos hvalid]
    simp [hc, hid, haccount, hidentifier, hwildcard, hcvalid, hexpires]

theorem Copied.givenUp_copy (h : Copied db) {c : Authorization} {source instant : ℕ}
    (ha : a ∈ db.authorizations) (hlive : a.status = .valid ∨ a.status = .pending)
    (hc : c ∈ db.authorizations) (hp : c.provenance = some (.reused source instant))
    (hsource : source ∈ givenUp db a) :
    c.status = .deactivated ∨ c.authorizationId ∈ givenUp db a := by
  obtain ⟨b, hb, hid, hproof, hpending⟩ := h.source c hc source instant hp
  obtain ⟨r, hr, hrid, hrproof, hsole⟩ := givenUp_mem ha hsource
  obtain rfl : r = b := h.unique.authorization_eq hr hb (hrid.trans hid.symm)
  rcases h.status c hc (isCopy_eq_true.mpr ⟨source, instant, hp⟩) with hvalid | hdead
  · right
    rcases hlive with hlive | hlive
    · exact mem_givenUp hc (hproof.symm.trans hrproof) hlive hvalid
    · -- a pending row has no copies
      have hra : r = a := hsole (by simp [hlive])
      rw [hra] at hpending
      exact absurd hlive hpending
  · exact .inl hdead

theorem mem_ordersOf {ids : List ℕ} :
    orderId ∈ db.ordersOf ids ↔ ∃ a ∈ db.authorizations, a.authorizationId ∈ ids ∧
      a.orderId = some orderId := by
  simp [Db.ordersOf, and_assoc]

theorem deactivateAuthorization_eq (h : deactivateAuthorization (.start db) a = some s) :
    a.status ≠ .deactivated ∧ s = (a :: validCopies db a).foldl deactivateRow (.start db) := by
  unfold deactivateAuthorization at h
  split at h
  · cases h
  next hne =>
    cases h
    exact ⟨hne, rfl⟩

def Complete (S : ℕ → Prop) (db : Db) : Prop :=
  ∀ a ∈ db.authorizations, a.status = .deactivated → S a.authorizationId

section Deactivate

variable {a : Authorization} (h : Shut S T db) (hcomplete : Complete S db) (hcopied : Copied db)
  (ha : a ∈ db.authorizations) (hlive : a.status = .valid ∨ a.status = .pending)
  (hs : deactivateAuthorization (.start db) a = some s)

include hs in
theorem deactivateAuthorization_keeps : db.Keeps s.view :=
  Sound.keeps_view ((deactivateAuthorization_stages hs).genuine .start fun _ _ => .inl)

include hs in
theorem mem_deactivateAuthorization {b : Authorization} (hb : b ∈ s.view.authorizations) :
    ∃ b₀ ∈ db.authorizations, b₀.fixed = b.fixed ∧ b.provenance = b₀.provenance ∧
      b.status = if b.authorizationId ∈ givenUp db a then .deactivated else b₀.status := by
  rw [(deactivateAuthorization_eq hs).2] at hb
  exact mem_foldl_deactivateRow hb

include hcopied ha hs in
theorem deactivateAuthorization_closed {orderId : ℕ} (ho : orderId ∈ db.ordersOf (givenUp db a)) :
    s.view.Closed orderId := by
  obtain ⟨b, hb, hup, hord⟩ := mem_ordersOf.mp ho
  obtain ⟨r, hr, hid⟩ := mem_map.mp hup
  have hrmem : r ∈ db.authorizations := by
    rcases mem_cons.mp hr with rfl | hr
    · exact ha
    · exact (validCopies_mem hr).1
  obtain rfl : r = b := hcopied.unique.authorization_eq hrmem hb hid
  rw [(deactivateAuthorization_eq hs).2]
  exact foldl_closed hr hord (hcopied.ordered r hb orderId hord)

include h hcomplete hcopied ha hlive hs in
theorem Shut.deactivate : Shut (fun id => S id ∨ id ∈ givenUp db a)
    (fun orderId => T orderId ∨ orderId ∈ db.ordersOf (givenUp db a)) s.view where
  rows id hid := by
    have hrow : ∃ b ∈ db.authorizations, b.authorizationId = id := by
      rcases hid with hS | hup
      · exact h.rows id hS
      · obtain ⟨b, hb, hbid, -⟩ := givenUp_mem ha hup
        exact ⟨b, hb, hbid⟩
    obtain ⟨b, hb, hbid⟩ := hrow
    obtain ⟨b', hb', hf, -⟩ := (deactivateAuthorization_keeps hs).authorizations b hb
    exact ⟨b', hb', (fixed_id hf).trans hbid⟩
  dead b hb hid := by
    obtain ⟨b₀, hb₀, hf, -, hstatus⟩ := mem_deactivateAuthorization hs hb
    rw [hstatus]
    split
    next => rfl
    next hup => exact h.dead b₀ hb₀ (fixed_id hf ▸ hid.resolve_right hup)
  copies c hc source instant hp hsource := by
    obtain ⟨c₀, hc₀, hf, hp₀, -⟩ := mem_deactivateAuthorization hs hc
    rw [hp₀] at hp
    rw [← fixed_id hf]
    rcases hsource with hS | hup
    · exact .inl (h.copies c₀ hc₀ source instant hp hS)
    · exact (hcopied.givenUp_copy ha hlive hc₀ hp hup).imp_left (hcomplete c₀ hc₀)
  orders b hb hid orderId hord := by
    obtain ⟨b₀, hb₀, hf, -, -⟩ := mem_deactivateAuthorization hs hb
    have hbord : b₀.orderId = some orderId := (congrArg (fun x => x.2.1) hf).trans hord
    rw [← fixed_id hf] at hid
    exact hid.imp (fun hS => h.orders b₀ hb₀ hS orderId hbord)
      fun hup => mem_ordersOf.mpr ⟨b₀, hb₀, hup, hbord⟩
  member orderId hT := by
    have hrow : ∃ b ∈ db.authorizations, (S b.authorizationId ∨ b.authorizationId ∈ givenUp db a) ∧
        b.orderId = some orderId := by
      rcases hT with hT | ho
      · obtain ⟨b, hb, hS, hord⟩ := h.member orderId hT
        exact ⟨b, hb, .inl hS, hord⟩
      · obtain ⟨b, hb, hup, hord⟩ := mem_ordersOf.mp ho
        exact ⟨b, hb, .inr hup, hord⟩
    obtain ⟨b, hb, hin, hord⟩ := hrow
    obtain ⟨b', hb', hf, -⟩ := (deactivateAuthorization_keeps hs).authorizations b hb
    exact ⟨b', hb', fixed_id hf ▸ hin, (congrArg (fun x => x.2.1) hf).trans hord⟩
  closed orderId hT := by
    rcases hT with hT | ho
    · exact (deactivateAuthorization_stages hs).stages.closed (h.closed orderId hT)
    · exact deactivateAuthorization_closed hcopied ha hs ho

include hcomplete hs in
theorem Complete.deactivate : Complete (fun id => S id ∨ id ∈ givenUp db a) s.view := by
  intro b hb hdead
  obtain ⟨b₀, hb₀, hf, -, hstatus⟩ := mem_deactivateAuthorization hs hb
  by_cases hup : b.authorizationId ∈ givenUp db a
  · exact .inr hup
  · rw [if_neg hup, hdead] at hstatus
    exact .inl (fixed_id hf ▸ hcomplete b₀ hb₀ hstatus.symm)

end Deactivate

/-! ## Runs -/

/-- The deactivated rows are shut and no task works against them. -/
def Retired (w : World) : Prop := ∃ S T, Spared S T w ∧ Complete S w.db

theorem advances_deactivated
    (hgen : t.Genuine db) (h : Advances text settings now db t input db' t')
    {b : Authorization} (hb : b ∈ db'.authorizations) (hs : b.status = .deactivated) :
    (∃ b₀ ∈ db.authorizations, b₀.authorizationId = b.authorizationId ∧
      b₀.status = .deactivated) ∨ input.commits = true ∧ b.authorizationId ∈ t.deactivated := by
  cases h with
  | committed hacc => exact (deactivated_applyAll hgen.1 hb hs).imp_right fun hmem => ⟨rfl, hmem⟩
  | _ => exact .inl ⟨b, hb, rfl, hs⟩

theorem continueDeactivation_live
    (h : continueDeactivation db a = some t) : a.status = .valid ∨ a.status = .pending := by
  unfold continueDeactivation at h
  split at h
  · cases h
  next hinvalid =>
    obtain ⟨s, hs, -⟩ := Option.map_eq_some_iff.mp h
    have hne := (deactivateAuthorization_eq hs).1
    cases hstatus : a.status <;> simp_all

theorem Retired.commit {w : World} (h : Retired w) (hk : CopiesKept w) {i : ℕ}
    (ha : a ∈ w.db.authorizations) (hcont : continueDeactivation w.db a = some t)
    (hothers : ∀ j, j ≠ i → ∀ u ∈ w.tasks j,
      u.Spares (· ∈ t.deactivated) (· ∈ w.db.ordersOf t.deactivated))
    (hadv : Advances text w.settings w.now w.db t input db' t') :
    Retired { w with db := db', tasks := Function.update w.tasks i t' } := by
  obtain ⟨S, T, hsp, hcomplete⟩ := h
  have hlive := continueDeactivation_live hcont
  obtain ⟨s, hs, rfl⟩ := continueDeactivation_eq_some hcont
  have hup : (Session.commitThen s .finished).deactivated = givenUp w.db a := by
    rw [(deactivateAuthorization_eq hs).2]
    exact foldl_deactivates _ _
  cases hadv with
  | committed hacc =>
    have hstart : (.start w.db : Session).Sound store Write.Genuine w.db := .start
    have hview : store.applyAll w.db s.writes = s.view :=
      ((deactivateAuthorization_stages hs).genuine hstart fun _ _ => .inl).view_eq.symm
    refine ⟨_, _, ⟨hview ▸ hsp.shut.deactivate hcomplete hk.copied ha hlive hs, fun j u hu => ?_⟩,
      hview ▸ hcomplete.deactivate hs⟩
    rcases update_eq_some hu with ⟨-, ⟨⟩⟩ | ⟨hj, hu⟩
    exact (hsp.tasks j u hu).or (hup ▸ hothers j hj u hu)
  | rolledBack => exact ⟨S, T, ⟨hsp.shut, forall_update (by rintro u ⟨⟩) hsp.tasks⟩, hcomplete⟩

theorem Retired.step {w : World} (h : Retired w) (hk : CopiesKept w) {l : Label}
    (hl : Settled w l) : Retired (Acme.step text w l) := by
  have hsteps := step_steps text w l
  generalize Acme.step text w l = w' at hsteps
  obtain ⟨S, T, hsp, hcomplete⟩ := h
  cases hsteps with
  | idle => exact ⟨S, T, hsp, hcomplete⟩
  | tick | configure => exact ⟨S, T, ⟨hsp.1, hsp.2⟩, hcomplete⟩
  | @request i r hfree =>
    refine ⟨S, T, ⟨hsp.shut, forall_update (fun t ht => ?_) hsp.tasks⟩, hcomplete⟩
    exact starts_spares hsp.shut (handle_starts ht)
  | @advance i input t db t' ht hadv =>
    by_cases hdeact : input.commits = true ∧ t.deactivated ≠ []
    · obtain ⟨⟨a, ha, hcont⟩, hothers⟩ := hl hdeact.1 t ht hdeact.2
      exact Retired.commit ⟨S, T, hsp, hcomplete⟩ hk ha hcont hothers hadv
    · have hgen := hk.tasks i t ht
      have hleft := advances_spares hsp.shut hgen (hsp.tasks i t ht) hadv
      refine ⟨S, T, ⟨hleft.shut, forall_update hleft.task hsp.tasks⟩, fun b hb hdead => ?_⟩
      rcases advances_deactivated hgen hadv hb hdead with ⟨b₀, hb₀, hid, hdead₀⟩ | ⟨hin, hmem⟩
      · exact hid ▸ hcomplete b₀ hb₀ hdead₀
      · exact absurd ⟨hin, ne_nil_of_mem hmem⟩ hdeact

theorem Retired.initial (settings : Settings) (now : ℕ) : Retired (Acme.initial settings now) := by
  refine ⟨fun _ => False, fun _ => False, ⟨?_, by simp [Acme.initial]⟩, ?_⟩
  · constructor <;> simp
  · simp [Complete, Acme.initial, Db.empty]

/-- In every run a copy has the account, identifier and wildcard flag of its source and expires no
later. After a settled run, an order gets no new certificate if one of its authorizations derives
from one that is deactivated, whatever happens from then on. -/
theorem deactivated_not_finalized (text : Text) (settings : Settings) (now : ℕ)
    (guard : World → Label → Prop) :
    (∀ w, Reach (step text) guard (initial settings now) w →
      ∀ a ∈ w.db.authorizations, ∀ source instant, a.provenance = some (.reused source instant) →
        ∃ b ∈ w.db.authorizations, b.authorizationId = source ∧ b.accountId = a.accountId ∧
          b.identifier = a.identifier ∧ b.wildcard = a.wildcard ∧ a.expires ≤ b.expires) ∧
    ∀ w₁ w₂, Reach (step text) Settled (initial settings now) w₁ → Reach (step text) guard w₁ w₂ →
      ∀ root ∈ w₁.db.authorizations, root.status = .deactivated →
      ∀ c ∈ w₂.db.certificates, c ∉ w₁.db.certificates →
      ∀ a ∈ w₂.db.authorizations, a.orderId = some c.orderId →
        ¬DerivesFrom w₂.db root.authorizationId a.authorizationId := by
  constructor
  · intro w hw a ha source instant hp
    obtain ⟨b, hb, hid, hproof, -⟩ := (copiesKept_reach hw).copied.source a ha source instant hp
    simp only [Authorization.proof, Prod.mk.injEq] at hproof
    obtain ⟨haccount, hidentifier, hwildcard, hexpires⟩ := hproof
    exact ⟨b, hb, hid, haccount, hidentifier, hwildcard, hexpires.ge⟩
  · intro w₁ w₂ hw₁ hw₂ root hroot hdead c hc hnew a ha hord hderives
    obtain ⟨S, T, hsp, hcomplete⟩ := hw₁.invariant (Retired.initial settings now)
      fun _ _ hr hw hl => hw.step (copiesKept_reach hr) hl
    obtain ⟨hsp₂, hcert⟩ := hsp.reach (copiesKept_reach hw₁) hw₂
    have hS : S a.authorizationId := hderives.spared hsp₂.shut (hcomplete root hroot hdead)
    exact (hcert c hc).elim hnew fun hT => hT (hsp₂.shut.orders a ha hS c.orderId hord)

/-- Requests handled one after the other by one worker, whose deactivations are still up to date
when they commit. -/
def OneWorker (w : World) : Label → Prop
  | .request i _ => i = 0
  | .advance i input => i = 0 ∧ (input.commits = true → ∀ t ∈ w.tasks i, t.deactivated ≠ [] →
      ∃ a ∈ w.db.authorizations, continueDeactivation w.db a = some t)
  | _ => True

instance (w : World) (l : Label) : Decidable (OneWorker w l) := by
  induction l using Label.casesOn <;> unfold OneWorker <;> infer_instance

theorem OneWorker.idle {w : World}
    (h : Reach (step text) OneWorker (initial settings now) w) {j : ℕ} (hj : j ≠ 0) :
    w.tasks j = none := by
  refine h.invariant (P := fun v => v.tasks j = none) rfl fun v l _ hv hl => ?_
  have hsteps := step_steps text v l
  generalize step text v l = v' at hsteps
  cases hsteps with
  | @request i r hfree =>
    have hi : i = 0 := hl
    simpa [hi, hj] using hv
  | @advance i input t db t' ht hadv =>
    have hi : i = 0 := hl.1
    simpa [hi, hj] using hv
  | _ => exact hv

theorem OneWorker.settled {w : World} (h : Reach (step text) OneWorker (initial settings now) w) :
    Reach (step text) Settled (initial settings now) w := by
  refine h.imp fun v l hr hl => ?_
  cases l with
  | advance i input =>
    intro hcommit t ht hdeact
    refine ⟨hl.2 hcommit t ht hdeact, fun j hj u hu => ?_⟩
    rw [OneWorker.idle hr (hl.1 ▸ hj)] at hu
    cases hu
  | _ => trivial

/-- Order 1 is authorized by a challenge, and the authorization is deactivated. -/
def relinquished : List Label :=
  [.request 0 (.newOrder 1 7 [⟨.dns, "a.example", ""⟩]), .advance 0 (.tokens (10 + ·)),
    .advance 0 (.commit true ⟨"", ""⟩), .advance 0 (.tokens (20 + ·)),
    .advance 0 (.commit true ⟨"", ""⟩), .request 0 (.respondToChallenge 7 11),
    .advance 0 (.answer true ⟨"", ""⟩), .advance 0 (.commit true ⟨"", ""⟩),
    .request 0 (.deactivate 7 10), .advance 0 (.commit true ⟨"", ""⟩)]

/-- Order 2 needs a new proof, and is then issued. -/
def provenAgain : List Label :=
  [.request 0 (.newOrder 2 7 [⟨.dns, "a.example", ""⟩]), .advance 0 (.tokens (30 + ·)),
    .advance 0 (.commit true ⟨"", ""⟩), .advance 0 (.tokens (40 + ·)),
    .advance 0 (.commit true ⟨"", ""⟩), .request 0 (.respondToChallenge 7 31),
    .advance 0 (.answer true ⟨"", ""⟩), .advance 0 (.commit true ⟨"", ""⟩),
    .request 0 (.finalize 7 2 ⟨[], some [.dns "a.example"]⟩),
    .advance 0 (.commit true ⟨"", ""⟩), .advance 0 (.checks none none),
    .advance 0 (.sign (.signed 5)), .advance 0 (.commit true ⟨"", ""⟩)]

/-- No authorization of order 2, which gets its certificate afterwards, derives from the
deactivated one. -/
theorem proven_again_finalized :
    let w₁ := exec (step ⟨id, fun _ => none⟩) (initial ⟨[], [], false⟩ 0) relinquished
    let w₂ := exec (step ⟨id, fun _ => none⟩) w₁ provenAgain
    (∃ c ∈ w₂.db.certificates, c.orderId = 2) ∧
      ∀ a ∈ w₂.db.authorizations, a.orderId = some 2 → ¬DerivesFrom w₂.db 10 a.authorizationId :=
  ⟨by decide, (deactivated_not_finalized ⟨id, fun _ => none⟩ ⟨[], [], false⟩ 0
    (fun _ _ => True)).2 _ _ (OneWorker.settled (Reach.start.exec (by decide)))
    (Reach.start.exec (by decide))
    ⟨10, some 1, 7, ⟨.dns, "a.example", ""⟩, false, .deactivated, 604800,
      some (.challenge .dns01)⟩ (by decide) rfl
    ⟨5, 2, ["a.example"], [], ["a.example"]⟩ (by decide) (by decide)⟩

/-- Order 1 is claimed when its authorization is deactivated; its finalization then fails the
checks, and the order is finalized again. -/
def restoredOrder : List Label × List Label :=
  (relinquished.take 8 ++ [.request 1 (.finalize 7 1 ⟨[], some [.dns "b.example"]⟩),
    .advance 1 (.commit true ⟨"", ""⟩), .request 0 (.deactivate 7 10),
    .advance 0 (.commit true ⟨"", ""⟩)],
  [.advance 1 (.checks none none), .advance 1 .proceed, .advance 1 (.commit true ⟨"", ""⟩),
    .request 2 (.finalize 7 1 ⟨[], some [.dns "a.example"]⟩), .advance 2 (.commit true ⟨"", ""⟩),
    .advance 2 (.checks none none), .advance 2 (.sign (.signed 5)),
    .advance 2 (.commit true ⟨"", ""⟩)])

/-- A certificate is signed for the order after the deactivation, for a request made after it. -/
theorem finalized_after_deactivation :
    let w₁ := exec (step ⟨id, fun _ => none⟩) (initial ⟨[], [], false⟩ 0) restoredOrder.1
    let w₂ := exec (step ⟨id, fun _ => none⟩) w₁ restoredOrder.2
    (∃ root ∈ w₁.db.authorizations, root.authorizationId = 10 ∧ root.status = .deactivated) ∧
      ∃ c ∈ w₂.db.certificates, c ∉ w₁.db.certificates ∧ ∃ a ∈ w₂.db.authorizations,
        a.orderId = some c.orderId ∧ DerivesFrom w₂.db 10 a.authorizationId := by
  refine ⟨by decide, ⟨5, 1, ["a.example"], [], ["a.example"]⟩, by decide, by decide, ?_⟩
  exact ⟨⟨10, some 1, 7, ⟨.dns, "a.example", ""⟩, false, .deactivated, 604800,
    some (.challenge .dns01)⟩, by decide, rfl, .self⟩

end UltimateCaManager.Acme
