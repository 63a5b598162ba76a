import UltimateCaManager.AcmeServer
import UltimateCaManager.AcmeTables

/-!
# What the handlers stage

Expiry, deactivation and failed challenges only ever stage statements that make nothing valid
and close orders that their session sees open. Only a completed challenge makes an
authorization valid, and only a completed challenge or the end of `create_order` makes an order
ready. Every invariant of the server is derived from these descriptions.
-/
namespace UltimateCaManager.Acme

open Tables Transactions

/-- A statement that changes no order status and makes nothing valid. -/
def Write.Quiet : Write → Prop
  | .setOrderError _ _ => True
  | .setAuthorization _ status p => status ≠ .valid ∧ p = none
  | .setChallenge _ _ _ _ => True
  | .deleteChallenge _ => True
  | _ => False

/-- A quiet statement that sets an authorization only to a status that `marks` allows it. -/
def Write.QuietFor (marks : ℕ → AuthorizationStatus → Prop) (w : Write) : Prop :=
  w.Quiet ∧ ∀ authorizationId status p, w = .setAuthorization authorizationId status p →
    marks authorizationId status

/-- Sessions that extend `s` by quiet statements and by closing orders seen open. -/
inductive Stages (s : Session) : Session → Prop
  | refl : Stages s s
  | quiet {s' : Session} (w : Write) : Stages s s' → w.Quiet → Stages s (stage s' w)
  | close {s' : Session} (o : Order) : Stages s s' → o ∈ s'.view.orders → o.status.isOpen →
      Stages s (stageStatus s' o .invalid)

/-- The same, with the authorizations that may be set. -/
inductive StagesFor (marks : ℕ → AuthorizationStatus → Prop) (s : Session) : Session → Prop
  | refl : StagesFor marks s s
  | quiet {s' : Session} (w : Write) : StagesFor marks s s' → w.QuietFor marks →
      StagesFor marks s (stage s' w)
  | close {s' : Session} (o : Order) : StagesFor marks s s' → o ∈ s'.view.orders →
      o.status.isOpen → StagesFor marks s (stageStatus s' o .invalid)

variable {marks marks' : ℕ → AuthorizationStatus → Prop}

variable {s s' : Session} {id : ℕ} {db : Db} {o : Order} {a : Authorization}

theorem StagesFor.stages (h : StagesFor marks s s') : Stages s s' := by
  induction h with
  | refl => exact .refl
  | quiet w _ hw ih => exact ih.quiet w hw.1
  | close o _ ho hopen ih => exact ih.close o ho hopen

theorem StagesFor.mono (h : StagesFor marks s s')
    (hm : ∀ id status, marks id status → marks' id status) : StagesFor marks' s s' := by
  induction h with
  | refl => exact .refl
  | quiet w _ hw ih => exact ih.quiet w ⟨hw.1, fun id status p h => hm id status (hw.2 id status p h)⟩
  | close o _ ho hopen ih => exact ih.close o ho hopen

theorem StagesFor.trans {s₁ s₂ s₃ : Session} (h : StagesFor marks s₁ s₂)
    (h' : StagesFor marks s₂ s₃) : StagesFor marks s₁ s₃ := by
  induction h' with
  | refl => exact h
  | quiet w _ hw ih => exact ih.quiet w hw
  | close o _ ho hopen ih => exact ih.close o ho hopen

theorem StagesFor.other (h : StagesFor marks s s') {w : Write} (hw : w.Quiet)
    (hno : ∀ id status p, w ≠ .setAuthorization id status p) : StagesFor marks s (stage s' w) :=
  h.quiet w ⟨hw, fun id status p heq => absurd heq (hno id status p)⟩

theorem StagesFor.set (h : StagesFor marks s s')
    {status : AuthorizationStatus} (hstatus : status ≠ .valid) (hmark : marks id status) :
    StagesFor marks s (stage s' (.setAuthorization id status none)) := by
  refine h.quiet _ ⟨⟨hstatus, rfl⟩, ?_⟩
  rintro id' status' p ⟨⟩
  exact hmark

theorem StagesFor.foldl {α : Type} {f : Session → α → Session} (xs : List α)
    (hf : ∀ s, ∀ x ∈ xs, StagesFor marks s (f s x)) : StagesFor marks s (xs.foldl f s) :=
  List.foldlRecOn xs f .refl fun s' h x hx => h.trans (hf s' x hx)

theorem stageAll_eq (s : Session) (ws : List Write) :
    stageAll s ws = { s with view := store.applyAll s.view ws, writes := s.writes ++ ws } := by
  induction ws generalizing s with
  | nil => simp [stageAll]
  | cons w ws ih =>
    have hstep : stageAll s (w :: ws) = stageAll (stage s w) ws := rfl
    rw [hstep, ih]
    simp

theorem order?_mem (h : db.order? id = some o) : o ∈ db.orders ∧ o.orderId = id :=
  find?_key h

theorem authorization?_mem
    (h : db.authorization? id = some a) : a ∈ db.authorizations ∧ a.authorizationId = id :=
  find?_key h

theorem orderOf_mem (h : db.orderOf a = some o) : o ∈ db.orders ∧ a.orderId = some o.orderId := by
  obtain ⟨id, hid, ho⟩ := Option.bind_eq_some_iff.mp h
  obtain ⟨hmem, rfl⟩ := order?_mem ho
  exact ⟨hmem, hid⟩

theorem setOrderAuthorizationError_stages (s : Session) (orderId : ℕ) (p : Problem) :
    StagesFor marks s (setOrderAuthorizationError s orderId p) :=
  StagesFor.refl.other trivial (by simp)

theorem failOrder_stages (ho : o ∈ s.view.orders) (p : Problem) :
    StagesFor marks s (failOrder s o p) := by
  unfold failOrder
  split
  · next hopen =>
    exact (StagesFor.refl.close o ho hopen).trans (setOrderAuthorizationError_stages _ _ _)
  · split
    · exact setOrderAuthorizationError_stages _ _ _
    · exact .refl

theorem failOpenChallenges_stages (s : Session) (authorizationId : ℕ) (p : Problem) :
    StagesFor marks s (failOpenChallenges s authorizationId p) := by
  refine .foldl _ fun s c _ => ?_
  split
  · exact StagesFor.refl.other trivial (by simp)
  · exact .refl

theorem deleteOpenChallenges_stages (s : Session) (authorizationId : ℕ) :
    StagesFor marks s (deleteOpenChallenges s authorizationId) := by
  refine .foldl _ fun s c _ => ?_
  split
  · exact StagesFor.refl.other trivial (by simp)
  · exact .refl

theorem expireAuthorization_stages (s : Session) (a : Authorization) (updateOrder : Bool) :
    StagesFor (fun id status => id = a.authorizationId ∧ status = .invalid) s
      (expireAuthorization s a updateOrder) := by
  have hset : StagesFor (fun id status => id = a.authorizationId ∧ status = .invalid) s
      (stage s (.setAuthorization a.authorizationId .invalid none)) :=
    StagesFor.refl.set (by simp) ⟨rfl, rfl⟩
  have hloop := hset.trans (failOpenChallenges_stages _ a.authorizationId
    (problemData "malformed" expiredAuthorizationDetail))
  unfold expireAuthorization
  simp only
  split
  · next o ho => exact hloop.trans (failOrder_stages (orderOf_mem ho).1 _)
  · exact hloop

/-- What an expiry invalidates was pending. -/
def Pending (db : Db) (id : ℕ) (status : AuthorizationStatus) : Prop :=
  status = .invalid ∧ ∃ a ∈ db.authorizations, a.authorizationId = id ∧ a.status = .pending

theorem expirePending_stages (s : Session) (orderId : ℕ) :
    StagesFor (Pending s.view) s (expirePending s orderId) := by
  refine .foldl _ fun s' a ha => ?_
  split
  · next hpending =>
    refine (expireAuthorization_stages s' a false).mono fun id status h => ?_
    exact ⟨h.2, a, (List.mem_filter.mp ha).1, h.1.symm, hpending⟩
  · exact .refl

theorem expireOrderIfNeeded_stages {now : ℕ}
    (ho : s.view.order? id = some o) (h : expireOrderIfNeeded s now o = some s') :
    StagesFor (Pending s.view) s s' := by
  unfold expireOrderIfNeeded at h
  split at h
  · next hneed =>
    cases h
    have hclose : StagesFor (Pending s.view) s (stage (stageStatus s o .invalid) (.setOrderError
        o.orderId (.single (problemData "malformed" "Order has expired")))) :=
      (StagesFor.refl.close o (order?_mem ho).1 hneed.1).other trivial (by simp)
    exact (hclose.trans ((expirePending_stages _ _).mono fun _ _ h => h)).trans
      (setOrderAuthorizationError_stages _ _ _)
  · cases h

theorem expireAuthorizationIfNeeded_stages {now : ℕ}
    (ha : s.view.authorization? id = some a) (h : expireAuthorizationIfNeeded s now a = some s') :
    StagesFor (Pending s.view) s s' := by
  unfold expireAuthorizationIfNeeded at h
  split at h
  · next hneed =>
    cases h
    refine (expireAuthorization_stages s a true).mono fun id status h => ?_
    exact ⟨h.2, a, (authorization?_mem ha).1, h.1.symm, hneed.1⟩
  · cases h

theorem deactivateRow_stages (s : Session) (row : Authorization) :
    StagesFor (fun id status => id = row.authorizationId ∧ status = .deactivated) s
      (deactivateRow s row) := by
  have hrow : StagesFor (fun id status => id = row.authorizationId ∧ status = .deactivated) s
      (stage s (.setAuthorization row.authorizationId .deactivated none)) :=
    StagesFor.refl.set (by simp) ⟨rfl, rfl⟩
  unfold deactivateRow
  simp only
  split
  · next o ho =>
    split
    · next hopen => exact (hrow.close o (orderOf_mem ho).1 hopen).other trivial (by simp)
    · exact hrow
  · exact hrow

theorem deactivateAuthorization_stages (h : deactivateAuthorization s a = some s') :
    StagesFor (fun _ status => status = .deactivated) s s' := by
  unfold deactivateAuthorization at h
  split at h
  · cases h
  · cases h
    exact .foldl _ fun s row _ => (deactivateRow_stages s row).mono fun _ _ h => h.2

/-- What a failed challenge invalidates was not deactivated. -/
def Failing (db : Db) (authorizationId id : ℕ) (status : AuthorizationStatus) : Prop :=
  id = authorizationId ∧ status = .invalid ∧
    ∃ a ∈ db.authorizations, a.authorizationId = authorizationId ∧ a.status ≠ .deactivated

theorem invalidateChallenge_stages (s : Session) (challengeId authorizationId : ℕ) (p : Problem) :
    StagesFor (Failing s.view authorizationId) s
      (invalidateChallenge s challengeId authorizationId p) := by
  unfold invalidateChallenge
  have hset : StagesFor (Failing s.view authorizationId) s
      (stage s (.setChallenge challengeId .invalid none (some p))) :=
    StagesFor.refl.other trivial (by simp)
  simp only
  split
  · exact hset
  next a ha =>
    split
    · exact hset
    next hne =>
      obtain ⟨hmem, hid⟩ := authorization?_mem ha
      have hauth := hset.set (by simp : AuthorizationStatus.invalid ≠ .valid)
        ⟨rfl, rfl, a, hmem, hid, hne⟩
      split
      next o ho => exact hauth.trans (failOrder_stages (orderOf_mem ho).1 p)
      next => exact hauth

theorem deleteOpenChallenges_frame (s : Session) (authorizationId : ℕ) :
    (deleteOpenChallenges s authorizationId).view.orders = s.view.orders ∧
    (deleteOpenChallenges s authorizationId).view.authorizations = s.view.authorizations := by
  refine List.foldlRecOn (motive := fun s' : Session => s'.view.orders = s.view.orders ∧
    s'.view.authorizations = s.view.authorizations) _ _ ⟨rfl, rfl⟩ fun s' h c _ => ?_
  split
  · exact h
  · exact h

/-- A completed challenge either finds nothing to validate, or makes its authorization valid,
deletes siblings, and makes the order ready when every authorization in sight is valid. -/
theorem completeChallenge_cases (db : Db) (now challengeId authorizationId : ℕ)
    (type : ChallengeType) :
    let s₁ := stage (Session.start db) (.setChallenge challengeId .valid (some now) none)
    let result := completeChallenge (.start db) now challengeId authorizationId type
    result = s₁ ∨ ∃ a s₃, s₁.view.authorization? authorizationId = some a ∧
      a.status ≠ .deactivated ∧
      StagesFor (fun _ _ => False)
        (stage s₁ (.setAuthorization authorizationId .valid (some (.challenge type)))) s₃ ∧
      s₃.view.orders = db.orders ∧ s₃.view.authorizations = (db.apply
        (.setAuthorization authorizationId .valid (some (.challenge type)))).authorizations ∧
      (result = s₃ ∨ ∃ o, s₃.view.orderOf a = some o ∧
        (s₃.view.authorizationsOf o.orderId).all (·.status = .valid) ∧
        result = stageStatus s₃ o .ready) := by
  simp only [completeChallenge, updateAuthorizationStatus]
  split
  · exact .inl rfl
  · next a ha =>
    split
    · exact .inl rfl
    · next hne =>
      split
      · refine .inr ⟨a, _, ha, hne, deleteOpenChallenges_stages _ authorizationId,
          (deleteOpenChallenges_frame _ _).1, (deleteOpenChallenges_frame _ _).2, ?_⟩
        split
        · exact .inl rfl
        · next o ho =>
          split
          · next hall => exact .inr ⟨o, ho, hall, rfl⟩
          · exact .inl rfl
      · exact .inl rfl

end UltimateCaManager.Acme
