import UltimateCaManager.ApprovalOperations
import UltimateCaManager.Runs

/-!
# Approvals gate the operation

The routes on approval requests, one by one and along a run: an operation is performed at most once
and only for a request that enough users have approved, a closed request keeps its status, and a
failed operation leaves its request pending unless it fails after its service has committed.
-/
namespace UltimateCaManager.Approvals

open UnitOfWork Tables Runs

/-! ## The request that a route acts on -/

section PutRequest

variable {db : Db} {a a' : ApprovalRequest}

theorem advances_putRequest (ha : a ∈ db.requests) (hm : Moves a a') :
    Advances db (db.putRequest a') := by
  intro hs
  refine advances_setRequests (fun b hb hid => ?_) hs
  have hba : b = a := eq_of_key hs.unique hb ha (by simpa [hm.id] using hid)
  exact hba ▸ hm

theorem moves_expire (hpending : a.status = .pending) : Moves a { a with status := .expired } :=
  .close rfl hpending (by simp)

theorem approvalTargetGone_vote (vote : Vote) :
    (db.putRequest a').approvalTargetGone (a.addApproval vote) = db.approvalTargetGone a := by
  simp only [Db.approvalTargetGone, ApprovalRequest.data?, addApproval_requestType,
    addApproval_requestData]
  rfl

end PutRequest

/-! ## Routes -/

/-- How a route on a request ends. -/
structure Replied (db₀ : Db) (id : ℕ) (c : Conduct) (r : Reply) (s : Session Db) : Prop where
  good : Good db₀ s
  pending : r.failure ≠ none → ∃ a, db₀.request? id = some a ∧ a.status = .pending
  undone : r.failure ≠ none → c.IsOrderly → s.committed = db₀

section Routes

variable {db₀ : Db} {id : ℕ} {c : Conduct} {a : ApprovalRequest} {R : Failure → Session Db → Prop}

theorem Replied.of_good {r : Reply} {s : Session Db} (hr : r.failure = none) (h : Good db₀ s) :
    Replied db₀ id c r s :=
  ⟨h, fun hf => absurd hr hf, fun hf => absurd hr hf⟩

theorem save_triple {α : Type} {saved : Bool} {f : Bool → Handler α} {Q : α → Session Db → Prop}
    (h : Triple (Good db₀) (f saved) Q R) : Triple (Good db₀) (Work.save saved >>= f) Q R :=
  .save (fun _ hs => hs.commit) (fun _ hs => hs.rollback) h

theorem conclude_triple {r : Reply} (saved : Bool) (hr : r.failure = none) :
    Triple (Good db₀) (conclude saved r) (fun r s => Good db₀ s ∧ r.failure = none) R := by
  refine save_triple (.pure fun s hs => ⟨hs, ?_⟩)
  cases saved <;> exact hr

theorem expireRequest_triple (saved : Bool) (hpending : a.status = .pending) :
    Triple (fun s => Good db₀ s ∧ a ∈ s.view.requests) (expireRequest a saved)
      (fun r s => Good db₀ s ∧ r.failure = none) R := by
  refine .stage (S := Good db₀)
    (fun s hs => hs.1.stage (advances_putRequest hs.2 (moves_expire hpending))) ?_
  exact save_triple (.pure fun s hs => ⟨hs, rfl⟩)

theorem closeRequestTargetGone_triple (reason : List Char) (user : User) (saved : Bool)
    (failure : Option Failure) (hpending : a.status = .pending)
    (hfound : failure ≠ none → ∃ a, db₀.request? id = some a ∧ a.status = .pending)
    (hgone : failure ≠ none → ¬ c.IsOrderly) :
    Triple (fun s => Good db₀ s ∧ a ∈ s.view.requests)
      (closeRequestTargetGone a reason user saved failure) (Replied db₀ id c) R := by
  refine .stage (S := Good db₀) (fun s hs => hs.1.stage (advances_putRequest hs.2 ?_)) ?_
  · exact .close (addApproval_id a _) hpending (by simp)
  · refine save_triple (.pure fun s hs => ?_)
    cases saved <;> exact ⟨hs, hfound, fun hf hc => absurd hc (hgone hf)⟩

theorem handleFailure_triple (user : User) (e : Failure)
    (hfound : ∃ a, db₀.request? id = some a ∧ a.status = .pending) :
    Triple (Failed db₀ c e) (handleFailure id user c e) (Replied db₀ id c) R := by
  refine .rollback (S := fun s => Good db₀ s ∧
    (c.IsOrderly → s = .fresh db₀ ∧ e.saysGone = false)) (fun s hs => ?_) ?_
  · exact ⟨hs.good.rollback, fun hc => ⟨by rw [(hs.undone hc).1], (hs.undone hc).2⟩⟩
  refine .read fun db => ?_
  cases hreq : db.request? id with
  | none => exact .pure fun s hs => ⟨hs.1.1, fun _ => hfound, fun _ hc => by rw [(hs.1.2 hc).1]; rfl⟩
  | some b =>
    refine .ite (fun _ => .pure fun s hs => ?_) fun hpending => ?_
    · exact ⟨hs.1.1, fun _ => hfound, fun _ hc => by rw [(hs.1.2 hc).1]; rfl⟩
    refine .ite (fun hgone => ?_) fun _ => ?_
    · by_cases hc : c.IsOrderly
      · -- an orderly failure does not say that the target is gone
        intro s hs
        rw [(hs.1.2 hc).2] at hgone
        cases hgone
      · exact (closeRequestTargetGone_triple _ user _ _ (not_not.mp hpending) (fun _ => hfound)
          fun _ => hc).of_pre fun s hs => ⟨hs.1.1, hs.2 ▸ (find?_key hreq).1⟩
    · refine .save (S := fun s => Good db₀ s ∧ (c.IsOrderly → s = .fresh db₀)) (fun s hs => ?_)
        (fun s hs => ?_) (.pure fun s hs => ?_)
      · exact ⟨hs.1.1.commit, fun hc => by rw [(hs.1.2 hc).1]; rfl⟩
      · exact ⟨hs.1.1.rollback, fun hc => by rw [(hs.1.2 hc).1]; rfl⟩
      · exact ⟨hs.1, fun _ => hfound, fun _ hc => by rw [hs.2 hc]; rfl⟩

/-- The vote of a user who may approve; the operation follows when it is the last one required. -/
theorem recordVote_triple (now : ℕ) (user : User) (comment : Option (List Char)) (hs₀ : Sound db₀)
    (hreq : db₀.request? a.id = some a) (hpending : a.status = .pending)
    (hself : a.requesterId ≠ some user.id)
    (hnew : a.approvals.any (·.userId = some user.id) = false)
    (htarget : db₀.approvalTargetGone a = none) :
    Triple (· = .fresh db₀) (recordVote now a user comment c) (Replied db₀ a.id c) R := by
  have ha : a ∈ db₀.requests := (find?_key hreq).1
  have hclean : IsClean (a.addApproval ⟨some user.id, user.username, .approve, comment⟩) :=
    (hs₀.clean a ha hpending).addApproval hself hnew
  have hmoves : Moves a (a.addApproval ⟨some user.id, user.username, .approve, comment⟩) :=
    ⟨addApproval_id a _, fun h => absurd hpending h, fun _ _ _ => hclean⟩
  unfold recordVote
  generalize hvoted : a.addApproval ⟨some user.id, user.username, .approve, comment⟩ = voted
  rw [hvoted] at hclean hmoves
  refine .stage (S := (· = ⟨db₀, db₀.putRequest voted⟩)) (fun s hs => by rw [hs]; rfl) ?_
  have hgood : Good db₀ ⟨db₀, db₀.putRequest voted⟩ :=
    (Good.start hs₀).stage (advances_putRequest ha hmoves)
  refine .ite (fun hready => ?_) fun _ => ?_
  · have hauth : voted.IsAuthorised := by
      refine hclean.isAuthorised ?_ ?_
      · rw [← hvoted]
        simp
      · rw [← hvoted] at hready ⊢
        exact required_of_addApproval a _ hpending hready.1
    refine .attempt (Q := fun _ => Good db₀) (R := Failed db₀ c) ?_
      (fun _ => (conclude_triple c.recorded rfl).of_post fun _ _ h => .of_good h.2 h.1)
      fun e => handleFailure_triple user e ⟨a, hreq, hpending⟩
    refine (issueApprovedCertificate_triple now user).of_pre fun s hs => ?_
    subst hs
    refine ⟨⟨hgood, rfl, fun b hb => ?_, fun b hb => ?_⟩, ?_⟩
    · cases hb
      exact ⟨mem_amend.mpr (.inr ⟨a, ha, by simp [hmoves.id], rfl⟩), hready.1, hready.2.2⟩
    · cases hb
      refine ⟨hauth, fun p hp => ?_⟩
      rw [hmoves.id]
      exact hs₀.not_performed ha hpending p hp
    · rw [← hvoted]
      exact (approvalTargetGone_vote _).trans htarget
  · exact ((conclude_triple c.recorded rfl).of_post fun _ _ h => .of_good h.2 h.1).of_pre
      fun s hs => hs ▸ hgood

theorem approveRequest_triple (now id : ℕ) (user : Option User) (comment : Option (List Char))
    (hs₀ : Sound db₀) :
    Triple (· = .fresh db₀) (approveRequest now id user comment c) (Replied db₀ id c) R := by
  refine .read fun db => ?_
  have hstart : ∀ s, s = Session.fresh db₀ ∧ s.view = db → Good db₀ s := by
    rintro s ⟨rfl, -⟩
    exact .start hs₀
  cases hreq : db.request? id with
  | none => exact .pure fun s hs => .of_good rfl (hstart s hs)
  | some a =>
    obtain rfl : a.id = id := (find?_key hreq).2
    have hmem : ∀ s, s = Session.fresh db₀ ∧ s.view = db → a ∈ s.view.requests :=
      fun s hs => hs.2 ▸ (find?_key hreq).1
    refine .ite (fun _ => .pure fun s hs => .of_good rfl (hstart s hs)) fun hnot => ?_
    have hpending : a.status = .pending := not_not.mp hnot
    refine .ite (fun _ => ?_) fun _ => ?_
    · refine ((expireRequest_triple c.recorded hpending).of_post fun _ _ h => ?_).of_pre
        fun s hs => ⟨hstart s hs, hmem s hs⟩
      exact .of_good h.2 h.1
    cases user with
    | none => exact .pure fun s hs => .of_good rfl (hstart s hs)
    | some user =>
      refine .ite (fun _ => .pure fun s hs => .of_good rfl (hstart s hs)) fun _ => ?_
      refine .ite (fun _ => .pure fun s hs => .of_good rfl (hstart s hs)) fun hself => ?_
      refine .ite (fun _ => .pure fun s hs => .of_good rfl (hstart s hs)) fun hnew => ?_
      cases htarget : db.approvalTargetGone a with
      | some reason =>
        exact (closeRequestTargetGone_triple reason user _ none hpending (fun h => absurd rfl h)
          fun h => absurd rfl h).of_pre fun s hs => ⟨hstart s hs, hmem s hs⟩
      | none =>
        rintro s ⟨rfl, rfl⟩
        have hne : a.requesterId ≠ some user.id := fun h =>
          hself ⟨Nat.pos_iff_ne_zero.mp user.id_pos, h⟩
        exact recordVote_triple now user comment hs₀ hreq hpending hne
          (Bool.eq_false_iff.mpr hnew) htarget _ rfl

theorem rejectRequest_triple (now id : ℕ) (user : Option User) (comment : List Char)
    (saved : Bool) :
    Triple (Good db₀) (rejectRequest now id user comment saved) (fun _ => Good db₀) R := by
  refine .read fun db => .ite (fun _ => .pure fun s hs => hs.1) fun _ => ?_
  cases hreq : db.request? id with
  | none => exact .pure fun s hs => hs.1
  | some a =>
    have hmem : ∀ s, Good db₀ s ∧ s.view = db → a ∈ s.view.requests :=
      fun s hs => hs.2 ▸ (find?_key hreq).1
    refine .ite (fun _ => .pure fun s hs => hs.1) fun hnot => ?_
    have hpending : a.status = .pending := not_not.mp hnot
    refine .ite (fun _ => ?_) fun _ => ?_
    · exact ((expireRequest_triple saved hpending).of_post fun _ _ h => h.1).of_pre
        fun s hs => ⟨hs.1, hmem s hs⟩
    cases user with
    | none => exact .pure fun s hs => hs.1
    | some user =>
      refine .ite (fun _ => .pure fun s hs => hs.1) fun _ => ?_
      refine .ite (fun _ => .pure fun s hs => hs.1) fun _ => ?_
      refine .stage (S := Good db₀) (fun s hs => hs.1.stage (advances_putRequest (hmem s hs) ?_)) ?_
      · exact .close (addApproval_id a _) hpending (addApproval_reject_ne_pending a _ rfl)
      · exact (conclude_triple saved rfl).of_post fun _ _ h => h.1

theorem getApproval_triple (now id : ℕ) (saved : Bool) :
    Triple (Good db₀) (getApproval now id saved) (fun _ => Good db₀) R := by
  refine .read fun db => ?_
  cases hreq : db.request? id with
  | none => exact .pure fun s hs => hs.1
  | some a =>
    refine .ite (fun hexpired => ?_) fun _ => .pure fun s hs => hs.1
    simp only [Bool.and_eq_true, decide_eq_true_eq] at hexpired
    exact ((expireRequest_triple saved hexpired.1).of_post fun _ _ h => h.1).of_pre
      fun s hs => ⟨hs.1, hs.2 ▸ (find?_key hreq).1⟩

theorem stage_save_triple {g : Db → Db} {saved : Bool} (hg : ∀ db, Advances db (g db)) :
    Triple (Good db₀) (do Work.stage g; let _ ← Work.save saved; pure ()) (fun _ => Good db₀) R :=
  .stage (S := Good db₀) (fun s hs => hs.stage (hg s.view))
    (save_triple (.pure fun _ hs => hs))

theorem expireStaleRequests_triple (now : ℕ) (saved : Bool) :
    Triple (Good db₀) (expireStaleRequests now saved) (fun _ => Good db₀) R := by
  refine stage_save_triple fun db => advances_setRequests fun a _ hp => moves_expire ?_
  simp only [Bool.and_eq_true, decide_eq_true_eq] at hp
  exact hp.1

theorem createApprovalRequest_triple (now policyId : ℕ) (type : RequestType) (data : RequestData)
    (requesterId : Option ℕ) (saved : Bool) :
    Triple (Good db₀) (createApprovalRequest now policyId type data requesterId saved)
      (fun _ => Good db₀) R := by
  refine .read fun db => ?_
  cases db.policy? policyId with
  | none => exact .pure fun s hs => hs.1
  | some policy =>
    exact (stage_save_triple fun db => advances_append rfl rfl).of_pre fun s hs => hs.1

theorem importSigned_triple (now certId : ℕ) (actor : Actor) :
    Triple (Good db₀) (importSigned now certId actor c) (fun _ => Good db₀) fun _ => Good db₀ := by
  refine .read fun db => ?_
  cases db.certificate? certId with
  | none => exact .raise fun s hs => hs.1
  | some cert =>
    refine .ite (fun _ => .raise fun s hs => hs.1) fun _ => ?_
    refine .bind (raiseIf_triple fun _ _ _ hs => hs.1) fun _ => ?_
    refine .stage (S := Good db₀) (fun _ hs => hs.1.stage (advances_of_eq rfl rfl rfl)) ?_
    refine .bind (Q := fun _ => Good db₀) (.commit (fun s hs => hs.commit)
      fun s hs _ => hs.rollback) fun _ => ?_
    refine .stage (S := Good db₀) (fun s hs => hs.stage advances_resolve) ?_
    exact save_triple (raiseIf_triple fun e _ s hs => hs)

theorem deleteCertificate_triple (now certId : ℕ) (actor : Actor) (saved : Bool) :
    Triple (Good db₀) (deleteCertificate now certId actor saved) (fun _ => Good db₀) R := by
  refine .stage (S := Good db₀) (fun s hs => hs.stage ?_) (stage_save_triple fun db => ?_)
  · exact (advances_resolve.trans advances_resolve).trans advances_resolve
  · exact advances_filter db _ _

end Routes

/-! ## Runs -/

theorem advances_run {db : Db} {α : Type} {m : Handler α} (hs : Sound db)
    (h : Triple (Good db) m (fun _ => Good db) fun _ => Good db) :
    Sound (m.run db) ∧ Follows db (m.run db) :=
  h.run (K := fun db' => Sound db' ∧ Follows db db') (.start hs) (fun _ _ hg => hg.committed)
    fun _ _ hg => hg.committed

theorem advances_direct {db : Db} {c : Conduct} {α : Type} {m : Handler α}
    {Q : α → Session Db → Prop} (hs : Sound db) (h : Triple (Prepared db none) m Q (Failed db c))
    (hQ : ∀ a s, Q a s → Good db s) : Sound (m.run db) ∧ Follows db (m.run db) :=
  h.run (K := fun db' => Sound db' ∧ Follows db db')
    ⟨.start hs, rfl, by simp [Serving], by simp [Ready]⟩
    (fun a s hg => (hQ a s hg).committed) fun e s hf => hf.good.committed

theorem advances_effect (now : ℕ) (db : Db) (l : Label) : Advances db (l.effect now db) := by
  intro hs
  cases l with
  | tick _ => exact ⟨hs, .refl db⟩
  | submit policyId type data requesterId saved =>
    exact advances_run hs (createApprovalRequest_triple now policyId type data requesterId saved)
  | approve id user comment c =>
    have htriple : Triple (· = .fresh db) (approveRequest now id user comment c)
        (Replied db id c) fun _ => Good db := approveRequest_triple now id user comment hs
    exact htriple.run (K := fun db' => Sound db' ∧ Follows db db') rfl
      (fun _ _ hr => hr.good.committed) fun _ _ hg => hg.committed
  | reject id user comment saved =>
    exact advances_run hs (rejectRequest_triple now id user comment saved)
  | get id saved => exact advances_run hs (getApproval_triple now id saved)
  | expireStale saved => exact advances_run hs (expireStaleRequests_triple now saved)
  | sign certId intermediateCa actor c =>
    exact advances_direct hs (signCsr_triple now certId intermediateCa actor)
      fun _ _ h => h.good
  | importSigned certId actor c => exact advances_run hs (importSigned_triple now certId actor)
  | renew certId scheduled actor c =>
    exact advances_direct hs (renewCertificateInPlace_triple now certId scheduled actor)
      fun _ _ h => h.good
  | revoke certId hold actor c =>
    exact advances_direct hs (revokeCertificate_triple now certId hold actor) fun _ _ h => h.good
  | revokeCa caId actor c =>
    exact advances_direct hs (revokeCa_triple now caId actor) fun _ _ h => h.good
  | revokeCross id actor c =>
    exact advances_direct hs (revokeCross_triple now id actor) fun _ _ h => h
  | delete certId actor saved => exact advances_run hs (deleteCertificate_triple now certId actor saved)
  | liftHold certId saved =>
    exact advances_run hs (stage_save_triple fun _ => advances_of_eq rfl rfl rfl)

abbrev Reached (w₀ : World) : World → Prop := Reach step (fun _ _ => True) w₀

section Run

variable {now : ℕ} {users : List User} {policies : List Policy} {certificates : List CertRow}
  {cas : List CaRow} {crossCertificates : List CrossRow} {w : World}

theorem sound_reached
    (h : Reached (.init now users policies certificates cas crossCertificates) w) : Sound w.db := by
  refine h.invariant (P := fun w => Sound w.db) ?_ fun w l _ hs _ =>
    (advances_effect w.now w.db l hs).1
  exact ⟨.nil, by simp [World.init], by simp [World.init], .nil, by simp [World.init],
    by simp [World.init], by simp [World.init]⟩

/-- In every run, the operation of a request is performed at most once and for a request that is
authorised, which then stays approved with the votes it had; a closed request keeps its status;
and an approval whose operation fails, but neither after its service has committed nor with the
news that its target is gone, leaves the request as it was. -/
theorem approvals_gate_operations
    (h : Reached (.init now users policies certificates cas crossCertificates) w) :
    (w.db.performed.map ApprovalRequest.id).Nodup ∧
    (∀ p ∈ w.db.performed, p.IsAuthorised ∧ ∀ a ∈ w.db.requests, a.id = p.id →
      a.status = .approved ∧ a.approvals = p.approvals) ∧
    (∀ l, ∀ a ∈ w.db.requests, a.status ≠ .pending →
      ∀ a' ∈ (step w l).db.requests, a'.id = a.id → a'.status = a.status) ∧
    ∀ id user comment c, Conduct.IsOrderly c →
      ∀ r, (approveRequest w.now id user comment c).result w.db = .ok r → r.failure ≠ none →
        ∃ a, w.db.request? id = some a ∧ a.status = .pending ∧
          (step w (.approve id user comment c)).db.request? id = some a := by
  have hs : Sound w.db := sound_reached h
  refine ⟨hs.once, fun p hp => ⟨hs.authorised p hp, hs.kept p hp⟩, ?_, ?_⟩
  · intro l a ha hclosed a' ha' hid
    exact (advances_effect w.now w.db l hs).2.status_eq hs ha hclosed ha' hid
  · intro id user comment c hc r hr hfailure
    obtain ⟨s, hreplied, hrun⟩ :=
      (approveRequest_triple (R := fun _ => Good w.db) w.now id user comment hs).result rfl hr
    obtain ⟨a, ha, hpending⟩ := hreplied.pending hfailure
    have hunchanged : (step w (.approve id user comment c)).db = w.db :=
      hrun.trans (hreplied.undone hfailure hc)
    exact ⟨a, ha, hpending, by rw [hunchanged, ha]⟩

end Run

/-! ## A certificate whose file cannot be written -/

def requesterUser : User := ⟨1, "requester".toList, false, [], by decide⟩

def approverUser : User := ⟨2, "approver".toList, false, [], by decide⟩

/-- A policy that requires one approver, a request to sign and the CA to sign it with. -/
def csrTables : World :=
  .init 1000 [requesterUser, approverUser] [⟨5, none, some 1⟩]
    [⟨7, true, false, none, false, false, none⟩] [⟨3, 30, some 1, false⟩] []

def csrRequestData : RequestData :=
  ⟨some 7, none, none, none, some (.id 3), none, .lasting, false, false, none⟩

/-- The signature awaits its approval. -/
def csrQueued : World := exec step csrTables [.submit 5 .csr csrRequestData (some 1) true]

theorem reached_csrQueued : Reached csrTables csrQueued := by
  refine .exec .start ?_
  decide

def smoothConduct : Conduct := ⟨none, true, true, none, true, none, true, 99, 50, false⟩

/-- `sign_csr` has committed and cannot write the file of the certificate. -/
def diskFullConduct : Conduct :=
  { smoothConduct with aftermath := some (otherError "No space left on device") }

def offlineConduct : Conduct := { smoothConduct with refusal := some (valueError "CA is offline") }

theorem refused_issuance_stays_pending :
    Reached csrTables csrQueued ∧ offlineConduct.IsOrderly ∧
    ∃ a, csrQueued.db.request? 1 = some a ∧ a.status = .pending ∧
      (step csrQueued (.approve 1 (some approverUser) none offlineConduct)).db.request? 1 =
        some a := by
  have horderly : offlineConduct.IsOrderly := by decide
  have hgate := approvals_gate_operations reached_csrQueued
  exact ⟨reached_csrQueued, horderly, hgate.2.2.2 1 (some approverUser) none offlineConduct horderly
    ⟨.recorded, some (valueError "CA is offline")⟩ (by decide +kernel) (by simp)⟩

/-- The operation of the approval fails, and the request is approved. -/
theorem failed_issuance_approved :
    Reached csrTables csrQueued ∧
    (∃ a ∈ csrQueued.db.request? 1, a.status = .pending ∧ a.approvals = []) ∧
    (approveRequest csrQueued.now 1 (some approverUser) none diskFullConduct).result csrQueued.db =
      .ok ⟨.already .approved, some (otherError "No space left on device")⟩ ∧
    ∃ a ∈ (step csrQueued (.approve 1 (some approverUser) none diskFullConduct)).db.request? 1,
      a.status = .approved ∧ a.approvals.length = 1 ∧ a.certificateId = none := by
  refine ⟨reached_csrQueued, ?_, ?_, ?_⟩ <;> decide +kernel

end UltimateCaManager.Approvals
