import UltimateCaManager.ApprovalInvariant

/-!
# Operations of approved requests

Every service and every operation, from a sound table: what it commits follows the table it found,
and an operation that fails before its service has committed leaves the table as it was.
-/
namespace UltimateCaManager.Approvals

open UnitOfWork Tables

/-! ## Staged writes -/

section Writes

variable {db : Db} {request : Option ApprovalRequest} {now : ℕ} {type : RequestType}
  {key : RequestData → Option ℕ} {target : ℕ} {outcome : Action} {actor : Actor}
  {certificateId : Option ℕ} {reason : List Char}

theorem resolveRequest_closes (a : ApprovalRequest) :
    (db.resolveRequest now outcome actor certificateId reason a).id = a.id ∧
      (db.resolveRequest now outcome actor certificateId reason a).status ≠ .pending := by
  unfold Db.resolveRequest
  by_cases hexpired : a.isExpired now = true
  · simp [hexpired]
  · by_cases hown : (outcome = .approve && db.actedByRequester a actor) = true
    · simp [hexpired, hown]
    · rw [if_neg hexpired, if_neg hown]
      exact ⟨addApproval_id a _, by cases outcome <;> simp [Action.status]⟩

theorem isPendingNaming_pending {a : ApprovalRequest} (h : a.isPendingNaming type key target = true) :
    a.status = .pending := by
  simp only [ApprovalRequest.isPendingNaming, Bool.and_eq_true, decide_eq_true_eq] at h
  exact h.1.1

theorem advances_resolve :
    Advances db (db.resolveMootRequests now type key target outcome actor certificateId reason) := by
  refine advances_setRequests fun a _ h => ?_
  obtain ⟨hid, hclosed⟩ := resolveRequest_closes a
  exact .close hid (isPendingNaming_pending h) hclosed

theorem advances_link (ids : List ℕ) (certId : ℕ) : Advances db (db.link ids certId) :=
  advances_setRequests fun a _ _ => .link a certId

/-- The request whose operation is asked for stands approved and without a certificate. -/
def Serving (request : Option ApprovalRequest) (db : Db) : Prop :=
  ∀ a, request = some a → a ∈ db.requests ∧ a.status = .approved ∧ a.certificateId = none

/-- Its operation may be performed. -/
def Ready (request : Option ApprovalRequest) (db : Db) : Prop :=
  ∀ a, request = some a → a.IsAuthorised ∧ ∀ p ∈ db.performed, p.id ≠ a.id

theorem Serving.setRequests (h : Serving request db) {p : ApprovalRequest → Bool}
    {f : ApprovalRequest → ApprovalRequest} (hp : ∀ a, request = some a → p a = false) :
    Serving request (db.setRequests p f) := by
  intro a ha
  obtain ⟨hmem, hrest⟩ := h a ha
  exact ⟨mem_amend.mpr (.inl ⟨hmem, hp a ha⟩), hrest⟩

theorem Serving.resolve (h : Serving request db) :
    Serving request
      (db.resolveMootRequests now type key target outcome actor certificateId reason) := by
  refine h.setRequests fun a ha => Bool.eq_false_iff.mpr fun hp => ?_
  have happroved := (h a ha).2.1
  rw [isPendingNaming_pending hp] at happroved
  cases happroved

/-- A service stages its own write and the record of the operation. -/
theorem advances_perform_of_ready {db' : Db} (hr : db'.requests = db.requests)
    (hi : db'.requestIds = db.requestIds) (hp : db'.performed = db.performed)
    (hserving : Serving request db) (hready : Ready request db) :
    Advances db (db'.perform request) := by
  have hwrite : Advances db db' := advances_of_eq hr hi hp
  cases request with
  | none => exact hwrite.trans (advances_of_eq rfl rfl (by simp [Db.perform]))
  | some a =>
    obtain ⟨hmem, happroved, -⟩ := hserving a rfl
    obtain ⟨hauth, hnew⟩ := hready a rfl
    exact hwrite.trans (advances_perform (hr ▸ hmem) happroved hauth (hp ▸ hnew))

end Writes

/-! ## Sessions -/

/-- Both the committed table and the view are sound and follow the table at the start. -/
structure Good (db₀ : Db) (s : Session Db) : Prop where
  committed : Sound s.committed ∧ Follows db₀ s.committed
  view : Sound s.view ∧ Follows db₀ s.view

section Sessions

variable {db₀ : Db} {s : Session Db} {request : Option ApprovalRequest} {c : Conduct}
  {e : Failure} {α : Type} {Q : α → Session Db → Prop}

theorem Good.start (h : Sound db₀) : Good db₀ (.fresh db₀) := ⟨⟨h, .refl db₀⟩, h, .refl db₀⟩

theorem Good.stage (h : Good db₀ s) {db : Db} (hadv : Advances s.view db) :
    Good db₀ { s with view := db } := by
  obtain ⟨hs, hf⟩ := hadv h.view.1
  exact ⟨h.committed, hs, h.view.2.trans hf⟩

theorem Good.rollback (h : Good db₀ s) : Good db₀ (.fresh s.committed) := ⟨h.committed, h.committed⟩

theorem Good.commit (h : Good db₀ s) : Good db₀ (.fresh s.view) := ⟨h.view, h.view⟩

/-- Nothing is committed yet. -/
structure Prepared (db₀ : Db) (request : Option ApprovalRequest) (s : Session Db) : Prop where
  good : Good db₀ s
  uncommitted : s.committed = db₀
  serving : Serving request s.view
  ready : Ready request s.view

/-- The operation is staged. -/
structure Staged (db₀ : Db) (request : Option ApprovalRequest) (s : Session Db) : Prop where
  good : Good db₀ s
  uncommitted : s.committed = db₀
  serving : Serving request s.view

/-- The operation is committed. -/
structure Served (db₀ : Db) (request : Option ApprovalRequest) (s : Session Db) : Prop where
  good : Good db₀ s
  committed : Serving request s.committed
  serving : Serving request s.view

/-- Nothing fails once a service has committed, and no refusal says that a target is gone. -/
structure Conduct.IsOrderly (c : Conduct) : Prop where
  refusal : ∀ e, c.refusal = some e → e.saysGone = false
  aftermath : c.aftermath = none
  linked : c.linked = true
  reread : c.reread = none

instance (c : Conduct) : Decidable c.IsOrderly :=
  decidable_of_iff ((∀ e ∈ c.refusal, e.saysGone = false) ∧ c.aftermath = none ∧ c.linked = true ∧
      c.reread = none)
    ⟨fun h => ⟨h.1, h.2.1, h.2.2.1, h.2.2.2⟩,
      fun h => ⟨h.refusal, h.aftermath, h.linked, h.reread⟩⟩

structure Failed (db₀ : Db) (c : Conduct) (e : Failure) (s : Session Db) : Prop where
  good : Good db₀ s
  undone : c.IsOrderly → s.committed = db₀ ∧ e.saysGone = false

theorem Prepared.failed (h : Prepared db₀ request s) (he : c.IsOrderly → e.saysGone = false) :
    Failed db₀ c e s :=
  ⟨h.good, fun hc => ⟨h.uncommitted, he hc⟩⟩

theorem Prepared.refused (h : Prepared db₀ request s) (he : c.refusal = some e) :
    Failed db₀ c e s :=
  h.failed fun hc => hc.refusal e he

theorem Prepared.stage (h : Prepared db₀ request s) {db : Db} (hr : db.requests = s.view.requests)
    (hi : db.requestIds = s.view.requestIds) (hp : db.performed = s.view.performed) :
    Staged db₀ request { s with view := db.perform request } := by
  refine ⟨h.good.stage (advances_perform_of_ready hr hi hp h.serving h.ready), h.uncommitted, ?_⟩
  intro a ha
  have hserving := h.serving a ha
  rw [← hr] at hserving
  exact hserving

theorem Staged.commit (h : Staged db₀ request s) : Served db₀ request (.fresh s.view) :=
  ⟨h.good.commit, h.serving, h.serving⟩

theorem Staged.rollback (h : Staged db₀ request s) (he : e.saysGone = false) :
    Failed db₀ c e (.fresh s.committed) :=
  ⟨h.good.rollback, fun _ => ⟨h.uncommitted, he⟩⟩

section Resolve

variable {now : ℕ} {type : RequestType} {key : RequestData → Option ℕ} {target : ℕ}
  {outcome : Action} {actor : Actor} {certificateId : Option ℕ} {reason : List Char}

theorem Staged.resolve (h : Staged db₀ request s) :
    Staged db₀ request { s with
      view := s.view.resolveMootRequests now type key target outcome actor certificateId reason } :=
  ⟨h.good.stage advances_resolve, h.uncommitted, h.serving.resolve⟩

theorem Served.resolve (h : Served db₀ request s) :
    Served db₀ request { s with
      view := s.view.resolveMootRequests now type key target outcome actor certificateId reason } :=
  ⟨h.good.stage advances_resolve, h.committed, h.serving.resolve⟩

end Resolve

theorem Served.commit (h : Served db₀ request s) : Served db₀ request (.fresh s.view) :=
  ⟨h.good.commit, h.serving, h.serving⟩

theorem Served.rollback (h : Served db₀ request s) : Served db₀ request (.fresh s.committed) :=
  ⟨h.good.rollback, h.committed, h.committed⟩

theorem raiseIf_triple {P : Session Db → Prop} {R : Failure → Session Db → Prop}
    {o : Option Failure} (h : ∀ e, o = some e → ∀ s, P s → R e s) :
    Triple P (raiseIf o) (fun _ => P) R := by
  cases o with
  | none => exact .pure fun _ hs => hs
  | some e => exact .raise (h e rfl)

/-- An operation that fails after its commit was not orderly. -/
theorem Good.aftermath (h : Good db₀ s) (he : c.aftermath = some e) : Failed db₀ c e s :=
  ⟨h, fun hc => by simp [hc.aftermath] at he⟩

/-! The steps that the services share. -/

theorem raise_triple (he : e.saysGone = false := by decide +kernel) :
    Triple (Prepared db₀ request) (Work.raise e) Q (Failed db₀ c) :=
  .raise fun _ hs => hs.failed fun _ => he

theorem refusal_triple :
    Triple (Prepared db₀ request) (raiseIf c.refusal) (fun _ => Prepared db₀ request)
      (Failed db₀ c) :=
  raiseIf_triple fun _ he _ hs => hs.refused he

theorem commit_triple {accepted : Bool} (he : e.saysGone = false) :
    Triple (Staged db₀ request) (Work.commit accepted e) (fun _ => Served db₀ request)
      (Failed db₀ c) :=
  .commit (fun _ hs => hs.commit) fun _ hs _ => hs.rollback he

theorem aftermath_triple :
    Triple (Served db₀ request) (raiseIf c.aftermath) (fun _ => Served db₀ request)
      (Failed db₀ c) :=
  raiseIf_triple fun _ he _ hs => hs.good.aftermath he

end Sessions

/-! ## Services -/

section Services

variable {db₀ : Db} {request : Option ApprovalRequest} {c : Conduct} (now : ℕ)

theorem signCsr_triple (certId : ℕ) (intermediateCa : Bool) (actor : Actor) :
    Triple (Prepared db₀ request) (signCsr now request certId intermediateCa actor c)
      (fun _ => Served db₀ request) (Failed db₀ c) := by
  refine .read_any fun db => ?_
  cases db.certificate? certId with
  | none => exact raise_triple
  | some cert =>
    refine .ite (fun _ => raise_triple) fun _ => ?_
    refine .ite (fun _ => raise_triple) fun _ => ?_
    refine .bind refusal_triple fun _ => ?_
    refine .stage (S := Staged db₀ request) (fun s hs => ?_) ?_
    · cases intermediateCa <;> exact hs.stage rfl rfl rfl
    refine .bind (commit_triple rfl) fun _ => ?_
    refine .stage (fun s hs => hs.resolve) ?_
    refine .save (S := Served db₀ request) (fun s hs => hs.commit) (fun s hs => hs.rollback) ?_
    exact .bind aftermath_triple fun _ => .pure fun s hs => hs

theorem renewCertificateInPlace_triple (certId : ℕ) (scheduled : Bool) (actor : Actor) :
    Triple (Prepared db₀ request)
      (renewCertificateInPlace now request certId scheduled actor c)
      (fun _ => Served db₀ request) (Failed db₀ c) := by
  refine .read_any fun db => ?_
  cases db.certificate? certId with
  | none => exact raise_triple
  | some cert =>
    refine .bind refusal_triple fun _ => ?_
    refine .stage (S := Staged db₀ request) (fun s hs => hs.stage rfl rfl rfl) ?_
    refine .bind (commit_triple rfl) fun _ => ?_
    refine .stage (fun s hs => hs.resolve) ?_
    exact .save (S := Served db₀ request) (fun s hs => hs.commit) (fun s hs => hs.rollback)
      (.pure fun s hs => hs)

theorem revokeCertificate_triple (certId : ℕ) (hold : Bool) (actor : Actor) :
    Triple (Prepared db₀ request) (revokeCertificate now request certId hold actor c)
      (fun _ => Served db₀ request) (Failed db₀ c) := by
  refine .read_any fun db => ?_
  cases db.certificate? certId with
  | none => exact raise_triple
  | some cert =>
    refine .ite (fun _ => raise_triple) fun _ => ?_
    refine .bind refusal_triple fun _ => ?_
    refine .stage (S := Staged db₀ request) (fun s hs => hs.stage rfl rfl rfl) ?_
    refine .stage (S := Staged db₀ request) (fun s hs => ?_) ?_
    · cases hold with
      | true => exact hs
      | false => exact hs.resolve.resolve
    exact .bind (commit_triple rfl) fun _ => aftermath_triple

theorem revokeCa_triple (caId : ℕ) (actor : Actor) :
    Triple (Prepared db₀ request) (revokeCa now request caId actor c)
      (fun _ => Served db₀ request) (Failed db₀ c) := by
  refine .read_any fun db => ?_
  cases db.ca? caId with
  | none => exact raise_triple
  | some ca =>
    refine .ite (fun _ => raise_triple) fun _ => ?_
    refine .bind refusal_triple fun _ => ?_
    refine .stage (S := Staged db₀ request) (fun s hs => hs.stage rfl rfl rfl) ?_
    refine .stage (fun s hs => hs.resolve) ?_
    exact .bind (commit_triple rfl) fun _ => aftermath_triple

theorem saveCross_triple : Triple (Staged db₀ request) (saveCross c) (fun _ => Good db₀)
    (Failed db₀ c) := by
  refine .ite (fun _ => ?_) fun _ => ?_
  · exact .save (S := Good db₀) (fun s hs => hs.good.commit) (fun s hs => hs.good.rollback)
      (.pure fun s hs => hs)
  · exact .commit (fun s hs => hs.good.commit) fun s hs _ => hs.rollback rfl

theorem revokeCross_triple (id : ℕ) (actor : Actor) :
    Triple (Prepared db₀ request) (revokeCross now request id actor c) (fun _ => Good db₀)
      (Failed db₀ c) := by
  refine .read_any fun db => ?_
  cases db.cross? id with
  | none => exact raise_triple
  | some row =>
    refine .bind refusal_triple fun _ => ?_
    refine .ite (fun _ => raise_triple) fun _ => ?_
    refine .stage (S := Staged db₀ request) (fun s hs => hs.stage rfl rfl rfl) ?_
    refine .stage (fun s hs => hs.resolve) ?_
    exact .bind saveCross_triple fun _ => raiseIf_triple fun e he s hs => hs.aftermath he

end Services

/-! ## Operations of approved requests -/

section Operations

variable {db₀ : Db} {a : ApprovalRequest} {c : Conduct} (now : ℕ) (user : User)

/-- The request is the only one that the link finds. -/
theorem length_unlinked {db : Db} (hs : Sound db) (h : Serving (some a) db) :
    (db.unlinked a.id).length = 1 := by
  obtain ⟨ha, -, hnone⟩ := h a rfl
  have hmem : a ∈ db.unlinked a.id := List.mem_filter.mpr ⟨ha, by simp [hnone]⟩
  have hall : ∀ b ∈ db.unlinked a.id, b = a := by
    intro b hb
    simp only [Db.unlinked, List.mem_filter, Bool.and_eq_true, decide_eq_true_eq] at hb
    exact eq_of_key hs.unique hb.1 ha hb.2.1
  have hnodup : (db.unlinked a.id).Nodup := (List.Nodup.of_map _ hs.unique).filter _
  rw [List.eq_replicate_of_mem hall, List.nodup_replicate] at hnodup
  have hpos := List.length_pos_of_mem hmem
  omega

structure Linkable (db₀ : Db) (a : ApprovalRequest) (s : Session Db) : Prop where
  good : Good db₀ s
  serving : Serving (some a) s.view

theorem linkApproval_triple (certId : ℕ) :
    Triple (Linkable db₀ a) (linkApproval a.id certId c) (fun _ => Good db₀) (Failed db₀ c) := by
  refine .read fun db => .ite (fun hlen => ?_) fun _ => ?_
  · intro s hs
    have := length_unlinked hs.1.good.view.1 hs.1.serving
    rw [hs.2] at this
    exact absurd this hlen
  · refine .stage (S := Good db₀) (fun s hs => hs.1.good.stage (advances_link _ _)) ?_
    refine .bind (Q := fun _ => Good db₀) ?_ fun _ => ?_
    · refine .commit (fun s hs => hs.commit) fun s hs hlinked => ⟨hs.rollback, fun hc => ?_⟩
      simp [hc.linked] at hlinked
    · refine raiseIf_triple fun e he s hs => ⟨hs, fun hc => ?_⟩
      simp [hc.reread] at he

theorem linkAll_triple {duplicates : List ℕ} (hnot : a.id ∉ duplicates) (certId : ℕ) :
    Triple (Linkable db₀ a) (linkAll a duplicates certId c) (fun _ => Good db₀) (Failed db₀ c) := by
  refine .stage (S := Linkable db₀ a) (fun s hs => ?_) (linkApproval_triple certId)
  refine ⟨hs.good.stage (advances_link _ _), hs.serving.setRequests fun b hb => ?_⟩
  cases hb
  simp [hnot]

theorem Prepared.linkable {s : Session Db} (h : Prepared db₀ (some a) s) : Linkable db₀ a s :=
  ⟨h.good, h.serving⟩

theorem Served.linkable {s : Session Db} (h : Served db₀ (some a) s) : Linkable db₀ a s :=
  ⟨h.good, h.serving⟩

/-- The duplicates are pending, and the request itself is not. -/
theorem notMem_mootRequests {db : Db} (hs : Sound db) (h : Serving (some a) db) {now : ℕ}
    {type : RequestType} {key : RequestData → Option ℕ} {target : ℕ} {outcome : Action}
    {actor : Actor} : a.id ∉ db.mootRequests now type key target outcome actor := by
  intro hid
  obtain ⟨b, hb, hba⟩ := List.mem_map.mp hid
  simp only [List.mem_filter, Bool.and_eq_true] at hb
  have heq : b = a := eq_of_key hs.unique hb.1 (h a rfl).1 hba
  have hpending := isPendingNaming_pending hb.2.1.1
  rw [heq, (h a rfl).2.1] at hpending
  cases hpending

theorem closeDuplicateRequests_triple (key : RequestData → Option ℕ) (target : ℕ)
    {R : Failure → Session Db → Prop} :
    Triple (Prepared db₀ (some a)) (closeDuplicateRequests now a key target user)
      (fun duplicates s => Prepared db₀ (some a) s ∧ a.id ∉ duplicates) R := by
  refine .read fun db => ?_
  refine .stage (fun s hs => ?_) (.pure fun s hs => hs)
  obtain ⟨hs, rfl⟩ := hs
  refine ⟨⟨hs.good.stage advances_resolve, hs.uncommitted, hs.serving.resolve, hs.ready⟩, ?_⟩
  exact notMem_mootRequests hs.good.view.1 hs.serving

/-- The target of the request is there. -/
structure Approved (db₀ : Db) (a : ApprovalRequest) (s : Session Db) : Prop where
  prepared : Prepared db₀ (some a) s
  target : s.view.approvalTargetGone a = none

/-- The operation of the request, from the table in which its target is there. -/
abbrev Operates (db₀ : Db) (a : ApprovalRequest) (c : Conduct) (work : Handler Unit) : Prop :=
  Triple (Approved db₀ a) work (fun _ => Good db₀) (Failed db₀ c)

theorem Approved.read {f : Db → Handler Unit} {Q : Unit → Session Db → Prop}
    {R : Failure → Session Db → Prop}
    (h : ∀ db, db.approvalTargetGone a = none → Triple (Prepared db₀ (some a)) (f db) Q R) :
    Triple (Approved db₀ a) (Work.read >>= f) Q R :=
  .read fun db s hs => h db (hs.2 ▸ hs.1.target) s hs.1.prepared

/-! An operation finds the target that the route has looked for. -/

section Targets

variable {db : Db} {data : RequestData} (hdata : a.data? = some data)
  (h : db.approvalTargetGone a = none)

include hdata h

theorem csr_of_target (htype : a.requestType = .csr) :
    (∃ cert, data.csrId.bind db.certificate? = some cert ∧ cert.csr = true) ∧
      (db.caForRequest data).isNone = false := by
  simp only [Db.approvalTargetGone, htype, hdata, Option.bind_some] at h
  split_ifs at h with hcsr hca
  refine ⟨?_, Bool.eq_false_iff.mpr hca⟩
  cases hcert : data.csrId.bind db.certificate? with
  | none => simp [hcert] at hcsr
  | some cert => exact ⟨cert, rfl, by simpa [hcert] using hcsr⟩

theorem renewal_of_target (htype : a.requestType = .renewal) :
    ∃ cert, data.certificateId.bind db.certificate? = some cert ∧ cert.crt = true := by
  simp only [Db.approvalTargetGone, htype, hdata, Option.bind_some] at h
  split_ifs at h with hcrt
  cases hcert : data.certificateId.bind db.certificate? with
  | none => simp [hcert] at hcrt
  | some cert => exact ⟨cert, rfl, by simpa [hcert] using hcrt⟩

theorem revocation_of_target (htype : a.requestType = .revocation) :
    ∃ cert, data.certificateId.bind db.certificate? = some cert ∧ cert.crt = true := by
  simp only [Db.approvalTargetGone, htype, hdata, Option.bind_some] at h
  cases hcert : data.certificateId.bind db.certificate? with
  | none => simp [hcert] at h
  | some cert =>
    simp only [hcert] at h
    split_ifs at h with hcrt
    exact ⟨cert, rfl, by simpa using hcrt⟩

theorem ca_of_target (htype : a.requestType = .caRevocation) :
    ∃ ca, data.targetCaId.bind db.ca? = some ca := by
  simp only [Db.approvalTargetGone, htype, hdata, Option.bind_some] at h
  cases hca : data.targetCaId.bind db.ca? with
  | none => simp [hca] at h
  | some ca => exact ⟨ca, rfl⟩

theorem cross_of_target (htype : a.requestType = .crossRevocation) :
    ∃ row, data.crossCertificateId.bind db.cross? = some row := by
  simp only [Db.approvalTargetGone, htype, hdata, Option.bind_some] at h
  cases hrow : data.crossCertificateId.bind db.cross? with
  | none => simp [hrow] at h
  | some row => exact ⟨row, rfl⟩

end Targets

section Data

variable {data : RequestData} (hdata : a.data? = some data)

include hdata

theorem issueApprovedCsr_triple (htype : a.requestType = .csr) :
    Operates db₀ a c (issueApprovedCsr now user a data c) := by
  refine Approved.read fun db htarget => ?_
  obtain ⟨⟨cert, hcert, hcsr⟩, hca⟩ := csr_of_target hdata htarget htype
  simp only [hcert, hcsr, hca, Bool.not_true, Bool.false_eq_true, if_false]
  refine .ite (fun _ => ?_) fun _ => ?_
  · exact (linkApproval_triple cert.id).of_pre fun s hs => hs.linkable
  refine .bind (closeDuplicateRequests_triple now user _ _) fun duplicates => ?_
  refine .assume fun hnot => .bind (signCsr_triple now _ _ _) fun isCa => ?_
  refine .ite (fun _ => .pure fun s hs => hs.good) fun _ => ?_
  exact (linkAll_triple hnot cert.id).of_pre fun s hs => hs.linkable

theorem issueApprovedRenewal_triple (htype : a.requestType = .renewal) :
    Operates db₀ a c (issueApprovedRenewal now user a data c) := by
  refine Approved.read fun db htarget => ?_
  obtain ⟨cert, hcert, hcrt⟩ := renewal_of_target hdata htarget htype
  simp only [hcert, hcrt, Bool.not_true, Bool.false_eq_true, if_false]
  refine .ite (fun _ => ?_) fun _ => ?_
  · exact (linkApproval_triple cert.id).of_pre fun s hs => hs.linkable
  refine .bind (closeDuplicateRequests_triple now user _ _) fun duplicates => ?_
  refine .assume fun hnot => .bind (renewCertificateInPlace_triple now _ _ _) fun _ => ?_
  exact (linkAll_triple hnot cert.id).of_pre fun s hs => hs.linkable

theorem revokeApprovedCertificate_triple (htype : a.requestType = .revocation) :
    Operates db₀ a c (revokeApprovedCertificate now user a data c) := by
  refine Approved.read fun db htarget => ?_
  obtain ⟨cert, hcert, hcrt⟩ := revocation_of_target hdata htarget htype
  simp only [hcert, hcrt, Bool.not_true, Bool.false_eq_true, if_false]
  refine .ite (fun _ => raise_triple) fun _ => ?_
  refine .ite (fun _ => ?_) fun _ => ?_
  · refine .ite (fun _ => raise_triple) fun _ => ?_
    exact (linkApproval_triple cert.id).of_pre fun s hs => hs.linkable
  refine .ite (fun _ => raise_triple) fun _ => ?_
  refine .bind (closeDuplicateRequests_triple now user _ _) fun duplicates => ?_
  refine .assume fun hnot => .bind (revokeCertificate_triple now _ _ _) fun _ => ?_
  exact (linkAll_triple hnot cert.id).of_pre fun s hs => hs.linkable

theorem revokeApprovedCa_triple (htype : a.requestType = .caRevocation) :
    Operates db₀ a c (revokeApprovedCa now user a data c) := by
  refine Approved.read fun db htarget => ?_
  obtain ⟨ca, hca⟩ := ca_of_target hdata htarget htype
  simp only [hca]
  refine .ite (fun _ => .pure fun s hs => hs.good) fun _ => ?_
  refine .ite (fun _ => raise_triple) fun _ => ?_
  refine .bind (closeDuplicateRequests_triple now user _ _) fun duplicates => .assume fun _ => ?_
  exact (revokeCa_triple now _ _).of_post fun _ s hs => hs.good

theorem revokeApprovedCrossCertificate_triple (htype : a.requestType = .crossRevocation) :
    Operates db₀ a c (revokeApprovedCrossCertificate now user a data c) := by
  refine Approved.read fun db htarget => ?_
  obtain ⟨row, hrow⟩ := cross_of_target hdata htarget htype
  simp only [hrow]
  refine .ite (fun _ => .pure fun s hs => hs.good) fun _ => ?_
  refine .ite (fun _ => raise_triple) fun _ => ?_
  refine .bind (closeDuplicateRequests_triple now user _ _) fun duplicates => .assume fun _ => ?_
  exact revokeCross_triple now _ _

end Data

theorem issueNewCertificate_triple :
    Operates db₀ a c (issueNewCertificate a c) := by
  refine .bind (raiseIf_triple fun e he s hs => hs.prepared.refused he) fun _ => ?_
  refine .stage (S := Linkable db₀ a) (fun s hs => ?_) (linkApproval_triple c.rowId)
  have hstaged : Staged db₀ (some a) { s with view := (s.view.storeIssued c).perform (some a) } :=
    hs.prepared.stage rfl rfl rfl
  exact ⟨hstaged.good, hstaged.serving⟩

theorem issueApprovedCertificate_triple :
    Operates db₀ a c (issueApprovedCertificate now user a c) := by
  unfold issueApprovedCertificate
  cases hdata : a.data? with
  | none => exact .raise fun s hs => hs.prepared.failed fun _ => by decide +kernel
  | some data =>
    cases htype : a.requestType with
    | csr => exact issueApprovedCsr_triple now user hdata htype
    | renewal => exact issueApprovedRenewal_triple now user hdata htype
    | revocation => exact revokeApprovedCertificate_triple now user hdata htype
    | caRevocation => exact revokeApprovedCa_triple now user hdata htype
    | crossRevocation => exact revokeApprovedCrossCertificate_triple now user hdata htype
    | certificate => exact issueNewCertificate_triple

end Operations

end UltimateCaManager.Approvals
