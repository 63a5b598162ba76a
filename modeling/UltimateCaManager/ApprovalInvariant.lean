import UltimateCaManager.ApprovalRoutes
import Mathlib.Data.Finset.Card

/-!
# What every table of approval requests keeps

A pending request holds approvals of distinct users other than its requester and nothing else; a
request that is no longer pending keeps its status and its votes; an operation is performed once,
for a request that enough users have approved.
-/
namespace UltimateCaManager.Approvals

open List UnitOfWork Tables

/-! ## Votes -/

structure IsClean (a : ApprovalRequest) : Prop where
  approve : ∀ v ∈ a.approvals, v.action = .approve
  voter : ∀ v ∈ a.approvals, ∃ u, v.userId = some u ∧ a.requesterId ≠ some u
  distinct : (a.approvals.map Vote.userId).Nodup

/-- Nobody has rejected the request, and as many users as it requires have approved it, one at
least, the requester not among them. -/
def ApprovalRequest.IsAuthorised (a : ApprovalRequest) : Prop :=
  (∀ v ∈ a.approvals, v.action ≠ .reject) ∧
    ∃ users : Finset ℕ, (∀ u ∈ users, a.requesterId ≠ some u ∧
      ∃ v ∈ a.approvals, v.userId = some u ∧ v.action = .approve) ∧
      a.requiredApprovals ≤ users.card ∧ 1 ≤ users.card

variable {a : ApprovalRequest} {db db' : Db}

theorem IsClean.isAuthorised (h : IsClean a) (hne : a.approvals ≠ [])
    (hreq : a.requiredApprovals ≤ a.approveCount) : a.IsAuthorised := by
  -- the users are read off the votes, one for each
  let ids : List ℕ := (a.approvals.map Vote.userId).map (·.getD 0)
  have hnodup : ids.Nodup := by
    refine List.Nodup.map_on (fun x hx y hy hxy => ?_) h.distinct
    obtain ⟨v, hv, rfl⟩ := mem_map.mp hx
    obtain ⟨w, hw, rfl⟩ := mem_map.mp hy
    obtain ⟨u, hu, -⟩ := h.voter v hv
    obtain ⟨u', hu', -⟩ := h.voter w hw
    simp_all
  have hcard : ids.toFinset.card = a.approvals.length := by
    rw [toFinset_card_of_nodup hnodup]
    simp [ids]
  have hpos : 0 < a.approvals.length := length_pos_of_ne_nil hne
  refine ⟨fun v hv => by simp [h.approve v hv], ids.toFinset, fun u hu => ?_, ?_, by omega⟩
  · simp only [ids, map_map, mem_toFinset, mem_map] at hu
    obtain ⟨v, hv, rfl⟩ := hu
    obtain ⟨u, hu, hne⟩ := h.voter v hv
    have hget : (Option.getD v.userId 0) = u := by simp [hu]
    exact ⟨by simpa [hget] using hne, v, hv, by simp [hu], h.approve v hv⟩
  · rw [ApprovalRequest.approveCount, countP_eq_length.mpr (by simpa using h.approve)] at hreq
    rw [hcard]
    exact hreq

/-! ## One more vote -/

section AddApproval

variable (a : ApprovalRequest) (vote : Vote)

theorem addApproval_eq : a.addApproval vote =
    { a with approvals := a.approvals ++ [vote], status := (a.addApproval vote).status } := by
  unfold ApprovalRequest.addApproval
  dsimp only
  split_ifs <;> rfl

@[simp] theorem addApproval_id : (a.addApproval vote).id = a.id := by rw [addApproval_eq]

@[simp] theorem addApproval_approvals : (a.addApproval vote).approvals = a.approvals ++ [vote] := by
  rw [addApproval_eq]

@[simp] theorem addApproval_requesterId : (a.addApproval vote).requesterId = a.requesterId := by
  rw [addApproval_eq]

@[simp] theorem addApproval_requestType : (a.addApproval vote).requestType = a.requestType := by
  rw [addApproval_eq]

@[simp] theorem addApproval_requestData : (a.addApproval vote).requestData = a.requestData := by
  rw [addApproval_eq]

/-- A pending request is approved by a vote only when the approvals suffice. -/
theorem required_of_addApproval (hpending : a.status = .pending)
    (h : (a.addApproval vote).status = .approved) :
    (a.addApproval vote).requiredApprovals ≤ (a.addApproval vote).approveCount := by
  unfold ApprovalRequest.addApproval at h ⊢
  dsimp only at h ⊢
  split_ifs at h ⊢ with hreq hrej
  · exact hreq
  · rw [hpending] at h
    cases h

theorem addApproval_reject_ne_pending (h : vote.action = .reject) :
    (a.addApproval vote).status ≠ .pending := by
  have hcount : 0 < ({ a with approvals := a.approvals ++ [vote] } : ApprovalRequest).rejectCount := by
    rw [ApprovalRequest.rejectCount, countP_pos_iff]
    exact ⟨vote, by simp, by simp [h]⟩
  unfold ApprovalRequest.addApproval
  dsimp only
  split_ifs <;> simp

variable {a}

/-- The approval of a user who is neither the requester nor among the voters. -/
theorem IsClean.addApproval (h : IsClean a) {user : User} {comment : Option (List Char)}
    (hself : a.requesterId ≠ some user.id)
    (hnew : a.approvals.any (·.userId = some user.id) = false) :
    IsClean (a.addApproval ⟨some user.id, user.username, .approve, comment⟩) := by
  simp only [any_eq_false, decide_eq_true_eq] at hnew
  refine ⟨fun v hv => ?_, fun v hv => ?_, ?_⟩
  · rw [addApproval_approvals, mem_append, mem_singleton] at hv
    rcases hv with hv | rfl
    · exact h.approve v hv
    · rfl
  · rw [addApproval_approvals, mem_append, mem_singleton] at hv
    rw [addApproval_requesterId]
    rcases hv with hv | rfl
    · exact h.voter v hv
    · exact ⟨user.id, rfl, hself⟩
  · rw [addApproval_approvals, map_append, nodup_append]
    refine ⟨h.distinct, by simp, fun x hx y hy => ?_⟩
    obtain ⟨v, hv, rfl⟩ := mem_map.mp hx
    simp only [map_cons, map_nil, mem_singleton] at hy
    rw [hy]
    exact hnew v hv

end AddApproval

/-! ## Tables -/

/-- What a step may make of a request: one that is closed keeps its status and its votes. -/
structure Moves (a a' : ApprovalRequest) : Prop where
  id : a'.id = a.id
  closed : a.status ≠ .pending → a'.status = a.status ∧ a'.approvals = a.approvals
  pending : a.status = .pending → a'.status = .pending → IsClean a → IsClean a'

theorem Moves.close {a' : ApprovalRequest} (hid : a'.id = a.id) (hpending : a.status = .pending)
    (hclosed : a'.status ≠ .pending) : Moves a a' :=
  ⟨hid, fun h => absurd hpending h, fun _ h => absurd h hclosed⟩

theorem Moves.link (a : ApprovalRequest) (certId : ℕ) :
    Moves a { a with certificateId := some certId } :=
  ⟨rfl, fun _ => ⟨rfl, rfl⟩, fun _ _ h => ⟨h.approve, h.voter, h.distinct⟩⟩

structure Sound (db : Db) : Prop where
  unique : (db.requests.map ApprovalRequest.id).Nodup
  bound : ∀ a ∈ db.requests, a.id < db.requestIds
  clean : ∀ a ∈ db.requests, a.status = .pending → IsClean a
  once : (db.performed.map ApprovalRequest.id).Nodup
  performed_bound : ∀ p ∈ db.performed, p.id < db.requestIds
  authorised : ∀ p ∈ db.performed, p.IsAuthorised
  kept : ∀ p ∈ db.performed, ∀ a ∈ db.requests, a.id = p.id →
    a.status = .approved ∧ a.approvals = p.approvals

/-- The requests of a later table are new, or come from requests that they are a continuation
of. -/
structure Follows (db db' : Db) : Prop where
  ids : db.requestIds ≤ db'.requestIds
  source : ∀ a' ∈ db'.requests, a'.id < db.requestIds → ∃ a ∈ db.requests, a.id = a'.id ∧
    (a.status ≠ .pending → a'.status = a.status ∧ a'.approvals = a.approvals)

theorem Follows.refl (db : Db) : Follows db db :=
  ⟨le_rfl, fun a ha _ => ⟨a, ha, rfl, fun _ => ⟨rfl, rfl⟩⟩⟩

theorem Follows.trans {db'' : Db} (h : Follows db db') (h' : Follows db' db'') :
    Follows db db'' := by
  refine ⟨h.ids.trans h'.ids, fun a'' ha'' hlt => ?_⟩
  obtain ⟨a', ha', hid', hkeep'⟩ := h'.source a'' ha'' (lt_of_lt_of_le hlt h.ids)
  obtain ⟨a, ha, hid, hkeep⟩ := h.source a' ha' (hid' ▸ hlt)
  refine ⟨a, ha, hid.trans hid', fun hclosed => ?_⟩
  obtain ⟨hstatus, hvotes⟩ := hkeep hclosed
  obtain ⟨hstatus', hvotes'⟩ := hkeep' (hstatus ▸ hclosed)
  exact ⟨hstatus'.trans hstatus, hvotes'.trans hvotes⟩

theorem Follows.status_eq (hs : Sound db) (h : Follows db db') {a' : ApprovalRequest}
    (ha : a ∈ db.requests) (hclosed : a.status ≠ .pending) (ha' : a' ∈ db'.requests)
    (hid : a'.id = a.id) : a'.status = a.status := by
  obtain ⟨b, hb, hbid, hkeep⟩ := h.source a' ha' (hid ▸ hs.bound a ha)
  obtain rfl : b = a := eq_of_key hs.unique hb ha (hbid.trans hid)
  exact (hkeep hclosed).1

def Advances (db db' : Db) : Prop := Sound db → Sound db' ∧ Follows db db'

theorem Advances.trans {db'' : Db} (h : Advances db db') (h' : Advances db' db'') :
    Advances db db'' := by
  intro hs
  obtain ⟨hs', hf⟩ := h hs
  obtain ⟨hs'', hf'⟩ := h' hs'
  exact ⟨hs'', hf.trans hf'⟩

theorem advances_setRequests {p : ApprovalRequest → Bool}
    {f : ApprovalRequest → ApprovalRequest}
    (hmoves : ∀ a ∈ db.requests, p a = true → Moves a (f a)) : Advances db (db.setRequests p f) := by
  intro hs
  -- every row of the new table is a continuation of one of the old
  have hrow : ∀ a' ∈ (db.setRequests p f).requests, ∃ a ∈ db.requests, Moves a a' :=
    forall_mem_amend (fun a ha => ⟨a, ha, rfl, fun _ => ⟨rfl, rfl⟩, fun _ _ h => h⟩)
      fun a ha hp _ => ⟨a, ha, hmoves a ha hp⟩
  have hids : (db.setRequests p f).requests.map ApprovalRequest.id =
      db.requests.map ApprovalRequest.id := by
    simp only [Db.setRequests, amend, map_map]
    refine map_congr_left fun a ha => ?_
    by_cases hp : p a = true
    · simp [hp, (hmoves a ha hp).id]
    · simp [hp]
  refine ⟨⟨hids ▸ hs.unique, fun a' ha' => ?_, fun a' ha' hpending => ?_, hs.once,
    hs.performed_bound, hs.authorised, fun q hq a' ha' hid => ?_⟩, le_rfl, fun a' ha' _ => ?_⟩
  · obtain ⟨a, ha, hm⟩ := hrow a' ha'
    exact hm.id ▸ hs.bound a ha
  · obtain ⟨a, ha, hm⟩ := hrow a' ha'
    by_cases h : a.status = .pending
    · exact hm.pending h hpending (hs.clean a ha h)
    · exact absurd ((hm.closed h).1 ▸ hpending) h
  · obtain ⟨a, ha, hm⟩ := hrow a' ha'
    obtain ⟨hstatus, hvotes⟩ := hs.kept q hq a ha (hm.id ▸ hid)
    obtain ⟨hstatus', hvotes'⟩ := hm.closed (by simp [hstatus])
    exact ⟨hstatus'.trans hstatus, hvotes'.trans hvotes⟩
  · obtain ⟨a, ha, hm⟩ := hrow a' ha'
    exact ⟨a, ha, hm.id.symm, hm.closed⟩

theorem advances_of_eq (hr : db'.requests = db.requests)
    (hi : db'.requestIds = db.requestIds) (hp : db'.performed = db.performed) :
    Advances db db' := by
  intro hs
  refine ⟨⟨hr ▸ hs.unique, ?_, hr ▸ hs.clean, hp ▸ hs.once, ?_, hp ▸ hs.authorised, ?_⟩, hi.ge, ?_⟩
  · rw [hr, hi]
    exact hs.bound
  · rw [hp, hi]
    exact hs.performed_bound
  · rw [hr, hp]
    exact hs.kept
  · rw [hr]
    exact (Follows.refl db).source

/-- The operation of an authorised request is recorded once. -/
theorem advances_perform (ha : a ∈ db.requests)
    (happroved : a.status = .approved) (hauth : a.IsAuthorised)
    (hnew : ∀ p ∈ db.performed, p.id ≠ a.id) : Advances db (db.perform (some a)) := by
  intro hs
  have hmem : ∀ p, p ∈ (db.perform (some a)).performed ↔ p ∈ db.performed ∨ p = a := by
    simp [Db.perform]
  refine ⟨⟨hs.unique, hs.bound, hs.clean, nodup_concat hs.once hnew, fun p hp => ?_,
    fun p hp => ?_, fun p hp b hb hid => ?_⟩, (Follows.refl db).ids, (Follows.refl db).source⟩
  · rcases (hmem p).mp hp with hp | rfl
    · exact hs.performed_bound p hp
    · exact hs.bound p ha
  · rcases (hmem p).mp hp with hp | rfl
    · exact hs.authorised p hp
    · exact hauth
  · rcases (hmem p).mp hp with hp | rfl
    · exact hs.kept p hp b hb hid
    · obtain rfl : b = p := eq_of_key hs.unique hb ha hid
      exact ⟨happroved, rfl⟩

/-- A new request takes the next id, and nobody has voted on it. -/
theorem advances_append (hid : a.id = db.requestIds) (hvotes : a.approvals = []) :
    Advances db { db with requests := db.requests ++ [a], requestIds := db.requestIds + 1 } := by
  intro hs
  have hnew : ∀ b ∈ db.requests, b.id ≠ a.id := fun b hb h => by
    have := hs.bound b hb
    omega
  refine ⟨⟨nodup_concat hs.unique hnew, forall_mem_concat.mpr ⟨fun b hb => ?_, ?_⟩,
    forall_mem_concat.mpr ⟨hs.clean, fun _ => ?_⟩, hs.once,
    fun p hp => Nat.lt_succ_of_lt (hs.performed_bound p hp), hs.authorised,
    fun p hp => forall_mem_concat.mpr ⟨hs.kept p hp, fun hbp => ?_⟩⟩, Nat.le_succ _,
    forall_mem_concat.mpr ⟨fun b hb _ => ⟨b, hb, rfl, fun _ => ⟨rfl, rfl⟩⟩, fun hlt => ?_⟩⟩
  · exact Nat.lt_succ_of_lt (hs.bound b hb)
  · exact hid ▸ Nat.lt_succ_self _
  · exact ⟨by simp [hvotes], by simp [hvotes], by simp [hvotes]⟩
  · have hlt := hs.performed_bound p hp
    omega
  · omega

theorem advances_filter (db : Db) (p : ApprovalRequest → Bool) (certificates : List CertRow) :
    Advances db
      { db with requests := db.requests.filter p, certificates := certificates } := by
  intro hs
  have hsub : ∀ b ∈ db.requests.filter p, b ∈ db.requests := fun b hb => (mem_filter.mp hb).1
  exact ⟨⟨hs.unique.sublist (filter_sublist.map _), fun b hb => hs.bound b (hsub b hb),
    fun b hb => hs.clean b (hsub b hb), hs.once, hs.performed_bound, hs.authorised,
    fun q hq b hb => hs.kept q hq b (hsub b hb)⟩, le_rfl,
    fun b hb _ => ⟨b, hsub b hb, rfl, fun _ => ⟨rfl, rfl⟩⟩⟩

theorem Sound.not_performed (h : Sound db) (ha : a ∈ db.requests)
    (hpending : a.status = .pending) : ∀ p ∈ db.performed, p.id ≠ a.id := by
  intro p hp hid
  have := (h.kept p hp a ha hid.symm).1
  rw [hpending] at this
  cases this

end UltimateCaManager.Approvals
