import UltimateCaManager.Tables

/-!
# Approval requests

The rows of `approval_requests` with the tables that their routes read, `add_approval`, and the
resolution of the requests that an action makes moot. The row locks make each route one step on
the requests it acts on. The dates of resolutions and votes, which nothing here reads, are left
out, and so is the spelling of a stored request: what is modelled is the dictionary it parses to.
-/
namespace UltimateCaManager.Approvals

open Tables

inductive RequestType
  | certificate | csr | renewal | revocation | caRevocation | crossRevocation
  deriving DecidableEq

inductive Status
  | pending | approved | rejected | expired | cancelled
  deriving DecidableEq

inductive Action
  | approve | reject
  deriving DecidableEq

/-- The status of a request that is resolved with an outcome. -/
def Action.status : Action → Status
  | .approve => .approved
  | .reject => .rejected

/-- An entry of the `approvals` array. -/
structure Vote where
  userId : Option ℕ
  username : List Char
  action : Action
  comment : Option (List Char)
  deriving DecidableEq

/-- A CA named by its id or by its reference. -/
inductive CaRef
  | id (n : ℕ)
  | refid (r : ℕ)

/-- What is read of the stored reason of a revocation. -/
inductive StoredReason
  | lasting | hold | invalid
  deriving DecidableEq

/-- The stored request. -/
structure RequestData where
  csrId : Option ℕ
  certificateId : Option ℕ
  targetCaId : Option ℕ
  crossCertificateId : Option ℕ
  caId : Option CaRef
  serialNumber : Option ℕ
  reason : StoredReason
  intermediateCa : Bool
  scheduled : Bool
  requestedBy : Option (List Char)

/-- A row of `approval_requests`. The text of `request_data` is absent, or it parses to a
dictionary or to nothing. -/
structure ApprovalRequest where
  id : ℕ
  requestType : RequestType
  requestData : Option (Option RequestData)
  policyId : Option ℕ
  requesterId : Option ℕ
  status : Status
  approvals : List Vote
  requiredApprovals : ℤ
  certificateId : Option ℕ
  createdAt : Option ℕ
  expiresAt : Option ℕ

def requestLifetime : ℕ := 7 * 24 * 3600

namespace ApprovalRequest

variable (a : ApprovalRequest)

/-- `get_request_data`. -/
def data? : Option RequestData := a.requestData.join

def deadline : Option ℕ :=
  match a.expiresAt with
  | some expires => some expires
  | none => a.createdAt.map (· + requestLifetime)

/-- `approval_is_expired`. -/
def isExpired (now : ℕ) : Bool := a.deadline.any (· < now)

def approveCount : ℕ := a.approvals.countP fun v => v.action = .approve

def rejectCount : ℕ := a.approvals.countP fun v => v.action = .reject

/-- `add_approval`: the required approvals are looked at before the rejections. -/
def addApproval (vote : Vote) : ApprovalRequest :=
  let a := { a with approvals := a.approvals ++ [vote] }
  if a.requiredApprovals ≤ a.approveCount then { a with status := .approved }
  else if 0 < a.rejectCount then { a with status := .rejected }
  else a

/-- A pending request of the type whose stored request names the target. -/
def isPendingNaming (type : RequestType) (key : RequestData → Option ℕ) (target : ℕ) : Bool :=
  a.status = .pending && a.requestType = type && a.data?.any (key · = some target)

end ApprovalRequest

structure User where
  id : ℕ
  username : List Char
  isAdmin : Bool
  groups : List ℕ
  id_pos : 0 < id

/-- A row of `certificate_policies`: `min_approvers` is stored as it was sent. -/
structure Policy where
  id : ℕ
  approvalGroupId : Option ℕ
  minApprovers : Option ℤ

/-- `min_approvers or 1`. -/
def Policy.requiredApprovals (p : Policy) : ℤ :=
  match p.minApprovers with
  | some n => if n = 0 then 1 else n
  | none => 1

/-- A row of `certificates`: whether it holds a request and a certificate. -/
structure CertRow where
  id : ℕ
  csr : Bool
  crt : Bool
  serialNumber : Option ℕ
  revoked : Bool
  onHold : Bool
  renewedAt : Option ℕ

structure CaRow where
  id : ℕ
  refid : ℕ
  serialNumber : Option ℕ
  revoked : Bool

structure CrossRow where
  id : ℕ
  serialNumber : Option ℕ
  revoked : Bool

/-- `performed` is a history variable: the requests whose operation the approval route has
performed, as they stood at that moment. -/
structure Db where
  users : List User
  policies : List Policy
  certificates : List CertRow
  cas : List CaRow
  crossCertificates : List CrossRow
  requests : List ApprovalRequest
  requestIds : ℕ
  performed : List ApprovalRequest

/-- Who an action is recorded under. -/
structure Actor where
  username : List Char
  userId : Option ℕ

namespace Db

variable (db : Db)

def user? (id : ℕ) : Option User := db.users.find? fun u => u.id = id

def policy? (id : ℕ) : Option Policy := db.policies.find? fun p => p.id = id

def certificate? (id : ℕ) : Option CertRow := db.certificates.find? fun c => c.id = id

def ca? (id : ℕ) : Option CaRow := db.cas.find? fun ca => ca.id = id

def cross? (id : ℕ) : Option CrossRow := db.crossCertificates.find? fun c => c.id = id

def request? (id : ℕ) : Option ApprovalRequest := db.requests.find? fun a => a.id = id

def setRequests (p : ApprovalRequest → Bool) (f : ApprovalRequest → ApprovalRequest) : Db :=
  { db with requests := amend p f db.requests }

def setCertificate (id : ℕ) (f : CertRow → CertRow) : Db :=
  { db with certificates := amend (fun c => c.id = id) f db.certificates }

def requester? (a : ApprovalRequest) : Option User := a.requesterId.bind db.user?

/-! ## Requests that an action makes moot -/

def actedByRequester (a : ApprovalRequest) (actor : Actor) : Bool :=
  match actor.userId with
  | some id => a.requesterId = some id
  | none => actor.username ≠ [] && (db.requester? a).any (·.username = actor.username)

/-- One request of `_resolve_moot_requests`. -/
def resolveRequest (now : ℕ) (outcome : Action) (actor : Actor) (certificateId : Option ℕ)
    (reason : List Char) (a : ApprovalRequest) : ApprovalRequest :=
  if a.isExpired now then { a with status := .expired }
  else if outcome = .approve && db.actedByRequester a actor then { a with status := .cancelled }
  else
    { a.addApproval ⟨actor.userId, actor.username, outcome, some reason⟩ with
      status := outcome.status
      certificateId := if outcome = .approve then certificateId.or a.certificateId
        else a.certificateId }

/-- `_resolve_moot_requests` before its commit. -/
def resolveMootRequests (now : ℕ) (type : RequestType) (key : RequestData → Option ℕ)
    (target : ℕ) (outcome : Action) (actor : Actor) (certificateId : Option ℕ)
    (reason : List Char) : Db :=
  db.setRequests (·.isPendingNaming type key target)
    (db.resolveRequest now outcome actor certificateId reason)

/-- The requests that `_resolve_moot_requests` returns: neither expired nor cancelled. -/
def mootRequests (now : ℕ) (type : RequestType) (key : RequestData → Option ℕ) (target : ℕ)
    (outcome : Action) (actor : Actor) : List ℕ :=
  (db.requests.filter fun a => a.isPendingNaming type key target && !a.isExpired now &&
    !(outcome = .approve && db.actedByRequester a actor)).map ApprovalRequest.id

end Db

end UltimateCaManager.Approvals
