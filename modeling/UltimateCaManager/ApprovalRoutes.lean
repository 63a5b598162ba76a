import UltimateCaManager.Approvals
import UltimateCaManager.UnitOfWork

/-!
# The routes that act on approval requests

Approval, rejection, expiry and the direct actions, with the services that perform an operation
for either of them. A service commits by itself: the vote of an approver and the new status of the
request ride the commit of the service that the approval route called, and what the service does
after its commit may still fail. The second certificate of a related pair, the Microsoft CA that a
revocation is carried to and the enrolment that it disables are left out.
-/
namespace UltimateCaManager.Approvals

open UnitOfWork Work Tables

/-- An exception, as far as the approval route tells them apart. -/
structure Failure where
  isValueError : Bool
  text : List Char
  deriving DecidableEq

def valueError (text : String) : Failure := ⟨true, text.toList⟩

def otherError (text : String) : Failure := ⟨false, text.toList⟩

def occursIn (needle text : List Char) : Bool := text.tails.any needle.isPrefixOf

/-- The approval route closes a request whose operation fails with such an exception. -/
def Failure.saysGone (e : Failure) : Bool :=
  e.isValueError && occursIn "no longer exists".toList e.text

/-- What the tables do not decide about an operation: whether its service refuses it, whether the
database accepts each commit on the way, whether what follows the commit of the service or the one
that links the request fails, and the serial and the row id of what it creates. -/
structure Conduct where
  refusal : Option Failure
  accepted : Bool
  mootSaved : Bool
  aftermath : Option Failure
  linked : Bool
  reread : Option Failure
  recorded : Bool
  serial : ℕ
  rowId : ℕ
  /-- The issuer of a cross-certificate already publishes its revocation. -/
  published : Bool

abbrev Handler := Work Db Failure

def raiseIf : Option Failure → Handler Unit
  | some e => raise e
  | none => pure ()

namespace Db

variable (db : Db)

/-- History: the operation of the request, when there is one, has been performed. -/
def perform (request : Option ApprovalRequest) : Db :=
  { db with performed := db.performed ++ request.toList }

/-- A signed request holds its certificate, or becomes a CA. -/
def storeSigned (certId : ℕ) (intermediateCa : Bool) (c : Conduct) : Db :=
  if intermediateCa then
    { db with
      certificates := db.certificates.filter fun row => row.id ≠ certId
      cas := db.cas ++ [⟨c.rowId, c.rowId, some c.serial, false⟩] }
  else db.setCertificate certId fun row => { row with crt := true, serialNumber := some c.serial }

def storeRenewed (certId now : ℕ) (c : Conduct) : Db :=
  db.setCertificate certId fun row =>
    { row with serialNumber := some c.serial, renewedAt := some now }

def storeRevoked (certId : ℕ) (hold : Bool) : Db :=
  db.setCertificate certId fun row => { row with revoked := true, onHold := hold }

def storeCaRevoked (caId : ℕ) : Db :=
  { db with cas := amend (fun ca => ca.id = caId) (fun ca => { ca with revoked := true }) db.cas }

def storeCrossRevoked (id : ℕ) : Db :=
  { db with
    crossCertificates :=
      amend (fun row => row.id = id) (fun row => { row with revoked := true }) db.crossCertificates }

def storeIssued (c : Conduct) : Db :=
  { db with
    certificates := db.certificates ++ [⟨c.rowId, false, true, some c.serial, false, false, none⟩] }

end Db

/-! ## Services

`request` is the request whose approval asked for the operation; a direct action has none. -/

/-- `CertificateService.sign_csr`; the result says whether the certificate became a CA. -/
def signCsr (now : ℕ) (request : Option ApprovalRequest) (certId : ℕ) (intermediateCa : Bool)
    (actor : Actor) (c : Conduct) : Handler Bool := do
  let db ← read
  match db.certificate? certId with
  | none => raise (valueError "Certificate not found")
  | some cert =>
    if !cert.csr then raise (valueError "Certificate has no CSR")
    else if cert.crt then raise (valueError "Certificate already signed")
    else do
      raiseIf c.refusal
      stage fun db => (db.storeSigned certId intermediateCa c).perform request
      commit c.accepted (otherError "Commit failed")
      stage fun db => db.resolveMootRequests now .csr RequestData.csrId certId .approve actor
        (if intermediateCa then none else some certId) "Signed directly".toList
      let _ ← save c.mootSaved
      -- the file of the certificate is written here
      raiseIf c.aftermath
      pure intermediateCa

/-- `renew_certificate_in_place`: no effect after its commit raises. -/
def renewCertificateInPlace (now : ℕ) (request : Option ApprovalRequest) (certId : ℕ)
    (scheduled : Bool) (actor : Actor) (c : Conduct) : Handler Unit := do
  let db ← read
  match db.certificate? certId with
  | none => raise (otherError "Certificate no longer exists")
  | some _ => do
    raiseIf c.refusal
    stage fun db => (db.storeRenewed certId now c).perform request
    commit c.accepted (otherError "Failed to renew certificate")
    stage fun db => db.resolveMootRequests now .renewal RequestData.certificateId certId .approve
      actor (some certId)
      (if scheduled then "Renewed by the scheduler".toList else "Renewed directly".toList)
    let _ ← save c.mootSaved
    pure ()

/-- `revoke_certificate`; a hold leaves the requests about the certificate open. -/
def revokeCertificate (now : ℕ) (request : Option ApprovalRequest) (certId : ℕ) (hold : Bool)
    (actor : Actor) (c : Conduct) : Handler Unit := do
  let db ← read
  match db.certificate? certId with
  | none => raise (valueError "Certificate not found")
  | some cert =>
    if cert.revoked then raise (valueError "Certificate already revoked")
    else do
      raiseIf c.refusal
      stage fun db => (db.storeRevoked certId hold).perform request
      stage fun db => if hold then db else
        (db.resolveMootRequests now .renewal RequestData.certificateId certId .reject actor none
          "Certificate revoked".toList).resolveMootRequests now .revocation
            RequestData.certificateId certId .approve actor (some certId) "Revoked directly".toList
      commit c.accepted (otherError "Revocation failed")
      raiseIf c.aftermath

def revokeCa (now : ℕ) (request : Option ApprovalRequest) (caId : ℕ) (actor : Actor)
    (c : Conduct) : Handler Unit := do
  let db ← read
  match db.ca? caId with
  | none => raise (valueError "CA not found")
  | some ca =>
    if ca.revoked then raise (valueError "CA is already revoked")
    else do
      raiseIf c.refusal
      stage fun db => (db.storeCaRevoked caId).perform request
      stage fun db => db.resolveMootRequests now .caRevocation RequestData.targetCaId caId .approve
        actor none "Revoked directly".toList
      commit c.accepted (otherError "Revocation failed")
      raiseIf c.aftermath

/-- A revocation that the issuer already publishes is left to the commit of its audit entry. -/
def saveCross (c : Conduct) : Handler Unit :=
  if c.published then do
    let _ ← save c.accepted
    pure ()
  else commit c.accepted (otherError "Commit failed")

/-- `cross_certs.revoke` and `announce`. -/
def revokeCross (now : ℕ) (request : Option ApprovalRequest) (id : ℕ) (actor : Actor)
    (c : Conduct) : Handler Unit := do
  let db ← read
  match db.cross? id with
  | none => raise (otherError "Cross-certificate not found")
  | some row => do
    raiseIf c.refusal
    if row.revoked then raise (valueError "Cross-certificate is already revoked")
    else do
      stage fun db => (db.storeCrossRevoked id).perform request
      stage fun db => db.resolveMootRequests now .crossRevocation RequestData.crossCertificateId id
        .approve actor none "Revoked directly".toList
      saveCross c
      raiseIf c.aftermath

/-! ## Operations of approved requests -/

namespace Db

variable (db : Db)

def caForRequest (data : RequestData) : Option CaRow :=
  match data.caId with
  | none => none
  | some (.id n) => db.ca? n
  | some (.refid r) => db.cas.find? fun ca => ca.refid = r

def requesterName (a : ApprovalRequest) (data : RequestData) : List Char :=
  match db.requester? a with
  | some user => user.username
  | none => data.requestedBy.getD "system".toList

def approvalTargetGone (a : ApprovalRequest) : Option (List Char) :=
  let find := fun (key : RequestData → Option ℕ) => a.data?.bind key
  let serial := a.data?.bind RequestData.serialNumber
  match a.requestType with
  | .certificate => none
  | .csr =>
    if ((find RequestData.csrId).bind db.certificate?).all (!·.csr) then
      some "The request to sign no longer exists".toList
    else if (a.data?.bind db.caForRequest).isNone then
      some "The signing CA no longer exists".toList
    else none
  | .crossRevocation =>
    match (find RequestData.crossCertificateId).bind db.cross? with
    | none => some "The cross-certificate to revoke no longer exists".toList
    | some row => if row.serialNumber ≠ serial then
        some "The cross-certificate changed since the request; request its revocation again".toList
      else none
  | .caRevocation =>
    match (find RequestData.targetCaId).bind db.ca? with
    | none => some "The CA to revoke no longer exists".toList
    | some ca => if ca.serialNumber ≠ serial then
        some "The CA certificate changed since the request; request its revocation again".toList
      else none
  | .renewal =>
    if ((find RequestData.certificateId).bind db.certificate?).all (!·.crt) then
      some "The certificate to renew no longer exists".toList
    else none
  | .revocation =>
    match (find RequestData.certificateId).bind db.certificate? with
    | none => some "The certificate to revoke no longer exists".toList
    | some cert =>
      if !cert.crt then some "The certificate to revoke no longer exists".toList
      else if cert.serialNumber ≠ serial then
        some "The certificate was renewed since the request; request its revocation again".toList
      else none

/-- The update of `_link_approval`: only a request without a certificate is linked. -/
def link (ids : List ℕ) (certId : ℕ) : Db :=
  db.setRequests (fun a => a.id ∈ ids && a.certificateId = none)
    fun a => { a with certificateId := some certId }

def unlinked (id : ℕ) : List ApprovalRequest :=
  db.requests.filter fun a => a.id = id && a.certificateId = none

end Db

def linkApproval (id certId : ℕ) (c : Conduct) : Handler Unit := do
  let db ← read
  if (db.unlinked id).length ≠ 1 then do
    rollback
    raise (otherError "A certificate was already issued for this approval")
  else do
    stage fun db => db.link [id] certId
    commit c.linked (otherError "Failed to link approval to certificate")
    -- the answer reads the row of the certificate, which the commit expired
    raiseIf c.reread

def closeDuplicateRequests (now : ℕ) (a : ApprovalRequest) (key : RequestData → Option ℕ)
    (target : ℕ) (user : User) : Handler (List ℕ) := do
  let db ← read
  stage fun db => db.resolveMootRequests now a.requestType key target .approve
    ⟨user.username, some user.id⟩ none ("Approved with request #".toList ++ Nat.toDigits 10 a.id)
  pure (db.mootRequests now a.requestType key target .approve ⟨user.username, some user.id⟩)

/-- `_link_duplicates` and `_link_approval`. -/
def linkAll (a : ApprovalRequest) (duplicates : List ℕ) (certId : ℕ) (c : Conduct) :
    Handler Unit := do
  stage fun db => db.link duplicates certId
  linkApproval a.id certId c

/-- `_issue_approved_csr`. A CA has no certificate to link. -/
def issueApprovedCsr (now : ℕ) (user : User) (a : ApprovalRequest) (data : RequestData)
    (c : Conduct) : Handler Unit := do
  let db ← read
  match data.csrId.bind db.certificate? with
  | none => raise (valueError "The request to sign no longer exists")
  | some cert =>
    if !cert.csr then raise (valueError "The request to sign no longer exists")
    -- signed meanwhile
    else if cert.crt then linkApproval a.id cert.id c
    else if (db.caForRequest data).isNone then raise (valueError "The signing CA no longer exists")
    else do
      let duplicates ← closeDuplicateRequests now a RequestData.csrId cert.id user
      let isCa ← signCsr now (some a) cert.id data.intermediateCa
        ⟨((db.requester? a).map User.username).getD "system".toList, none⟩ c
      if isCa then pure () else linkAll a duplicates cert.id c

def issueApprovedRenewal (now : ℕ) (user : User) (a : ApprovalRequest) (data : RequestData)
    (c : Conduct) : Handler Unit := do
  let db ← read
  match data.certificateId.bind db.certificate? with
  | none => raise (valueError "The certificate to renew no longer exists")
  | some cert =>
    if !cert.crt then raise (valueError "The certificate to renew no longer exists")
    -- renewed meanwhile
    else if cert.renewedAt.any fun renewed => a.createdAt.any (· < renewed) then
      linkApproval a.id cert.id c
    else do
      let duplicates ← closeDuplicateRequests now a RequestData.certificateId cert.id user
      renewCertificateInPlace now (some a) cert.id data.scheduled
        ⟨db.requesterName a data, a.requesterId⟩ c
      linkAll a duplicates cert.id c

def revokeApprovedCertificate (now : ℕ) (user : User) (a : ApprovalRequest) (data : RequestData)
    (c : Conduct) : Handler Unit := do
  let db ← read
  match data.certificateId.bind db.certificate? with
  | none => raise (valueError "The certificate to revoke no longer exists")
  | some cert =>
    if !cert.crt then raise (valueError "The certificate to revoke no longer exists")
    else if cert.serialNumber ≠ data.serialNumber then
      raise (valueError
        "The certificate was renewed since the request; request its revocation again")
    else if cert.revoked then
      if cert.onHold && data.reason ≠ .hold then
        raise (valueError
          "The certificate is on hold: approve its revocation once the hold is lifted")
      else linkApproval a.id cert.id c
    else if data.reason = .invalid then
      raise (valueError "The revocation reason stored with the request is not valid")
    else do
      let duplicates ← closeDuplicateRequests now a RequestData.certificateId cert.id user
      let name := db.requesterName a data
      revokeCertificate now (some a) cert.id (data.reason = .hold)
        ⟨name, if user.username = name then some user.id else none⟩ c
      linkAll a duplicates cert.id c

def revokeApprovedCa (now : ℕ) (user : User) (a : ApprovalRequest) (data : RequestData)
    (c : Conduct) : Handler Unit := do
  let db ← read
  match data.targetCaId.bind db.ca? with
  | none => raise (valueError "The CA to revoke no longer exists")
  | some ca =>
    if ca.revoked then pure ()
    else if data.reason = .invalid then
      raise (valueError "The revocation reason stored with the request is not valid")
    else do
      let _ ← closeDuplicateRequests now a RequestData.targetCaId ca.id user
      revokeCa now (some a) ca.id ⟨db.requesterName a data, none⟩ c

def revokeApprovedCrossCertificate (now : ℕ) (user : User) (a : ApprovalRequest)
    (data : RequestData) (c : Conduct) : Handler Unit := do
  let db ← read
  match data.crossCertificateId.bind db.cross? with
  | none => raise (valueError "The cross-certificate to revoke no longer exists")
  | some row =>
    if row.revoked then pure ()
    else if data.reason = .invalid then
      raise (valueError "The revocation reason stored with the request is not valid")
    else do
      let _ ← closeDuplicateRequests now a RequestData.crossCertificateId row.id user
      revokeCross now (some a) row.id ⟨db.requesterName a data, none⟩ c

/-- A new certificate: it is stored and linked by one commit. -/
def issueNewCertificate (a : ApprovalRequest) (c : Conduct) : Handler Unit := do
  raiseIf c.refusal
  stage fun db => (db.storeIssued c).perform (some a)
  linkApproval a.id c.rowId c

def issueApprovedCertificate (now : ℕ) (user : User) (a : ApprovalRequest) (c : Conduct) :
    Handler Unit :=
  match a.data? with
  | none => raise (valueError "No request data stored in approval")
  | some data =>
    match a.requestType with
    | .csr => issueApprovedCsr now user a data c
    | .renewal => issueApprovedRenewal now user a data c
    | .revocation => revokeApprovedCertificate now user a data c
    | .caRevocation => revokeApprovedCa now user a data c
    | .crossRevocation => revokeApprovedCrossCertificate now user a data c
    | .certificate => issueNewCertificate a c

/-! ## Routes -/

inductive Answer
  | notFound
  | already (status : Status)
  | expired
  | forbidden
  | ownRequest
  | alreadyVoted
  | noComment
  | closed (reason : List Char)
  | recorded
  | notSaved
  deriving DecidableEq

/-- The answer of a route. `failure` is a history variable: the exception that the operation of the
request ended with. -/
structure Reply where
  answer : Answer
  failure : Option Failure
  deriving DecidableEq

/-- `_user_can_act_on_approval`. -/
def Db.userCanAct (db : Db) (user : User) (a : ApprovalRequest) : Bool :=
  user.isAdmin || ((a.policyId.bind db.policy?).bind Policy.approvalGroupId).all (· ∈ user.groups)

def Db.putRequest (db : Db) (a : ApprovalRequest) : Db :=
  db.setRequests (fun row => row.id = a.id) fun _ => a

/-- The commit that ends a route. -/
def conclude (saved : Bool) (reply : Reply) : Handler Reply := do
  let ok ← save saved
  pure (if ok then reply else { reply with answer := .notSaved })

/-- A request past its deadline is marked when a route comes across it. -/
def expireRequest (a : ApprovalRequest) (saved : Bool) : Handler Reply := do
  stage fun db => db.putRequest { a with status := .expired }
  let _ ← save saved
  pure ⟨.expired, none⟩

def closeRequestTargetGone (a : ApprovalRequest) (reason : List Char) (user : User) (saved : Bool)
    (failure : Option Failure) : Handler Reply := do
  stage fun db => db.putRequest
    { a.addApproval ⟨some user.id, user.username, .reject, some reason⟩ with status := .rejected }
  conclude saved ⟨.closed reason, failure⟩

/-- The approval route after its operation failed: the rollback has discarded the vote. -/
def handleFailure (id : ℕ) (user : User) (c : Conduct) (e : Failure) : Handler Reply := do
  rollback
  let db ← read
  match db.request? id with
  | none => pure ⟨.notFound, some e⟩
  | some a =>
    if a.status ≠ .pending then pure ⟨.already a.status, some e⟩
    else if e.saysGone then closeRequestTargetGone a e.text user c.recorded (some e)
    else conclude c.recorded ⟨.recorded, some e⟩

/-- The approval route from the vote on. -/
def recordVote (now : ℕ) (a : ApprovalRequest) (user : User) (comment : Option (List Char))
    (c : Conduct) : Handler Reply := do
  let voted := a.addApproval ⟨some user.id, user.username, .approve, comment⟩
  stage fun db => db.putRequest voted
  if voted.status = .approved ∧ voted.requestData.isSome ∧ voted.certificateId = none then do
    match ← attempt (issueApprovedCertificate now user voted c) with
    | .ok () => conclude c.recorded ⟨.recorded, none⟩
    | .error e => handleFailure a.id user c e
  else conclude c.recorded ⟨.recorded, none⟩

def approveRequest (now id : ℕ) (user : Option User) (comment : Option (List Char)) (c : Conduct) :
    Handler Reply := do
  let db ← read
  match db.request? id with
  | none => pure ⟨.notFound, none⟩
  | some a =>
    if a.status ≠ .pending then pure ⟨.already a.status, none⟩
    else if a.isExpired now then expireRequest a c.recorded
    else match user with
      | none => pure ⟨.forbidden, none⟩
      | some user =>
        if !db.userCanAct user a then pure ⟨.forbidden, none⟩
        else if user.id ≠ 0 ∧ a.requesterId = some user.id then pure ⟨.ownRequest, none⟩
        else if a.approvals.any (·.userId = some user.id) then pure ⟨.alreadyVoted, none⟩
        else match db.approvalTargetGone a with
          | some reason => closeRequestTargetGone a reason user c.recorded none
          | none => recordVote now a user comment c

/-- `reject_request`: a requester may reject, and the reason is required. -/
def rejectRequest (now id : ℕ) (user : Option User) (comment : List Char) (saved : Bool) :
    Handler Reply := do
  let db ← read
  if comment = [] then pure ⟨.noComment, none⟩
  else match db.request? id with
    | none => pure ⟨.notFound, none⟩
    | some a =>
      if a.status ≠ .pending then pure ⟨.already a.status, none⟩
      else if a.isExpired now then expireRequest a saved
      else match user with
        | none => pure ⟨.forbidden, none⟩
        | some user =>
          if !db.userCanAct user a then pure ⟨.forbidden, none⟩
          else if a.approvals.any (·.userId = some user.id) then pure ⟨.alreadyVoted, none⟩
          else do
            stage fun db => db.putRequest
              (a.addApproval ⟨some user.id, user.username, .reject, some comment⟩)
            conclude saved ⟨.recorded, none⟩

def getApproval (now id : ℕ) (saved : Bool) : Handler Reply := do
  let db ← read
  match db.request? id with
  | none => pure ⟨.notFound, none⟩
  | some a =>
    if a.status = .pending && a.isExpired now then expireRequest a saved
    else pure ⟨.recorded, none⟩

def expireStaleRequests (now : ℕ) (saved : Bool) : Handler Unit := do
  stage fun db => db.setRequests (fun a => a.status = .pending && a.isExpired now)
    fun a => { a with status := .expired }
  let _ ← save saved
  pure ()

def createApprovalRequest (now policyId : ℕ) (type : RequestType) (data : RequestData)
    (requesterId : Option ℕ) (saved : Bool) : Handler Unit := do
  let db ← read
  match db.policy? policyId with
  | none => pure ()
  | some policy => do
    stage fun db => { db with
      requests := db.requests ++ [⟨db.requestIds, type, some (some data), some policyId, requesterId,
        .pending, [], policy.requiredApprovals, none, some now, some (now + requestLifetime)⟩]
      requestIds := db.requestIds + 1 }
    let _ ← save saved
    pure ()

/-- `complete_external_csr` and the import of what a Microsoft CA signed. -/
def importSigned (now certId : ℕ) (actor : Actor) (c : Conduct) : Handler Unit := do
  let db ← read
  match db.certificate? certId with
  | none => raise (valueError "Not a pending CSR")
  | some cert =>
    if !cert.csr || cert.crt then raise (valueError "Not a pending CSR")
    else do
      raiseIf c.refusal
      stage fun db => db.storeSigned certId false c
      commit c.accepted (otherError "Commit failed")
      stage fun db => db.resolveMootRequests now .csr RequestData.csrId certId .approve actor
        (some certId) "Certificate imported".toList
      let _ ← save c.mootSaved
      raiseIf c.aftermath

/-- `delete_certificate`: the requests linked to it go with it. -/
def deleteCertificate (now certId : ℕ) (actor : Actor) (saved : Bool) : Handler Unit := do
  stage fun db => ((db.resolveMootRequests now .csr RequestData.csrId certId .reject actor none
    "Request deleted".toList).resolveMootRequests now .renewal RequestData.certificateId certId
      .reject actor none "Certificate deleted".toList).resolveMootRequests now .revocation
        RequestData.certificateId certId .reject actor none "Certificate deleted".toList
  stage fun db => { db with
    requests := db.requests.filter fun a => a.certificateId ≠ some certId
    certificates := db.certificates.filter fun row => row.id ≠ certId }
  let _ ← save saved
  pure ()

def liftHold (certId : ℕ) (saved : Bool) : Handler Unit := do
  stage fun db => db.setCertificate certId fun row =>
    if row.revoked && row.onHold then { row with revoked := false, onHold := false } else row
  let _ ← save saved
  pure ()

/-! ## Runs -/

structure World where
  now : ℕ
  db : Db

inductive Label
  | tick (seconds : ℕ)
  | submit (policyId : ℕ) (type : RequestType) (data : RequestData) (requesterId : Option ℕ)
      (saved : Bool)
  | approve (id : ℕ) (user : Option User) (comment : Option (List Char)) (c : Conduct)
  | reject (id : ℕ) (user : Option User) (comment : List Char) (saved : Bool)
  | get (id : ℕ) (saved : Bool)
  | expireStale (saved : Bool)
  | sign (certId : ℕ) (intermediateCa : Bool) (actor : Actor) (c : Conduct)
  | importSigned (certId : ℕ) (actor : Actor) (c : Conduct)
  | renew (certId : ℕ) (scheduled : Bool) (actor : Actor) (c : Conduct)
  | revoke (certId : ℕ) (hold : Bool) (actor : Actor) (c : Conduct)
  | revokeCa (caId : ℕ) (actor : Actor) (c : Conduct)
  | revokeCross (id : ℕ) (actor : Actor) (c : Conduct)
  | delete (certId : ℕ) (actor : Actor) (saved : Bool)
  | liftHold (certId : ℕ) (saved : Bool)

def Label.effect (now : ℕ) (db : Db) : Label → Db
  | .tick _ => db
  | .submit policyId type data requesterId saved =>
    (createApprovalRequest now policyId type data requesterId saved).run db
  | .approve id user comment c => (approveRequest now id user comment c).run db
  | .reject id user comment saved => (rejectRequest now id user comment saved).run db
  | .get id saved => (getApproval now id saved).run db
  | .expireStale saved => (expireStaleRequests now saved).run db
  | .sign certId intermediateCa actor c => (signCsr now none certId intermediateCa actor c).run db
  | .importSigned certId actor c => (Approvals.importSigned now certId actor c).run db
  | .renew certId scheduled actor c =>
    (renewCertificateInPlace now none certId scheduled actor c).run db
  | .revoke certId hold actor c => (revokeCertificate now none certId hold actor c).run db
  | .revokeCa caId actor c => (Approvals.revokeCa now none caId actor c).run db
  | .revokeCross id actor c => (Approvals.revokeCross now none id actor c).run db
  | .delete certId actor saved => (deleteCertificate now certId actor saved).run db
  | .liftHold certId saved => (Approvals.liftHold certId saved).run db

def Label.seconds : Label → ℕ
  | .tick seconds => seconds
  | _ => 0

def step (w : World) (l : Label) : World := ⟨w.now + l.seconds, l.effect w.now w.db⟩

def World.init (now : ℕ) (users : List User) (policies : List Policy) (certificates : List CertRow)
    (cas : List CaRow) (crossCertificates : List CrossRow) : World :=
  ⟨now, users, policies, certificates, cas, crossCertificates, [], 1, []⟩

end UltimateCaManager.Approvals
