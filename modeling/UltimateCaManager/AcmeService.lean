import UltimateCaManager.AcmeDomainMatch

/-!
# Order and challenge service

The database side of the order and challenge mixins. Every function takes the session of the
request and stages its writes there; the server decides when the session commits.
-/
namespace UltimateCaManager.Acme

/-- What an administrator configures: the two domain tables and the opt-in challenge type. -/
structure Settings where
  localDomains : List DomainEntry
  domains : List DomainEntry
  dnsPersist : Bool

/-- Seven days, the lifetime of orders and of authorizations. -/
def lifetime : ℕ := 7 * 24 * 3600

def stageAll (s : Session) (ws : List Write) : Session :=
  ws.foldl stage s

/-! ## Problem documents -/

def problemData (errorType detail : String) : Problem :=
  ⟨"urn:ietf:params:acme:error:" ++ errorType, detail⟩

def challengeProblem (c : Challenge) : Problem :=
  c.error.getD (problemData "malformed" "Authorization failed")

/-- Store a compound problem when several authorizations of the order failed. -/
def setOrderAuthorizationError (s : Session) (orderId : ℕ) (fallback : Problem) : Session :=
  let failed := (s.view.authorizationsOf orderId).filter (·.status = .invalid)
  let subproblems := failed.map fun a =>
    (match (s.view.challengesOf a.authorizationId).find? (·.status = .invalid) with
      | some c => challengeProblem c
      | none => problemData "malformed" "Authorization failed", a.identifier)
  stage s (.setOrderError orderId
    (if 1 < subproblems.length then
      .compound "urn:ietf:params:acme:error:compound" "Multiple authorization failures" subproblems
    else .single fallback))

/-! ## Creation -/

/-- The authorization identifier and its wildcard flag. -/
def normalizeAuthorizationIdentifier (identifier : Identifier) : Identifier × Bool :=
  match identifier.type, stripWildcard identifier.value with
  | .dns, some base => ({ identifier with value := base }, true)
  | _, _ => (identifier, false)

/-- The entry by which a domain is auto-approved: the local table is asked first. -/
def autoApproval (settings : Settings) (domain : String) : Option DomainEntry :=
  if domain = "" then none
  else ((find settings.localDomains domain).filter (·.autoApprove)).or
    ((find settings.domains domain).filter (·.autoApprove))

def isDomainAutoApproved (settings : Settings) (domain : String) : Bool :=
  (autoApproval settings domain).isSome

/-- The challenge types offered. A wildcard is never offered `http-01` or `tls-alpn-01`, an IP
address never a DNS type. -/
def challengeTypes (settings : Settings) (a : Authorization) (status : ChallengeStatus) :
    List ChallengeType :=
  (if a.identifier.type = .ip then []
    else .dns01 :: if status ≠ .valid ∧ settings.dnsPersist then [.dnsPersist01] else []) ++
  (if a.wildcard ∨ (stripWildcard a.identifier.value).isSome then [] else [.http01, .tlsAlpn01])

/-- `_create_challenges`, on random tokens for the rows. -/
def createChallenges (settings : Settings) (tokens : ℕ → ℕ) (a : Authorization)
    (status : ChallengeStatus) (validated : Option ℕ) : List Challenge :=
  (challengeTypes settings a status).mapIdx fun i type =>
    ⟨tokens (i + 1), a.authorizationId, type, status, validated, none⟩

def copyValidatedChallenges (tokens : ℕ → ℕ) (a : Authorization) (source : List Challenge) :
    List Challenge :=
  (source.filter (·.status = .valid)).mapIdx fun i c =>
    ⟨tokens (i + 1), a.authorizationId, c.type, .valid, c.validated, none⟩

/-- A row that a new authorization may reuse. -/
def reusable (now accountId : ℕ) (identifier : Identifier) (wildcard : Bool)
    (a : Authorization) : Bool :=
  a.accountId = accountId && a.identifier = identifier && a.wildcard = wildcard &&
    a.status = .valid && now < a.expires

/-- The entry that makes challenges unnecessary, for DNS identifiers only. -/
def approvalOf (settings : Settings) (identifier : Identifier) : Option DomainEntry :=
  if identifier.type = .dns then autoApproval settings identifier.value else none

/-- The row of a new authorization: valid at once when a registered entry approves the domain,
pending otherwise. -/
def newAuthorizationRow (settings : Settings) (now authorizationId : ℕ) (orderId : Option ℕ)
    (accountId : ℕ) (identifier : Identifier) : Authorization where
  authorizationId := authorizationId
  orderId := orderId
  accountId := accountId
  identifier := (normalizeAuthorizationIdentifier identifier).1
  wildcard := (normalizeAuthorizationIdentifier identifier).2
  status := if (approvalOf settings identifier).isSome then .valid else .pending
  expires := now + lifetime
  provenance := (approvalOf settings identifier).map
    (.autoApproved · (settings.localDomains ++ settings.domains))

def newAuthorization (settings : Settings) (now : ℕ) (tokens : ℕ → ℕ) (orderId : Option ℕ)
    (accountId : ℕ) (identifier : Identifier) (s : Session) : Session :=
  let a := newAuthorizationRow settings now (tokens 0) orderId accountId identifier
  let challenges := if (approvalOf settings identifier).isSome
    then createChallenges settings tokens a .valid (some now)
    else createChallenges settings tokens a .pending none
  stageAll s (.addAuthorization a :: challenges.map .addChallenge)

/-- The authorization copied from a valid one of the same account: same proof, same expiry. -/
def copyAuthorization (now : ℕ) (tokens : ℕ → ℕ) (orderId : ℕ) (source : Authorization)
    (s : Session) : Session :=
  let a : Authorization :=
    { authorizationId := tokens 0, orderId := some orderId, accountId := source.accountId,
      identifier := source.identifier, wildcard := source.wildcard, status := .valid,
      expires := source.expires, provenance := some (.reused source.authorizationId now) }
  stageAll s (.addAuthorization a ::
    (copyValidatedChallenges tokens a (s.view.challengesOf source.authorizationId)).map .addChallenge)

/-- `_create_authorization`. The flag says whether the function commits the session: a reuse is
left to a later commit. -/
def createAuthorization (settings : Settings) (now : ℕ) (tokens : ℕ → ℕ) (orderId accountId : ℕ)
    (identifier : Identifier) (s : Session) : Session × Bool :=
  let (normalized, wildcard) := normalizeAuthorizationIdentifier identifier
  match firstBy (fun a b => b.expires < a.expires)
      (s.view.authorizations.filter (reusable now accountId normalized wildcard)) with
  | some source => (copyAuthorization now tokens orderId source s, false)
  | none => (newAuthorization settings now tokens (some orderId) accountId identifier s, true)

/-- `create_pre_authorization`: nothing to commit when a valid authorization exists. -/
def createPreAuthorization (settings : Settings) (now : ℕ) (tokens : ℕ → ℕ) (accountId : ℕ)
    (identifier : Identifier) (s : Session) : Option Session :=
  let (normalized, wildcard) := normalizeAuthorizationIdentifier identifier
  if (s.view.authorizations.find? (reusable now accountId normalized wildcard)).isSome then none
  else some (newAuthorization settings now tokens none accountId identifier s)

/-- The end of `create_order`: ready at once when every authorization is already valid. The
session last knew the order as the pending row it created. -/
def finishOrder (s : Session) (orderId : ℕ) : Session :=
  let authorizations := s.view.authorizationsOf orderId
  if authorizations ≠ [] ∧ ∀ a ∈ authorizations, a.status = .valid then
    stage (s.observe (orderId, .pending)) (.setOrderStatus orderId .ready)
  else s

/-! ## Expiry and deactivation -/

def expiredAuthorizationDetail : String := "Authorization has expired"

/-- Invalidate the order if it is still open, and refresh the problem of an invalid order. -/
def failOrder (s : Session) (o : Order) (problem : Problem) : Session :=
  if o.status.isOpen then
    setOrderAuthorizationError (stageStatus s o .invalid) o.orderId problem
  else if o.status = .invalid then setOrderAuthorizationError s o.orderId problem
  else s

def failOpenChallenges (s : Session) (authorizationId : ℕ) (problem : Problem) : Session :=
  (s.view.challengesOf authorizationId).foldl (fun s c =>
    if c.status.isOpen then stage s (.setChallenge c.challengeId .invalid none (some problem))
    else s) s

def expireAuthorization (s : Session) (a : Authorization) (updateOrder : Bool) : Session :=
  let problem := problemData "malformed" expiredAuthorizationDetail
  let s := stage s (.setAuthorization a.authorizationId .invalid none)
  let s := failOpenChallenges s a.authorizationId problem
  match updateOrder, s.view.orderOf a with
  | true, some o => failOrder s o problem
  | _, _ => s

def expirePending (s : Session) (orderId : ℕ) : Session :=
  (s.view.authorizationsOf orderId).foldl (fun s a =>
    if a.status = .pending then expireAuthorization s a false else s) s

/-- `expire_order_if_needed`: the session to commit, if the order has expired unfinalized. -/
def expireOrderIfNeeded (s : Session) (now : ℕ) (o : Order) : Option Session :=
  if o.status.isOpen ∧ o.expires < now then
    let problem := problemData "malformed" "Order has expired"
    let s := stage (stageStatus s o .invalid) (.setOrderError o.orderId (.single problem))
    some (setOrderAuthorizationError (expirePending s o.orderId) o.orderId problem)
  else none

def expireAuthorizationIfNeeded (s : Session) (now : ℕ) (a : Authorization) : Option Session :=
  if a.status = .pending ∧ a.expires < now then some (expireAuthorization s a true) else none

/-- The other valid copies of the same proof, which are given up with it. -/
def validCopies (db : Db) (a : Authorization) : List Authorization :=
  if a.status = .valid then
    db.authorizations.filter fun b =>
      b.authorizationId ≠ a.authorizationId && b.accountId = a.accountId &&
        b.identifier = a.identifier && b.wildcard = a.wildcard && b.status = .valid &&
        b.expires = a.expires
  else []

/-- Deactivate one row and close its order if that is open. -/
def deactivateRow (s : Session) (row : Authorization) : Session :=
  let s := stage s (.setAuthorization row.authorizationId .deactivated none)
  match s.view.orderOf row with
  | some o =>
    if o.status.isOpen then
      stage (stageStatus s o .invalid) (.setOrderError o.orderId (.single
        (problemData "unauthorized"
          ("Authorization for " ++ row.identifier.value ++ " was deactivated"))))
    else s
  | none => s

/-- `deactivate_authorization`: nothing to commit when it is already deactivated. -/
def deactivateAuthorization (s : Session) (a : Authorization) : Option Session :=
  if a.status = .deactivated then none
  else some ((a :: validCopies s.view a).foldl deactivateRow s)

/-! ## Challenge results -/

/-- `_invalidate_challenge`: a failed challenge fails its authorization and its open order, unless
the authorization was deactivated meanwhile. -/
def invalidateChallenge (s : Session) (challengeId authorizationId : ℕ) (problem : Problem) :
    Session :=
  let s := stage s (.setChallenge challengeId .invalid none (some problem))
  match s.view.authorization? authorizationId with
  | none => s
  | some a =>
    if a.status = .deactivated then s
    else
      let s := stage s (.setAuthorization authorizationId .invalid none)
      match s.view.orderOf a with
      | some o => failOrder s o problem
      | none => s

/-- The challenges left open are dropped once one of their siblings was completed. -/
def deleteOpenChallenges (s : Session) (authorizationId : ℕ) : Session :=
  (s.view.challengesOf authorizationId).foldl (fun s c =>
    if c.status.isOpen then stage s (.deleteChallenge c.challengeId) else s) s

/-- `_update_authorization_status`, after the challenge was set valid in the session. -/
def updateAuthorizationStatus (s : Session) (authorizationId : ℕ) (type : ChallengeType) :
    Session :=
  match s.view.authorization? authorizationId with
  | none => s
  | some a =>
    if a.status = .deactivated then s
    else if (s.view.challengesOf authorizationId).any (·.status = .valid) then
      let s := stage s (.setAuthorization authorizationId .valid (some (.challenge type)))
      let s := deleteOpenChallenges s authorizationId
      match s.view.orderOf a with
      | none => s
      | some o =>
        -- the status is set whatever it was
        if (s.view.authorizationsOf o.orderId).all (·.status = .valid) then stageStatus s o .ready
        else s
    else s

/-- A validator that found the expected answer. -/
def completeChallenge (s : Session) (now challengeId authorizationId : ℕ) (type : ChallengeType) :
    Session :=
  updateAuthorizationStatus (stage s (.setChallenge challengeId .valid (some now) none))
    authorizationId type

end UltimateCaManager.Acme
