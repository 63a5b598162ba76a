import Mathlib.Data.List.Sort

/-!
# The ACME proxy

The proxy forwards the requests of its own ACME clients to an upstream CA, under one upstream
account. A client names an upstream URL, and the proxy serves it if a local order of that client
is behind it. Several local orders can stand behind one URL, since the CA hands the same pending
order or authorization to the one account that it knows.
-/
namespace UltimateCaManager.Proxy

/-! ## The tables -/

inductive OrderStatus
  | pending | valid | invalid
  | other (name : String)
  deriving DecidableEq

/-- `AcmeClientOrder`; an owner or a certificate URL that is not recorded is the empty text. -/
structure Order where
  id : ℕ
  isProxyOrder : Bool
  status : OrderStatus
  accountId : String
  clientJwkThumbprint : String
  upstreamOrderUrl : Option String
  certificateUrl : String
  authzUrls : List String
  deactivatedAuthzs : List String
  deriving DecidableEq

/-- `AcmeAccount`. -/
structure Account where
  accountId : String
  jwkThumbprint : String

/-- The identity of a verified request: the account that its `kid` names and the thumbprint of its
key, each empty when it cannot be derived. -/
structure Requester where
  accountId : String
  thumbprint : String

/-- A URL as `_decode_proxy_id` gives it: one of the upstream host. -/
structure UpstreamUrl where
  text : String
  ne_empty : text ≠ ""

/-- What the challenge cache remembers: an order and the authorization of the challenge. -/
structure Entry where
  orderId : ℕ
  authzUrl : String

structure State where
  orders : List Order
  accounts : List Account
  cached : String → Option Entry

def State.order? (s : State) (id : ℕ) : Option Order := s.orders.find? fun o => o.id = id

def State.byId (s : State) : List Order := s.orders.insertionSort fun a b => a.id ≤ b.id

/-! ## Upstream -/

/-- A challenge, with the URL that its Link header names as `up`. -/
structure ChallengeReply where
  link : Option String

/-- What the upstream CA answers while a request is served: the certificate that an order names, if
it can be read and names one, and a challenge, if it can be read. -/
structure Upstream where
  certificate : String → Option String
  challenge : String → Option ChallengeReply

def Upstream.link (up : Upstream) (challUrl : String) : Option String :=
  (up.challenge challUrl).bind fun reply => reply.link.filter (· ≠ "")

inductive Refusal
  | notFound (detail : String)
  | forbidden (detail : String)
  | serverInternal (detail : String)

-- `path` is `urlsplit(url).path`
variable (path : String → String) (up : Upstream) (s : State) (r : Requester)

/-! ## Ownership -/

def directOwnerMatch (o : Order) : Bool :=
  o.accountId ≠ "" && o.accountId = r.accountId ||
    o.clientJwkThumbprint ≠ "" && o.clientJwkThumbprint = r.thumbprint

def hasAccount (accounts : List Account) (thumbprint accountId : String) : Bool :=
  (accounts.find? fun a => a.jwkThumbprint = thumbprint).any fun a => a.accountId = accountId

def reconciledOwnerMatch (accounts : List Account) (o : Order) : Bool :=
  if o.accountId = "" ↔ o.clientJwkThumbprint = "" then false
  else if o.clientJwkThumbprint ≠ "" ∧ r.accountId ≠ "" then
    hasAccount accounts o.clientJwkThumbprint r.accountId
  else if o.accountId ≠ "" ∧ r.thumbprint ≠ "" then
    hasAccount accounts r.thumbprint o.accountId
  else false

def requireOwner (resource : String) (o : Order) : Except Refusal Unit :=
  if !o.isProxyOrder then .error (.notFound (resource ++ " not found"))
  else if o.accountId = "" ∧ o.clientJwkThumbprint = "" then .ok ()
  else if r.accountId = "" ∧ r.thumbprint = "" then
    .error (.forbidden (resource ++
      " belongs to an account and the request carries no verifiable account identity"))
  else if directOwnerMatch r o || reconciledOwnerMatch r s.accounts o then .ok ()
  else .error (.forbidden (resource ++ " belongs to another account"))

/-! ## Resolution -/

/-- `_select_owning_order`, on candidates that are sorted by what the caller prefers. -/
def selectOwningOrder (candidates : List Order) : Option Order :=
  match candidates with
  | [] => none
  | [o] => some o
  | o :: rest =>
    match (o :: rest).find? (directOwnerMatch r) with
    | some owned => some owned
    | none =>
      match (o :: rest).find? (reconciledOwnerMatch r s.accounts) with
      | some owned => some owned
      | none => some o

/-- A stable sort that puts the rows with a mark last. -/
def markedLast (marked : Order → Bool) (rows : List Order) : List Order :=
  rows.filter (fun o => !marked o) ++ rows.filter marked

def ordersByAuthzUrl (authzUrl : String) : List Order :=
  if authzUrl = "" then [] else s.byId.filter fun o => o.isProxyOrder && authzUrl ∈ o.authzUrls

/-- `_find_order_by_authz_url`: an order that has not deactivated the authorization comes first. -/
def findOrderByAuthzUrl (authzUrl : String) : Option Order :=
  selectOwningOrder s r
    (markedLast (fun o => authzUrl ∈ o.deactivatedAuthzs) (ordersByAuthzUrl s authzUrl))

def orderByUpstreamUrl (orderUrl : String) : Option Order :=
  selectOwningOrder s r (markedLast (fun o => o.deactivatedAuthzs ≠ [])
    (s.byId.filter fun o => o.isProxyOrder && o.upstreamOrderUrl = some orderUrl))

def challengeCacheKey (challUrl : String) : String :=
  String.ofList (challUrl.toList ++ '\x1f' :: (r.accountId.toList ++ '\x1f' :: r.thumbprint.toList))

/-- `url.rstrip('/').rsplit('/', 1)[0]`. -/
def parentUrl (url : String) : String :=
  let stripped := url.toList.reverse.dropWhile (· = '/')
  if '/' ∈ stripped then String.ofList ((stripped.dropWhile (· ≠ '/')).drop 1).reverse
  else String.ofList stripped.reverse

/-- The paths above a URL, up to a number of levels and short of the root. -/
def parentUrls : ℕ → String → List String
  | 0, _ => []
  | level + 1, url =>
    if path (parentUrl url) ∈ ["", "/"] then []
    else parentUrl url :: parentUrls level (parentUrl url)

/-- An order behind a challenge, with the authorization that it was found by. -/
structure Resolved where
  order : Order
  authzUrl : String
  deriving DecidableEq

def cachedOrder (challUrl : String) : Option Resolved :=
  (s.cached (challengeCacheKey r challUrl)).bind fun entry =>
    ((s.order? entry.orderId).filter Order.isProxyOrder).map fun o => ⟨o, entry.authzUrl⟩

/-- The order of the first path above a challenge that is a recorded authorization. -/
def nestedOrder (challUrl : String) : Option Resolved :=
  (parentUrls path 2 challUrl).findSome? fun parent =>
    (findOrderByAuthzUrl s r parent).map fun o => ⟨o, parent⟩

def State.forget (key : String) : State :=
  { s with cached := fun k => if k = key then none else s.cached k }

/-- `_resolve_challenge_order`: the cached order, or one found by the path. An entry whose order is
gone is dropped. -/
def resolveChallengeOrder (challUrl : String) : Option Resolved × State :=
  match cachedOrder s r challUrl with
  | some found => (some found, s)
  | none => (nestedOrder path s r challUrl, s.forget (challengeCacheKey r challUrl))

/-- `_persist_certificate_url`: the first row of the upstream order takes the URL. -/
def persistCertificateUrl (orderUrl certUrl : String) : State :=
  match s.orders.find? fun o => o.isProxyOrder && o.upstreamOrderUrl = some orderUrl with
  | some row => { s with orders := s.orders.map fun o =>
      if o.id = row.id then { o with certificateUrl := certUrl } else o }
  | none => s

def upstreamCertificate (o : Order) : Option String :=
  o.upstreamOrderUrl.bind up.certificate

/-- The scan for a certificate looks at pending orders without a recorded certificate, of the
requester or unbound. -/
def scannable (o : Order) : Bool :=
  o.isProxyOrder && o.status = .pending && o.certificateUrl = "" && o.upstreamOrderUrl.isSome &&
    (o.accountId = "" && o.clientJwkThumbprint = "" ||
      r.accountId ≠ "" && o.accountId = r.accountId ||
      r.thumbprint ≠ "" && o.clientJwkThumbprint = r.thumbprint)

/-- The newest of them are read upstream. -/
def scannedOrders : List Order := (s.byId.reverse.filter (scannable r)).take 25

def recordedOrder (certUrl : String) : Option Order :=
  s.orders.find? fun o => o.isProxyOrder && o.certificateUrl = certUrl

def findOrderForCertificate (certUrl : String) : Option Order × State :=
  match recordedOrder s certUrl with
  | some o => (some o, s)
  | none =>
    match (scannedOrders s r).find? fun o => upstreamCertificate up o = some certUrl with
    | some o => (some o, persistCertificateUrl s (o.upstreamOrderUrl.getD "") certUrl)
    | none => (none, s)

/-! ## The ownership check -/

inductive Operation
  | getOrder | finalizeOrder | getAuthz | deactivateAuthz | respondChallenge | getCertificate

def checkFound (resource : String) (found : Option Order) : Except Refusal Unit :=
  match found with
  | none => .error (.notFound (resource ++ " not found"))
  | some o => requireOwner s r resource o

/-- A challenge that no local order explains is read upstream, for its authorization. -/
def checkByLink (challUrl : String) : Except Refusal Unit :=
  if (up.challenge challUrl).isNone then .error (.serverInternal "Failed to respond to challenge")
  else
    match up.link challUrl with
    | none => .error (.notFound ("Challenge not found: no local order tracks it and the " ++
        "upstream response has no Link rel=\"up\" to its authorization"))
    | some authzUrl => checkFound s r "Challenge" (findOrderByAuthzUrl s r authzUrl)

/-- The part of `respond_challenge` up to its ownership check. -/
def checkChallenge (challUrl : String) : Except Refusal Unit × State :=
  let resolved := resolveChallengeOrder path s r challUrl
  match resolved.1 with
  | some found => (requireOwner s r "Challenge" found.order, resolved.2)
  | none => (checkByLink up resolved.2 r challUrl, resolved.2)

/-- The part of `get_certificate` up to its ownership check. -/
def checkCertificate (certUrl : String) : Except Refusal Unit × State :=
  let found := findOrderForCertificate up s r certUrl
  (checkFound found.2 r "Certificate" found.1, found.2)

def check (op : Operation) (url : UpstreamUrl) : Except Refusal Unit × State :=
  match op with
  | .getOrder | .finalizeOrder => (checkFound s r "Order" (orderByUpstreamUrl s r url.text), s)
  | .getAuthz | .deactivateAuthz =>
    (checkFound s r "Authorization" (findOrderByAuthzUrl s r url.text), s)
  | .respondChallenge => checkChallenge path up s r url.text
  | .getCertificate => checkCertificate up s r url.text

end UltimateCaManager.Proxy
