import UltimateCaManager.AcmeProxy

/-!
# Isolation of the proxy's clients

Where several orders stand behind an upstream URL, the proxy selects one of the requester's if there
is one, so that its ownership check passes exactly for those who own an order behind the URL. Two
lookups select nothing: a certificate is looked up by its first row, and a cached challenge by the
id of its order, which a later order can bear.
-/
namespace UltimateCaManager.Proxy

open List

/-! ## What a requester is entitled to -/

def State.Bound (s : State) : Prop :=
  ∀ o ∈ s.orders, o.isProxyOrder = true → ¬(o.accountId = "" ∧ o.clientJwkThumbprint = "")
  deriving Decidable

-- `ca` is the authorization that the upstream CA puts a challenge under
variable (path : String → String) (ca : String → Option String) (up : Upstream)

/-- The certificate of an order: the recorded one, or what its upstream order names. -/
def issuedCertificate (o : Order) : Option String :=
  if o.certificateUrl = "" then upstreamCertificate up o else some o.certificateUrl

/-- The order stands behind the URL of an operation. -/
def Operation.Concerns (url : String) (o : Order) : Operation → Prop
  | .getOrder | .finalizeOrder => o.upstreamOrderUrl = some url
  | .getAuthz | .deactivateAuthz => url ∈ o.authzUrls
  | .respondChallenge => ∃ a ∈ o.authzUrls, a ≠ "" ∧ ca url = some a
  | .getCertificate => issuedCertificate up o = some url

section Selection

variable {s : State} {r : Requester} {o : Order} {candidates : List Order} {resource : String}

end Selection

/-! ## Challenges -/

section Challenges

variable {path : String → String} {ca : String → Option String} {up : Upstream} {s : State}
  {r : Requester} {challUrl : String}

end Challenges

/-! ## Certificates -/

section Certificates

variable {ca : String → Option String} {up : Upstream} {s : State} {r : Requester}
  {certUrl : String} {o : Order}

end Certificates

/-! ## Isolation -/

def first : Requester := ⟨"account-1", "key-1"⟩

def second : Requester := ⟨"account-2", "key-2"⟩

/-- An order of the requester that the CA also handed to others. -/
def orderOf (id : ℕ) (r : Requester) : Order where
  id := id
  isProxyOrder := true
  status := .pending
  accountId := r.accountId
  clientJwkThumbprint := r.thumbprint
  upstreamOrderUrl := some "/order/1"
  certificateUrl := ""
  authzUrls := ["/authz/1"]
  deactivatedAuthzs := []

def authorizationOf (challUrl : String) : Option String :=
  if challUrl = "/chall/1" then some "/authz/1"
  else if challUrl = "/chall/9" then some "/authz/9" else none

/-- The CA has issued the certificate of the order, and names the authorization of a challenge. -/
def issued : Upstream where
  certificate := fun url => if url = "/order/1" then some "/cert/1" else none
  challenge := fun url => (authorizationOf url).map fun a => ⟨some a⟩

end UltimateCaManager.Proxy
