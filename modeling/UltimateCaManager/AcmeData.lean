import UltimateCaManager.Tables
import UltimateCaManager.Transactions

/-!
# Rows of the ACME tables

The rows of `acme_orders`, `acme_authorizations` and `acme_challenges`, the certificates that a
finalization stores, and the writes that the handlers stage on them. Public identifiers are
random tokens; the unique index on each identifier column refuses a second row, which is the
only property of the tokens that matters.
-/
namespace UltimateCaManager.Acme

open Tables Transactions

inductive OrderStatus
  | pending | ready | processing | valid | invalid
  deriving DecidableEq

inductive AuthorizationStatus
  | pending | valid | invalid | deactivated
  deriving DecidableEq

inductive ChallengeStatus
  | pending | processing | valid | invalid
  deriving DecidableEq

inductive ChallengeType
  | http01 | dns01 | dnsPersist01 | tlsAlpn01
  deriving DecidableEq

inductive IdentifierType
  | dns | ip
  deriving DecidableEq

/-- An identifier object. Identifiers are stored and compared as JSON text, so the members of
the object other than `type` and `value` are kept, as the text they were sent as. -/
structure Identifier where
  type : IdentifierType
  value : String
  members : String
  deriving DecidableEq

structure Problem where
  type : String
  detail : String
  deriving DecidableEq

/-- The problem stored on an order, compound when several authorizations failed. -/
inductive OrderProblem
  | single (problem : Problem)
  | compound (type detail : String) (subproblems : List (Problem × Identifier))
  deriving DecidableEq

/-- A row of `acme_local_domains` or of `acme_domains`. -/
structure DomainEntry where
  domain : String
  autoApprove : Bool
  deriving DecidableEq

/-- How an authorization became valid. This is a history variable: no handler reads it. A reuse
names the authorization it copied and the instant of the copy, an auto-approval the entry and
the entries registered at that moment. -/
inductive Provenance
  | challenge (type : ChallengeType)
  | reused (source instant : ℕ)
  | autoApproved (entry : DomainEntry) (registered : List DomainEntry)
  deriving DecidableEq

structure Order where
  orderId : ℕ
  accountId : ℕ
  status : OrderStatus
  identifiers : List Identifier
  expires : ℕ
  certificateId : Option ℕ
  error : Option OrderProblem
  deriving DecidableEq

/-- An authorization; a standalone pre-authorization has no order. -/
structure Authorization where
  authorizationId : ℕ
  orderId : Option ℕ
  accountId : ℕ
  identifier : Identifier
  wildcard : Bool
  status : AuthorizationStatus
  expires : ℕ
  provenance : Option Provenance
  deriving DecidableEq

structure Challenge where
  challengeId : ℕ
  authorizationId : ℕ
  type : ChallengeType
  status : ChallengeStatus
  validated : Option ℕ
  error : Option Problem
  deriving DecidableEq

/-- A certificate stored for an order, with the names it asserts. -/
structure Certificate where
  certificateId : ℕ
  orderId : ℕ
  dnsNames : List String
  ipNames : List String
  commonNames : List String
  deriving DecidableEq

structure Db where
  orders : List Order
  authorizations : List Authorization
  challenges : List Challenge
  certificates : List Certificate

namespace Db

def empty : Db := ⟨[], [], [], []⟩

def order? (db : Db) (orderId : ℕ) : Option Order :=
  db.orders.find? fun o => o.orderId = orderId

def authorization? (db : Db) (authorizationId : ℕ) : Option Authorization :=
  db.authorizations.find? fun a => a.authorizationId = authorizationId

def challenge? (db : Db) (challengeId : ℕ) : Option Challenge :=
  db.challenges.find? fun c => c.challengeId = challengeId

def authorizationsOf (db : Db) (orderId : ℕ) : List Authorization :=
  db.authorizations.filter fun a => a.orderId = some orderId

def challengesOf (db : Db) (authorizationId : ℕ) : List Challenge :=
  db.challenges.filter fun c => c.authorizationId = authorizationId

def orderOf (db : Db) (a : Authorization) : Option Order :=
  a.orderId.bind db.order?

def status? (db : Db) (orderId : ℕ) : Option OrderStatus :=
  (db.order? orderId).map Order.status

end Db

/-- One statement of a transaction. An `Option` column is left alone when it is `none`. -/
inductive Write
  | addOrder (order : Order)
  | addAuthorization (authorization : Authorization)
  | addChallenge (challenge : Challenge)
  | addCertificate (certificate : Certificate)
  | setOrderStatus (orderId : ℕ) (status : OrderStatus)
  | setOrderError (orderId : ℕ) (error : OrderProblem)
  | linkCertificate (orderId certificateId : ℕ)
  | setAuthorization (authorizationId : ℕ) (status : AuthorizationStatus)
      (provenance : Option Provenance)
  | setChallenge (challengeId : ℕ) (status : ChallengeStatus) (validated : Option ℕ)
      (error : Option Problem)
  | deleteChallenge (challengeId : ℕ)
  deriving DecidableEq

namespace Db

def apply (db : Db) : Write → Db
  | .addOrder o => { db with orders := db.orders ++ [o] }
  | .addAuthorization a => { db with authorizations := db.authorizations ++ [a] }
  | .addChallenge c => { db with challenges := db.challenges ++ [c] }
  | .addCertificate c => { db with certificates := db.certificates ++ [c] }
  | .setOrderStatus id status =>
    { db with orders := amend (·.orderId = id) (fun o => { o with status := status }) db.orders }
  | .setOrderError id error =>
    { db with orders := amend (·.orderId = id) (fun o => { o with error := some error }) db.orders }
  | .linkCertificate id certificateId =>
    { db with
      orders := amend (·.orderId = id) (fun o => { o with certificateId := some certificateId })
        db.orders }
  | .setAuthorization id status provenance =>
    { db with
      authorizations := amend (·.authorizationId = id)
        (fun a => { a with status := status, provenance := provenance <|> a.provenance })
        db.authorizations }
  | .setChallenge id status validated error =>
    { db with
      challenges := amend (·.challengeId = id)
        (fun c => { c with status := status, validated := validated <|> c.validated,
                           error := error <|> c.error })
        db.challenges }
  | .deleteChallenge id =>
    { db with challenges := db.challenges.filter fun c => c.challengeId ≠ id }

/-- The unique indexes refuse a second row with the same identifier, and the update of a
challenge that another transaction deleted matches no row, which fails the flush. -/
def accepts (db : Db) : Write → Bool
  | .addOrder o => db.orders.all fun r => r.orderId ≠ o.orderId
  | .addAuthorization a => db.authorizations.all fun r => r.authorizationId ≠ a.authorizationId
  | .addChallenge c => db.challenges.all fun r => r.challengeId ≠ c.challengeId
  | .addCertificate c => db.certificates.all fun r => r.certificateId ≠ c.certificateId
  | .setChallenge id _ _ _ => db.challenges.any fun c => c.challengeId = id
  | _ => true

end Db

def store : Store Db Write := ⟨Db.apply, Db.accepts⟩

@[simp] theorem store_apply : store.apply = Db.apply := rfl
@[simp] theorem store_accepts : store.accepts = Db.accepts := rfl

/-- A session of one request. It keeps, for each order whose status it sets, the status it had
loaded. -/
abbrev Session := Transactions.Session Db Write (ℕ × OrderStatus)

def stage (s : Session) (w : Write) : Session :=
  s.write store w

def stageStatus (s : Session) (o : Order) (status : OrderStatus) : Session :=
  stage (s.observe (o.orderId, o.status)) (.setOrderStatus o.orderId status)

@[simp] theorem stage_view (s : Session) (w : Write) : (stage s w).view = s.view.apply w := rfl
@[simp] theorem stage_writes (s : Session) (w : Write) : (stage s w).writes = s.writes ++ [w] := rfl
@[simp] theorem stage_reads (s : Session) (w : Write) : (stage s w).reads = s.reads := rfl

/-- The status of an order that has not been taken by a finalization nor settled. -/
def OrderStatus.isOpen (status : OrderStatus) : Bool :=
  status = .pending || status = .ready

def ChallengeStatus.isOpen (status : ChallengeStatus) : Bool :=
  status = .pending || status = .processing

end UltimateCaManager.Acme
