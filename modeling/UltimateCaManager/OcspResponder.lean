import UltimateCaManager.Concurrency
import UltimateCaManager.RevocationQuery

/-!
# The OCSP responder and its cache

OCSP requests and revocations in flight. A request looks into the cache, reads the status, signs
and stores its response; a revocation commits and then invalidates what is cached for the serial.
Each read and each commit is a step of its own. The CRL that a revocation regenerates between the
two writes no row that the responder reads, and is left out, as are the delegated responder that a
revoked certificate may be and the second certificate of a related pair.
-/
namespace UltimateCaManager.Ocsp

open Revocation (CaRow CaStored CertRow Db Reason Status serialToInt)
open Concurrency Tables

/-! ## Cache keys -/

inductive HashAlgorithm
  | sha1 | sha224 | sha256 | sha384 | sha512

def HashAlgorithm.all : List HashAlgorithm := [.sha1, .sha224, .sha256, .sha384, .sha512]

def HashAlgorithm.name : HashAlgorithm → List Char
  | .sha1 => ['s', 'h', 'a', '1']
  | .sha224 => ['s', 'h', 'a', '2', '2', '4']
  | .sha256 => ['s', 'h', 'a', '2', '5', '6']
  | .sha384 => ['s', 'h', 'a', '3', '8', '4']
  | .sha512 => ['s', 'h', 'a', '5', '1', '2']

/-- The `cert_serial` of a cached response. -/
def cacheKey (serial : ℕ) (algorithm : HashAlgorithm) : List Char :=
  Nat.toDigits 16 serial ++ ':' :: algorithm.name

/-- `serial_to_hex` of a serial column. -/
def serialToHex (text : List Char) : List Char :=
  if text = [] then []
  else match serialToInt text with
    | some n => Nat.toDigits 16 n
    | none => text.map Char.toLower

def hexDigits : List Char := "0123456789abcdef".toList

/-- The column in lower case, without its separators and its prefix. -/
def rawSerial (text : List Char) : List Char :=
  match (Numerals.strip (text.filter (· ≠ ':'))).map Char.toLower with
  | '0' :: 'x' :: rest => rest
  | other => other

/-- `_cache_key_forms`: both readings of the column. -/
def cacheKeyForms (serial serialHex : List Char) : List (List Char) :=
  let raw := rawSerial serial
  serialHex :: if raw ≠ [] ∧ ∀ c ∈ raw, c ∈ hexDigits then
    match raw.dropWhile (· = '0') with
    | [] => [['0']]
    | stripped => [stripped]
  else []

/-- A row of `ocsp_responses`. -/
structure CachedResponse where
  id : ℕ
  caId : ℕ
  certSerial : List Char
  status : Status
  nextUpdate : ℕ

def CachedResponse.hasForm (form : List Char) (e : CachedResponse) : Bool :=
  e.certSerial = form || like (form ++ [':', '%']) e.certSerial

/-- `invalidate_cached_responses`, of one CA record or of all. -/
def invalidateCachedResponses (serial : List Char) (caId : Option ℕ) (cache : List CachedResponse) :
    List CachedResponse :=
  let serialHex := serialToHex serial
  if serialHex = [] then cache
  else cache.filter fun e => !(caId.all (· = e.caId) &&
    (cacheKeyForms serial serialHex).any fun form => e.hasForm form)

/-! ## The issuer of a request -/

/-- A CertID: the hashes of the name and of the key of the issuer stand for what they hash. -/
structure CertId where
  subject : ℕ
  key : ℕ
  serial : ℕ
  algorithm : HashAlgorithm

def isSelfSigned (crt : CaStored) : Bool := crt.subject = crt.issuer && crt.signer = crt.key

/-- `_find_ca_by_issuer_hash`: among the records of the key, a self-signed one first. -/
def findCaByIssuer (db : Db) (item : CertId) : Option CaRow :=
  (db.cas.filter (fun ca => ca.crt.any isSelfSigned) ++
      db.cas.filter fun ca => ca.crt.any (!isSelfSigned ·)).find? fun ca =>
    ca.crt.any fun crt => crt.subject = item.subject && crt.key = item.key

/-! ## Requests in flight -/

structure Settled where
  caref : ℕ
  serial : ℕ

def Settled.Concerns (g : Settled) (db : Db) (ca : CaRow) (serial : ℕ) : Prop :=
  g.caref ∈ db.sameKeyRefids ca ∧ g.serial = serial
  deriving Decidable

/-- The certificate that signs the responses of a CA; a delegated one bounds them by its own end. -/
structure Signer where
  caId : ℕ
  notAfter : Option ℕ

def Signer.boundNextUpdate (signer : Signer) (nextUpdate : ℕ) : ℕ :=
  match signer.notAfter with
  | some notAfter => min nextUpdate notAfter
  | none => nextUpdate

/-- An answer that a client received. `settled` is a history variable: the certificates whose
revocation had returned when the request was received. -/
structure Answer where
  ca : CaRow
  serial : ℕ
  status : Status
  settled : List Settled

/-- A request for one certificate, with the CA record that answers it. -/
structure Query where
  ca : CaRow
  serial : ℕ
  algorithm : HashAlgorithm
  nonce : Bool
  settled : List Settled

/-- History variables: the revocations that have invalidated the cache, those that have returned,
and the answers. -/
structure Responder where
  now : ℕ
  validity : ℕ
  enabled : List ℕ
  signers : List Signer
  db : Db
  cache : List CachedResponse
  cacheIds : ℕ
  cleared : List Settled
  returned : List Settled
  answers : List Answer

/-- A request in flight, named after what it does next. -/
inductive Task
  | lookup (q : Query)
  | resolve (q : Query)
  | readStatus (q : Query) (signer : Signer)
  | sign (q : Query) (signer : Signer) (status : Status)
  | cacheFind (q : Query) (status : Status) (nextUpdate : ℕ)
  | cacheWrite (q : Query) (status : Status) (nextUpdate : ℕ) (existing : Option ℕ)
  | multiResolve (ca : CaRow) (serials : List ℕ) (settled : List Settled)
  | multi (ca : CaRow) (pending : List ℕ) (answers : List Answer) (settled : List Settled)
  | revokeClock (id : ℕ) (reason : Reason)
  | revokeCommit (id : ℕ) (reason : Reason) (instant : ℕ)
  | invalidate (g : Settled) (serial : List Char) (caId : Option ℕ)
  | returning (g : Settled)

inductive Request
  | ask (items : List CertId) (nonce : Bool)
  | revoke (id : ℕ) (reason : Reason)

inductive Event
  | tick (seconds : ℕ)
  | configure (validity : ℕ) (enabled : List ℕ) (signers : List Signer)
  | invalidateCaCache (caId : ℕ)
  | cleanupExpiredResponses

namespace Responder

def event (s : Responder) : Event → Responder
  | .tick seconds => { s with now := s.now + seconds }
  | .configure validity enabled signers =>
    { s with validity := validity, enabled := enabled, signers := signers }
  | .invalidateCaCache caId => { s with cache := s.cache.filter fun e => e.caId ≠ caId }
  | .cleanupExpiredResponses => { s with cache := s.cache.filter fun e => s.now ≤ e.nextUpdate }

/-- Every CertID must belong to the CA record of the first one. -/
def start (s : Responder) : Request → Option Task
  | .ask [] _ => none
  | .ask (item :: rest) nonce => do
    let ca ← findCaByIssuer s.db item
    if ca.id ∈ s.enabled ∧ ∀ other ∈ rest, (findCaByIssuer s.db other).any (·.id = ca.id) then
      if rest = [] then
        let q : Query := ⟨ca, item.serial, item.algorithm, nonce, s.returned⟩
        -- a cached response carries no nonce
        some (if nonce then .resolve q else .lookup q)
      else some (.multiResolve ca ((item :: rest).map CertId.serial) s.returned)
    else none
  | .revoke id reason => do
    let row ← s.db.certificate? id
    if row.revoked then none else some (.revokeClock id reason)

def cached? (s : Responder) (q : Query) : Option CachedResponse :=
  s.cache.find? fun e => e.caId = q.ca.id && e.certSerial = cacheKey q.serial q.algorithm

def answer (s : Responder) (q : Query) (status : Status) : Responder :=
  { s with answers := s.answers ++ [⟨q.ca, q.serial, status, q.settled⟩] }

/-- An update of a row that was deleted since it was found is an error, and nothing is stored. -/
def cacheResponse (s : Responder) (q : Query) (status : Status) (nextUpdate : ℕ) :
    Option ℕ → Responder
  | some id => { s with
      cache := amend (fun e => e.id = id)
        (fun e => { e with status := status, nextUpdate := nextUpdate }) s.cache }
  | none => { s with
      cache := s.cache ++
        [⟨s.cacheIds, q.ca.id, cacheKey q.serial q.algorithm, status, nextUpdate⟩]
      cacheIds := s.cacheIds + 1 }

/-- The input says whether the database takes the write of the step: a response that cannot be
cached is still sent, and a cache that cannot be invalidated does not fail the revocation. -/
def advance (s : Responder) : Task → Bool → Option (Responder × Option Task)
  | .lookup q, _ =>
    match s.cached? q with
    | some e =>
      if e.nextUpdate < s.now then some (s, some (.resolve q))
      else some (s.answer q e.status, none)
    | none => some (s, some (.resolve q))
  | .resolve q, _ => some (s, (s.signers.find? (·.caId = q.ca.id)).map (.readStatus q))
  | .readStatus q signer, _ => some (s, some (.sign q signer (s.db.statusForSerial q.ca q.serial)))
  | .sign q signer status, _ =>
    if q.nonce then some (s.answer q status, none)
    else some (s, some (.cacheFind q status (signer.boundNextUpdate (s.now + s.validity))))
  | .cacheFind q status nextUpdate, _ =>
    some (s, some (.cacheWrite q status nextUpdate ((s.cached? q).map CachedResponse.id)))
  | .cacheWrite q status nextUpdate existing, ok =>
    some ((if ok then s.cacheResponse q status nextUpdate existing else s).answer q status, none)
  | .multiResolve ca serials settled, _ =>
    some (s, (s.signers.find? (·.caId = ca.id)).map fun _ => .multi ca serials [] settled)
  | .multi ca (serial :: rest) answers settled, _ =>
    some (s, some (.multi ca rest
      (answers ++ [⟨ca, serial, s.db.statusForSerial ca serial, settled⟩]) settled))
  | .multi _ [] answers _, _ => some ({ s with answers := s.answers ++ answers }, none)
  | .revokeClock id reason, _ => some (s, some (.revokeCommit id reason s.now))
  | .revokeCommit id reason instant, ok =>
    match s.db.certificate? id with
    | none => some (s, none)
    | some row =>
      if ok then
        some ({ s with db := s.db.revokeCertificate id reason instant },
          some (.invalidate ⟨row.caref, row.crt.serial⟩ row.serialNumber
            ((s.db.caByRefid? row.caref).map CaRow.id)))
      else some (s, none)
  | .invalidate g serial caId, ok =>
    some ({ s with
      cache := if ok then invalidateCachedResponses serial caId s.cache else s.cache
      cleared := g :: s.cleared }, some (.returning g))
  | .returning g, _ => some ({ s with returned := g :: s.returned }, none)

def system : System Responder Task Request Bool Event := ⟨event, start, advance⟩

def init (now validity : ℕ) (enabled : List ℕ) (signers : List Signer) (db : Db) : Responder :=
  ⟨now, validity, enabled, signers, db, [], 0, [], [], []⟩

end Responder

end UltimateCaManager.Ocsp
