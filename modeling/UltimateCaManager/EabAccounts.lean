import UltimateCaManager.AcmeDomainMatch
import UltimateCaManager.Concurrency

/-!
# Accounts and external account binding

`newAccount` with its external account binding, and the scope that the bound credential puts on
`newOrder` and `newAuthz`. Creating the account and consuming the credential are two commits of
one request; the scope is read from the credential bound to the account when a later request is
checked. Account tokens, keys and HMAC secrets are numbers: only their equality matters, and a
signature verifies exactly when it was made with the secret of the credential.
-/
namespace UltimateCaManager.Eab

open Acme Tables Concurrency Numerals

inductive CredentialStatus
  | active | used | revoked
  deriving DecidableEq

def CredentialStatus.text : CredentialStatus → String
  | .active => "active"
  | .used => "used"
  | .revoked => "revoked"

inductive AccountStatus
  | valid | deactivated | revoked
  deriving DecidableEq

/-- A row of `acme_eab_credentials`; `allowed` is the column `allowed_domains`. -/
structure Credential where
  id : ℕ
  kid : String
  hmacKey : ℕ
  allowed : Option (List String)
  status : CredentialStatus
  expiresAt : Option ℕ
  usedAt : Option ℕ
  usedBy : Option ℕ

/-- A row of `acme_accounts`. The credential that the account registered with is a history
variable: no handler reads it. -/
structure Account where
  accountId : ℕ
  thumbprint : ℕ
  status : AccountStatus
  registered : Option String

/-- An accepted order or pre-authorization, with the credential its account registered with. -/
structure Accepted where
  accountId : ℕ
  registered : Option String
  identifiers : List Identifier
  deriving DecidableEq

/-- The clock, the configuration and the tables. `bindings` is the history of consumed
credentials. -/
structure Db where
  now : ℕ
  baseUrl : String
  eabRequired : Bool
  credentials : List Credential
  accounts : List Account
  accepted : List Accepted
  bindings : List (String × ℕ)

/-! ## The scope of a credential -/

/-- `str.lower`, with what is used of it: `*`, `.` and white space are the lower case of themselves
only, and do not change that of what follows them. -/
class LowerCase where
  lower : List Char → List Char
  lower_star : ∀ {text}, lower text = ['*'] ↔ text = ['*']
  lower_wildcard : ∀ q, lower ('*' :: '.' :: q) = '*' :: '.' :: lower q
  of_lower_wildcard : ∀ {text t}, lower text = '*' :: '.' :: t → ∃ q, text = '*' :: '.' :: q
  lower_plain : ∀ {text c}, c ∈ text → c ≠ '.' → ∃ d ∈ lower text, d ≠ '.'
  lower_head : ∀ {text d}, (lower text).head? = some d → isSpace d = true →
    ∃ c, text.head? = some c ∧ isSpace c = true

theorem toNat_toLower (c : Char) :
    c.toLower = c ∨ 97 ≤ c.toLower.toNat ∧ c.toLower.toNat ≤ 122 := by
  unfold Char.toLower
  split
  next hup =>
    have hlo : 65 ≤ c.toNat := hup.1
    have hhi : c.toNat ≤ 90 := hup.2
    have hsum : (c.val + ('a'.val - 'A'.val)).toNat = c.toNat + 32 := by
      rw [UInt32.toNat_add, Nat.mod_eq_of_lt]
      · rfl
      · change c.toNat + 32 < 2 ^ 32
        omega
    refine .inr ?_
    rw [Char.toNat, hsum]
    omega
  next => exact .inl rfl

/-- Lower case yields letters only, which are above 64. -/
theorem of_toLower_eq {c d : Char} (hd : d.toNat < 65) (h : c.toLower = d) : c = d := by
  rcases toNat_toLower c with hsame | hletter
  · exact hsame.symm.trans h
  · rw [h] at hletter
    omega

theorem isSpace_of_toLower {c : Char} (h : isSpace c.toLower = true) : isSpace c = true := by
  rcases toNat_toLower c with hsame | hletter
  · rwa [hsame] at h
  · simp [isSpace] at h
    omega

/-- The lower case of texts of ASCII characters. -/
abbrev asciiCase : LowerCase where
  lower := List.map Char.toLower
  lower_star := by
    refine ⟨fun h => ?_, by rintro rfl; rfl⟩
    obtain ⟨a, rfl, ha⟩ := List.map_eq_singleton_iff.mp h
    rw [of_toLower_eq (by decide) ha]
  lower_wildcard _ := rfl
  of_lower_wildcard h := by
    obtain ⟨a, l, rfl, ha, h⟩ := List.map_eq_cons_iff.mp h
    obtain ⟨b, q, rfl, hb, -⟩ := List.map_eq_cons_iff.mp h
    exact ⟨q, by rw [of_toLower_eq (by decide) ha, of_toLower_eq (by decide) hb]⟩
  lower_plain hc hdot :=
    ⟨_, List.mem_map_of_mem hc, fun h => hdot (of_toLower_eq (by decide) h)⟩
  lower_head h hspace := by
    rw [List.head?_map] at h
    obtain ⟨c, hc, rfl⟩ := Option.map_eq_some_iff.mp h
    exact ⟨c, hc, isSpace_of_toLower hspace⟩

open LowerCase

variable [LowerCase]

/-- Stripped, in lower case, without a single trailing dot. -/
def normalizeDomain (value : String) : List Char :=
  let lowered := lower (strip value.toList)
  if lowered.getLast? = some '.' then lowered.dropLast else lowered

/-- The stored patterns, normalized; `none` when the credential is unrestricted. -/
def Credential.allowedDomains (c : Credential) : Option (List (List Char)) :=
  c.allowed.map fun entries => entries.foldl (fun patterns entry =>
    let norm := normalizeDomain entry
    -- a stored `*.` never widens into `*`
    if norm = ['*'] ∧ strip entry.toList ≠ ['*'] then patterns
    else if norm ≠ [] ∧ norm ∉ patterns then patterns ++ [norm] else patterns) []

def wildcardCovers (suffix value : List Char) : Bool :=
  !suffix.isEmpty && ('.' :: suffix).isSuffixOf value

/-- Whether a pattern other than `*` covers a name that is not an address. -/
def patternCovers (pattern value : List Char) : Bool :=
  match pattern with
  | '*' :: '.' :: suffix => wildcardCovers suffix value
  | _ => pattern = value

def Credential.allowsIdentifier (c : Credential) (identifier : Identifier) : Bool :=
  match c.allowedDomains with
  | none => true
  | some patterns =>
    if ['*'] ∈ patterns then true
    else
      let value := normalizeDomain identifier.value
      if value = [] then false
      else match identifier.type with
        | .ip => patterns.any fun p => ! ['*', '.'].isPrefixOf p && p = value
        | .dns => patterns.any (patternCovers · value)

/-! ## Validation and consumption -/

def Credential.isUsable (c : Credential) (now : ℕ) : Bool :=
  c.status = .active && c.expiresAt.all (now ≤ ·)

/-- The row that the conditional update of `mark_eab_used` selects. -/
def Credential.consumable (c : Credential) (now : ℕ) : Bool :=
  c.status = .active && c.usedBy.isNone && c.expiresAt.all (now < ·)

/-- The payload of the binding: the account key as a JWK. -/
inductive Payload
  | notJson
  | badKey (detail : String)
  | key (thumbprint : ℕ)

/-- The `externalAccountBinding` object of a request. -/
structure ExternalBinding where
  complete : Bool
  url : String
  alg : String
  kid : String
  payload : Payload
  signedWith : ℕ

namespace Db

variable (db : Db)

def credential? (kid : String) : Option Credential :=
  db.credentials.find? fun c => c.kid = kid

def account? (accountId : ℕ) : Option Account :=
  db.accounts.find? fun a => a.accountId = accountId

def accountByKey? (thumbprint : ℕ) : Option Account :=
  db.accounts.find? fun a => a.thumbprint = thumbprint

def newAccountUrl : String := db.baseUrl ++ "/acme/new-account"

/-- `validate_eab`: nothing, or the message of the refusal. It writes nothing. -/
def validateEab (b : ExternalBinding) (thumbprint : ℕ) : Except String Unit :=
  if !b.complete then .error "Missing required JWS fields"
  else if b.url ≠ db.newAccountUrl then
    .error "EAB protected url does not match newAccount URL"
  else if b.alg ∉ ["HS256", "HS384", "HS512"] then
    .error ("Invalid EAB algorithm: " ++ b.alg ++ ". Must be HMAC-based")
  else if b.kid = "" then .error "EAB missing kid (external account ID)"
  else match db.credential? b.kid with
    | none => .error "Unknown external account"
    | some c =>
      if !c.isUsable db.now then
        .error ("EAB credential not usable (status=" ++ c.status.text ++ ")")
      else match b.payload with
        | .notJson => .error "EAB payload is not valid JSON"
        | .badKey detail => .error ("EAB payload JWK invalid: " ++ detail)
        | .key t =>
          if t ≠ thumbprint then .error "EAB payload does not match account key"
          else if b.signedWith ≠ c.hmacKey then .error "EAB signature verification failed"
          else .ok ()

/-- `used_at` descending with nulls last, then `id` descending. -/
def usedLater (c d : Credential) : Bool :=
  match c.usedAt, d.usedAt with
  | some s, some t => t < s || s = t && d.id < c.id
  | some _, none => true
  | none, some _ => false
  | none, none => d.id < c.id

def getBoundEabCredential (accountId : ℕ) : Option Credential :=
  firstBy usedLater (db.credentials.filter fun c => c.usedBy = some accountId)

/-- The identifiers that the credential bound to the account does not allow. -/
def refused (accountId : ℕ) (identifiers : List Identifier) : List Identifier :=
  match db.getBoundEabCredential accountId with
  | none => []
  | some c => identifiers.filter fun i => !c.allowsIdentifier i

def addAccount (a : Account) : Db := { db with accounts := db.accounts ++ [a] }

def removeAccount (accountId : ℕ) : Db :=
  { db with accounts := db.accounts.filter fun a => a.accountId ≠ accountId }

def consume (kid : String) (accountId : ℕ) : Db :=
  { db with
    credentials := amend (fun c => c.kid = kid && c.consumable db.now)
      (fun c => { c with status := .used, usedAt := some db.now, usedBy := some accountId })
      db.credentials
    bindings := db.bindings ++ [(kid, accountId)] }

/-- The `DELETE` of an active credential by an administrator. -/
def revoke (kid : String) : Db :=
  { db with
    credentials := amend (fun c => c.kid = kid && c.status = .active)
      (fun c => { c with status := .revoked }) db.credentials }

def close (accountId : ℕ) (status : AccountStatus) : Db :=
  { db with
    accounts := amend (fun a => a.accountId = accountId) (fun a => { a with status := status })
      db.accounts }

def accept (x : Accepted) : Db := { db with accepted := db.accepted ++ [x] }

end Db

/-! ## Requests -/

inductive Task
  /-- `create_account` looks the key up once more. -/
  | creating (thumbprint : ℕ) (kid : Option String)
  | inserting (thumbprint : ℕ) (kid : Option String)
  /-- The account is committed, its credential is not consumed. -/
  | consuming (kid : String) (accountId : ℕ)
  /-- The credential was lost, the account is to be removed. -/
  | removing (accountId : ℕ)
  /-- An order or a pre-authorization that passed the checks. -/
  | accepting (accepted : Accepted)

inductive Request
  | newAccount (thumbprint : ℕ) (onlyReturnExisting : Bool) (binding : Option ExternalBinding)
  | newOrder (accountId : ℕ) (identifiers : List Identifier)
  | newAuthz (accountId : ℕ) (identifier : Identifier)

inductive Input
  | proceed
  /-- A commit, and the token drawn for a row it inserts. -/
  | commit (ok : Bool) (token : ℕ)

/-- What happens outside the three requests: the clock, administrators who issue and revoke
credentials or close accounts, clients who deactivate theirs. -/
inductive Event
  | tick (seconds : ℕ)
  | issue (kid : String) (hmacKey : ℕ) (allowed : Option (List String)) (expiresAt : Option ℕ)
  | revoke (kid : String)
  | close (accountId : ℕ) (status : AccountStatus)

def event (db : Db) : Event → Db
  | .tick seconds => { db with now := db.now + seconds }
  | .issue kid hmacKey allowed expiresAt =>
    if (db.credential? kid).isSome then db
    else { db with credentials := db.credentials ++
      [⟨db.credentials.length, kid, hmacKey, allowed, .active, expiresAt, none, none⟩] }
  | .revoke kid => db.revoke kid
  | .close accountId status => db.close accountId status

/-- The scope check that `new_order` and `new_authz` share. -/
def check (db : Db) (accountId : ℕ) (identifiers : List Identifier) : Option Task := do
  let a ← db.account? accountId
  if a.status = .valid ∧ identifiers ≠ [] ∧ db.refused accountId identifiers = [] then
    some (.accepting ⟨accountId, a.registered, identifiers⟩)
  else none

def start (db : Db) : Request → Option Task
  | .newAccount thumbprint onlyReturnExisting binding =>
    -- a known key gets its account back before any binding is looked at
    if (db.accountByKey? thumbprint).isSome ∨ onlyReturnExisting then none
    else match binding with
      | none => if db.eabRequired then none else some (.creating thumbprint none)
      | some b => match db.validateEab b thumbprint with
        | .ok _ => some (.creating thumbprint (some b.kid))
        | .error _ => none
  | .newOrder accountId identifiers => check db accountId identifiers
  | .newAuthz accountId identifier => check db accountId [identifier]

def advance (db : Db) : Task → Input → Option (Db × Option Task)
  | .creating thumbprint kid, .proceed =>
    if (db.accountByKey? thumbprint).isSome then some (db, none)
    else some (db, some (.inserting thumbprint kid))
  | .inserting thumbprint kid, .commit ok token =>
    -- both the token and the thumbprint are unique columns
    if ok ∧ db.account? token = none ∧ db.accountByKey? thumbprint = none then
      some (db.addAccount ⟨token, thumbprint, .valid, kid⟩, kid.map (.consuming · token))
    else some (db, none)
  | .consuming kid accountId, .commit ok _ =>
    match db.credential? kid with
    | none => some (db, some (.removing accountId))
    | some c =>
      if c.consumable db.now then
        if ok then some (db.consume kid accountId, none)
        else some (db, some (.removing accountId))
      else if c.status = .used ∧ c.usedBy = some accountId then some (db, none)
      else some (db, some (.removing accountId))
  | .removing accountId, .commit ok _ =>
    if ok then some (db.removeAccount accountId, none) else some (db, none)
  | .accepting x, .commit ok _ =>
    if ok then some (db.accept x, none) else some (db, none)
  | _, _ => none

def system : System Db Task Request Input Event := ⟨event, start, advance⟩

def empty (now : ℕ) (baseUrl : String) (eabRequired : Bool) : Db :=
  ⟨now, baseUrl, eabRequired, [], [], [], []⟩

end UltimateCaManager.Eab
