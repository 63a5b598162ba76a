import UltimateCaManager.ScepMessages
import UltimateCaManager.SerialFormat
import UltimateCaManager.Tables

/-!
# SCEP enrolment

`process_pkcs_req` opens a pkiMessage, checks the CSR inside, its challenge and, for a renewal,
the certificate that signed the message, and then answers from the stored request of the
transaction or stores a new one, which an auto-approving endpoint issues on its own. Each check
refuses with its own failInfo and text. Times are in microseconds.
-/
namespace UltimateCaManager.Scep

open Guards Tables Revocation

/-- A row of `certificates`; `crt` is the stored certificate, if it can be loaded. -/
structure CertRow where
  id : ℕ
  refid : String
  caref : String
  crt : Option Bytes
  serialNumber : List Char
  revoked : Bool
  archived : Bool
  validTo : Option ℤ

/-- A row of `certificate_authorities`, with the key of its certificate if that can be loaded. -/
structure CaRow where
  id : ℕ
  refid : String
  subject : String
  publicKey : Option Bytes

/-- A row of `revoked_serials`, which outlives its certificate. -/
structure RevokedSerial where
  caref : String
  serialNumber : List Char

inductive RequestStatus
  | pending | approved | rejected (reason : Option String)
  deriving DecidableEq

/-- A row of `scep_requests`; `publicKey` is that of the stored CSR, if it can be loaded. -/
structure ScepRequest where
  transactionId : Native
  caRefid : String
  publicKey : Option Bytes
  status : RequestStatus
  certRefid : Option String
  renewalOf : Option Bytes

structure Store where
  cas : List CaRow
  certificates : List CertRow
  revokedSerials : List RevokedSerial
  requests : List ScepRequest

inductive FailInfo
  | badAlg | badMessageCheck | badRequest | badTime | badCertId

structure Failure where
  info : FailInfo
  message : String

inductive Reply
  | failure (f : Failure)
  | success (der : Bytes)
  | pending
  | crl (der : Bytes)

/-- The client of an Intune-bound profile: whether a call on a transaction and its CSR returns. -/
structure IntuneClient where
  validateRequest : Native → Bytes → Bool
  sendSuccessNotification : Native → Bytes → Bytes → Bool

structure Signed where
  refid : String
  der : Bytes
  serialNumber : ℕ
  validTo : ℤ

/-- The endpoint: its CA, the configured secrets and switches, and what the rest of the server
decides: key and policy checks of a CSR, the signature check of a certificate against the CA's,
the issuing itself, and the answers to GetCert and GetCRL. -/
structure Service where
  ca : CaRow
  challengePassword : Option Bytes
  autoApprove : Bool
  challengeExpired : Bool
  intuneClient : Option IntuneClient
  /-- `UCM_SCEP_ALLOW_NO_CHALLENGE`. -/
  allowNoChallengeEnv : Option (List Char)
  /-- `scep_enforce_signing_time`. -/
  enforceSigningTime : Option (List Char)
  /-- `scep_time_skew_minutes`. -/
  timeSkewMinutes : Option (List Char)
  fips : Bool
  validateEnrollmentCsr : Csr → Option String
  policyViolations : Csr → List String
  verifyDirectlyIssued : Certificate → Bool
  sign : Csr → Option Certificate → ℤ → Option Signed
  handleGetCert : Bytes → Reply
  handleGetCrl : Bytes → Reply

variable (lib : Library) (svc : Service) (now : ℤ)

/-- `_scep_allow_no_challenge`. -/
def Service.allowNoChallenge : Bool :=
  (svc.allowNoChallengeEnv.getD []).map Char.toLower ∈
    [['1'], ['t', 'r', 'u', 'e'], ['y', 'e', 's']]

def configFlag (value : Option (List Char)) : Bool :=
  (value.getD []).map Char.toLower = ['t', 'r', 'u', 'e']

def configInt (value : Option (List Char)) (default lo hi : ℤ) : ℤ :=
  match value.bind lib.int with
  | none => default
  | some n => max lo (min hi n)

/-- Whether Python takes the value for false. -/
def Native.falsy : Native → Bool
  | .text chars => chars.isEmpty
  | .int n => n = 0
  | .bytes value => value.isEmpty
  | .time _ => false
  | .boolean value => !value
  | .null => true
  | .other _ => false

def Native.octets? : Native → Option Bytes
  | .text chars => some (chars.flatMap String.utf8EncodeChar)
  | .bytes value => some value
  | .int _ => none
  | .time _ => none
  | .boolean _ => none
  | .null => none
  | .other _ => none

/-- `_has_usable_challenge_password`. -/
def usable (challenge : Option Native) : Bool :=
  match challenge.bind Native.octets? with
  | none => false
  | some octets => !octets.isEmpty

def minute : ℤ := 60 * 1000000

/-- The signingTime against the clock, within `scep_time_skew_minutes`. -/
def checkSigningTime (signingTime : Option Native) : Except Failure Unit :=
  match signingTime with
  | some (.time t) =>
    let skew := configInt lib svc.timeSkewMinutes 10 1 1440
    require (!(decide (skew * minute < |now - t|) && configFlag svc.enforceSigningTime))
      ⟨.badTime, "signingTime outside the allowed clock skew"⟩
  | _ => require (!configFlag svc.enforceSigningTime) ⟨.badTime, "Missing or invalid signingTime"⟩

def CmsError.failure : CmsError → Failure
  | .invalidSignature => ⟨.badMessageCheck, "CMS signature verification failed"⟩
  | .valueError => ⟨.badAlg, "Unsupported or malformed CMS signature"⟩

def EnvelopeError.failure : EnvelopeError → Failure
  | .fipsRestricted message => ⟨.badAlg, message⟩
  | .unreadable => ⟨.badMessageCheck, "Failed to decrypt SCEP envelope"⟩

/-- What an opened message gives to its handler. -/
structure Opened where
  transactionId : Native
  messageType : MessageType
  challengePassword : Option Native
  signer : Certificate
  data : Bytes

/-- The checks of the outer message, to the decryption of its envelope. -/
def openMessage (m : Message) : Except Failure Opened := do
  require (m.contentType = .signedData) ⟨.badRequest, "Expected SignedData"⟩
  let attrs := extractScepAttributes lib m
  require (m.encapContentType = .data)
    ⟨.badMessageCheck, "SignedData encapsulated content type must be data"⟩
  let signer ← expect (extractSignerCertificate m)
    ⟨.badMessageCheck, "Missing signer certificate in SignedData"⟩
  (verifyCmsSignature lib svc.fips m signer).mapError CmsError.failure
  let transactionId := attrs.transactionId.getD (.text [])
  require (!transactionId.falsy) ⟨.badRequest, "Missing transactionID"⟩
  checkSigningTime lib svc now attrs.signingTime
  let messageType ← expect (MessageType.ofCode? attrs.messageType)
    ⟨.badRequest, "Unsupported messageType: " ++ (attrs.messageType.elim "None" toString)⟩
  let content ← expect m.content EnvelopeError.unreadable.failure
  let data ← (decryptScepEnvelope lib svc.fips content).mapError EnvelopeError.failure
  return ⟨transactionId, messageType, attrs.challengePassword, signer, data⟩

/-- A signing-only key cannot receive the answer without a password. -/
def checkRecipient (signer : Certificate) (challenge : Option Native) : Except Failure Unit :=
  require (signer.rsaKey || usable challenge)
    ⟨.badMessageCheck, "challengePassword required for signing-only recipient key"⟩

/-- The CSR, its key policy, its self-signature and the issuance policies. -/
def admitCsr (data : Bytes) : Except Failure Csr := do
  let csr ← expect (lib.loadCsr data) ⟨.badRequest, "Malformed CSR"⟩
  forbid ((svc.validateEnrollmentCsr csr).map (Failure.mk .badRequest))
  require (lib.isSignatureValid data)
    ⟨.badMessageCheck, "CSR signature invalid (proof of possession failed)"⟩
  require (svc.policyViolations csr).isEmpty
    ⟨.badRequest, "Policy violation: " ++ "; ".intercalate (svc.policyViolations csr)⟩
  return csr

/-- The challenge of the message, or of its CSR when the message has no usable one. -/
def challengeOf (o : Opened) (csr : Csr) : Option Native :=
  if usable o.challengePassword then o.challengePassword
  else (csr.challengePassword.map Native.bytes).or o.challengePassword

/-- The challenge that is configured, an empty one being none. -/
def Service.challenge? : Option Bytes :=
  svc.challengePassword.filter fun p => !p.isEmpty

/-- The challenge: validated by Intune, or compared with the configured one. -/
def checkChallenge (o : Opened) (challenge : Option Native) : Except Failure Unit := do
  match svc.intuneClient with
  | some client =>
    require (client.validateRequest o.transactionId o.data)
      ⟨.badMessageCheck, "Challenge validation failed"⟩
  | none => do
    require (!(svc.challengeExpired && o.messageType ≠ .renewalReq))
      ⟨.badMessageCheck, "Challenge password has expired"⟩
    match svc.challenge? with
    | some secret =>
      require (usable challenge && challenge.bind Native.octets? = some secret)
        ⟨.badMessageCheck, "Invalid challenge password"⟩
    | none =>
      -- without a challenge an endpoint that issues on its own would serve anyone
      require (!(o.messageType ≠ .renewalReq && svc.autoApprove && !svc.allowNoChallenge))
        ⟨.badMessageCheck, "Enrollment requires a challenge password"⟩

/-- `same_key_refids`: the CA's own record, and every other of its subject and key. -/
def Store.sameKeyRefids (s : Store) (ca : CaRow) : List String :=
  ca.refid :: match ca.publicKey with
    | none => []
    | some key => (s.cas.filter fun other => other.subject = ca.subject && other.id ≠ ca.id &&
        other.publicKey = some key).map CaRow.refid

def CertRow.holds (row : CertRow) (cert : Certificate) : Bool :=
  row.serialNumber ∈ serialVariants cert.serialNumber && row.crt = some cert.der

def findIssuedRows (rows : List CertRow) (refids : List String) (cert : Certificate) :
    List CertRow :=
  rows.filter fun row => row.caref ∈ refids && row.holds cert

inductive IssuedStatus
  | ok | unknown | revoked | expired | notYetValid | superseded
  deriving DecidableEq

/-- `issued_certificate_status`, without the row that it also returns. -/
def issuedCertificateStatus (s : Store) (ca : CaRow) (cert : Certificate) : IssuedStatus :=
  let refids := s.sameKeyRefids ca
  let rows := findIssuedRows s.certificates refids cert
  let persistent := s.revokedSerials.any fun r =>
    r.caref ∈ refids && r.serialNumber ∈ serialVariants cert.serialNumber
  if rows.isEmpty then (if persistent then .revoked else .unknown)
  else if rows.any CertRow.revoked || persistent then .revoked
  else
    match rows.find? fun r => !r.archived with
    | none => .superseded
    | some row =>
      if now < cert.notValidBefore then .notYetValid
      else if cert.notValidAfter ≤ now || row.validTo.any (· < now) then .expired
      else .ok

def GeneralName.typeName : GeneralName → String
  | .rfc822Name _ => "RFC822Name"
  | .dnsName _ => "DNSName"
  | .uniformResourceIdentifier _ => "UniformResourceIdentifier"
  | .directoryName _ => "DirectoryName"
  | .registeredId _ => "RegisteredID"
  | .ipAddress _ => "IPAddress"
  | .otherName _ _ => "OtherName"

/-- What `str(name.value)` prints; the type id of an other name is not in its value. -/
def GeneralName.printed : GeneralName → String
  | .rfc822Name value => value
  | .dnsName value => value
  | .uniformResourceIdentifier value => value
  | .directoryName value => value
  | .registeredId value => value
  | .ipAddress value => value
  | .otherName _ value => value

def sanIdentity (names : List GeneralName) : Finset (String × String) :=
  (names.map fun n => (n.typeName, n.printed)).toFinset

def sanIdentityMatches (cert : Certificate) (csr : Csr) : Bool :=
  match csr.san with
  | none => true
  | some requested => sanIdentity requested = sanIdentity (cert.san.getD [])

def IssuedStatus.refusal : IssuedStatus → String
  | .revoked => "Renewal: signer certificate has been revoked"
  | .expired => "Renewal: signer certificate is expired"
  | .notYetValid => "Renewal: signer certificate is not yet valid"
  | .superseded => "Renewal: signer certificate has been superseded by a newer one"
  | .unknown => "Renewal: signer certificate is not recognized"
  | .ok => "Renewal: signer certificate is not recognized"

def validateRenewal (s : Store) (signer : Certificate) (csr : Csr) : Except Failure Unit := do
  require (svc.verifyDirectlyIssued signer)
    ⟨.badMessageCheck, "Renewal: signer certificate not issued by this CA"⟩
  require (signer.subject = csr.subject)
    ⟨.badMessageCheck, "Renewal: CSR subject must match existing certificate"⟩
  require (!(decide (now < signer.notValidBefore) || decide (signer.notValidAfter < now)))
    ⟨.badMessageCheck, "Renewal: signer certificate is expired or not yet valid"⟩
  let status := issuedCertificateStatus now s svc.ca signer
  require (status = .ok) ⟨.badMessageCheck, status.refusal⟩
  require (sanIdentityMatches signer csr)
    ⟨.badMessageCheck, "Renewal: CSR SubjectAltName must match existing certificate"⟩

/-- `_claim_superseded`: archive every live row that holds the certificate, under any CA. -/
def claimSuperseded (rows : List CertRow) (cert : Certificate) : List CertRow :=
  amend (fun row => !row.archived && row.holds cert) (fun row => { row with archived := true }) rows

def nextId (rows : List CertRow) : ℕ := (rows.map CertRow.id).foldr max 0 + 1

/-- The tables after a certificate was signed: its row, and the claim of the one it renews. -/
def storeSigned (s : Store) (signed : Signed) (renewalOf : Option Certificate) :
    Option (List CertRow) :=
  let row : CertRow :=
    { id := nextId s.certificates, refid := signed.refid, caref := svc.ca.refid,
      crt := some signed.der, serialNumber := Spelling.decimal.write signed.serialNumber,
      revoked := false, archived := false, validTo := some signed.validTo }
  let stored := s.certificates ++ [row]
  match renewalOf with
  | none => some stored
  | some old =>
    let rows := findIssuedRows stored (s.sameKeyRefids svc.ca) old
    if !rows.isEmpty && rows.all CertRow.archived then none
    else if rows.isEmpty then some stored
    else some (claimSuperseded stored old)

/-- `_auto_approve_request`: the stored certificates afterwards, and the signed one. A renewal
claims the certificate that it replaces. -/
def autoApproveRequest (s : Store) (csr : Csr) (renewalOf : Option Certificate) :
    Option (List CertRow × Signed) :=
  if renewalOf.any fun old => issuedCertificateStatus now s svc.ca old = .revoked then none
  else (svc.sign csr renewalOf now).bind fun signed =>
    (storeSigned svc s signed renewalOf).map fun stored => (stored, signed)

def sameKeyAsExisting (existing : ScepRequest) (csr : Csr) : Bool :=
  existing.publicKey.all (· = csr.publicKey)

def statusForExisting (s : Store) (existing : ScepRequest) : Reply :=
  match existing.status, existing.certRefid.bind fun refid =>
      s.certificates.find? (·.refid = refid) with
  | .approved, some row =>
    match row.crt with
    | some der => .success der
    | none => .failure ⟨.badRequest, "Internal SCEP processing error"⟩
  | .rejected reason, _ => .failure ⟨.badRequest, reason.getD "Request rejected"⟩
  | _, _ => .pending

def Store.request? (s : Store) (transactionId : Native) (ca : CaRow) : Option ScepRequest :=
  s.requests.find? fun r => r.transactionId = transactionId && r.caRefid = ca.refid

def handleGetCertInitial (s : Store) (o : Opened) : Reply :=
  match s.request? o.transactionId svc.ca with
  | none => .failure ⟨.badCertId, "Unknown transactionID"⟩
  | some existing => statusForExisting s existing

def newRequest (o : Opened) (csr : Csr) : ScepRequest :=
  { transactionId := o.transactionId, caRefid := svc.ca.refid, publicKey := some csr.publicKey,
    status := .pending, certRefid := none,
    renewalOf := if o.messageType = .renewalReq then some o.signer.der else none }

/-- The idempotency check, and the new request with what becomes of it. -/
def enroll (s : Store) (o : Opened) (csr : Csr) : Store × Reply :=
  match s.request? o.transactionId svc.ca with
  | some existing =>
    (s, if sameKeyAsExisting existing csr then statusForExisting s existing
      else .failure ⟨.badRequest, "transactionID already used with a different key"⟩)
  | none =>
    let request := newRequest svc o csr
    if svc.autoApprove then
      let renewalOf := if o.messageType = .renewalReq then some o.signer else none
      match autoApproveRequest svc now s csr renewalOf with
      | none => (s, .failure ⟨.badRequest, "Server error issuing certificate"⟩)
      | some (stored, signed) =>
        if svc.intuneClient.all fun client =>
            client.sendSuccessNotification o.transactionId o.data signed.der then
          ({ s with
              certificates := stored
              requests := s.requests ++
                [{ request with status := .approved, certRefid := some signed.refid }] },
            .success signed.der)
        else (s, .failure ⟨.badRequest, "Server error persisting request"⟩)
    else ({ s with requests := s.requests ++ [request] }, .pending)

/-- A renewal is authenticated by the certificate that signed it. -/
def checkRenewal (s : Store) (o : Opened) (csr : Csr) : Except Failure Unit :=
  if o.messageType = .renewalReq then validateRenewal svc now s o.signer csr else .ok ()

/-- The checks of an enrolment or renewal, in order. -/
def admitEnrolment (s : Store) (o : Opened) : Except Failure Csr := do
  let csr ← admitCsr lib svc o.data
  let challenge := challengeOf o csr
  checkRecipient o.signer challenge
  checkChallenge svc o challenge
  checkRenewal svc now s o csr
  return csr

def handleEnrolment (s : Store) (o : Opened) : Store × Reply :=
  match admitEnrolment lib svc now s o with
  | .error f => (s, .failure f)
  | .ok csr => enroll svc now s o csr

/-- A query, which needs a password where its signer cannot receive the answer otherwise. -/
def handleQuery (s : Store) (o : Opened) (answer : Reply) : Store × Reply :=
  match checkRecipient o.signer o.challengePassword with
  | .error f => (s, .failure f)
  | .ok _ => (s, answer)

def processPkcsReq (s : Store) (m : Message) : Store × Reply :=
  match openMessage lib svc now m with
  | .error f => (s, .failure f)
  | .ok o =>
    match o.messageType with
    | .getCertInitial => handleQuery s o (handleGetCertInitial svc s o)
    | .getCert => handleQuery s o (svc.handleGetCert o.data)
    | .getCrl => handleQuery s o (svc.handleGetCrl o.data)
    | .pkiReq => handleEnrolment lib svc now s o
    | .renewalReq => handleEnrolment lib svc now s o

end UltimateCaManager.Scep
