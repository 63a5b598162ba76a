import UltimateCaManager.Guards
import UltimateCaManager.NameConstraints

/-!
# Key purposes of a certificate

What a leaf may be used for is decided by its type, by a template bound to the endpoint, by the
certificate that it renews and by the operator, and by its CSR only within these. The functions
here read the configured purposes and cap those of a CSR.
-/
namespace UltimateCaManager.Signing

open Guards

/-! ## The purposes and the certificate types -/

def serverAuth : String := "1.3.6.1.5.5.7.3.1"
def clientAuth : String := "1.3.6.1.5.5.7.3.2"
def codeSigning : String := "1.3.6.1.5.5.7.3.3"
def emailProtection : String := "1.3.6.1.5.5.7.3.4"
def timeStamping : String := "1.3.6.1.5.5.7.3.8"
def ocspSigning : String := "1.3.6.1.5.5.7.3.9"
def ipsecIke : String := "1.3.6.1.5.5.7.3.17"
def anyExtendedKeyUsage : String := "2.5.29.37.0"
def smartcardLogon : String := "1.3.6.1.4.1.311.20.2.2"

/-- The purposes that no protocol hands out: `_LEAF_FORBIDDEN_EKU_OIDS`, `_ANY_EKU_OID` and
`_SMARTCARD_LOGON_OID`. -/
def sensitiveEkus : List String := [ocspSigning, timeStamping, anyExtendedKeyUsage, smartcardLogon]

inductive CertType
  | serverCert | server | host | clientCert | usrCert | user | combinedCert | combinedServerClient
  | codeSigning | emailCert | deviceCert | intermediateCa
  | other (name : String)
  deriving DecidableEq

def CertType.name : CertType → String
  | .serverCert => "server_cert"
  | .server => "server"
  | .host => "host"
  | .clientCert => "client_cert"
  | .usrCert => "usr_cert"
  | .user => "user"
  | .combinedCert => "combined_cert"
  | .combinedServerClient => "combined_server_client"
  | .codeSigning => "code_signing"
  | .emailCert => "email_cert"
  | .deviceCert => "device_cert"
  | .intermediateCa => "intermediate_ca"
  | .other name => name

/-- `_CERT_TYPE_ALLOWED_EKUS`: the ceiling of a type, if it has one. -/
def allowedEkus? : CertType → Option (List String)
  | .serverCert | .server | .host | .clientCert | .usrCert | .user | .combinedCert
  | .combinedServerClient => some [serverAuth, clientAuth]
  | .codeSigning => some [codeSigning]
  | .emailCert => some [emailProtection, clientAuth]
  | .deviceCert => some [serverAuth, clientAuth, emailProtection, codeSigning, ipsecIke]
  | .intermediateCa | .other _ => none

/-- `_default_ekus_for_cert_type`. -/
def defaultEkus : CertType → List String
  | .serverCert | .server | .host => [serverAuth]
  | .usrCert | .clientCert | .user => [clientAuth]
  | .combinedServerClient | .combinedCert | .deviceCert => [serverAuth, clientAuth]
  | .codeSigning => [codeSigning]
  | .emailCert => [emailProtection]
  | .intermediateCa | .other _ => []

/-! ## Configured purposes -/

/-- What Python and its libraries do with a text, besides the names: `str.strip`, whether
`x509.ObjectIdentifier` and `x509.DNSName` take it, `ipaddress.ip_address` and
`cn_looks_like_hostname`. -/
structure Library extends Constraints.Library where
  strip : List Char → List Char
  isObjectIdentifier : String → Bool
  acceptsDnsName : List Char → Bool
  ipAddress : List Char → Option Constraints.IpName
  cnLooksLikeHostname : List Char → Bool

variable (lib : Library)

def ekuNames : List (String × String) :=
  [("1.3.6.1.5.5.7.3.1", "serverAuth"), ("1.3.6.1.5.5.7.3.2", "clientAuth"),
    ("1.3.6.1.5.5.7.3.3", "codeSigning"), ("1.3.6.1.5.5.7.3.4", "emailProtection"),
    ("1.3.6.1.5.5.7.3.5", "ipsecEndSystem"), ("1.3.6.1.5.5.7.3.6", "ipsecTunnel"),
    ("1.3.6.1.5.5.7.3.7", "ipsecUser"), ("1.3.6.1.5.5.7.3.8", "timeStamping"),
    ("1.3.6.1.5.5.7.3.9", "OCSPSigning"), ("1.3.6.1.5.5.8.2.2", "iKEIntermediate"),
    ("1.3.6.1.5.2.3.4", "id-pkinit-KPClientAuth"), ("1.3.6.1.5.2.3.5", "id-pkinit-KPkdc"),
    ("1.3.6.1.4.1.311.10.3.1", "msCTLSign"), ("1.3.6.1.4.1.311.10.3.3", "msCodeSGC"),
    ("1.3.6.1.4.1.311.10.3.4", "msEFS"), ("1.3.6.1.4.1.311.10.3.12", "msDocumentSigning"),
    ("1.3.6.1.4.1.311.20.2.2", "msSmartcardLogin"), ("2.16.840.1.113730.4.1", "nsSGC"),
    ("1.3.6.1.4.1.311.54.1.2", "msRemoteDesktop"), ("2.23.140.1.31", "evSSLServer"),
    ("1.3.6.1.4.1.311.2.1.21", "msIndividualCodeSigning"),
    ("1.3.6.1.4.1.311.2.1.22", "msCommercialCodeSigning"),
    ("1.3.6.1.4.1.311.10.3.13", "msLifetimeSigning"),
    ("1.3.6.1.4.1.311.61.1.1", "msKernelModeCodeSigning"),
    ("1.2.840.113635.100.4.1", "appleCodeSigning"),
    ("1.2.840.113635.100.4.13", "appleDeveloperIDApplication")]

def ekuNameAliases : List (String × String) :=
  [("smartcardlogon", "1.3.6.1.4.1.311.20.2.2"), ("mssmartcardlogon", "1.3.6.1.4.1.311.20.2.2"),
    ("ocspsigning", "1.3.6.1.5.5.7.3.9")]

/-- The purpose that a short name stands for; the aliases come first. -/
def ekuOfName? (name : List Char) : Option String :=
  match ekuNameAliases.find? fun a => a.1.toList = lib.lower name with
  | some a => some a.2
  | none => (ekuNames.find? fun n => lib.lower n.2.toList = lib.lower name).map Prod.fst

def isArc (arc : List Char) : Bool :=
  arc = ['0'] || (arc.head?.any fun c => '1' ≤ c && c ≤ '9') && arc.tail.all Char.isDigit

/-- `OID_REGEX`, on a text without white space around it. Digits other than the ASCII ones, which
the pattern lets through, are no OID for the library either. -/
def isOid (text : List Char) : Bool :=
  match text.splitOn '.' with
  | first :: rest =>
    first ∈ [['0'], ['1'], ['2']] && 1 ≤ rest.length && rest.length ≤ 15 && rest.all isArc
  | [] => false

def validateOid (oid : List Char) : Except String Unit := do
  let oid := lib.strip oid
  require (oid ≠ []) "OID is empty"
  require (oid.length ≤ 64) "OID too long (max 64 chars)"
  require (isOid oid) ("Invalid OID format: " ++ String.ofList oid)
  require (String.ofList oid ≠ anyExtendedKeyUsage)
    "anyExtendedKeyUsage (2.5.29.37.0) is not allowed; specify concrete EKUs instead"

/-- A list of purposes as it was configured: absent, of another type, or a list whose entries are
texts or not. -/
inductive EkuItems
  | absent
  | notAList
  | entries (items : List (Option String))

def ekuCandidate (raw : String) : List Char :=
  let candidate := lib.strip raw.toList
  if isOid candidate then candidate
  else (ekuOfName? lib candidate).elim candidate String.toList

/-- The loop of `normalize_extra_ekus`. -/
def normalizeEntries : List (Option String) → List String → Except String (List String)
  | [], out => .ok out
  | none :: _, _ => .error "each EKU entry must be a string"
  | some raw :: rest, out =>
    if lib.strip raw.toList = [] then normalizeEntries rest out
    else do
      validateOid lib (ekuCandidate lib raw)
      let oid := String.ofList (ekuCandidate lib raw)
      normalizeEntries rest (if oid ∈ out then out else out ++ [oid])

def normalizeExtraEkus : EkuItems → Except String (List String)
  | .absent => .ok []
  | .notAList => .error "extra_ekus must be a list"
  | .entries items =>
    if 16 < items.length then .error "Too many EKUs (max 16)" else normalizeEntries lib items []

def toObjectIdentifiers (oids : List String) : Except String (List String) := do
  require (oids.all lib.isObjectIdentifier) "Invalid object identifier"
  pure oids

def extraEkuOids (extraEkus : EkuItems) : Except String (List String) := do
  let oids ← (normalizeExtraEkus lib extraEkus).mapError ("Invalid extra_ekus: " ++ ·)
  toObjectIdentifiers lib oids

def mergeEkuLists (base extra : List String) : List String := (base ++ extra).eraseDups

/-! ## Key usage -/

structure KeyUsage where
  digitalSignature : Bool
  contentCommitment : Bool
  keyEncipherment : Bool
  dataEncipherment : Bool
  keyAgreement : Bool
  keyCertSign : Bool
  crlSign : Bool
  encipherOnly : Bool
  decipherOnly : Bool
  deriving DecidableEq

namespace KeyUsage

def none : KeyUsage := ⟨false, false, false, false, false, false, false, false, false⟩

/-- `_key_usage_with_ca_signing`. -/
def withCaSigning (usage : KeyUsage) (enabled : Bool) : KeyUsage :=
  { usage with
    keyCertSign := enabled, crlSign := enabled
    encipherOnly := usage.encipherOnly && usage.keyAgreement
    decipherOnly := usage.decipherOnly && usage.keyAgreement }

/-- `_ku_bits`, in the order of the names. -/
def bits (usage : KeyUsage) : List String :=
  [("content_commitment", usage.contentCommitment), ("crl_sign", usage.crlSign),
    ("data_encipherment", usage.dataEncipherment),
    ("decipher_only", usage.keyAgreement && usage.decipherOnly),
    ("digital_signature", usage.digitalSignature),
    ("encipher_only", usage.keyAgreement && usage.encipherOnly),
    ("key_agreement", usage.keyAgreement), ("key_cert_sign", usage.keyCertSign),
    ("key_encipherment", usage.keyEncipherment)].filterMap fun bit =>
      if bit.2 then some bit.1 else Option.none

end KeyUsage

inductive KeyKind
  | rsa | ec | other
  deriving DecidableEq

def keyUsageForKey (key : KeyKind) (usage : KeyUsage) (ekus : List String) : KeyUsage :=
  if key = .rsa then usage
  else
    let wantsEncryption := usage.keyEncipherment || usage.dataEncipherment
    let keyAgreement := key = .ec &&
      (usage.keyAgreement || wantsEncryption && emailProtection ∈ ekus)
    { usage with
      digitalSignature := usage.digitalSignature ||
        !(usage.contentCommitment || keyAgreement || usage.keyCertSign || usage.crlSign)
      keyEncipherment := false, dataEncipherment := false, keyAgreement := keyAgreement
      encipherOnly := keyAgreement && usage.keyAgreement && usage.encipherOnly
      decipherOnly := keyAgreement && usage.keyAgreement && usage.decipherOnly }

/-! ## Templates, renewals and the cap on a CSR -/

/-- The purposes of a template: its key usage names, where they are a list, and its extended key
usage entries. -/
structure TemplateExt where
  keyUsage : Option (List String)
  extendedKeyUsage : EkuItems

/-- `_TEMPLATE_KU_FLAGS`. -/
def setTemplateFlag (usage : KeyUsage) (name : String) : KeyUsage :=
  match String.ofList (lib.lower name.toList) with
  | "digitalsignature" => { usage with digitalSignature := true }
  | "keyencipherment" => { usage with keyEncipherment := true }
  | "contentcommitment" => { usage with contentCommitment := true }
  | "nonrepudiation" => { usage with contentCommitment := true }
  | "dataencipherment" => { usage with dataEncipherment := true }
  | "keyagreement" => { usage with keyAgreement := true }
  | _ => usage

/-- The key usage of the names, if one of them is known. -/
def templateKeyUsage (names : List String) : Option KeyUsage :=
  let usage := names.foldl (setTemplateFlag lib) .none
  if usage = .none then none else some usage

def templateKeyPurposes (template : Option TemplateExt) (allowSensitiveEkus : Bool) :
    Except String (Option KeyUsage × Option (List String)) :=
  match template with
  | none => .ok (none, none)
  | some t => do
    let usage := t.keyUsage.bind (templateKeyUsage lib)
    match t.extendedKeyUsage with
    | .entries (item :: items) =>
      let oids ← (normalizeExtraEkus lib (.entries (item :: items))).mapError
        ("Invalid template EKUs: " ++ ·)
      let oids ← toObjectIdentifiers lib oids
      pure (usage, some (oids.filter fun oid => allowSensitiveEkus || oid ∉ sensitiveEkus))
    | _ => pure (usage, none)

/-- The certificate that is renewed: its names, and its purposes if it has the extension. -/
structure RenewedCert where
  names : Constraints.Renewed
  ekus : Option (List String)

def priorEkus (renewalOf : Option RenewedCert) : List String :=
  (renewalOf.bind RenewedCert.ekus).getD []

/-- Whether the ceiling of the type lets a purpose of the CSR through. The renewed certificate
widens the ceiling. -/
def isWithinCeiling (certType : CertType) (renewalOf : Option RenewedCert) (oid : String) : Bool :=
  match allowedEkus? certType with
  | none => true
  | some allowed => oid ∈ allowed || oid ∈ priorEkus renewalOf

/-- `_filter_csr_ekus`: the purposes that are kept. -/
def filterCsrEkus (ekus : List String) (certType : CertType) (allowSensitiveEkus : Bool)
    (renewalOf : Option RenewedCert) : Except String (List String) :=
  if allowSensitiveEkus then .ok ekus
  else
    -- a sensitive purpose goes, also one that the renewed certificate carries
    let kept := ekus.filter fun oid => oid ∉ sensitiveEkus && isWithinCeiling certType renewalOf oid
    if kept ≠ [] then .ok kept
    else do
      require (defaultEkus certType ≠ [])
        ("CSR requests only Extended Key Usages that are not permitted for certificate type '" ++
          certType.name ++ "'")
      pure (defaultEkus certType)

end UltimateCaManager.Signing
