import UltimateCaManager.Guards
import Mathlib.Data.Finset.Basic

/-!
# SCEP messages

A pkiMessage is CMS SignedData whose signed attributes carry the SCEP fields and whose content is
an envelope around the request. This module reads the attributes, resolves the certificate that
the first SignerInfo names and verifies the signature with it. The algorithms of the signature,
the digests, the envelope and the encodings are the library's.
-/
namespace UltimateCaManager.Scep

open Guards

abbrev Bytes := List UInt8

/-- The RDNs of a name, each a set of attributes with their types. -/
abbrev Name := List (List (String × String))

/-- A subject alternative name, its value as `str` prints it. -/
inductive GeneralName
  | rfc822Name (value : String)
  | dnsName (value : String)
  | uniformResourceIdentifier (value : String)
  | directoryName (value : String)
  | registeredId (value : String)
  | ipAddress (value : String)
  | otherName (typeId value : String)
  deriving DecidableEq

/-- A certificate as presented; `rsaKey` tells an RSA public key. -/
structure Certificate where
  der : Bytes
  issuer : Bytes
  serialNumber : ℕ
  keyIdentifier : Option Bytes
  subject : Name
  notValidBefore : ℤ
  notValidAfter : ℤ
  rsaKey : Bool
  san : Option (List GeneralName)

/-- A certificate request; `challengePassword` is the value of its first such attribute. -/
structure Csr where
  subject : Name
  publicKey : Bytes
  san : Option (List GeneralName)
  challengePassword : Option Bytes

/-- The native value of a CMS attribute. -/
inductive Native
  | text (chars : List Char)
  | int (value : ℤ)
  | bytes (value : Bytes)
  | time (value : ℤ)
  | boolean (value : Bool)
  | null
  | other (dump : Bytes)
  deriving DecidableEq

inductive AttributeType
  | transactionId | messageType | senderNonce | signingTime | challengePassword | messageDigest
  | other (oid : String)
  deriving DecidableEq

structure Attribute where
  type : AttributeType
  values : List Native

inductive DigestAlgorithm
  | sha1 | sha224 | sha256 | sha384 | sha512
  | other (name : String)
  deriving DecidableEq

inductive SignatureAlgorithm
  | sha1Rsa
  | other (name : String)
  deriving DecidableEq

/-- The identifier by which a SignerInfo names its certificate. -/
inductive Sid
  | issuerAndSerialNumber (issuer : Bytes) (serial : ℤ)
  | subjectKeyIdentifier (key : Bytes)

structure SignerInfo where
  sid : Sid
  digestAlgorithm : DigestAlgorithm
  signatureAlgorithm : SignatureAlgorithm
  signature : Bytes
  signedAttrs : List Attribute

inductive ContentType
  | data | signedData | envelopedData
  | other (oid : String)
  deriving DecidableEq

/-- A parsed pkiMessage: the outer content type, and the SignedData with the certificates that
can be loaded. -/
structure Message where
  contentType : ContentType
  signerInfos : List SignerInfo
  certificates : List Certificate
  encapContentType : ContentType
  content : Option Bytes

/-- The message types that a client sends (RFC 8894 §3.2.1.2). -/
inductive MessageType
  | renewalReq | pkiReq | getCertInitial | getCert | getCrl
  deriving DecidableEq

def MessageType.code : MessageType → ℤ
  | .renewalReq => 17
  | .pkiReq => 19
  | .getCertInitial => 20
  | .getCert => 21
  | .getCrl => 22

/-- The supported type with this number. -/
def MessageType.ofCode? (n : Option ℤ) : Option MessageType :=
  [.pkiReq, .renewalReq, .getCertInitial, .getCert, .getCrl].find? fun t => n = some t.code

/-- Why a signature is refused: it does not verify, or it is malformed or unsupported. -/
inductive CmsError
  | invalidSignature | valueError

/-- Why an envelope is not decrypted: FIPS mode refuses its algorithms, or another reason. -/
inductive EnvelopeError
  | fipsRestricted (message : String)
  | unreadable

/-- The CMS, X.509 and text libraries: the dump of signed attributes, the verification of a
signature with a certificate's key, the digests, the decryption of an envelope with the CA's key
in or out of FIPS mode, the CSR parser and its self-signature check, and Python's `int`. -/
structure Library where
  dump : List Attribute → Bytes
  verify : Certificate → SignatureAlgorithm → DigestAlgorithm → Bytes → Bytes →
    Except CmsError Unit
  digest : DigestAlgorithm → Bytes → Bytes
  decrypt : Bool → Bytes → Except EnvelopeError Bytes
  loadCsr : Bytes → Option Csr
  isSignatureValid : Bytes → Bool
  utf8Decode : Bytes → Option (List Char)
  int : List Char → Option ℤ

variable (lib : Library)

/-- The SCEP attributes, each absent until one is read. -/
structure ScepAttributes where
  transactionId : Option Native
  messageType : Option ℤ
  senderNonce : Option Native
  signingTime : Option Native
  challengePassword : Option Native

def ScepAttributes.empty : ScepAttributes := ⟨none, none, none, none, none⟩

def coerceMessageType : Native → Option ℤ
  | .int n => some n
  -- a boolean is an integer too
  | .boolean value => some (if value then 1 else 0)
  | .bytes raw =>
    let number := if raw.all (· < 128) then lib.int (raw.map fun b => Char.ofNat b.toNat) else none
    -- bytes that are no decimal text are the big-endian number itself
    some (number.getD (raw.foldl (fun n b => 256 * n + b.toNat) 0 : ℕ))
  | .text chars => lib.int chars
  | .time _ => none
  | .null => none
  | .other _ => none

/-- What the first value of an attribute adds; a transaction id that is not UTF-8 raises. -/
def readAttribute (attrs : ScepAttributes) (type : AttributeType) (value : Native) :
    Option ScepAttributes :=
  match type with
  | .transactionId =>
    match value with
    | .bytes raw => (lib.utf8Decode raw).map fun chars =>
        { attrs with transactionId := some (.text chars) }
    | other => some { attrs with transactionId := some other }
  | .messageType => some { attrs with messageType := coerceMessageType lib value }
  | .senderNonce => some { attrs with senderNonce := some value }
  | .signingTime => some { attrs with signingTime := some value }
  | .challengePassword => some { attrs with challengePassword := some value }
  | .messageDigest => some attrs
  | .other _ => some attrs

/-- The walk over the signed attributes. A raised error ends it, with what was read so far. -/
def readAttributes (attrs : ScepAttributes) : List Attribute → ScepAttributes
  | [] => attrs
  | a :: rest =>
    match a.values with
    | [] => readAttributes attrs rest
    | value :: _ =>
      match readAttribute lib attrs a.type value with
      | none => attrs
      | some attrs' => readAttributes attrs' rest

def extractScepAttributes (m : Message) : ScepAttributes :=
  match m.signerInfos with
  | [] => .empty
  | info :: _ => readAttributes lib .empty info.signedAttrs

def Sid.names (sid : Sid) (cert : Certificate) : Bool :=
  match sid with
  | .issuerAndSerialNumber issuer serial =>
    cert.issuer = issuer && (cert.serialNumber : ℤ) = serial
  | .subjectKeyIdentifier key => cert.keyIdentifier = some key

/-- The enclosed certificate that the first SignerInfo names. -/
def extractSignerCertificate (m : Message) : Option Certificate :=
  m.signerInfos.head?.bind fun info => m.certificates.find? info.sid.names

def inboundDigestAllowed : List DigestAlgorithm := [.sha1, .sha224, .sha256, .sha384, .sha512]

/-- The signed bytes: the attributes under a SET tag in place of their implicit one. -/
def signedBytes (raw : Bytes) : Bytes :=
  match raw with
  | [] => []
  | tag :: rest => (if tag = 0xA0 then 0x31 else tag) :: rest

/-- The first value of the first messageDigest attribute that has one. -/
def declaredDigest (attrs : List Attribute) : Option Native :=
  attrs.findSome? fun a => if a.type = .messageDigest then a.values.head? else none

/-- `verify_cms_signature` with the first SignerInfo; `fips` refuses SHA-1. -/
def verifyCmsSignature (fips : Bool) (m : Message) (signer : Certificate) :
    Except CmsError Unit := do
  let info ← expect m.signerInfos.head? .valueError
  require (!(fips && (info.digestAlgorithm = .sha1 || info.signatureAlgorithm = .sha1Rsa)))
    .valueError
  require (info.digestAlgorithm ∈ inboundDigestAllowed) .valueError
  lib.verify signer info.signatureAlgorithm info.digestAlgorithm info.signature
    (signedBytes (lib.dump info.signedAttrs))
  match m.content with
  | none => pure ()
  | some [] => pure ()
  | some content =>
    let declared ← expect (declaredDigest info.signedAttrs) .valueError
    require (declared = .bytes (lib.digest info.digestAlgorithm content)) .invalidSignature

/-- `decrypt_scep_envelope`: there is no ContentInfo to load from an empty string. -/
def decryptScepEnvelope (fips : Bool) : Bytes → Except EnvelopeError Bytes
  | [] => .error .unreadable
  | envelope => lib.decrypt fips envelope

/-- The message's signature verifies with `signer` over attributes that hold the digest of
`content`, which is what the message carries. -/
structure SignedBy (m : Message) (signer : Certificate) (content : Bytes) : Prop where
  enclosed : extractSignerCertificate m = some signer
  carried : m.content = some content
  signature : ∃ info ∈ m.signerInfos.head?,
    lib.verify signer info.signatureAlgorithm info.digestAlgorithm info.signature
        (signedBytes (lib.dump info.signedAttrs)) = .ok () ∧
      declaredDigest info.signedAttrs = some (.bytes (lib.digest info.digestAlgorithm content))

theorem signedBy_of_verified {fips : Bool} {m : Message} {signer : Certificate}
    {content data : Bytes} (hsigner : extractSignerCertificate m = some signer)
    (hverify : verifyCmsSignature lib fips m signer = .ok ()) (hcontent : m.content = some content)
    (hdata : decryptScepEnvelope lib fips content = .ok data) : SignedBy lib m signer content := by
  refine ⟨hsigner, hcontent, ?_⟩
  simp only [verifyCmsSignature, bind_eq_ok, expect_eq_ok] at hverify
  obtain ⟨info, hinfo, -, -, -, -, ⟨⟩, hsignature, hdigest⟩ := hverify
  refine ⟨info, hinfo, hsignature, ?_⟩
  -- empty content skips the digest check, but it does not decrypt either
  cases content with
  | nil => simp [decryptScepEnvelope] at hdata
  | cons b rest =>
    simp only [hcontent, bind_eq_ok, expect_eq_ok, require_eq_ok, decide_eq_true_eq] at hdigest
    obtain ⟨declared, hdeclared, rfl⟩ := hdigest
    exact hdeclared

end UltimateCaManager.Scep
