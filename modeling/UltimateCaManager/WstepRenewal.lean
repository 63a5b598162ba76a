import UltimateCaManager.ScepEnrolment
import UltimateCaManager.XmlTree

/-!
# WSTEP renewal by an XML signature

A RequestSecurityToken is a SOAP document. `parse_rst` finds the CSR in it by position; a renewal is
authenticated by a signature in the `wsse:Security` header, whose References name the parts of the
document it covers. The CSR has to be one of them or inside one. The XML parser, the signature
library and the ASN.1 and X.509 libraries are outside.
-/
namespace UltimateCaManager.Wstep

open Guards Numerals Xml

abbrev Bytes := Scep.Bytes

def soapNs : String := "http://www.w3.org/2003/05/soap-envelope"
def addressingNs : String := "http://www.w3.org/2005/08/addressing"
def wstNs : String := "http://docs.oasis-open.org/ws-sx/ws-trust/200512"
def wsseNs : String :=
  "http://docs.oasis-open.org/wss/2004/01/oasis-200401-wss-wssecurity-secext-1.0.xsd"
def wsuNs : String :=
  "http://docs.oasis-open.org/wss/2004/01/oasis-200401-wss-wssecurity-utility-1.0.xsd"
def dsNs : String := "http://www.w3.org/2000/09/xmldsig#"

def binarySecurityToken : QName := ⟨wsseNs, "BinarySecurityToken"⟩

def plain (name : String) : QName := ⟨"", name⟩

def envelopedSignature : String := "http://www.w3.org/2000/09/xmldsig#enveloped-signature"

def allowedSignatureMethods : List String :=
  ["http://www.w3.org/2001/04/xmldsig-more#rsa-sha256",
    "http://www.w3.org/2001/04/xmldsig-more#rsa-sha384",
    "http://www.w3.org/2001/04/xmldsig-more#rsa-sha512",
    "http://www.w3.org/2001/04/xmldsig-more#ecdsa-sha256",
    "http://www.w3.org/2001/04/xmldsig-more#ecdsa-sha384",
    "http://www.w3.org/2001/04/xmldsig-more#ecdsa-sha512"]

def allowedDigestMethods : List String :=
  ["http://www.w3.org/2001/04/xmlenc#sha256", "http://www.w3.org/2001/04/xmldsig-more#sha384",
    "http://www.w3.org/2001/04/xmlenc#sha512"]

/-- A request of a CMC PKIData: a PKCS#10 request with its body part id, or another choice. -/
inductive TaggedRequest
  | tcr (bodyPartId : ℤ) (certificationRequest : Bytes)
  | other (name : String)

/-- How the check of a CMS signature fails. -/
inductive CmsFault
  | fipsRestricted (reason : String)
  | invalid

/-- The libraries: base64, ASN.1, X.509, CMS and the signature library with its keys. A transform
other than the enveloped-signature one is known by the elements it keeps. -/
structure Library (Key : Type) where
  b64decode : List Char → Except String Bytes
  repr : String → String
  loadContentInfo : Bytes → Except String Scep.Message
  loadPkiData : Bytes → Except String (List TaggedRequest)
  loadCertificate : Bytes → Option Scep.Certificate
  loadCsr : Bytes → Option Scep.Csr
  /-- The label of an ML-DSA key in a certificate. -/
  mlDsaLabel : Bytes → Option String
  certificateKey : Scep.Certificate → Option Bytes
  isSignatureValid : Scep.Csr → Bool
  weakHashAlgorithm : Scep.Csr → Option String
  subjectKeyIdentifier : Bytes → Bytes
  verifyCms : Scep.Message → Bytes → Scep.SignerInfo → Except CmsFault Unit
  loadKey : Bytes → Except String Key
  verifySignature : Key → Element → String → Bool
  digestMatches : String → List Token → String → Bool
  keeps : String → Element → Path → Bool

variable {Key : Type} (lib : Library Key)

/-! ## The request -/

structure ParsedRst where
  csrDer : Bytes
  tokenType : Option String
  requestType : Option String
  messageId : Option String
  securityHeader : Option Located
  csrElement : Located
  wasPkcs7Wrapped : Bool
  cmcBodyPartId : Option ℤ
  outerSignedData : Option Scep.Message

/-- `_text`. -/
def textOf (element : Option Element) : Option String :=
  element.bind fun e => if e.text = "" then none else some (String.ofList (strip e.text.toList))

def unwrapPkcs7Csr (der : Bytes) : Except String (Bytes × Option ℤ × Scep.Message) := do
  let message ← (lib.loadContentInfo der).mapError ("Invalid PKCS#7 envelope: " ++ ·)
  require (message.contentType = .signedData) "Invalid PKCS#7 envelope: expected signed_data"
  let content ← expect message.content "Invalid PKCS#7 envelope: no content"
  match message.encapContentType with
  | .other "1.3.6.1.5.5.7.12.2" =>
    let requests ← (lib.loadPkiData content).mapError ("Invalid CMC PKIData content: " ++ ·)
    match requests with
    | .tcr bodyPartId csr :: _ => .ok (csr, some bodyPartId, message)
    | .other name :: _ =>
      .error ("Invalid CMC PKIData content: unsupported TaggedRequest choice: " ++ name)
    | [] => .error "Invalid CMC PKIData content: no request"
  | .data => .ok (content, none, message)
  | .signedData => .error "Unsupported PKCS#7 encapsulated content type: signed_data"
  | .envelopedData => .error "Unsupported PKCS#7 encapsulated content type: enveloped_data"
  | .other oid => .error ("Unsupported PKCS#7 encapsulated content type: " ++ oid)

/-- The base64 text of a token without white space. -/
def tokenText (token : Element) : List Char := token.text.toList.filter (!isSpace ·)

/-- The first `wsse:Security` header: that of the first SOAP header that has one. -/
def findSecurityHeader (doc : Element) : Option Located :=
  ((Located.root doc).descendants.filter fun d => d.name = ⟨soapNs, "Header"⟩).findSome?
    fun header => header.child? ⟨wsseNs, "Security"⟩

/-- `parse_rst` of a document that the XML parser accepts. -/
def parseRst (doc : Element) : Except String ParsedRst := do
  let root := Located.root doc
  let messageId := textOf ((root.descendant? ⟨addressingNs, "MessageID"⟩).map Located.element)
  let securityHeader := findSecurityHeader doc
  let rst ← expect (root.descendant? ⟨wstNs, "RequestSecurityToken"⟩)
    "Missing wst:RequestSecurityToken body"
  let tokenType := textOf (rst.element.child? ⟨wstNs, "TokenType"⟩)
  let requestType := textOf (rst.element.child? ⟨wstNs, "RequestType"⟩)
  let bst ← expect (rst.child? binarySecurityToken) "Missing CSR wsse:BinarySecurityToken"
  require (tokenText bst.element ≠ []) "Missing CSR wsse:BinarySecurityToken"
  let der ← (lib.b64decode (tokenText bst.element)).mapError
    ("Invalid base64 in BinarySecurityToken: " ++ ·)
  let valueType := (bst.element.attribute? (plain "ValueType")).getD ""
  if "#PKCS7".toList.isSuffixOf valueType.toList then
    let (csr, bodyPartId, outer) ← unwrapPkcs7Csr lib der
    return ⟨csr, tokenType, requestType, messageId, securityHeader, bst, true, bodyPartId,
      some outer⟩
  else
    return ⟨der, tokenType, requestType, messageId, securityHeader, bst, false, none, none⟩

/-! ## The signature -/

def algorithmOf (e : Element) : String := (e.attribute? (plain "Algorithm")).getD ""

def signedInfos (signature : Element) : List Element := signature.childrenNamed ⟨dsNs, "SignedInfo"⟩

def referencesOf (signedInfo : Element) : List Element :=
  signedInfo.childrenNamed ⟨dsNs, "Reference"⟩

def uriOf (reference : Element) : String := (reference.attribute? (plain "URI")).getD ""

def transformsOf (reference : Element) : List String :=
  ((reference.childrenNamed ⟨dsNs, "Transforms"⟩).flatMap
    (·.childrenNamed ⟨dsNs, "Transform"⟩)).map algorithmOf

def shownAlgorithm (algorithm : String) : String :=
  if algorithm = "" then "(none)" else algorithm

/-- The one method element and its algorithm. -/
def checkMethod (methods : List Element) (allowed : List String) (refusal missing : String) :
    Except String Unit :=
  match methods with
  | [method] =>
    require (algorithmOf method ∈ allowed) (refusal ++ shownAlgorithm (algorithmOf method))
  | _ => .error missing

def checkAlgorithms (signature : Element) : Except String Unit := do
  checkMethod ((signedInfos signature).flatMap (·.childrenNamed ⟨dsNs, "SignatureMethod"⟩))
    allowedSignatureMethods "Signature algorithm not allowed: "
    "ds:SignedInfo must contain exactly one SignatureMethod"
  ((signedInfos signature).flatMap referencesOf).forM fun reference =>
    checkMethod (reference.childrenNamed ⟨dsNs, "DigestMethod"⟩) allowedDigestMethods
      "Digest algorithm not allowed: " "ds:Reference must contain exactly one DigestMethod"

def refusePostQuantumSigner (der : Bytes) : Except String Unit :=
  forbid ((lib.mlDsaLabel der).map fun label =>
    "Certificate-bound renewal is not supported for " ++ label ++
      " certificates: XML-DSig has no ML-DSA signature method; enroll a new certificate instead")

/-- The element a Reference signs: the document element, or the first one with the `wsu:Id`. -/
def resolveReference (doc reference : Element) : Except String Located :=
  match (uriOf reference).toList with
  | [] => do
    require (envelopedSignature ∈ transformsOf reference)
      "Reference URI=\"\" requires the enveloped-signature transform"
    pure (.root doc)
  | '#' :: c :: cs =>
    expect ((Located.root doc).all.find? fun el =>
        el.element.attribute? ⟨wsuNs, "Id"⟩ = some (String.ofList (c :: cs)))
      ("Signed Reference target \"#" ++ String.ofList (c :: cs) ++ "\" not found")
  | _ => .error ("Unsupported Reference URI: " ++ lib.repr (uriOf reference))

/-! ### What the signature library verifies -/

/-- What a transform of a Reference keeps of the document: the enveloped-signature transform takes
out the Signature element with everything inside it. -/
def transformKeeps (doc : Element) (signature : Located) (algorithm : String) (path : Path) : Bool :=
  if algorithm = envelopedSignature then !signature.path.isPrefixOf path
  else lib.keeps algorithm doc path

/-- The octets that a Reference digests: its target after the transforms it lists. -/
def referenceOctets (doc : Element) (signature : Located) (reference : Element) (target : Located) :
    List Token :=
  target.canonical fun path =>
    (transformsOf reference).all fun algorithm => transformKeeps lib doc signature algorithm path

/-- The target of a Reference, among the ids that were registered. -/
def targetOf (doc : Element) (ids : List (String × Located)) (reference : Element) :
    Option Located :=
  match (uriOf reference).toList with
  | [] => some (.root doc)
  | '#' :: id => (ids.find? fun entry => entry.1 = String.ofList id).map Prod.snd
  | _ => none

/-- The digest method and value of a Reference whose children are as the schema has them. -/
def digestOf (reference : Element) : Option (String × String) :=
  match reference.children.elements with
  | [transforms, method, value] =>
    if transforms.name = ⟨dsNs, "Transforms"⟩ ∧ method.name = ⟨dsNs, "DigestMethod"⟩ ∧
        value.name = ⟨dsNs, "DigestValue"⟩ then some (algorithmOf method, value.text) else none
  | [method, value] =>
    if method.name = ⟨dsNs, "DigestMethod"⟩ ∧ value.name = ⟨dsNs, "DigestValue"⟩ then
      some (algorithmOf method, value.text)
    else none
  | _ => none

def verifyReference (doc : Element) (signature : Located) (ids : List (String × Located))
    (reference : Element) : Bool :=
  match targetOf doc ids reference, digestOf reference with
  | some target, some (method, value) =>
    lib.digestMatches method (referenceOctets lib doc signature reference target) value
  | _, _ => false

/-- The SignedInfo and the SignatureValue of a Signature whose children are as the schema has
them. -/
def signatureParts (signature : Element) : Option (Element × String) :=
  match signature.children.elements with
  | info :: value :: rest =>
    if info.name = ⟨dsNs, "SignedInfo"⟩ ∧ value.name = ⟨dsNs, "SignatureValue"⟩ ∧
        rest.all (fun e => e.name ∈ [(⟨dsNs, "KeyInfo"⟩ : QName), ⟨dsNs, "Object"⟩]) then
      some (info, value.text)
    else none
  | _ => none

/-- `ctx.verify`. -/
def verify (doc : Element) (key : Key) (signature : Located) (ids : List (String × Located)) :
    Bool :=
  match signatureParts signature.element with
  | some (info, value) =>
    lib.verifySignature key info value &&
      (referencesOf info).all (verifyReference lib doc signature ids)
  | none => false

/-- The ids that are registered for the References. -/
def registeredIds (references : List Element) (targets : List Located) : List (String × Located) :=
  (references.zip targets).filterMap fun entry =>
    match (uriOf entry.1).toList with
    | '#' :: id => some (String.ofList id, entry.2)
    | _ => none

/-- `verify_signed_request`: the signing certificate and the signed elements. -/
def verifySignedRequest (doc : Element) (securityHeader : Option Located) :
    Except String (Bytes × List Located) := do
  let header ← expect securityHeader "Request is not signed (no wsse:Security header)"
  let token ← expect (header.element.child? binarySecurityToken)
    "wsse:Security is missing the signing BinarySecurityToken"
  require (tokenText token ≠ []) "wsse:Security is missing the signing BinarySecurityToken"
  let der ← (lib.b64decode (tokenText token)).mapError
    ("Invalid base64 in signing BinarySecurityToken: " ++ ·)
  let signature ← expect (header.child? ⟨dsNs, "Signature"⟩)
    "wsse:Security is missing ds:Signature"
  refusePostQuantumSigner lib der
  checkAlgorithms signature.element
  let key ← (lib.loadKey der).mapError ("Could not load signing certificate: " ++ ·)
  let references := (signedInfos signature.element).flatMap referencesOf
  require (references ≠ []) "ds:Signature has no References"
  let targets ← references.mapM (resolveReference lib doc)
  require (verify lib doc key signature (registeredIds references targets))
    "Signature verification failed"
  pure (der, targets)

/-- `SignedContent.covers`. -/
def covers (signedElements : List Located) (element : Located) : Bool :=
  signedElements.any fun signed => signed.path.isPrefixOf element.path

/-! ## The renewal -/

/-- The endpoint: its CA, and what the rest of the server decides of a CSR, namely its key policy,
and its template and signature once the renewal is authenticated. -/
structure Service where
  ca : Scep.CaRow
  validateEnrollmentCsr : Scep.Csr → Option String
  signCsr : Scep.Certificate → Scep.Csr → Bool → Except String Bytes

variable (svc : Service) (now : ℤ)

def isNakedCsr (csr : Scep.Csr) : Bool :=
  let commonName := csr.subject.flatten.find? fun a => a.1 = "CN"
  !(commonName.any fun a => strip a.2.toList ≠ []) && csr.san = none

def validateCsr (csr : Scep.Csr) (requirePop : Bool) : Except String Unit := do
  forbid (svc.validateEnrollmentCsr csr)
  if requirePop && !lib.isSignatureValid csr then
    match lib.weakHashAlgorithm csr with
    | some algorithm => throw ("CSR signed with an unsupported hash algorithm (" ++ algorithm ++
        "); use SHA-256 or stronger")
    | none => throw "CSR signature invalid (proof of possession failed)"
  require (!isNakedCsr csr) "CSR subject must include a non-empty CN or a SubjectAltName"

def keyIdentifier? (info : Scep.SignerInfo) : Option Bytes :=
  match info.sid with
  | .subjectKeyIdentifier key => some key
  | .issuerAndSerialNumber _ _ => none

def verifyPkcs7Pop (csr : Scep.Csr) (outer : Scep.Message) : Except String Unit := do
  require (outer.signerInfos ≠ []) "PKCS#7 envelope has no signature"
  require (outer.signerInfos.any fun info => (keyIdentifier? info).isSome)
    "PKCS#7 envelope does not identify itself by the request key"
  let info ← expect (outer.signerInfos.find? fun info =>
      keyIdentifier? info = some (lib.subjectKeyIdentifier csr.publicKey))
    "PKCS#7 envelope signer does not match the CSR public key"
  (lib.verifyCms outer csr.publicKey info).mapError fun
    | .fipsRestricted reason => "PKCS#7 envelope refused: " ++ reason
    | .invalid => "PKCS#7 envelope signature invalid (proof of possession failed)"

def newKeyProof (csr : Scep.Csr) (renewed : Scep.Certificate) (outer : Option Scep.Message) :
    Except String Unit := do
  validateCsr lib svc csr false
  let key ← expect (lib.certificateKey renewed) "Unsupported public key"
  if csr.publicKey = key || lib.isSignatureValid csr then pure ()
  else
    let outer ← expect outer "Renewal with a new key requires its proof of possession"
    verifyPkcs7Pop lib csr outer

/-- The refusals of `_renewable_certificate`. -/
def notRenewable : Scep.IssuedStatus → String
  | .revoked => "Signing certificate has been revoked"
  | .expired => "Signing certificate has expired"
  | .notYetValid => "Signing certificate is not yet valid"
  | .superseded => "Signing certificate has been superseded by a newer one"
  | .unknown => "Signing certificate is not recognized"
  | .ok => "Signing certificate is not recognized"

def signRenewal (signing : Scep.Certificate) (csr : Scep.Csr) (requirePop : Bool) :
    Except String Bytes := do
  validateCsr lib svc csr requirePop
  require (signing.subject = csr.subject) "CSR subject does not match signing certificate"
  require (Scep.sanIdentityMatches signing csr)
    "CSR SubjectAltName does not match signing certificate"
  svc.signCsr signing csr requirePop

/-- `renew`: the renewed certificate, the CSR and what is issued for it. -/
def renew (s : Scep.Store) (doc : Element) (rst : ParsedRst) :
    Except String (Scep.Certificate × Scep.Csr × Bytes) := do
  let (signingDer, signedElements) ← verifySignedRequest lib doc rst.securityHeader
  require (covers signedElements rst.csrElement) "CSR is not covered by the request signature"
  let signing ← expect (lib.loadCertificate signingDer) "Invalid signing certificate"
  let status := Scep.issuedCertificateStatus now s svc.ca signing
  require (status = .ok) (notRenewable status)
  let csr ← expect (lib.loadCsr rst.csrDer) "Invalid CSR encoding"
  if rst.wasPkcs7Wrapped then newKeyProof lib svc csr signing rst.outerSignedData
  let issued ← signRenewal lib svc signing csr (!rst.wasPkcs7Wrapped)
  pure (signing, csr, issued)

end UltimateCaManager.Wstep
