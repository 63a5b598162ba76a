import UltimateCaManager.KeyPurposes

/-!
# Signing a CSR

`sign_csr` is the one place where the key of a CA signs the request of somebody else. It builds the
certificate extension by extension: from the CSR what a request may set, then the defaults of the
certificate type and the configured purposes, and the issuer's own extensions. The builder takes
each extension once.
-/
namespace UltimateCaManager.Signing

open Constraints Guards

/-! ## Extensions -/

/-- The extensions whose content no decision depends on. -/
inductive OtherOid
  | subjectKeyIdentifier | authorityKeyIdentifier | crlDistributionPoints
  | authorityInformationAccess | certificatePolicies | qcStatements | relatedCertificate
  | certificateTemplate | sidSecurity | sctList | nameConstraints | policyConstraints
  | inhibitAnyPolicy
  | unknown (oid : String)
  deriving DecidableEq

inductive ExtensionOid
  | subjectAlternativeName | keyUsage | extendedKeyUsage | basicConstraints | tlsFeature
  | ocspNoCheck
  | other (oid : OtherOid)
  deriving DecidableEq

inductive TlsFeature
  | statusRequest
  | other (id : ℕ)
  deriving DecidableEq

/-- The texts that an extension holds, with a label each. -/
abbrev Content := List (String × String)

inductive Value
  | subjectAlternativeName (names : List GeneralName)
  | keyUsage (usage : KeyUsage)
  | extendedKeyUsage (oids : List String)
  | basicConstraints (ca : Bool) (pathLength : Option ℕ)
  | tlsFeature (features : List TlsFeature)
  | ocspNoCheck
  | other (oid : OtherOid) (content : Content)
  deriving DecidableEq

def Value.oid : Value → ExtensionOid
  | .subjectAlternativeName _ => .subjectAlternativeName
  | .keyUsage _ => .keyUsage
  | .extendedKeyUsage _ => .extendedKeyUsage
  | .basicConstraints _ _ => .basicConstraints
  | .tlsFeature _ => .tlsFeature
  | .ocspNoCheck => .ocspNoCheck
  | .other oid _ => .other oid

structure Extension where
  value : Value
  critical : Bool
  deriving DecidableEq

def Extension.oid (e : Extension) : ExtensionOid := e.value.oid

abbrev Builder := List Extension

namespace Builder

variable (b : Builder)

def has (oid : ExtensionOid) : Bool := b.any fun e => e.oid = oid

/-- `add_extension`. -/
def add (value : Value) (critical : Bool) : Except String Builder :=
  if b.has value.oid then .error "This extension has already been set."
  else .ok (b ++ [⟨value, critical⟩])

def keyUsage? : Option KeyUsage :=
  b.findSome? fun e => match e.value with
    | .keyUsage usage => some usage
    | _ => none

def ekus? : Option (List String) :=
  b.findSome? fun e => match e.value with
    | .extendedKeyUsage oids => some oids
    | _ => none

end Builder

/-! ## The request, its options and the issuer -/

/-- The certificate that a request names as related: its hash and its purposes. -/
structure RelatedCert where
  hash : String
  keyUsage : Option KeyUsage
  ekus : Option (List String)

/-- A certificate request: its extensions, each once, and what the checks of its key and its
signature say. `related` is its relatedCertRequest, unless it cannot be read, with the outcome of
its verification. -/
structure Csr where
  subject : Subject
  key : KeyKind
  keyLabel : String
  keyIdentifier : String
  keyError : Option String
  signatureValid : Bool
  related : Except String (Option (Except String RelatedCert))
  extensions : List Extension
  nodup : (extensions.map Extension.oid).Nodup

/-- `get_extension_for_oid`. -/
def Csr.extension? (csr : Csr) (oid : ExtensionOid) : Option Extension :=
  csr.extensions.find? fun e => e.oid = oid

/-- What a template says about the types of the names. -/
structure SanTemplate where
  name : Option String
  enforceSanTypes : Bool
  sanTypes : List String

/-- The arguments of `sign_csr`. An empty text counts as absent, as does an empty list. -/
structure Options where
  certType : CertType
  cdpUrl : Option String
  cdpUrls : List String
  ocspUrl : Option String
  ocspUrls : List String
  aiaCaIssuersUrl : Option String
  aiaCaIssuersUrls : List String
  cpsUri : Option String
  cpsOid : Option String
  ocspMustStaple : Bool
  extraEkus : EkuItems
  renewalOf : Option RenewedCert
  allowSensitiveEkus : Bool
  requirePop : Bool
  msCertificateTemplateOid : Option String
  overrideSubject : Option Subject
  overrideSan : Option (List GeneralName)
  requesterSid : Option String
  templateExt : Option TemplateExt
  extraSan : List GeneralName
  sanTemplate : Option SanTemplate
  /-- The policies of the qualification template, as `template_policy_oids` reads them. -/
  policyOids : List String
  /-- Its qcStatements, as `qc_statements_extension` builds them. -/
  qcStatements : Option Content

def Options.issuingCa (o : Options) : Bool := o.certType = .intermediateCa

/-- The issuing CA, with what the rest of the server decides about an issuance. -/
structure Issuer where
  lib : Library
  certificate : Constraints.Certificate
  /-- The table of CAs, and the name constraints of a certificate. -/
  rows : List Constraints.Certificate
  constraints : Constraints.Certificate → Option NameConstraints
  refusal : Violation → String
  pathLength : Option ℕ
  authorityKeyIdentifier : Content
  checkIssuerWindow : Except String Unit
  /-- The issuance policies, on the names, the type of the key and whether the certificate is the
  second of a pair. -/
  checkPolicies : Subject → List GeneralName → String → Bool → Except String Unit
  /-- `tsa_signer_violations`; none without a policy scope. -/
  tsaSignerViolations : Option String
  /-- `apply_ct_policy`: the embedded list, if any. -/
  applyCtPolicy : Except String (Option Content)

variable (ca : Issuer) (csr : Csr) (o : Options)

/-! ## Names -/

/-- The name that a common name implies. -/
def nameOfCommonName (cn : List Char) : Except String GeneralName :=
  match ca.lib.ipAddress cn with
  | some ip => .ok (.ip ip)
  | none =>
    if '@' ∈ cn then do
      require (ca.lib.acceptsMailbox cn) "Invalid rfc822name value"
      pure (.email cn)
    else do
      require (ca.lib.acceptsDnsName cn) "DNSName values should be passed as an A-label string."
      pure (.dns cn)

def synthesizeSanFromSubject (subject : Subject) : Except String (List GeneralName) := do
  let names ← (subject.commonNames.take 1).mapM (nameOfCommonName ca)
  subject.emailAddresses.foldlM (fun names email =>
    if .email email ∈ names then pure names
    else do
      require (ca.lib.acceptsMailbox email) "Invalid rfc822name value"
      pure (names ++ [.email email])) names

def Csr.san? : Option (List GeneralName) :=
  match csr.extension? .subjectAlternativeName with
  | some ⟨.subjectAlternativeName names, _⟩ => some names
  | _ => none

def isEmptySubject (subject : Subject) : Bool := subject.rdns = []

def Subject.ofCommonName (cn : List Char) : Subject := ⟨[cn], [], [0]⟩

/-- The override, or the subject of the CSR; an empty one takes the first DNS name or address. -/
def effectiveSubject : Subject :=
  let subject := o.overrideSubject.getD csr.subject
  let first := (csr.san?.getD []).findSome? fun
    | .dns value => some value
    | .ip value => some (ca.lib.printed (.ip value))
    | _ => none
  if isEmptySubject subject then (first.map Subject.ofCommonName).getD subject else subject

def sanTypeOf : GeneralName → String
  | .dns _ => "dns"
  | .ip _ => "ip"
  | .email _ => "email"
  | .uri _ => "uri"
  | .other typeId _ => if typeId = upnOid then "upn" else "OtherName"
  | .directory _ => "DirectoryName"
  | .registered _ => "RegisteredID"

def allowedSanTypes (lib : Library) (template : SanTemplate) : Option (List String) :=
  if !template.enforceSanTypes || template.sanTypes = [] then none
  else some (template.sanTypes.map fun type => String.ofList (lib.lower (lib.strip type.toList)))

/-- `SAN_TYPE_LABELS`. -/
def sanTypeLabel : String → String
  | "dns" => "DNS"
  | "ip" => "IP"
  | "uri" => "URI"
  | "upn" => "UPN"
  | type => type

def sanTypeRefusal (allowed : List String) (types : List String) (templateName : Option String) :
    Option String :=
  let refused := (types.filter (· ∉ allowed)).eraseDups.mergeSort fun a b => decide (a ≤ b)
  if refused = [] then none
  else some (templateName.elim "The certificate template" (fun name => "Template '" ++ name ++ "'")
    ++ " does not allow " ++ ", ".intercalate (refused.map sanTypeLabel) ++
    " names in the Subject Alternative Name")

def checkSanTypes (template : SanTemplate) (names : List GeneralName) : Except String Unit :=
  match allowedSanTypes ca.lib template with
  | none => .ok ()
  | some allowed => forbid (sanTypeRefusal allowed (names.map sanTypeOf) template.name)

/-- The names before a SAN template is read: the override, those of the CSR, or those of the
subject, with the names that the operator adds. -/
def collectedSans (subject : Subject) : Except String (List GeneralName) := do
  let names ← match o.overrideSan, csr.san? with
    | some names, _ => pure names
    | none, some names => pure names
    | none, none => do
      let implied ← synthesizeSanFromSubject ca subject
      -- beside names of the operator, a common name that is no host name gives none
      pure (implied.filter fun
        | .dns value => o.extraSan = [] || ca.lib.cnLooksLikeHostname value
        | _ => true)
  pure (names ++ o.extraSan.filter (· ∉ names))

/-- The names that are checked, and that land on a certificate whose CSR names none. -/
def effectiveSans (subject : Subject) : Except String (List GeneralName) := do
  let names ← collectedSans ca csr o subject
  match o.sanTemplate with
  | none => pure names
  | some template => do
    let requested := match csr.san?, o.overrideSan with
      | some names, _ => names
      | none, some names => names
      | none, none => []
    checkSanTypes ca template (requested ++ o.extraSan)
    match allowedSanTypes ca.lib template with
    | some allowed =>
      if o.overrideSan = none ∧ csr.san? = none then
        pure (names.filter fun name => sanTypeOf name ∈ allowed)
      else pure names
    | none => pure names

/-! ## Building the certificate -/

/-- `_LEAF_CSR_COPYABLE_EXTENSION_OIDS`. -/
def leafCsrCopyable : List ExtensionOid :=
  [.subjectAlternativeName, .keyUsage, .extendedKeyUsage, .basicConstraints, .tlsFeature,
    .ocspNoCheck]

def cappedBasicConstraints (isCa : Bool) (requested : Option ℕ) : Except String Value :=
  match ca.pathLength with
  | none => .ok (.basicConstraints isCa requested)
  | some 0 => .error "Issuing CA has pathLenConstraint 0 and may not issue a subordinate CA"
  | some (limit + 1) =>
    if requested.all (limit < ·) then .ok (.basicConstraints true (some limit))
    else .ok (.basicConstraints isCa requested)

/-- `add_ocsp_nocheck_if_responder`. -/
def addOcspNoCheck (ekus : List String) (b : Builder) : Except String Builder :=
  if ocspSigning ∉ ekus || b.has .ocspNoCheck then .ok b else b.add .ocspNoCheck false

def addEkus (ekus : List String) (critical : Bool) (b : Builder) : Except String Builder :=
  if ekus = [] then .ok b
  else do
    let b ← b.add (.extendedKeyUsage ekus) critical
    addOcspNoCheck ekus b

/-- What a bound template imposes on a leaf: its key usage and its purposes. -/
abbrev Imposed := Option KeyUsage × Option (List String)

/-- One round of the loop over the extensions of the CSR. -/
def copyExtension (subject : Subject) (sans : List GeneralName) (imposed : Imposed) (b : Builder)
    (e : Extension) : Except String Builder :=
  if e.oid ∈ [.other .subjectKeyIdentifier, .other .authorityKeyIdentifier] then .ok b
  else if !o.issuingCa && e.oid ∉ leafCsrCopyable then .ok b
  else
    match e.value with
    | .basicConstraints isCa pathLength => do
      let constraints ← if o.issuingCa then cappedBasicConstraints ca isCa pathLength
        else pure (.basicConstraints false none)
      b.add constraints true
    | .keyUsage usage =>
      if imposed.1.isSome then .ok b
      else b.add (.keyUsage (usage.withCaSigning o.issuingCa)) true
    | .extendedKeyUsage oids =>
      if o.issuingCa then b.add e.value e.critical
      else if imposed.2.isSome then .ok b
      else do
        let kept ← filterCsrEkus oids o.certType o.allowSensitiveEkus o.renewalOf
        addEkus kept e.critical b
    | .ocspNoCheck => if b.has .ocspNoCheck then .ok b else b.add .ocspNoCheck e.critical
    | .tlsFeature features =>
      let staple := o.ocspMustStaple && TlsFeature.statusRequest ∉ features
      b.add (.tlsFeature (features ++ if staple then [.statusRequest] else [])) false
    | .subjectAlternativeName names =>
      b.add (.subjectAlternativeName (if o.extraSan = [] then names else sans))
        (e.critical || isEmptySubject subject)
    | .other _ _ => b.add e.value e.critical

/-- The SAN of a certificate whose CSR has none. -/
def addNames (subject : Subject) (sans : List GeneralName) (b : Builder) : Except String Builder :=
  if csr.san? = none ∧ sans ≠ [] then
    b.add (.subjectAlternativeName sans) (isEmptySubject subject)
  else .ok b

/-- The BasicConstraints of a certificate whose CSR has none. -/
def addBasicConstraints (b : Builder) : Except String Builder :=
  if (csr.extension? .basicConstraints).isSome then .ok b
  else do
    let constraints ← if o.issuingCa then cappedBasicConstraints ca true (some 0)
      else pure (.basicConstraints false none)
    b.add constraints true

/-- The key usage of the template or, where the CSR has none either, the default of the type. -/
def addKeyUsage (imposed : Option KeyUsage) (b : Builder) : Except String Builder :=
  match imposed with
  | some usage => b.add (.keyUsage usage) true
  | none =>
    if (csr.extension? .keyUsage).isSome then .ok b
    else
      match o.certType with
      | .intermediateCa => b.add (.keyUsage { KeyUsage.none with
          digitalSignature := true, keyCertSign := true, crlSign := true }) true
      | .serverCert | .deviceCert => b.add (.keyUsage { KeyUsage.none with
          digitalSignature := true, keyEncipherment := true }) true
      | _ => .ok b

/-- The purposes of the template, those of the type and the renewed certificate, or the CSR's own,
with those of the operator. -/
def addExtendedKeyUsage (imposed : Option (List String)) (extra : List String) (b : Builder) :
    Except String Builder :=
  match imposed, csr.extension? .extendedKeyUsage with
  | some ekus, _ =>
    addEkus (mergeEkuLists (if ekus = [] then defaultEkus o.certType else ekus) extra) false b
  | none, none =>
    let prior := (priorEkus o.renewalOf).filter (· ∉ sensitiveEkus)
    let base := if prior = [] then defaultEkus o.certType
      else mergeEkuLists (defaultEkus o.certType) prior
    addEkus (mergeEkuLists base extra) false b
  | none, some ⟨.extendedKeyUsage oids, critical⟩ =>
    if extra = [] then .ok b
    else do
      -- the builder is made again without the extension that the loop has copied
      let kept ← filterCsrEkus oids o.certType o.allowSensitiveEkus o.renewalOf
      addEkus (mergeEkuLists kept extra) critical (b.filter fun e => e.oid ≠ .extendedKeyUsage)
  | none, some _ => .ok b

/-- `constrain_builder_key_usage`. -/
def constrainKeyUsage (key : KeyKind) (b : Builder) : Builder :=
  b.map fun e => match e.value with
    | .keyUsage usage => { e with value := .keyUsage (keyUsageForKey key usage (b.ekus?.getD [])) }
    | _ => e

/-- An extension of the issuer, unless it is empty or the request of a CA supplied it. -/
def addIssuerExtension (oid : OtherOid) (content : Content) (b : Builder) :
    Except String Builder :=
  if content = [] ∨ o.issuingCa ∧ (csr.extension? (.other oid)).isSome then .ok b
  else b.add (.other oid content) false

/-- The list, or the single address in its place. -/
def urlsOr (urls : List String) (url : Option String) : List String :=
  if urls = [] then url.toList else urls

/-- `build_certificate_policies`; a CA takes none from a template. -/
def certificatePolicies : Content :=
  let own := o.cpsUri.map fun uri => (o.cpsOid.getD "2.5.29.32.0", uri)
  let added := (if o.issuingCa then [] else o.policyOids).eraseDups.filter fun oid =>
    own.all fun policy => oid ≠ policy.1
  own.toList ++ added.map fun oid => (oid, "")

def addQcStatements (b : Builder) : Except String Builder :=
  match o.qcStatements with
  | some content =>
    if o.issuingCa || b.has (.other .qcStatements) then .ok b
    else b.add (.other .qcStatements content) false
  | none => .ok b

def addIssuerExtensions (b : Builder) : Except String Builder := do
  let b ← addIssuerExtension csr o .crlDistributionPoints
    ((urlsOr o.cdpUrls o.cdpUrl).map fun url => ("", url)) b
  let b ← addIssuerExtension csr o .authorityInformationAccess
    ((urlsOr o.ocspUrls o.ocspUrl).map (fun url => ("OCSP", url)) ++
      (urlsOr o.aiaCaIssuersUrls o.aiaCaIssuersUrl).map fun url => ("caIssuers", url)) b
  let b ← addIssuerExtension csr o .certificatePolicies (certificatePolicies o) b
  let b ← addQcStatements o b
  let b ← b.add (.other .subjectKeyIdentifier [("", csr.keyIdentifier)]) false
  let b ← b.add (.other .authorityKeyIdentifier ca.authorityKeyIdentifier) false
  if o.ocspMustStaple && !b.has .tlsFeature then b.add (.tlsFeature [.statusRequest]) false
  else pure b

def verifiedRelatedCertificate : Except String (Option RelatedCert) := do
  match ← csr.related with
  | none => pure none
  | some verified => do
    require (!o.issuingCa) "Only an end-entity certificate may name a related certificate"
    let cert ← verified
    pure (some cert)

def usagesOutside (cert : RelatedCert) (usage : Option KeyUsage) (ekus : Option (List String)) :
    List String :=
  (match usage, cert.keyUsage with
    | some usage, some carried => usage.bits.filter (· ∉ carried.bits)
    | _, _ => []) ++
  (match ekus, cert.ekus with
    | some ekus, some carried =>
      if anyExtendedKeyUsage ∈ carried then [] else ekus.filter (· ∉ carried)
    | _, _ => [])

def linkedBuilder (cert : RelatedCert) (b : Builder) : Except String Builder := do
  let outside := usagesOutside cert b.keyUsage? b.ekus?
  require (outside = []) ("The related certificate does not carry what this one asserts: " ++
    ", ".intercalate outside)
  b.add (.other .relatedCertificate [("", cert.hash)]) false

/-- An extension whose one text is given or not. -/
def addGiven (oid : OtherOid) (text : Option String) (b : Builder) : Except String Builder :=
  match text with
  | some text => b.add (.other oid [("", text)]) false
  | none => .ok b

def addRelated (related : Option RelatedCert) (b : Builder) : Except String Builder :=
  match related with
  | some cert => linkedBuilder cert b
  | none => .ok b

/-- The link to a related certificate, and the Microsoft extensions. -/
def addLinks (related : Option RelatedCert) (b : Builder) : Except String Builder := do
  let b ← addRelated related b
  let b ← addGiven .certificateTemplate o.msCertificateTemplateOid b
  addGiven .sidSecurity o.requesterSid b

/-- A certificate for time stamping is one that the policies of the TSA allow. -/
def checkTsaSigner (b : Builder) : Except String Unit :=
  if timeStamping ∈ b.ekus?.getD [] then forbid ca.tsaSignerViolations else .ok ()

/-- The certificate transparency of a leaf. -/
def embedScts (b : Builder) : Except String Builder :=
  if o.issuingCa then .ok b
  else do
    match ← ca.applyCtPolicy with
    | some content => b.add (.other .sctList content) false
    | none => pure b

structure Certificate where
  subject : Subject
  extensions : List Extension

/-- The request of a CA below says that it is one. -/
def checkSubCa : Except String Unit :=
  match csr.extension? .basicConstraints with
  | some ⟨.basicConstraints isCa _, _⟩ =>
    require (!o.issuingCa || isCa) "Intermediate CA CSR BasicConstraints must set ca=True"
  | _ => .ok ()

/-- What is checked before the certificate is built, with the names it will carry. -/
def checkRequest : Except String (Option RelatedCert × Subject × List GeneralName) := do
  forbid (csr.keyError.map ("CSR public key rejected: " ++ ·))
  require (!o.requirePop || csr.signatureValid) "CSR has invalid signature"
  let related ← verifiedRelatedCertificate csr o
  let subject := effectiveSubject ca csr o
  let sans ← effectiveSans ca csr o subject
  (validateNameConstraints ca.lib.toLibrary ca.constraints ca.rows ca.certificate subject sans
    (o.renewalOf.map RenewedCert.names)).mapError ca.refusal
  ca.checkIssuerWindow
  ca.checkPolicies subject sans csr.keyLabel related.isSome
  checkSubCa csr o
  pure (related, subject, sans)

/-- The purposes that a bound template imposes; a CA below takes none. -/
def imposedPurposes : Except String Imposed :=
  if o.issuingCa then .ok (none, none)
  else templateKeyPurposes ca.lib o.templateExt o.allowSensitiveEkus

def signCsr : Except String Certificate := do
  let (related, subject, sans) ← checkRequest ca csr o
  let imposed ← imposedPurposes ca o
  let b ← csr.extensions.foldlM (copyExtension ca o subject sans imposed) []
  let b ← addNames csr subject sans b
  let b ← addBasicConstraints ca csr o b
  let b ← addKeyUsage csr o imposed.1 b
  let extra ← extraEkuOids ca.lib o.extraEkus
  let b ← addExtendedKeyUsage csr o imposed.2 extra b
  let b ← addIssuerExtensions ca csr o (constrainKeyUsage csr.key b)
  let b ← addLinks o related b
  checkTsaSigner ca b
  let b ← embedScts ca o b
  pure ⟨subject, b⟩

end UltimateCaManager.Signing
