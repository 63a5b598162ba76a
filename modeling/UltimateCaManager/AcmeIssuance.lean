import UltimateCaManager.AcmeService

/-!
# What finalization checks and what it signs

The comparison of a CSR with the identifiers of its order, and the names that end up in the
certificate. The CSR parser gives the subject attributes and the subjectAltName entries. Unicode
lower-casing and the recognition of IP address texts belong to the language's libraries and are
parameters.
-/
namespace UltimateCaManager.Acme

/-- `str.lower` and `ipaddress.ip_address`, which yields the canonical text of an address. -/
structure Text where
  lower : String → String
  ipAddress : String → Option String

inductive GeneralName
  | dns (value : String)
  | ip (value : String)
  | email (value : String)
  | other
  deriving DecidableEq

inductive SubjectAttribute
  | commonName (value : String)
  | email (value : String)
  | other
  deriving DecidableEq

/-- A parsed CSR; `san` is `none` when the CSR has no subjectAltName extension. -/
structure Csr where
  subject : List SubjectAttribute
  san : Option (List GeneralName)
  deriving DecidableEq

/-- The kinds of subjectAltName entries that a template may restrict. -/
inductive SanKind
  | dns | ip | email | other
  deriving DecidableEq

def commonNames (subject : List SubjectAttribute) : List String :=
  subject.filterMap fun
    | .commonName cn => some cn
    | _ => none

def emails (subject : List SubjectAttribute) : List String :=
  subject.filterMap fun
    | .email address => some address
    | _ => none

def dnsNames (names : List GeneralName) : List String :=
  names.filterMap fun
    | .dns value => some value
    | _ => none

def ipNames (names : List GeneralName) : List String :=
  names.filterMap fun
    | .ip value => some value
    | _ => none

/-- `name.lower().rstrip('.')`. -/
def Text.norm (text : Text) (name : String) : String :=
  String.ofList (rstripDots (text.lower name).toList)

def Order.domains (o : Order) : List String :=
  (o.identifiers.filter (·.type = .dns)).map Identifier.value

def Order.ips (o : Order) : List String :=
  (o.identifiers.filter (·.type = .ip)).map Identifier.value

/-- `_extract_domains_from_csr`: the first common name and the DNS entries. -/
def extractDomainsFromCsr (csr : Csr) : List String :=
  (dnsNames (csr.san.getD [])).foldl (fun domains name =>
    if name ∈ domains then domains else domains ++ [name]) ((commonNames csr.subject).take 1)

theorem mem_extractDomainsFromCsr {csr : Csr} {n : String} : n ∈ extractDomainsFromCsr csr ↔
    n ∈ (commonNames csr.subject).take 1 ∨ n ∈ dnsNames (csr.san.getD []) := by
  simp [extractDomainsFromCsr, Tables.mem_foldl_insert]

def sameSet (xs ys : List String) : Bool :=
  xs.all (· ∈ ys) && ys.all (· ∈ xs)

/-- `_validate_csr_san_types`: only DNS and IP entries drawn from the order. -/
def validateCsrSanTypes (text : Text) (csr : Csr) (domains ips : List String) : Bool :=
  (csr.san.getD []).all fun
    | .dns value => text.norm value ∈ domains
    | .ip value => value ∈ ips
    | _ => false

/-- `_validate_csr_subject`: no e-mail address, and every common name is an identifier. -/
def validateCsrSubject (text : Text) (csr : Csr) (domains ips : List String) : Bool :=
  (emails csr.subject).isEmpty &&
    (commonNames csr.subject).all fun cn =>
      text.norm cn ∈ domains || text.norm cn ∈ ips || cn ∈ ips

/-- The checks of `finalize_order` on the CSR. -/
def csrMatchesOrder (text : Text) (csr : Csr) (o : Order) : Bool :=
  let domains := o.domains.map text.norm
  sameSet ((extractDomainsFromCsr csr).map text.norm) domains &&
    sameSet (ipNames (csr.san.getD [])) o.ips &&
    validateCsrSanTypes text csr domains o.ips && validateCsrSubject text csr domains o.ips

/-- `san_type_refusal` on the types that the order needs. -/
def templateRefuses (allowed : Option (List SanKind)) (o : Order) : Bool :=
  match allowed with
  | none => false
  | some kinds => (o.domains ≠ [] && .dns ∉ kinds) || (o.ips ≠ [] && .ip ∉ kinds)

/-- The subject of the certificate: an empty one gets the first DNS or IP name as common name. -/
def effectiveSubject (csr : Csr) : List SubjectAttribute :=
  if csr.subject = [] then
    ((csr.san.getD []).findSome? fun
      | .dns value => some (SubjectAttribute.commonName value)
      | .ip value => some (SubjectAttribute.commonName value)
      | _ => none).toList
  else csr.subject

def synthesizeSanFromSubject (text : Text) (subject : List SubjectAttribute) : List GeneralName :=
  ((commonNames subject).take 1).map (fun cn =>
    match text.ipAddress cn with
    | some ip => .ip ip
    | none => if '@' ∈ cn.toList then .email cn else .dns cn) ++
  (emails subject).map .email

def GeneralName.kind : GeneralName → SanKind
  | .dns _ => .dns
  | .ip _ => .ip
  | .email _ => .email
  | .other => .other

/-- The subjectAltName entries of the certificate: those of the CSR when it has the extension,
else those its subject implies, restricted to the types that the template allows. -/
def effectiveSans (text : Text) (csr : Csr) (allowed : Option (List SanKind)) : List GeneralName :=
  match csr.san, allowed with
  | some names, _ => names
  | none, none => synthesizeSanFromSubject text (effectiveSubject csr)
  | none, some kinds =>
    (synthesizeSanFromSubject text (effectiveSubject csr)).filter (·.kind ∈ kinds)

def certificateFor (text : Text) (certificateId orderId : ℕ) (csr : Csr)
    (allowed : Option (List SanKind)) : Certificate where
  certificateId := certificateId
  orderId := orderId
  dnsNames := dnsNames (effectiveSans text csr allowed)
  ipNames := ipNames (effectiveSans text csr allowed)
  commonNames := commonNames (effectiveSubject csr)

end UltimateCaManager.Acme
