import UltimateCaManager.DnsIdentifiers
import Mathlib.Algebra.Group.Nat.Defs
import Mathlib.Data.List.TakeWhile
import Mathlib.Logic.Relation

/-!
# Name constraints along the path of a CA

`validate_name_constraints` checks the names of a new certificate against the constraints of the
issuing CA and of the CAs above it, which it looks for by name in the table of CAs. The results
compare that walk with the certificates whose keys really signed one another.
-/
namespace UltimateCaManager.Constraints

open List

/-! ## Names and subtrees -/

/-- An address, or a network with the length of its prefix. -/
structure IpName where
  isV6 : Bool
  value : ℕ
  prefixLength : Option ℕ
  deriving DecidableEq

/-- A general name. The relative distinguished names of a directory name are compared whole, and
stand as numbers. -/
inductive GeneralName
  | dns (value : List Char)
  | email (value : List Char)
  | uri (value : List Char)
  | directory (rdns : List ℕ)
  | ip (value : IpName)
  | other (typeId : List ℕ) (value : List UInt8)
  | registered (oid : List ℕ)
  deriving DecidableEq

/-- What Python and its libraries do with a text: the lower case of one, the host of a URL, the
decoding of bytes, whether `x509.RFC822Name` takes it, and how a name is printed. -/
structure Library where
  lower : List Char → List Char
  urlHost : List Char → List Char
  decode : List UInt8 → List Char
  acceptsMailbox : List Char → Bool
  printed : GeneralName → List Char

def upnOid : List ℕ := [1, 3, 6, 1, 4, 1, 311, 20, 2, 3]

/-- `name in network` or `subnet_of`; two addresses are compared. -/
def IpName.isWithin (name subtree : IpName) : Bool :=
  match subtree.prefixLength with
  | none => name = subtree
  | some length =>
    let low := 2 ^ ((if subtree.isV6 then 128 else 32) - length)
    name.isV6 = subtree.isV6 && name.prefixLength.all (length ≤ ·) &&
      name.value / low = subtree.value / low

variable (lib : Library)

def dnsMatches (name constraint : List Char) : Bool :=
  let name := lib.lower name
  let constraint := lib.lower constraint
  if name = constraint then true
  else match constraint with
    | '.' :: rest => constraint.isSuffixOf name || name = rest
    | _ => ('.' :: constraint).isSuffixOf name

def derUtf8 (data : List UInt8) : List Char :=
  match data with
  | tag :: length :: rest =>
    if tag = 0x0C || tag = 0x16 then
      if length.toNat < 128 then lib.decode (rest.take length.toNat)
      else
        let n := length.toNat - 128
        let long := (rest.take n).foldl (fun size byte => size * 256 + byte.toNat) 0
        lib.decode ((rest.drop n).take long)
    else lib.decode data
  | _ => lib.decode data

/-- What stands after the last `@`, or the whole text. -/
def mailDomain (text : List Char) : List Char :=
  (text.reverse.takeWhile (· ≠ '@')).reverse

/-- A mailbox against a mailbox, a domain with a leading dot or a host. -/
def mailMatches (name constraint : List Char) : Bool :=
  if '@' ∈ constraint then name = constraint
  else match constraint with
    | '.' :: _ => constraint.isSuffixOf (mailDomain name)
    | _ => mailDomain name = constraint

def nameMatchesSubtree : GeneralName → GeneralName → Bool
  | .dns name, .dns subtree => dnsMatches lib name subtree
  | .uri name, .uri subtree =>
    let host := lib.lower (lib.urlHost name)
    let constraint := lib.lower subtree
    if host = [] then false
    else match constraint with
      | '.' :: _ => constraint.isSuffixOf host
      | _ => host = constraint
  | .directory name, .directory subtree => subtree.isPrefixOf name
  | .other nameId name, .other subtreeId subtree =>
    if nameId ≠ subtreeId then false
    else if nameId = upnOid then
      mailMatches (lib.lower (derUtf8 lib name)) (lib.lower (derUtf8 lib subtree))
    else name = subtree
  | .email name, .email subtree => mailMatches (lib.lower name) (lib.lower subtree)
  | .ip name, .ip subtree => name.isWithin subtree
  | _, _ => false

/-- The subtree is of the type of the name; one of an otherName, of its type-id. -/
def GeneralName.sameType : GeneralName → GeneralName → Bool
  | .dns _, .dns _ => true
  | .uri _, .uri _ => true
  | .directory _, .directory _ => true
  | .other nameId _, .other subtreeId _ => subtreeId = nameId
  | .email _, .email _ => true
  | .ip _, .ip _ => true
  | .registered _, .registered _ => true
  | _, _ => false

/-! ## Constraints of one certificate -/

structure NameConstraints where
  permitted : List GeneralName
  excluded : List GeneralName

namespace NameConstraints

variable (nc : NameConstraints) (name : GeneralName)

def excludes : Bool := nc.excluded.any (nameMatchesSubtree lib name)

/-- Subtrees of the type of the name are permitted, and none of them is its own. -/
def leavesOut : Bool :=
  let sameType := nc.permitted.filter name.sameType
  sameType ≠ [] && !sameType.any (nameMatchesSubtree lib name)

/-- RFC 5280: no excluded subtree holds the name, and where subtrees of its type are permitted, one
of them holds it. -/
def Admits : Prop :=
  (∀ t ∈ nc.excluded, nameMatchesSubtree lib name t = false) ∧
    ((∃ t ∈ nc.permitted, name.sameType t = true) →
      ∃ t ∈ nc.permitted, name.sameType t = true ∧ nameMatchesSubtree lib name t = true)

end NameConstraints

/-- The names that a refusal lists, each once. -/
structure Violation where
  excluded : List (List Char)
  outsidePermitted : List (List Char)

def listed (names : List GeneralName) : List (List Char) :=
  names.foldl (fun texts name =>
    if lib.printed name ∈ texts then texts else texts ++ [lib.printed name]) []

/-- `_validate_against_cert`. An extension that cannot be read counts as absent. -/
def validateAgainstCert (nc : Option NameConstraints) (names : List GeneralName) :
    Except Violation Unit :=
  match nc with
  | none => .ok ()
  | some nc =>
    let excluded := listed lib (names.filter fun n => nc.excludes lib n)
    let outside := listed lib (names.filter fun n => !nc.excludes lib n && nc.leavesOut lib n)
    if excluded = [] ∧ outside = [] then .ok () else .error ⟨excluded, outside⟩

/-! ## The table of CAs -/

/-- A certificate, with its names and keys as numbers: the key that it certifies and the key that
signed it. -/
structure Certificate where
  fingerprint : ℕ
  subject : ℕ
  issuer : ℕ
  key : ℕ
  signer : ℕ
  deriving DecidableEq

def chainLoop (rows : List Certificate) : ℕ → List ℕ → Certificate → List Certificate
  | 0, _, _ => []
  | fuel + 1, seen, current =>
    if current.issuer = current.subject then []
    else if current.issuer ∈ seen then []
    else match rows.find? fun c => c.subject = current.issuer with
      | none => []
      | some parent => parent :: chainLoop rows fuel (current.issuer :: seen) parent

/-- `_chain_certs_above`, with the certificates of the table that can be read. -/
def chainCertsAbove (rows : List Certificate) (ca : Certificate) : List Certificate :=
  chainLoop rows 16 [] ca

/-- A held certificate of the issuer of the one below, whose key signed it. -/
def Signs (rows : List Certificate) (below above : Certificate) : Prop :=
  above ∈ rows ∧ above.subject = below.issuer ∧ above.key = below.signer

def Above (rows : List Certificate) (ca : Certificate) : Certificate → Prop :=
  Relation.TransGen (Signs rows) ca

/-- The step that the names alone allow: from a certificate that is not self-issued to the first
held certificate of its issuer's name. -/
def IsFirst (rows : List Certificate) (below above : Certificate) : Prop :=
  below.issuer ≠ below.subject ∧ ∃ before after, rows = before ++ above :: after ∧
    above.subject = below.issuer ∧ ∀ c ∈ before, c.subject ≠ below.issuer

/-- So many steps by name lead from one certificate to the other. -/
def Steps (rows : List Certificate) : ℕ → Certificate → Certificate → Prop
  | 0, c, d => c = d
  | k + 1, c, d => ∃ e, IsFirst rows c e ∧ Steps rows k e d

/-! ## Names of a certificate -/

/-- A subject: its common names, its e-mail addresses and all its relative distinguished names. -/
structure Subject where
  commonNames : List (List Char)
  emailAddresses : List (List Char)
  rdns : List ℕ

def isAlphanumeric (c : Char) : Bool :=
  ('A' ≤ c && c ≤ 'Z') || ('a' ≤ c && c ≤ 'z') || ('0' ≤ c && c ≤ '9')

def isDnsLabel (label : List Char) : Bool :=
  label.head?.any isAlphanumeric && label.getLast?.any isAlphanumeric &&
    label.all fun c => isAlphanumeric c || c = '-'

/-- `_DNS_LIKE_CN`; the pattern lets one line feed stand at the end. -/
def isDnsLike (cn : List Char) : Bool :=
  let body := if cn.getLast? = some '\n' then cn.dropLast else cn
  let rest := match body with
    | '*' :: '.' :: rest => rest
    | other => other
  let labels := rest.splitOn '.'
  2 ≤ labels.length && labels.all isDnsLabel

def nameOfCn (cn : List Char) : Option GeneralName :=
  if '@' ∈ cn then if lib.acceptsMailbox cn then some (.email cn) else none
  else if isDnsLike cn then some (.dns cn)
  else none

def nameOfEmail (address : List Char) : Option GeneralName :=
  if address ≠ [] ∧ lib.acceptsMailbox address = true then some (.email address) else none

def certificateNames (subject : Subject) (san : List GeneralName) : List GeneralName :=
  subject.commonNames.filterMap (nameOfCn lib) ++
    (if subject.rdns = [] then [] else [.directory subject.rdns]) ++
    subject.emailAddresses.filterMap (nameOfEmail lib) ++ san

/-- The loop over the common names: one that is refused ends it. -/
def checkedCns : List (List Char) → List GeneralName
  | [] => []
  | cn :: rest =>
    if '@' ∈ cn then
      if lib.acceptsMailbox cn then .email cn :: checkedCns rest else []
    else if isDnsLike cn then .dns cn :: checkedCns rest
    else checkedCns rest

/-- The loop over the e-mail addresses: one that is refused ends it. -/
def checkedEmails : List (List Char) → List GeneralName
  | [] => []
  | address :: rest =>
    if address = [] then checkedEmails rest
    else if lib.acceptsMailbox address then .email address :: checkedEmails rest
    else []

def namesToCheck (subject : Subject) (san : List GeneralName) : List GeneralName :=
  checkedCns lib subject.commonNames ++
    (if subject.rdns = [] then [] else [.directory subject.rdns]) ++
    checkedEmails lib subject.emailAddresses ++ san

/-! ## Validation -/

inductive NameKind
  | cn | dns | email | uri | directory | ip | other | registered
  deriving DecidableEq

def GeneralName.kind : GeneralName → NameKind
  | .dns _ => .dns
  | .email _ => .email
  | .uri _ => .uri
  | .directory _ => .directory
  | .ip _ => .ip
  | .other _ _ => .other
  | .registered _ => .registered

structure Renewed where
  subject : Subject
  san : List GeneralName

def certNameValues (renewed : Renewed) : List (NameKind × List Char) :=
  renewed.subject.commonNames.map (fun cn => (.cn, lib.lower cn)) ++
    renewed.subject.emailAddresses.map (fun address => (.email, lib.lower address)) ++
    (if renewed.subject.rdns = [] then []
      else [(.directory, lib.lower (lib.printed (.directory renewed.subject.rdns)))]) ++
    renewed.san.map fun name => (name.kind, lib.lower (lib.printed name))

def isCarried (renewed : Renewed) (name : GeneralName) : Bool :=
  let value := lib.lower (lib.printed name)
  (name.kind, value) ∈ certNameValues lib renewed || (.cn, value) ∈ certNameValues lib renewed

/-- `validate_name_constraints`. `nc` reads the constraints of a certificate. A renewal checks only
the names that are new; what it logs about the others is left out. -/
def validateNameConstraints (nc : Certificate → Option NameConstraints) (rows : List Certificate)
    (ca : Certificate) (subject : Subject) (san : List GeneralName) (renewalOf : Option Renewed) :
    Except Violation Unit :=
  let names := (namesToCheck lib subject san).filter fun name =>
    renewalOf.all fun renewed => !isCarried lib renewed name
  if names = [] then .ok ()
  else (ca :: chainCertsAbove rows ca).forM fun cert => validateAgainstCert lib (nc cert) names

/-! ## What an accepted certificate satisfies -/

section Checks

variable {lib} {names : List GeneralName}

theorem mem_listed {text : List Char} :
    text ∈ listed lib names ↔ ∃ n ∈ names, lib.printed n = text := by
  simp [listed, Tables.mem_foldl_insert]

theorem listed_eq_nil : listed lib names = [] ↔ names = [] := by
  constructor
  · intro h
    by_contra hne
    obtain ⟨n, hn⟩ := exists_mem_of_ne_nil names hne
    have hmem : lib.printed n ∈ listed lib names := mem_listed.mpr ⟨n, hn, rfl⟩
    simp [h] at hmem
  · rintro rfl
    rfl

theorem admits_iff {nc : NameConstraints} {name : GeneralName} :
    nc.Admits lib name ↔ nc.excludes lib name = false ∧ nc.leavesOut lib name = false := by
  refine and_congr (by simp [NameConstraints.excludes]) ?_
  by_cases hex : ∃ t ∈ nc.permitted, name.sameType t = true
  · simp [NameConstraints.leavesOut, hex]
  · simp [NameConstraints.leavesOut, hex]

/-- The constraints of the certificate, when it has some, admit the name. -/
def Satisfies (lib : Library) (nc : Option NameConstraints) (name : GeneralName) : Prop :=
  ∀ c, nc = some c → c.Admits lib name

theorem validateAgainstCert_eq_ok {nc : Option NameConstraints} :
    validateAgainstCert lib nc names = .ok () ↔ ∀ n ∈ names, Satisfies lib nc n := by
  cases nc with
  | none => simp [validateAgainstCert, Satisfies]
  | some c =>
    simp only [validateAgainstCert, listed_eq_nil, ite_eq_left_iff, reduceCtorEq, imp_false,
      not_not]
    rw [filter_eq_nil_iff, filter_eq_nil_iff, ← forall₂_and]
    refine forall₂_congr fun n _ => ?_
    have hadmits : Satisfies lib (some c) n ↔ c.Admits lib n :=
      ⟨fun h => h c rfl, fun h d hd => by cases hd; exact h⟩
    rw [hadmits, admits_iff]
    cases c.excludes lib n <;> simp

theorem forM_eq_ok {α ε : Type} {f : α → Except ε Unit} {l : List α} :
    l.forM f = .ok () ↔ ∀ a ∈ l, f a = .ok () := by
  induction l with
  | nil => simp [pure, Except.pure]
  | cons a l ih =>
    rw [forall_mem_cons, ← ih]
    cases h : f a with
    | error | ok => simp [bind, Except.bind, h]

/-- A first issuance is accepted when its checked names satisfy the constraints of the CA and of
every certificate of the walk. -/
theorem validateNameConstraints_eq_ok {nc : Certificate → Option NameConstraints}
    {rows : List Certificate} {ca : Certificate} {subject : Subject} {san : List GeneralName} :
    validateNameConstraints lib nc rows ca subject san none = .ok () ↔
      ∀ d ∈ ca :: chainCertsAbove rows ca, ∀ n ∈ namesToCheck lib subject san,
        Satisfies lib (nc d) n := by
  simp only [validateNameConstraints, Option.all_none, filter_true]
  split_ifs with hnil
  · simp [hnil]
  · rw [forM_eq_ok]
    exact forall₂_congr fun d _ => validateAgainstCert_eq_ok

end Checks

/-- No common name and no e-mail address that `x509.RFC822Name` refuses. -/
def Subject.IsRead (subject : Subject) : Prop :=
  (∀ cn ∈ subject.commonNames, '@' ∈ cn → lib.acceptsMailbox cn = true) ∧
    ∀ address ∈ subject.emailAddresses, address ≠ [] → lib.acceptsMailbox address = true
  deriving Decidable

section Walk

variable {lib} {subject : Subject}

theorem checkedCns_eq (cns : List (List Char)) :
    checkedCns lib cns =
      (cns.takeWhile fun cn => '@' ∉ cn ∨ lib.acceptsMailbox cn = true).filterMap
        (nameOfCn lib) := by
  induction cns with
  | nil => rfl
  | cons cn cns ih =>
    by_cases hat : '@' ∈ cn
    · by_cases haccepts : lib.acceptsMailbox cn = true
      · simp [checkedCns, nameOfCn, hat, haccepts, ih]
      · simp [checkedCns, hat, haccepts]
    · by_cases hdns : isDnsLike cn = true
      · simp [checkedCns, nameOfCn, hat, hdns, ih]
      · simp [checkedCns, nameOfCn, hat, hdns, ih]

theorem checkedEmails_eq (addresses : List (List Char)) :
    checkedEmails lib addresses =
      (addresses.takeWhile fun a => a = [] ∨ lib.acceptsMailbox a = true).filterMap
        (nameOfEmail lib) := by
  induction addresses with
  | nil => rfl
  | cons address addresses ih =>
    by_cases hempty : address = []
    · simp [checkedEmails, nameOfEmail, hempty, ih]
    · by_cases haccepts : lib.acceptsMailbox address = true
      · simp [checkedEmails, nameOfEmail, hempty, haccepts, ih]
      · simp [checkedEmails, hempty, haccepts]

theorem namesToCheck_eq (h : subject.IsRead lib) (san : List GeneralName) :
    namesToCheck lib subject san = certificateNames lib subject san := by
  rw [namesToCheck, certificateNames, checkedCns_eq, checkedEmails_eq,
    takeWhile_eq_self_iff.mpr fun cn hcn => decide_eq_true (imp_iff_not_or.mp (h.1 cn hcn)),
    takeWhile_eq_self_iff.mpr fun a ha => decide_eq_true (or_iff_not_imp_left.mpr (h.2 a ha))]

end Walk

section Steps

variable {rows : List Certificate} {c c' d e e' : Certificate} {k fuel : ℕ} {seen : List ℕ}

theorem isFirst_iff : IsFirst rows c d ↔
    c.issuer ≠ c.subject ∧ rows.find? (fun e => e.subject = c.issuer) = some d := by
  rw [IsFirst, find?_eq_some_iff_append]
  simp only [decide_eq_true_eq, Bool.not_eq_true', decide_eq_false_iff_not]
  refine and_congr_right fun _ => ⟨?_, ?_⟩
  · rintro ⟨before, after, hrows, hsubject, hfirst⟩
    exact ⟨hsubject, before, after, hrows, hfirst⟩
  · rintro ⟨hsubject, before, after, hrows, hfirst⟩
    exact ⟨before, after, hrows, hsubject, hfirst⟩

/-- Certificates of one issuer's name have one certificate above them. -/
theorem IsFirst.unique (h : IsFirst rows c e) (h' : IsFirst rows c' e')
    (hc : c.issuer = c'.issuer) :
    e = e' := by
  have hfind := (isFirst_iff.mp h).2
  rw [hc, (isFirst_iff.mp h').2] at hfind
  exact (Option.some.inj hfind).symm

theorem Steps.rest {i m : ℕ} (h : Steps rows i c e) (hd : Steps rows (i + m) c d) :
    Steps rows m e d := by
  induction i generalizing c with
  | zero =>
    obtain rfl := h
    rwa [Nat.zero_add] at hd
  | succ i ih =>
    rw [Nat.succ_add] at hd
    obtain ⟨a, ha, h⟩ := h
    obtain ⟨b, hb, hd⟩ := hd
    obtain rfl := ha.unique hb rfl
    exact ih h hd

theorem steps_of_mem_chainLoop (h : d ∈ chainLoop rows fuel seen c) :
    ∃ k ≤ fuel, Steps rows k c d := by
  induction fuel generalizing seen c with
  | zero => cases h
  | succ fuel ih =>
    rw [chainLoop] at h
    split at h
    · cases h
    next hissuer =>
    split at h
    · cases h
    split at h
    · cases h
    next parent hparent =>
    have hfirst : IsFirst rows c parent := isFirst_iff.mpr ⟨hissuer, hparent⟩
    rcases mem_cons.mp h with rfl | h
    · exact ⟨1, Nat.le_add_left 1 fuel, d, hfirst, rfl⟩
    · obtain ⟨k, hk, hsteps⟩ := ih h
      exact ⟨k + 1, Nat.succ_le_succ hk, parent, hfirst, hsteps⟩

/-- The walk meets what its names lead to by no shorter way: then no issuer's name comes twice, and
the guard against cycles does not end it. -/
theorem mem_chainLoop_of_steps (h : Steps rows (k + 1) c d) (hshort : ∀ j ≤ k, ¬ Steps rows j c d)
    (hseen : ∀ i ≤ k, ∀ e, Steps rows i c e → e.issuer ∉ seen) (hfuel : k < fuel) :
    d ∈ chainLoop rows fuel seen c := by
  induction k generalizing c seen fuel with
  | zero =>
    obtain ⟨parent, hparent, rfl⟩ := h
    obtain ⟨fuel, rfl⟩ := Nat.exists_eq_add_of_lt hfuel
    obtain ⟨hissuer, hfind⟩ := isFirst_iff.mp hparent
    simp [chainLoop, hissuer, hseen 0 (Nat.le_refl 0) c rfl, hfind]
  | succ k ih =>
    obtain ⟨parent, hparent, hrest⟩ := h
    obtain ⟨fuel, rfl⟩ := Nat.exists_eq_add_of_lt hfuel
    obtain ⟨hissuer, hfind⟩ := isFirst_iff.mp hparent
    have hshorter : ∀ j ≤ k, ¬ Steps rows j parent d :=
      fun j hj hsteps => hshort (j + 1) (Nat.succ_le_succ hj) ⟨parent, hparent, hsteps⟩
    rw [chainLoop, if_neg hissuer, if_neg (hseen 0 (Nat.zero_le _) c rfl), hfind]
    refine mem_cons_of_mem _ (ih hrest hshorter ?_ (by omega))
    intro i hi e he
    refine not_mem_cons_of_ne_of_not_mem ?_
      (hseen (i + 1) (Nat.succ_le_succ hi) e ⟨parent, hparent, he⟩)
    -- a second certificate of that issuer's name would lead back to `parent`
    intro hsame
    obtain ⟨m, rfl⟩ := Nat.exists_eq_add_of_le hi
    obtain ⟨again, hagain, hlast⟩ := he.rest (m := m + 1) hrest
    obtain rfl := hagain.unique hparent hsame
    exact hshorter m (Nat.le_add_left m i) hlast

theorem mem_walk_iff {ca : Certificate} :
    d = ca ∨ d ∈ chainCertsAbove rows ca ↔ ∃ k ≤ 16, Steps rows k ca d := by
  constructor
  · rintro (rfl | h)
    · exact ⟨0, Nat.zero_le _, rfl⟩
    · exact steps_of_mem_chainLoop h
  · rintro ⟨k, hk, hsteps⟩
    induction k using Nat.strong_induction_on with
    | h k ih =>
      by_cases hshort : ∃ j < k, Steps rows j ca d
      · obtain ⟨j, hj, hsteps⟩ := hshort
        exact ih j hj (by omega) hsteps
      · cases k with
        | zero => exact .inl (Eq.symm hsteps)
        | succ k =>
          refine .inr (mem_chainLoop_of_steps hsteps ?_ (fun _ _ _ _ => not_mem_nil) hk)
          exact fun j hj hj' => hshort ⟨j, Nat.lt_succ_of_le hj, hj'⟩

end Steps

def noSubject : Subject := ⟨[], [], []⟩

/-- Constraints that one certificate alone carries: the name is excluded. -/
def excludeAt (d : Certificate) (name : GeneralName) (c : Certificate) : Option NameConstraints :=
  if c = d then some ⟨[], [name]⟩ else none

/-- Whatever the constraints of the certificates are, the names of an accepted certificate satisfy
those of the CA and of every held certificate above it, exactly when each of these certificates is
at most sixteen steps away, each from a certificate that is not self-issued to the first held one of
its issuer's name. -/
theorem constraints_hold_iff_first_rows (rows : List Certificate) (ca : Certificate) :
    (∀ nc subject san, subject.IsRead lib →
      validateNameConstraints lib nc rows ca subject san none = .ok () →
      ∀ d, d = ca ∨ Above rows ca d → ∀ n ∈ certificateNames lib subject san,
        Satisfies lib (nc d) n) ↔
    ∀ d, Above rows ca d → ∃ k ≤ 16, Steps rows k ca d := by
  simp only [← mem_walk_iff]
  constructor
  · intro h d hd
    by_contra hnot
    rw [← mem_cons] at hnot
    -- only the certificate that the walk misses excludes the name
    let name : GeneralName := .dns []
    have hmatch : nameMatchesSubtree lib name name = true := by
      simp [name, nameMatchesSubtree, dnsMatches]
    have hread : noSubject.IsRead lib := by simp [Subject.IsRead, noSubject]
    have haccepted : validateNameConstraints lib (excludeAt d name) rows ca noSubject [name] none =
        .ok () := by
      rw [validateNameConstraints_eq_ok]
      intro e he n _ c hc
      have hne : e ≠ d := fun heq => hnot (heq ▸ he)
      simp [excludeAt, hne] at hc
    have hmem : name ∈ certificateNames lib noSubject [name] := by simp [certificateNames]
    have hsat := h (excludeAt d name) noSubject [name] hread haccepted d (.inr hd) name hmem
    have hadmits := (hsat ⟨[], [name]⟩ (by simp [excludeAt])).1 name (by simp)
    rw [hmatch] at hadmits
    cases hadmits
  · intro h nc subject san hread haccepted d hd n hn
    rw [validateNameConstraints_eq_ok, namesToCheck_eq hread] at haccepted
    refine haccepted d ?_ n hn
    rcases hd with rfl | hd
    · exact mem_cons_self
    · exact mem_cons.mpr (h d hd)

/-! ## A re-keyed root -/

/-- A library for texts of lower-case letters. -/
def plainLibrary : Library := ⟨id, id, fun _ => [], fun _ => true, fun _ => []⟩

/-- The first key of root 1. -/
def oldRoot : Certificate := ⟨100, 1, 1, 10, 10⟩

/-- Its second key, under the same name. -/
def newRoot : Certificate := ⟨101, 1, 1, 11, 11⟩

/-- A CA that the second key signed. -/
def issuingCa : Certificate := ⟨102, 2, 1, 20, 11⟩

def internalHost : GeneralName := .dns "internal.example".toList

/-- The root whose key signed the issuing CA excludes the host, and a certificate for it is
accepted: the walk by names finds the other root. -/
theorem excluded_name_accepted :
    Above [oldRoot, newRoot, issuingCa] issuingCa newRoot ∧
    validateNameConstraints plainLibrary (excludeAt newRoot internalHost)
      [oldRoot, newRoot, issuingCa] issuingCa noSubject [internalHost] none = .ok () ∧
    internalHost ∈ certificateNames plainLibrary noSubject [internalHost] ∧
    ¬ Satisfies plainLibrary (excludeAt newRoot internalHost newRoot) internalHost := by
  refine ⟨.single ⟨by decide, rfl, rfl⟩, by rfl, by decide, fun h => ?_⟩
  have hadmits := (h ⟨[], [internalHost]⟩ rfl).1 internalHost (by simp)
  cases hadmits

/-! ## Names that are left unchecked -/

/-- The names hold the subject, its e-mail addresses, each of its common names that looks like a
host name or holds an e-mail address, and the names of the SAN. -/
structure Covers (subject : Subject) (san names : List GeneralName) : Prop where
  directory : subject.rdns ≠ [] → .directory subject.rdns ∈ names
  emails : ∀ address ∈ subject.emailAddresses, address ≠ [] → .email address ∈ names
  hosts : ∀ cn ∈ subject.commonNames, isDnsLike cn = true → .dns cn ∈ names
  mailboxes : ∀ cn ∈ subject.commonNames, '@' ∈ cn → .email cn ∈ names
  san : ∀ name ∈ san, name ∈ names

theorem not_isDnsLike_of_at {cn : List Char} (hat : '@' ∈ cn) : ¬ isDnsLike cn = true := by
  intro h
  simp only [isDnsLike, Bool.and_eq_true, all_eq_true] at h
  generalize hbody : (if cn.getLast? = some '\n' then cn.dropLast else cn) = body at h
  have hat : '@' ∈ body := by
    rw [← hbody]
    split_ifs with hfeed
    · rw [← dropLast_append_getLast? _ hfeed] at hat
      simpa using hat
    · exact hat
  have hrest : '@' ∈ Identifiers.dropWildcard body := by
    rcases Identifiers.dropWildcard_spec body with heq | heq
    · exact heq ▸ hat
    · rw [heq] at hat
      simpa using hat
  rw [← Identifiers.join_splitOn (Identifiers.dropWildcard body)] at hrest
  rcases Identifiers.mem_join hrest with hdot | ⟨label, hlabel, hc⟩
  · cases hdot
  · have hlabel := h.2 label hlabel
    simp only [isDnsLabel, Bool.and_eq_true, all_eq_true] at hlabel
    exact absurd (hlabel.2 _ hc) (by decide)

variable {lib} in
theorem covers_certificateNames {subject : Subject} (hread : subject.IsRead lib)
    (san : List GeneralName) : Covers subject san (certificateNames lib subject san) := by
  have hcn : ∀ cn ∈ subject.commonNames, ∀ name, nameOfCn lib cn = some name →
      name ∈ certificateNames lib subject san := by
    intro cn hmem name hname
    simp only [certificateNames, mem_append, mem_filterMap]
    exact .inl (.inl (.inl ⟨cn, hmem, hname⟩))
  refine ⟨fun h => by simp [certificateNames, h], fun address hmem hne => ?_,
    fun cn hmem hdns => ?_, fun cn hmem hat => ?_,
    fun name hmem => by simp [certificateNames, hmem]⟩
  · have hname : nameOfEmail lib address = some (.email address) :=
      if_pos ⟨hne, hread.2 address hmem hne⟩
    simp only [certificateNames, mem_append, mem_filterMap]
    exact .inl (.inr ⟨address, hmem, hname⟩)
  · have hat : '@' ∉ cn := fun hat => not_isDnsLike_of_at hat hdns
    exact hcn cn hmem _ (by simp [nameOfCn, hat, hdns])
  · exact hcn cn hmem _ (by simp [nameOfCn, hat, hread.1 cn hmem hat])

/-- A mailbox among the checked names of a subject is one that `x509.RFC822Name` takes. -/
theorem acceptsMailbox_of_mem {lib : Library} {subject : Subject} {value : List Char}
    (h : .email value ∈ namesToCheck lib subject []) : lib.acceptsMailbox value = true := by
  rw [namesToCheck, append_nil, checkedCns_eq, checkedEmails_eq] at h
  simp only [mem_append, mem_filterMap] at h
  rcases h with (⟨cn, -, hname⟩ | hdirectory) | ⟨address, -, hname⟩
  · grind [nameOfCn]
  · split_ifs at hdirectory <;> simp at hdirectory
  · grind [nameOfEmail]

/-- For every subject: with every SAN all the names are checked, exactly if `x509.RFC822Name`
takes each common name with an `@` and each e-mail address. -/
theorem all_names_checked_iff (lib : Library) (subject : Subject) :
    (∀ san, Covers subject san (namesToCheck lib subject san)) ↔ subject.IsRead lib := by
  constructor
  · intro h
    exact ⟨fun cn hcn hat => acceptsMailbox_of_mem ((h []).mailboxes cn hcn hat),
      fun a ha hne => acceptsMailbox_of_mem ((h []).emails a ha hne)⟩
  · intro hread san
    rw [namesToCheck_eq hread]
    exact covers_certificateNames hread san

/-- A library whose mailboxes are of ASCII characters. -/
def asciiLibrary : Library := { plainLibrary with acceptsMailbox := (·.all (·.toNat < 128)) }

/-- After a common name that is not ASCII the host name is not checked. -/
theorem host_after_mailbox_unchecked :
    isDnsLike "internal.example".toList = true ∧
    internalHost ∉ namesToCheck asciiLibrary
      ⟨["é@example".toList, "internal.example".toList], [], [1, 2]⟩ [] ∧
    internalHost ∈ namesToCheck asciiLibrary
      ⟨["internal.example".toList, "é@example".toList], [], [1, 2]⟩ [] := by
  decide

end UltimateCaManager.Constraints
