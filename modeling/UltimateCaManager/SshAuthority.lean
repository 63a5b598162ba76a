import UltimateCaManager.Concurrency
import UltimateCaManager.Tables

/-!
# SSH certificate authorities

A signing reads the CA, increments its serial counter in a commit of its own, reads the counter
again and stores the certificate; an import looks for its serial and stores. Certificates are
revoked and deleted, and a key revocation list names the serials of the revoked rows. Between two
commits any other request may run.
-/
namespace UltimateCaManager.Ssh

open Concurrency Tables

inductive CertType
  | user
  | host
  deriving DecidableEq

/-- A row of `ssh_cas`; times are in seconds, 0 stands for an unset duration. -/
structure SshCa where
  id : ℕ
  fingerprint : String
  descr : String
  caType : CertType
  serialCounter : ℕ
  defaultTtl : ℤ
  maxTtl : ℤ
  defaultExtensions : List String
  allowedPrincipals : List String
  allowAnyPrincipal : Bool
  allowCustomKeyId : Bool
  deriving DecidableEq

/-- A row of `ssh_certificates`. -/
structure SshCertificate where
  id : ℕ
  caId : ℕ
  serial : ℕ
  validTo : ℤ
  revoked : Bool

structure Revocation where
  caId : ℕ
  serial : ℕ
  validTo : ℤ
  deriving DecidableEq

/-- `revocations` is a history variable. -/
structure Server where
  now : ℤ
  cas : List SshCa
  certificates : List SshCertificate
  nextId : ℕ
  revocations : List Revocation

/-- The arguments of `sign_certificate`; the principals are stripped and not empty. -/
structure SignRequest where
  caId : ℕ
  certType : CertType
  principals : List String
  validitySeconds : Option ℤ
  keyId : Option String
  extensions : Option (List String)

/-- The arguments of `import_certificate`, the certificate as decoded. -/
structure Import where
  caFingerprint : String
  serial : ℕ
  validTo : ℤ
  sshCaId : Option ℕ

inductive Request
  | sign (r : SignRequest)
  | importCertificate (i : Import)

/-- A request in flight, named after what it does next. -/
inductive Task
  | increment (r : SignRequest) (validTo : ℤ) (counter : ℕ)
  | reread (r : SignRequest) (validTo : ℤ) (written : ℕ)
  | store (r : SignRequest) (validTo : ℤ) (serial : ℕ)
  | storeImport (caId : ℕ) (i : Import)

/-- Time passes, or a request of one commit runs. -/
inductive Event
  | tick (seconds : ℕ)
  | revoke (certId : ℕ)
  | delete (certId : ℕ)

/-- Whether the commit of a step is accepted, and what else it needs outside succeeds. -/
abbrev Input := Bool

namespace Server

variable (glob : String → String → Bool) (s : Server)

def ca? (caId : ℕ) : Option SshCa := s.cas.find? fun ca => ca.id = caId

def certificate? (certId : ℕ) : Option SshCertificate :=
  s.certificates.find? fun c => c.id = certId

def validity (ca : SshCa) (r : SignRequest) : ℤ :=
  let seconds := r.validitySeconds.getD (if ca.defaultTtl = 0 then 86400 else ca.defaultTtl)
  if 0 < ca.maxTtl ∧ ca.maxTtl < seconds then ca.maxTtl else seconds

def defaultKeyId (ca : SshCa) (r : SignRequest) : String :=
  ",".intercalate r.principals ++ "@" ++ ca.descr

/-- The checks of `sign_certificate` before a serial is spent. -/
def mayAsk (ca : SshCa) (r : SignRequest) : Bool :=
  ca.caType = r.certType && !r.principals.isEmpty &&
    (!ca.allowedPrincipals.isEmpty || ca.allowAnyPrincipal) &&
    (ca.allowedPrincipals.isEmpty ||
      r.principals.all fun p => ca.allowedPrincipals.any fun pattern => glob p pattern) &&
    r.keyId.all fun keyId => keyId.isEmpty || keyId = defaultKeyId ca r || ca.allowCustomKeyId

/-- The check of the extensions, once the serial is spent. -/
def mayExtend (ca : SshCa) (r : SignRequest) : Bool :=
  r.certType = .host || (r.extensions.getD []).all fun e => ca.defaultExtensions.contains e

/-- The CA of an import: the one named, when its key signed the certificate, or the first with that
key. -/
def matchedCa (i : Import) : Option SshCa :=
  match i.sshCaId with
  | some caId => (s.ca? caId).filter fun ca => ca.fingerprint = i.caFingerprint
  | none => s.cas.find? fun ca => ca.fingerprint = i.caFingerprint

def start : Request → Option Task
  | .sign r =>
    (s.ca? r.caId).bind fun ca =>
      if mayAsk glob ca r then some (.increment r (s.now + validity ca r) ca.serialCounter) else none
  | .importCertificate i =>
    (s.matchedCa i).bind fun ca =>
      if s.certificates.any fun c => c.caId = ca.id && c.serial = i.serial then none
      else some (.storeImport ca.id i)

def setCounter (caId counter : ℕ) : Server :=
  { s with cas := amend (fun ca => ca.id = caId) (fun ca => { ca with serialCounter := counter }) s.cas }

def addCertificate (caId serial : ℕ) (validTo : ℤ) : Server :=
  { s with
    certificates := s.certificates ++ [⟨s.nextId, caId, serial, validTo, false⟩]
    nextId := s.nextId + 1 }

/-- The commits of `get_next_serial`, `sign_certificate` and `import_certificate`. -/
def advance : Task → Input → Option (Server × Option Task)
  | .increment r validTo counter, pass =>
    some (if pass && (s.ca? r.caId).isSome then
        (s.setCounter r.caId (counter + 1), some (.reread r validTo (counter + 1)))
      else (s, none))
  | .reread r validTo _, pass =>
    -- the commit expired the row: the counter is read from the database again
    some (s, if pass then (s.ca? r.caId).map fun ca => .store r validTo ca.serialCounter else none)
  | .store r validTo serial, pass =>
    some (if pass && (s.ca? r.caId).any (mayExtend · r) then s.addCertificate r.caId serial validTo
      else s, none)
  | .storeImport caId i, pass =>
    some (if pass then s.addCertificate caId i.serial i.validTo else s, none)

/-- `revoke_certificate`. -/
def revoke (certId : ℕ) : Server :=
  match s.certificate? certId with
  | none => s
  | some c =>
    if c.revoked then s
    else { s with
      certificates := amend (fun c => c.id = certId) (fun c => { c with revoked := true })
        s.certificates
      revocations := s.revocations ++ [⟨c.caId, c.serial, c.validTo⟩] }

/-- `delete_certificate`. -/
def delete (certId : ℕ) : Server :=
  match s.certificate? certId with
  | none => s
  | some c =>
    if !c.revoked && s.now < c.validTo then s
    else { s with certificates := s.certificates.filter fun c => c.id ≠ certId }

def event : Event → Server
  | .tick seconds => { s with now := s.now + seconds }
  | .revoke certId => s.revoke certId
  | .delete certId => s.delete certId

/-- `generate_krl`: the serials it hands to `ssh-keygen`. -/
def generateKrl (caId : ℕ) : Option (List ℕ) :=
  (s.ca? caId).map fun ca =>
    (s.certificates.filter fun c => c.caId = ca.id && c.revoked).map SshCertificate.serial

def system : System Server Task Request Input Event := ⟨event, start glob, advance⟩

def init (now : ℤ) (cas : List SshCa) : Server := ⟨now, cas, [], 0, []⟩

end Server

end UltimateCaManager.Ssh
