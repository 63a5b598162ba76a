import UltimateCaManager.SerialFormat
import UltimateCaManager.Tables

/-!
# Certificates, revocation records and CRLs

The rows that revocation works on: certificates, certificate authorities, the persistent
`revoked_serials` records that outlive a certificate, and the metadata of the CRLs. The writes
are those of the revocation, hold, deletion, renewal, import and housekeeping paths, each as the
one transaction it is. A table is kept in the order of its ids, since a new row gets an id above
all the stored ones.
-/
namespace UltimateCaManager.Revocation

open Tables

/-- The reasons that the `revoke_reason` columns hold; `removeFromCRL` is staged by an unhold. -/
inductive Reason
  | unspecified | keyCompromise | cACompromise | affiliationChanged | superseded
  | cessationOfOperation | certificateHold | privilegeWithdrawn | aACompromise | removeFromCRL
  deriving DecidableEq

structure Stored where
  serial : ℕ
  notAfter : ℕ
  deriving DecidableEq

/-- A row of `certificates` that holds a certificate of a CA of this server. -/
structure CertRow where
  id : ℕ
  caref : ℕ
  crt : Stored
  serialNumber : List Char
  validTo : Option ℕ
  revoked : Bool
  revokedAt : Option ℕ
  revokeReason : Option Reason

/-- What is read of the certificate of a CA: names and keys are numbers, `signer` is the key that
its signature verifies with, `aki` the key that its authority key identifier names. -/
structure CaStored extends Stored where
  subject : ℕ
  key : ℕ
  issuer : ℕ
  signer : ℕ
  aki : Option ℕ
  deriving DecidableEq

/-- A row of `certificate_authorities`; a CA awaiting its certificate has none. -/
structure CaRow where
  id : ℕ
  refid : ℕ
  caref : Option ℕ
  subject : ℕ
  crt : Option CaStored
  serialNumber : Option (List Char)
  validTo : Option ℕ
  revoked : Bool
  revokedAt : Option ℕ
  revokeReason : Option Reason
  hasPrivateKey : Bool
  offline : Bool
  cdpEnabled : Bool
  deltaCrlEnabled : Bool
  deriving DecidableEq

def CaRow.selfIssued (ca : CaRow) : Bool := ca.crt.any fun crt => ca.subject = crt.issuer

/-- What the revocation of the CA with the certificate `crt` writes on its row. -/
def CaRow.markRevoked (crt : CaStored) (reason : Reason) (instant : ℕ) (ca : CaRow) : CaRow :=
  { ca with serialNumber := some (Spelling.decimal.write crt.serial), revoked := true,
            revokedAt := some instant, revokeReason := some reason, validTo := some crt.notAfter }

/-- A row of `revoked_serials`. -/
structure Record where
  id : ℕ
  caref : ℕ
  serialNumber : List Char
  revokedAt : ℕ
  revokeReason : Option Reason
  validTo : ℕ
  certificateId : Option ℕ
  deriving DecidableEq

structure CrlEntry where
  serial : ℕ
  revocationDate : ℕ
  reason : Option Reason
  deriving DecidableEq

/-- A row of `crl_metadata` with the entries of the CRL it stores. -/
structure Crl where
  caId : ℕ
  number : ℕ
  thisUpdate : ℕ
  isDelta : Bool
  baseNumber : Option ℕ
  isExternal : Bool
  entries : List CrlEntry
  deriving DecidableEq

/-- The tables. Ids of records are never used again, which the counter stands for. -/
structure Db where
  cas : List CaRow
  certificates : List CertRow
  records : List Record
  recordIds : ℕ
  crls : List Crl

namespace Db

variable (db : Db)

def ca? (caId : ℕ) : Option CaRow :=
  db.cas.find? fun ca => ca.id = caId

def caByRefid? (refid : ℕ) : Option CaRow :=
  db.cas.find? fun ca => ca.refid = refid

def certificate? (id : ℕ) : Option CertRow :=
  db.certificates.find? fun row => row.id = id

/-- Refids of every CA record with the subject and public key of `ca`, itself included. -/
def sameKeyRefids (ca : CaRow) : List ℕ :=
  ca.refid :: match ca.crt with
    | none => []
    | some crt => (db.cas.filter fun other => other.subject = ca.subject && other.id ≠ ca.id &&
        other.crt.any (·.key = crt.key)).map CaRow.refid

def nextId : ℕ :=
  match db.certificates.getLast? with
  | none => 1
  | some row => row.id + 1

def insertCertificate (caref : ℕ) (crt : Stored) (serialNumber : List Char) : Db :=
  { db with certificates := db.certificates ++
      [⟨db.nextId, caref, crt, serialNumber, some crt.notAfter, false, none, none⟩] }

def setCertificate (id : ℕ) (f : CertRow → CertRow) : Db :=
  { db with certificates := amend (fun row => row.id = id) f db.certificates }

def record? (caref : ℕ) (serialNumber : List Char) : Option Record :=
  db.records.find? fun r => r.caref = caref && r.serialNumber = serialNumber

/-- Write the record of a serial text of a CA, found by its text or created. -/
def putRecord (caref : ℕ) (serialNumber : List Char) (revokedAt : ℕ)
    (revokeReason : Option Reason) (validTo : ℕ) (link : Option ℕ → Option ℕ) : Db :=
  match db.record? caref serialNumber with
  | some r => { db with records := amend (fun q => q.id = r.id) (fun q =>
      { q with revokedAt := revokedAt, revokeReason := revokeReason, validTo := validTo,
               certificateId := link q.certificateId }) db.records }
  | none => { db with
      records := db.records ++ [⟨db.recordIds, caref, serialNumber, revokedAt, revokeReason,
        validTo, link none⟩]
      recordIds := db.recordIds + 1 }

/-- A year, for a certificate whose row does not say when it ends. -/
def fallbackValidity : ℕ := 365 * 86400

/-- The transaction of `revoke_certificate`, with the instant that it read before. That the
certificate is not revoked yet was checked when the request began. -/
def revokeCertificate (id : ℕ) (reason : Reason) (instant : ℕ) : Db :=
  match db.certificate? id with
  | none => db
  | some row =>
    let marked := db.setCertificate id fun row =>
      { row with revoked := true, revokedAt := some instant, revokeReason := some reason }
    if (db.caByRefid? row.caref).isSome then
      marked.putRecord row.caref row.serialNumber instant (some reason)
        (row.validTo.getD (instant + fallbackValidity)) fun _ => some id
    else marked

/-- `removeFromCRL` and a new instant on a held certificate, before the delta CRL of an unhold. -/
def stageUnhold (id instant : ℕ) : Db :=
  db.setCertificate id fun row =>
    { row with revokedAt := some instant, revokeReason := some .removeFromCRL }

/-- The hold and the record of its text go together. -/
def liftHold (id : ℕ) : Db :=
  match db.certificate? id with
  | none => db
  | some row =>
    { db.setCertificate id (fun row =>
        { row with revoked := false, revokedAt := none, revokeReason := none }) with
      records := db.records.filter fun r =>
        !(r.caref = row.caref && r.serialNumber = row.serialNumber) }

/-- The record outlives the row: it is unlinked, never deleted. -/
def deleteCertificate (id : ℕ) : Db :=
  { db with
    certificates := db.certificates.filter fun row => row.id ≠ id
    records := amend (fun r => r.certificateId = some id)
      (fun r => { r with certificateId := none }) db.records }

/-- A renewal in place: the row takes the new certificate under the CA that signed it, and the old
serial is recorded as superseded there. -/
def renewCertificate (id caref : ℕ) (crt : Stored) (instant : ℕ) : Db :=
  match db.certificate? id with
  | none => db
  | some row =>
    (db.setCertificate id fun row =>
      { row with caref := caref, crt := crt, serialNumber := Spelling.lowerHex.write crt.serial,
                 validTo := some crt.notAfter, revoked := false, revokedAt := none,
                 revokeReason := none }).putRecord caref row.serialNumber instant
        (some .superseded) (row.validTo.getD (instant + fallbackValidity)) fun _ => some id

/-- An import that found an existing row: another certificate than the stored one lifts the
revocation of the row, whose serial stays recorded. -/
def updateCertificate (id caref : ℕ) (crt : Stored) : Db :=
  db.setCertificate id fun row =>
    let updated := { row with caref := caref, crt := crt, validTo := some crt.notAfter,
                              serialNumber := Spelling.decimal.write crt.serial }
    if row.crt.serial ≠ crt.serial then
      { updated with revoked := false, revokedAt := none, revokeReason := none }
    else updated

/-- The CA held here whose key signed the certificate of `ca`: candidates by `caref`, by the key
identifier, those under their own name first, and by the issuer name, of which the first counts that
the signature verifies with. -/
def issuingCa (ca : CaRow) : Option CaRow := do
  let crt ← ca.crt
  if crt.subject = crt.issuer ∧ crt.signer = crt.key then none
  else
    let others := db.cas.filter fun other => other.id ≠ ca.id
    let keyed := others.filter fun other => other.crt.any fun c => crt.aki = some c.key
    let candidates := (others.filter fun other => ca.caref = some other.refid) ++
      (keyed.filter CaRow.selfIssued ++ keyed.filter (!·.selfIssued)) ++
      (others.filter fun other => other.subject = crt.issuer)
    candidates.find? fun other => other.crt.any (·.key = crt.signer)

/-- The record that the parent still holds for the certificate of `ca`. -/
def persistedCaRevocation (ca parent : CaRow) : Option Record := do
  let crt ← ca.crt
  let serial := (ca.serialNumber.bind serialToInt).getD crt.serial
  db.records.find? fun r => r.caref = parent.refid && r.serialNumber ∈ serialVariants serial

def setCa (caId : ℕ) (f : CaRow → CaRow) : Db :=
  { db with cas := amend (fun ca => ca.id = caId) f db.cas }

/-- The transaction of `revoke_ca`: the flag on the CA, the record under the CA that signed it. -/
def revokeCa (caId : ℕ) (reason : Reason) (instant : ℕ) : Option Db := do
  let ca ← db.ca? caId
  let crt ← ca.crt
  let parent ← db.issuingCa ca
  if ca.revoked ∨ (db.persistedCaRevocation ca parent).isSome ∨
      reason = .certificateHold ∨ reason = .removeFromCRL then none
  else
    let serialNumber := Spelling.decimal.write crt.serial
    some ((db.setCa caId (CaRow.markRevoked crt reason instant)).putRecord parent.refid serialNumber
      instant (some reason) crt.notAfter id)

def purgeStaleRevokedSerials (ca : CaRow) (now : ℕ) : Db :=
  { db with records := db.records.filter fun r => !(r.caref = ca.refid && r.validTo < now) }

/-- The revoked certificates of the CA that ended, each through the deletion above. -/
def purgeExpiredRevokedCertificates (ca : CaRow) (now : ℕ) : Db :=
  ((db.certificates.filter fun row =>
      row.caref = ca.refid && row.revoked && row.validTo.any (· < now)).map CertRow.id).foldl
    deleteCertificate db

end Db

end UltimateCaManager.Revocation
