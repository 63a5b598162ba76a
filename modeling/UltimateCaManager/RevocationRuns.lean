import UltimateCaManager.RevocationQuery
import UltimateCaManager.Runs

/-!
# Runs of revocation operations

Issue, import, revocation, hold and unhold, deletion, renewal, revocation of a CA, housekeeping
and generation of full CRLs, as steps on the tables. Two history variables say which certificates
were ever stored and which of them were revoked or superseded.
-/
namespace UltimateCaManager.Revocation

open Tables

structure Fact where
  caref : ℕ
  serial : ℕ
  notAfter : ℕ
  deriving DecidableEq

structure State where
  now : ℕ
  purgeStale : Bool
  autoDelete : Bool
  db : Db
  stored : List Fact
  revoked : List Fact

inductive Label
  | tick (seconds : ℕ)
  | configure (purgeStale autoDelete : Bool)
  | issue (spelling : Spelling) (caref : ℕ) (crt : Stored)
  /-- An import takes the row that the certificate belongs to, when it finds one. -/
  | importCertificate (target : Option ℕ) (caref : ℕ) (crt : Stored)
  | revoke (id : ℕ) (reason : Reason)
  | stageUnhold (id : ℕ)
  | unhold (id : ℕ)
  | delete (id : ℕ)
  | renew (id caref : ℕ) (crt : Stored)
  | revokeCa (caId : ℕ) (reason : Reason)
  | housekeeping (caId : ℕ)
  | generate (caId : ℕ)

namespace Db

/-- The opt-in purges that run before a full CRL is enumerated. -/
def runHousekeeping (db : Db) (purgeStale autoDelete : Bool) (ca : CaRow) (now : ℕ) : Db :=
  let db := if purgeStale then db.purgeStaleRevokedSerials ca now else db
  if autoDelete then db.purgeExpiredRevokedCertificates ca now else db

/-- One above the highest number of a CRL of the CA, deltas included. -/
def nextCrlNumber (db : Db) (caId : ℕ) : ℕ :=
  ((db.crls.filter fun crl => crl.caId = caId).map Crl.number).foldl max 0 + 1

/-- `generate_crl` of a CA that can sign. -/
def generateCrl (db : Db) (purgeStale autoDelete : Bool) (ca : CaRow) (now : ℕ) : Db :=
  let db := db.runHousekeeping purgeStale autoDelete ca now
  { db with crls := db.crls ++ [⟨ca.id, db.nextCrlNumber ca.id, now, false, none, false,
      crlEntries false now (db.getRevokedCertificates ca now)⟩] }

end Db

/-- The CA holds its key, is online and has its certificate. -/
def CaRow.canSign (ca : CaRow) : Bool :=
  ca.hasPrivateKey && !ca.offline && ca.crt.isSome

def CertRow.fact (row : CertRow) : Fact := ⟨row.caref, row.crt.serial, row.crt.notAfter⟩

def Stored.fact (crt : Stored) (caref : ℕ) : Fact := ⟨caref, crt.serial, crt.notAfter⟩

def step (s : State) : Label → State
  | .tick seconds => { s with now := s.now + seconds }
  | .configure purgeStale autoDelete =>
    { s with purgeStale := purgeStale, autoDelete := autoDelete }
  | .issue spelling caref crt =>
    { s with db := s.db.insertCertificate caref crt (spelling.write crt.serial)
             stored := s.stored ++ [crt.fact caref] }
  | .importCertificate none caref crt =>
    { s with db := s.db.insertCertificate caref crt (Spelling.decimal.write crt.serial)
             stored := s.stored ++ [crt.fact caref] }
  | .importCertificate (some id) caref crt =>
    { s with db := s.db.updateCertificate id caref crt
             stored := s.stored ++ [crt.fact caref] }
  | .revoke id reason =>
    match s.db.certificate? id with
    | none => s
    | some row =>
      if row.revoked ∨ reason = .removeFromCRL then s
      else { s with db := s.db.revokeCertificate id reason s.now
                    revoked := s.revoked ++ [row.fact] }
  | .stageUnhold id =>
    match s.db.certificate? id with
    | none => s
    | some row =>
      if row.revoked ∧ row.revokeReason = some .certificateHold then
        { s with db := s.db.stageUnhold id s.now }
      else s
  | .unhold id =>
    match s.db.certificate? id with
    | none => s
    | some row =>
      if row.revoked ∧ (row.revokeReason = some .certificateHold ∨
          row.revokeReason = some .removeFromCRL) then { s with db := s.db.liftHold id } else s
  | .delete id => { s with db := s.db.deleteCertificate id }
  | .renew id caref crt =>
    match s.db.certificate? id with
    | none => s
    | some row =>
      -- the superseded certificate is one of the CA that renews it
      { s with db := s.db.renewCertificate id caref crt s.now
               stored := s.stored ++ [crt.fact caref, row.crt.fact caref]
               revoked := s.revoked ++ [row.crt.fact caref] }
  | .revokeCa caId reason =>
    match s.db.revokeCa caId reason s.now, (s.db.ca? caId).bind CaRow.crt,
        (s.db.ca? caId).bind s.db.issuingCa with
    | some db, some crt, some parent =>
      { s with db := db, stored := s.stored ++ [crt.toStored.fact parent.refid] }
    | _, _, _ => s
  | .housekeeping caId =>
    match s.db.ca? caId with
    | none => s
    | some ca => { s with db := s.db.runHousekeeping s.purgeStale s.autoDelete ca s.now }
  | .generate caId =>
    match s.db.ca? caId with
    | none => s
    | some ca =>
      if ca.canSign then
        { s with db := s.db.generateCrl s.purgeStale s.autoDelete ca s.now }
      else s

inductive Steps (s : State) : Label → State → Prop
  | idle {l} : Steps s l s
  | tick {seconds} : Steps s (.tick seconds) { s with now := s.now + seconds }
  | configure {purgeStale autoDelete} : Steps s (.configure purgeStale autoDelete)
      { s with purgeStale := purgeStale, autoDelete := autoDelete }
  | issue {spelling caref crt} : Steps s (.issue spelling caref crt)
      { s with db := s.db.insertCertificate caref crt (spelling.write crt.serial)
               stored := s.stored ++ [crt.fact caref] }
  | imported {caref crt} : Steps s (.importCertificate none caref crt)
      { s with db := s.db.insertCertificate caref crt (Spelling.decimal.write crt.serial)
               stored := s.stored ++ [crt.fact caref] }
  | updated {id caref crt} : Steps s (.importCertificate (some id) caref crt)
      { s with db := s.db.updateCertificate id caref crt
               stored := s.stored ++ [crt.fact caref] }
  | revoke {id reason row} (hrow : s.db.certificate? id = some row) (hrev : row.revoked = false)
      (hreason : reason ≠ .removeFromCRL) : Steps s (.revoke id reason)
      { s with db := s.db.revokeCertificate id reason s.now
               revoked := s.revoked ++ [row.fact] }
  | stageUnhold {id row} (hrow : s.db.certificate? id = some row) (hrev : row.revoked = true)
      (hreason : row.revokeReason = some .certificateHold) :
      Steps s (.stageUnhold id) { s with db := s.db.stageUnhold id s.now }
  | unhold {id row} (hrow : s.db.certificate? id = some row) (hrev : row.revoked = true)
      (hreason : row.revokeReason = some .certificateHold ∨
        row.revokeReason = some .removeFromCRL) :
      Steps s (.unhold id) { s with db := s.db.liftHold id }
  | delete {id} : Steps s (.delete id) { s with db := s.db.deleteCertificate id }
  | renew {id caref crt row} (hrow : s.db.certificate? id = some row) :
      Steps s (.renew id caref crt)
      { s with db := s.db.renewCertificate id caref crt s.now
               stored := s.stored ++ [crt.fact caref, row.crt.fact caref]
               revoked := s.revoked ++ [row.crt.fact caref] }
  | revokeCa {caId reason ca crt parent db} (hca : s.db.ca? caId = some ca)
      (hcrt : ca.crt = some crt) (hparent : s.db.issuingCa ca = some parent)
      (hdb : s.db.revokeCa caId reason s.now = some db) : Steps s (.revokeCa caId reason)
      { s with db := db, stored := s.stored ++ [crt.toStored.fact parent.refid] }
  | housekeeping {caId ca} (hca : s.db.ca? caId = some ca) : Steps s (.housekeeping caId)
      { s with db := s.db.runHousekeeping s.purgeStale s.autoDelete ca s.now }
  | generate {caId ca} (hca : s.db.ca? caId = some ca) (hsign : ca.canSign = true) :
      Steps s (.generate caId)
      { s with db := s.db.generateCrl s.purgeStale s.autoDelete ca s.now }

theorem step_steps (s : State) (l : Label) : Steps s l (step s l) := by
  cases l with
  | tick seconds => exact .tick
  | configure purgeStale autoDelete => exact .configure
  | issue spelling caref crt => exact .issue
  | importCertificate target caref crt =>
    cases target with
    | none => exact .imported
    | some id => exact .updated
  | revoke id reason =>
    simp only [step]
    split
    · exact .idle
    · next row hrow =>
      split
      · exact .idle
      · next hno =>
        rw [not_or] at hno
        exact .revoke hrow (by simpa using hno.1) hno.2
  | stageUnhold id =>
    simp only [step]
    split
    · exact .idle
    · next row hrow =>
      split
      · next hheld => exact .stageUnhold hrow hheld.1 hheld.2
      · exact .idle
  | unhold id =>
    simp only [step]
    split
    · exact .idle
    · next row hrow =>
      split
      · next hheld => exact .unhold hrow hheld.1 hheld.2
      · exact .idle
  | delete id => exact .delete
  | renew id caref crt =>
    simp only [step]
    split
    · exact .idle
    · next row hrow => exact .renew hrow
  | revokeCa caId reason =>
    simp only [step]
    split
    · next db crt parent hdb hcrt hparent =>
      obtain ⟨ca, hca, hcrt⟩ := Option.bind_eq_some_iff.mp hcrt
      obtain ⟨ca', hca', hparent⟩ := Option.bind_eq_some_iff.mp hparent
      rw [hca] at hca'
      cases hca'
      exact .revokeCa hca hcrt hparent hdb
    · exact .idle
  | housekeeping caId =>
    simp only [step]
    split
    · exact .idle
    · next ca hca => exact .housekeeping hca
  | generate caId =>
    simp only [step]
    split
    · exact .idle
    · next ca hca =>
      split
      · next hsign => exact .generate hca hsign
      · exact .idle

def initial (now : ℕ) (cas : List CaRow) : State :=
  ⟨now, false, false, ⟨cas, [], [], 0, []⟩, [], []⟩

/-- A root CA that signs full and delta CRLs, for runs on fixed tables. -/
def rootCa : CaRow :=
  ⟨1, 10, none, 5, some ⟨⟨77, 1000⟩, 5, 1, 5, 1, none⟩, some ['7', '7'], some 1000, false, none,
    none, true, false, true, true⟩

end UltimateCaManager.Revocation
