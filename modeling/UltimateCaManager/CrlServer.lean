import UltimateCaManager.Concurrency
import UltimateCaManager.RevocationRuns
import Mathlib.Data.List.MinMax

/-!
# CRL producers and revocations in flight

`generate_crl`, `generate_delta_crl`, `install_external_crl`, the revocation of a certificate and
the end of a hold as concurrent requests: each read of the clock, each read of the tables and each
commit is a step of its own. The dates and next updates of a CRL that no query reads are left out.
-/
namespace UltimateCaManager.Revocation

open Concurrency

/-- What is read of an uploaded CRL: the name of its issuer and the key that its signature
verifies with, its extensions, its dates and its entries. -/
structure Upload where
  issuer : ℕ
  signer : ℕ
  deltaIndicator : Bool
  number : Option ℕ
  thisUpdate : ℕ
  nextUpdate : Option ℕ
  entries : List CrlEntry

namespace Db

variable (db : Db)

def crlsOf (caId : ℕ) : List Crl := db.crls.filter fun crl => crl.caId = caId

/-- `get_latest_crl`: a full CRL of the CA with the highest number. -/
def getLatestCrl (caId : ℕ) : Option Crl :=
  ((db.crlsOf caId).filter fun crl => !crl.isDelta).argmax Crl.number

def addCrl (crl : Crl) : Db := { db with crls := db.crls ++ [crl] }

end Db

/-- The order of an uploaded CRL after the one that is served. -/
def Upload.follows (u : Upload) (latest : Option Crl) : Bool :=
  latest.all fun crl => crl.thisUpdate ≤ u.thisUpdate &&
    u.number.all fun n => crl.number ≤ n && !(n = crl.number && u.thisUpdate = crl.thisUpdate)

/-- A CRL without a number takes the one after the CRL that is served. -/
def Upload.storedNumber (u : Upload) (latest : Option Crl) : ℕ :=
  u.number.getD (match latest with
    | some crl => crl.number + 1
    | none => 1)

/-- A delta CRL with the base that it was generated on and the tables that its rows were read
from. -/
structure DeltaRead where
  crl : Crl
  base : Crl
  db : Db

/-- The clock, the housekeeping flags and the tables. History variables: the date of each full CRL
that has read its rows, none until it has one, and the stored delta CRLs. -/
structure Server where
  now : ℕ
  purgeStale : Bool
  autoDelete : Bool
  db : Db
  dates : List (Option ℕ)
  deltas : List DeltaRead

/-- A request in flight, named after what it does next. `seen` is a history variable: how many
CRLs of the CA were stored when the number was read. -/
inductive Task
  | fullHousekeeping (ca : CaRow)
  | fullClock (ca : CaRow)
  | fullRows (ca : CaRow) (instant : ℕ)
  | fullNumber (ca : CaRow) (rows : List Listed) (slot : ℕ)
  | fullDate (ca : CaRow) (rows : List Listed) (slot number seen : ℕ)
  | fullCommit (ca : CaRow) (rows : List Listed) (number seen thisUpdate : ℕ)
  | deltaBase (ca : CaRow)
  | deltaClock (ca : CaRow) (base : Crl)
  | deltaRows (ca : CaRow) (base : Crl) (instant : ℕ)
  | deltaNumber (ca : CaRow) (base : Crl) (instant : ℕ) (rows : List Listed) (db : Db)
  | deltaCommit (ca : CaRow) (base : Crl) (instant : ℕ) (rows : List Listed) (db : Db)
      (number seen : ℕ)
  | uploadLatest (ca : CaRow) (u : Upload)
  | uploadCommit (ca : CaRow) (u : Upload) (number seen : ℕ)
  | revokeClock (id : ℕ) (reason : Reason)
  | revokeCommit (id : ℕ) (reason : Reason) (instant : ℕ)
  | unholdClock (id : ℕ)
  | unholdStage (id instant : ℕ)
  | unholdLift (id : ℕ)

inductive Request
  | full (caId : ℕ)
  | delta (caId : ℕ)
  | upload (caId : ℕ) (u : Upload)
  | revoke (id : ℕ) (reason : Reason)
  | unhold (id : ℕ)

inductive Event
  | tick (seconds : ℕ)
  | configure (purgeStale autoDelete : Bool)
  /-- The key of a CA is taken offline, wiped or restored. -/
  | setKey (caId : ℕ) (hasPrivateKey offline : Bool)

namespace Server

def event (s : Server) : Event → Server
  | .tick seconds => { s with now := s.now + seconds }
  | .configure purgeStale autoDelete =>
    { s with purgeStale := purgeStale, autoDelete := autoDelete }
  | .setKey caId hasPrivateKey offline =>
    { s with db := s.db.setCa caId fun ca =>
        { ca with hasPrivateKey := hasPrivateKey, offline := offline } }

/-- The checks that a request makes before its first clock or CRL read. -/
def start (s : Server) : Request → Option Task
  | .full caId => do
    let ca ← s.db.ca? caId
    if ca.canSign then some (.fullHousekeeping ca) else none
  | .delta caId => do
    let ca ← s.db.ca? caId
    if ca.canSign && ca.cdpEnabled && ca.deltaCrlEnabled then some (.deltaBase ca) else none
  | .upload caId u => do
    let ca ← s.db.ca? caId
    let crt ← ca.crt
    if ca.hasPrivateKey && !ca.offline then none
    else if u.issuer = crt.subject && u.signer = crt.key && !u.deltaIndicator &&
        u.nextUpdate.isSome then some (.uploadLatest ca u)
    else none
  | .revoke id reason => do
    let row ← s.db.certificate? id
    if row.revoked || reason = .removeFromCRL then none else some (.revokeClock id reason)
  | .unhold id => do
    let row ← s.db.certificate? id
    if row.revoked && row.revokeReason = some .certificateHold then
      -- the removal is staged for a delta CRL only when the CA publishes them
      if (s.db.caByRefid? row.caref).any fun ca => ca.deltaCrlEnabled && ca.cdpEnabled then
        some (.unholdClock id)
      else some (.unholdLift id)
    else none

def advance (s : Server) : Task → Unit → Option (Server × Option Task)
  | .fullHousekeeping ca, _ =>
    some ({ s with db := s.db.runHousekeeping s.purgeStale s.autoDelete ca s.now },
      some (.fullClock ca))
  | .fullClock ca, _ => some (s, some (.fullRows ca s.now))
  | .fullRows ca instant, _ =>
    some ({ s with dates := s.dates ++ [none] },
      some (.fullNumber ca (s.db.getRevokedCertificates ca instant) s.dates.length))
  | .fullNumber ca rows slot, _ =>
    some (s, some (.fullDate ca rows slot (s.db.nextCrlNumber ca.id) (s.db.crlsOf ca.id).length))
  | .fullDate ca rows slot number seen, _ =>
    some ({ s with dates := s.dates.set slot (some s.now) },
      some (.fullCommit ca rows number seen s.now))
  | .fullCommit ca rows number _ thisUpdate, _ =>
    some ({ s with db := s.db.addCrl ⟨ca.id, number, thisUpdate, false, none, false,
      crlEntries false thisUpdate rows⟩ }, none)
  | .deltaBase ca, _ => some (s, (s.db.getLatestCrl ca.id).map (.deltaClock ca))
  | .deltaClock ca base, _ => some (s, some (.deltaRows ca base s.now))
  | .deltaRows ca base instant, _ =>
    some (s, some (.deltaNumber ca base instant
      (s.db.getRevokedSince ca base.thisUpdate instant) s.db))
  | .deltaNumber ca base instant rows db, _ =>
    some (s, some (.deltaCommit ca base instant rows db (s.db.nextCrlNumber ca.id)
      (s.db.crlsOf ca.id).length))
  | .deltaCommit ca base instant rows db number _, _ =>
    let crl : Crl := ⟨ca.id, number, instant, true, some base.number, false,
      crlEntries true instant rows⟩
    some ({ s with db := s.db.addCrl crl, deltas := s.deltas ++ [⟨crl, base, db⟩] }, none)
  | .uploadLatest ca u, _ =>
    let latest := s.db.getLatestCrl ca.id
    some (s, if u.follows latest then
      some (.uploadCommit ca u (u.storedNumber latest) (s.db.crlsOf ca.id).length) else none)
  | .uploadCommit ca u number _, _ =>
    some ({ s with db := s.db.addCrl ⟨ca.id, number, u.thisUpdate, false, none, true,
      u.entries⟩ }, none)
  | .revokeClock id reason, _ => some (s, some (.revokeCommit id reason s.now))
  | .revokeCommit id reason instant, _ =>
    some ({ s with db := s.db.revokeCertificate id reason instant }, none)
  | .unholdClock id, _ => some (s, some (.unholdStage id s.now))
  | .unholdStage id instant, _ =>
    some ({ s with db := s.db.stageUnhold id instant }, some (.unholdLift id))
  | .unholdLift id, _ => some ({ s with db := s.db.liftHold id }, none)

def system : System Server Task Request Unit Event := ⟨event, start, advance⟩

def init (now : ℕ) (db : Db) : Server := ⟨now, false, false, db, [], []⟩

end Server

/-- The next steps of one task, with no other step between them. -/
def finish (task steps : ℕ) : List (Concurrency.Label Request Unit Event) :=
  List.replicate steps (.advance task ())

end UltimateCaManager.Revocation
