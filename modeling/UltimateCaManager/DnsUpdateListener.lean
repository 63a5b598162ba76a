import UltimateCaManager.DnsUpdateHandler
import UltimateCaManager.Concurrency

/-!
# The DNS UPDATE listener

The state of the listener and the stages of a request over it: `handle` runs them one after the
other, and as tasks they interleave with those of other requests, with the clock and with the
writers of the tables.
-/
namespace UltimateCaManager.DnsUpdate

open Dns

inductive Rejection
  | badkey | badsig | badtime | badtrunc
  deriving DecidableEq

inductive AuditRecord
  | rejected (reason : Rejection) (keyname : List Char) (transport : Transport)
  | refused (keyname : List Char) (transport : Transport) (event : Event)
  | accepted (keyname : List Char) (transport : Transport) (event : Event)
  deriving DecidableEq

/-- `lastUsedAt` holds the writes of that column, with the id of the key. -/
structure Listener where
  now : ℕ
  keyTables : KeyTables
  domains : List Name
  orders : List (ℕ × Bool)
  keys : KeyStore
  zones : ZoneIndex
  challenges : ChallengeStore
  watermark : TimeWatermark
  replay : ReplayCache
  lastUsedAt : List (ℕ × ℕ)
  audits : List AuditRecord

instance : LawfulBEq (List Char × Bytes) := inferInstance

/-- A verified signature, with the key of the replay cache. -/
structure Signer where
  key : TsigKeyMaterial
  rdata : Tsig
  replayKey : ReplayKey

/-! ## Steps 1 to 5 -/

def countAt (wire : Bytes) (offset : ℕ) : ℕ := toNat ((wire.drop offset).take 2)

/-- Steps 1 to 4: the message, or the response that ends the request. -/
def readRequest (lib : Library) (wire : Bytes) : Except (Option Bytes) Message :=
  let opcode := opcodeOf (flagsOf wire)
  if wire.length < 12 then .error none
  else if flagsOf wire / 0x8000 % 2 = 1 then .error none
  else if maxMessageSize < wire.length then .error none
  else if opcode = Opcode.query ∧ countAt wire 6 ≠ 0 then .error none
  else if maxQdcount < countAt wire 4 ∨ maxAncount < countAt wire 6 ∨
      maxNscount < countAt wire 8 ∨ maxArcount < countAt wire 10 then .error none
  else if opcode ≠ Opcode.query ∧ opcode ≠ Opcode.update then
    .error (some (headerOnly wire Rcode.notimp))
  else match lib.fromWire wire with
    | none => .error (some (headerOnly wire Rcode.formerr))
    | some msg =>
      if sameInSignedForm lib wire msg then .ok msg
      else .error (some (headerOnly wire Rcode.formerr))

/-- The end of the first stage. -/
inductive Received
  | reply (out : Option Bytes)
  | unsigned (msg : Message)
  | signed (msg : Message) (signer : Signer) (replayed : Bool)

/-- `_tsig_error`; an exception leaves only the header. -/
def tsigError (d : Delivery) (msg : Message) (keyname : Name) (faults : List Fault)
    (reason : Rejection) (render : Response → Except Raised Bytes) (limit : Option ℕ) :
    Received × List AuditRecord :=
  if .skeleton ∈ faults ∨ .tsigError ∈ faults then (.reply (servfail d.wire), [])
  else match fitted render (skeleton msg) limit with
    | .ok out => (.reply out, [.rejected reason keyname.toText d.transport])
    | .error .raised => (.reply (servfail d.wire), [])

def settle (lib : Library) (d : Delivery) (msg : Message) (faults : List Fault) :
    TsigResult → Received × List AuditRecord
  | .formerr => (.reply (some (headerOnly d.wire Rcode.formerr)), [])
  | .unsigned => (if .skeleton ∈ faults then .reply (servfail d.wire) else .unsigned msg, [])
  | .ok keyname key rdata replayed =>
    (if .skeleton ∈ faults then .reply (servfail d.wire)
      else .signed msg ⟨key, rdata, replayKey keyname rdata⟩ replayed, [])
  | .badkey keyname rdata => tsigError d msg keyname faults .badkey
      (renderUnsignedTsigError lib · keyname rdata Rcode.badkey) (unsignedLimit d msg)
  | .badsig keyname rdata => tsigError d msg keyname faults .badsig
      (renderUnsignedTsigError lib · keyname rdata Rcode.badvers) (unsignedLimit d msg)
  -- the peer has the key: the response may be as long as a signed one
  | .badtime keyname key rdata => tsigError d msg keyname faults .badtime
      (renderBadtime lib · key rdata d.seconds) (signedLimit d msg)
  | .badtrunc keyname key rdata => tsigError d msg keyname faults .badtrunc
      (renderBadtrunc lib · key rdata d.seconds) (signedLimit d msg)

def TsigResult.macVerified : TsigResult → Bool
  | .badtime .. | .badtrunc .. | .ok .. => true
  | _ => false

namespace Listener

def tables (s : Listener) (faults : List Fault) : Option KeyTables :=
  if .keyTables ∈ faults then none else some s.keyTables

def readKeys (s : Listener) (faults : List Fault) : KeyStore := s.keys.ensure (s.tables faults) s.now

/-- Steps 1 to 5. The replay cache is asked only once the MAC has verified. -/
def receive (lib : Library) (s : Listener) (d : Delivery) (faults : List Fault) :
    Listener × Received :=
  match readRequest lib d.wire with
  | .error out => (s, .reply out)
  | .ok msg =>
    if msg.tsig.isSome ∧ .lookup ∈ faults then (s, .reply (servfail d.wire))
    else
      let keys := s.readKeys faults
      let seen := (replayKey? msg).any (s.replay.seen s.now)
      let (result, watermark) :=
        verifyRequest lib d.wire msg keys.lookup d.seconds s.watermark seen
      let replay := match replayKey? msg with
        | some k => if result.macVerified then s.replay.dropExpired s.now k else s.replay
        | none => s.replay
      let (received, audits) := settle lib d msg faults result
      ({ s with keys := keys, watermark := watermark, replay := replay,
                audits := s.audits ++ audits }, received)

/-! ## Step 6: the replay cache -/

def lookUp (s : Listener) (d : Delivery) (signer : Signer) : Listener × Option Bytes :=
  ({ s with replay := s.replay.afterGet s.now signer.replayKey d.transport },
    (s.replay.response? s.now signer.replayKey d.transport).map (withRequestId · d.wire))

inductive Claim
  | reply (out : Option Bytes)
  | go (suppress : Bool)

/-- The request is marked as in flight, unless it is already; a response that was stored meanwhile
ends it. -/
def claim (s : Listener) (d : Delivery) (signer : Signer) (replayed : Bool) : Listener × Claim :=
  let k := signer.replayKey
  if k ∈ s.replay.inFlight then (s, .reply none)
  else match s.replay.response? s.now k d.transport with
    | some cached =>
      ({ s with replay := s.replay.afterGet s.now k d.transport },
        .reply (some (withRequestId cached d.wire)))
    | none =>
      ({ s with replay := (s.replay.dropExpired s.now k).begin k },
        .go (replayed || s.replay.seen s.now k))

/-! ## Steps 7 to 10: processing -/

/-- The caches that the processing reads, brought up to date. -/
def refreshed (s : Listener) (faults : List Fault) : Listener :=
  { s with
    keys := s.readKeys faults
    zones := s.zones.ensure (if .domains ∈ faults then none else some s.domains) s.now
    challenges :=
      s.challenges.ensure (if .challengeRows ∈ faults then none else some s.orders) s.now }

def view (s : Listener) (faults : List Fault) : UpdateView :=
  ⟨s.zones.isAuthoritative, s.challenges.snapshot, s.keys.scope, faults⟩

/-- Steps 7 and 8. -/
def respond (lib : Library) (s : Listener) (d : Delivery) (msg : Message) (signer : Option Signer)
    (faults : List Fault) : Except Raised (Response × Event) :=
  let r := skeleton msg
  if msg.edns.any (0 < ·) then .ok ({ r with rcode := Rcode.badvers }, .none)
  else if msg.opcode = Opcode.query then
    let raises : Bool := .snapshot ∈ faults ∨ (signer.isSome ∧ .scope ∈ faults)
    (query lib s.challenges.snapshot (signer.map fun signer => s.keys.scope signer.key.keyId) raises
      msg r).map fun r => (r, .none)
  else match signer with
    | none => .ok ({ r with rcode := Rcode.refused }, .none)
    | some signer => update lib (s.view faults) d.wire msg r signer.key.keyId

/-- Steps 9 and 10. -/
def render (lib : Library) (d : Delivery) (msg : Message) (signer : Option Signer)
    (faults : List Fault) (r : Response) : Except Raised (Option Bytes) :=
  if .render ∈ faults then .error .raised
  else match signer with
    | some signer => renderSigned lib r signer.key signer.rdata d.seconds (signedLimit d msg)
    | none => renderUnsigned lib r (unsignedLimit d msg)

/-- `_servfail`: signed if the request was and if that succeeds. -/
def failure (lib : Library) (d : Delivery) (msg : Message) (signer : Option Signer)
    (faults : List Fault) : Option Bytes :=
  match signer with
  | none => servfail d.wire
  | some signer =>
    let r := { skeleton msg with question := [], rcode := Rcode.servfail }
    if .servfail ∈ faults then servfail d.wire
    else match renderSigned lib r signer.key signer.rdata d.seconds (signedLimit d msg) with
      | .ok (some out) => some out
      | _ => servfail d.wire

/-- The stored response; a request without a response is not stored. -/
def store (s : Listener) (d : Delivery) (signer : Option Signer) (out : Option Bytes) : Listener :=
  match signer, out with
  | some signer, some out =>
    { s with replay := s.replay.put s.now signer.replayKey out d.transport }
  | _, _ => s

/-- Steps 7 to 10; an exception ends the request before anything is stored. -/
def process (lib : Library) (s : Listener) (d : Delivery) (msg : Message) (signer : Option Signer)
    (faults : List Fault) : Listener × Event × Option Bytes :=
  let s := s.refreshed faults
  match s.respond lib d msg signer faults with
  | .error .raised => (s, .none, failure lib d msg signer faults)
  | .ok (r, event) =>
    match render lib d msg signer faults r with
    | .error .raised => (s, .none, failure lib d msg signer faults)
    | .ok out => (s.store d signer out, event, out)

/-! ## Step 11: side effects -/

/-- The use of the key, at most once per interval. -/
def touch (s : Listener) (keyId moment : ℕ) (faults : List Fault) : Listener :=
  if s.keys.isTouched keyId s.now then s
  else { s with
    keys := { s.keys with touched := (keyId, s.now) :: s.keys.touched }
    lastUsedAt := if .commit ∈ faults then s.lastUsedAt else s.lastUsedAt ++ [(keyId, moment)] }

def confirm (s : Listener) (rowIds : List ℕ) (moment : ℕ) (faults : List Fault) : Listener :=
  if rowIds = [] ∨ .commit ∈ faults then s
  else { s with challenges := s.challenges.markConfirmed rowIds moment }

/-- `_after`. -/
def sideEffects (s : Listener) (d : Delivery) (key : TsigKeyMaterial) (faults : List Fault) :
    Event → Listener
  | .none => s
  | .refused reason zone names =>
    { s with audits := s.audits ++
        [.refused key.name.toText d.transport (.refused reason zone names)] }
  | .accepted zone names adds deletes rowIds =>
    let s := (s.confirm rowIds d.now faults).touch key.keyId d.now faults
    { s with audits := s.audits ++
        [.accepted key.name.toText d.transport (.accepted zone names adds deletes rowIds)] }

/-- The end of a request: its side effects, unless it is a copy, and of its flight. -/
def close (s : Listener) (d : Delivery) (signer : Signer) (suppress : Bool) (event : Event)
    (faults : List Fault) : Listener :=
  let s := if suppress then s else s.sideEffects d signer.key faults event
  { s with replay := s.replay.finish signer.replayKey }

/-! ## A whole request -/

/-- Steps 7 to 11 of a signed request. -/
def complete (lib : Library) (s : Listener) (d : Delivery) (msg : Message) (signer : Signer)
    (suppress : Bool) (faults : List Fault) : Listener × Option Bytes :=
  let (s, event, out) := s.process lib d msg (some signer) faults
  (s.close d signer suppress event faults, out)

/-- `handle`, with no other request in between. -/
def handle (lib : Library) (s : Listener) (wire : Bytes) (transport : Transport)
    (faults : List Fault) : Listener × Option Bytes :=
  let d : Delivery := ⟨wire, transport, s.now⟩
  match s.receive lib d faults with
  | (s, .reply out) => (s, out)
  | (s, .unsigned msg) =>
    let (s, _, out) := s.process lib d msg none faults
    (s, out)
  | (s, .signed msg signer replayed) =>
    match s.lookUp d signer with
    | (s, some out) => (s, some out)
    | (s, none) =>
      match s.claim d signer replayed with
      | (s, .reply out) => (s, out)
      | (s, .go suppress) => s.complete lib d msg signer suppress faults

end Listener

/-! ## Requests in flight -/

/-- A request in flight, named after what it does next. -/
inductive Task
  | receive (d : Delivery)
  | lookUp (d : Delivery) (msg : Message) (signer : Signer) (replayed : Bool)
  | claim (d : Delivery) (msg : Message) (signer : Signer) (replayed : Bool)
  | process (d : Delivery) (msg : Message) (signer : Option Signer) (suppress : Bool)
  | close (d : Delivery) (signer : Signer) (suppress : Bool) (event : Event)

structure Request where
  wire : Bytes
  transport : Transport

/-- What happens outside the listener: time passes, and the tables and their caches change. -/
inductive Outside
  | tick (microseconds : ℕ)
  | setKeys (tables : KeyTables) (invalidate : Bool)
  | setDomains (domains : List Name) (invalidate : Bool)
  | setOrders (orders : List (ℕ × Bool))
  | insertRow (row : ChallengeRow)
  | closeRows (p : ChallengeRow → Bool)
  | deleteRows (p : ChallengeRow → Bool) (invalidate : Bool)

namespace Listener

def outside (s : Listener) : Outside → Listener
  | .tick microseconds => { s with now := s.now + microseconds }
  | .setKeys tables invalidate => { s with
      keyTables := tables
      keys := if invalidate then { s.keys with dirty := true, loadedAt := none, retryAt := none }
        else s.keys }
  | .setDomains domains invalidate => { s with
      domains := domains
      zones := if invalidate then { s.zones with loadedAt := none, retryAt := none } else s.zones }
  | .setOrders orders => { s with orders := orders }
  | .insertRow row => { s with challenges := s.challenges.insert row }
  | .closeRows p => { s with challenges := s.challenges.closeWhere p }
  | .deleteRows p invalidate => { s with challenges := s.challenges.deleteWhere p invalidate }

def start (s : Listener) (r : Request) : Option Task := some (.receive ⟨r.wire, r.transport, s.now⟩)

/-- One stage. A response that is sent ends the task. -/
def advance (lib : Library) (s : Listener) :
    Task → List Fault → Option (Listener × Option Task)
  | .receive d, faults =>
    match s.receive lib d faults with
    | (s, .reply _) => some (s, none)
    | (s, .unsigned msg) => some (s, some (.process d msg none false))
    | (s, .signed msg signer replayed) => some (s, some (.lookUp d msg signer replayed))
  | .lookUp d msg signer replayed, _ =>
    match s.lookUp d signer with
    | (s, some _) => some (s, none)
    | (s, none) => some (s, some (.claim d msg signer replayed))
  | .claim d msg signer replayed, _ =>
    match s.claim d signer replayed with
    | (s, .reply _) => some (s, none)
    | (s, .go suppress) => some (s, some (.process d msg (some signer) suppress))
  | .process d msg signer suppress, faults =>
    let (s, event, _) := s.process lib d msg signer faults
    some (s, signer.map fun signer => .close d signer suppress event)
  | .close d signer suppress event, faults => some (s.close d signer suppress event faults, none)

def system (lib : Library) : Concurrency.System Listener Task Request (List Fault) Outside :=
  ⟨outside, start, advance lib⟩

end Listener

end UltimateCaManager.DnsUpdate
