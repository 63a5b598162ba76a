import UltimateCaManager.DnsUpdateStores
import Mathlib.Data.List.Sort

/-!
# The DNS UPDATE handler

From the octets of a request to the octets of its response, in the stages between which another
request may run: the checks up to the signature, the replay cache, the processing, the side
effects. What a stage reads through a cache is brought up to date when the stage begins. A fault
is a call of the stage that raises, or a read or write of the database that fails.
-/
namespace UltimateCaManager.DnsUpdate

open Dns

inductive Transport
  | udp | tcp
  deriving DecidableEq

/-- A received message with the time it is taken up at. -/
structure Delivery where
  wire : Bytes
  transport : Transport
  now : ℕ

/-- `int(now)`. -/
def Delivery.seconds (d : Delivery) : ℕ := d.now / second

inductive Fault
  /-- Calls that raise. -/
  | lookup | skeleton | tsigError | authoritative | scope | snapshot | render | servfail
  /-- Reads of the tables that fail, and the commit of the side effects. -/
  | keyTables | domains | challengeRows | commit
  deriving DecidableEq

/-! ## Limits -/

def maxMessageSize : ℕ := 4096
def maxQdcount : ℕ := 16
def maxAncount : ℕ := 16
def maxNscount : ℕ := 16
def maxArcount : ℕ := 4
def minUdp : ℕ := 512
def replayCacheSize : ℕ := 4096
def replayTtl : ℕ := 2 * maxFudge * second
def soaTimers : List ℕ := [1, 3600, 600, 86400, 0]
def challengeLabel : Bytes := ascii "_acme-challenge"
def maxAuditNames : ℕ := 8

/-! ## The replay cache -/

abbrev ReplayKey := List Char × Bytes

structure ReplayEntry where
  storedAt : ℕ
  responses : List (Transport × Bytes)

def ReplayEntry.isExpired (e : ReplayEntry) (now : ℕ) : Bool := replayTtl ≤ now - e.storedAt

structure ReplayCache where
  items : List (ReplayKey × ReplayEntry)
  inFlight : List ReplayKey

namespace ReplayCache

def empty : ReplayCache := ⟨[], []⟩

/-- `_live`, without what it drops. -/
def live? (c : ReplayCache) (now : ℕ) (k : ReplayKey) : Option ReplayEntry :=
  (OrderedDict.get? c.items k).filter fun e => !e.isExpired now

def dropExpired (c : ReplayCache) (now : ℕ) (k : ReplayKey) : ReplayCache :=
  if (OrderedDict.get? c.items k).any (·.isExpired now) then
    { c with items := OrderedDict.delete c.items k }
  else c

def response? (c : ReplayCache) (now : ℕ) (k : ReplayKey) (t : Transport) : Option Bytes :=
  (c.live? now k).bind fun e => e.responses.lookup t

/-- The cache after `get`: a response that is found makes its entry the most recently used one. -/
def afterGet (c : ReplayCache) (now : ℕ) (k : ReplayKey) (t : Transport) : ReplayCache :=
  if (c.response? now k t).isSome then { c with items := OrderedDict.moveToEnd c.items k }
  else c.dropExpired now k

def seen (c : ReplayCache) (now : ℕ) (k : ReplayKey) : Bool := (c.live? now k).isSome

/-- The items with the response, before the oldest ones are evicted. -/
def stored (c : ReplayCache) (now : ℕ) (k : ReplayKey) (value : Bytes) (t : Transport) :
    List (ReplayKey × ReplayEntry) :=
  let entry := (c.live? now k).getD ⟨now, []⟩
  OrderedDict.put c.items k
    { entry with responses := (t, value) :: entry.responses.filter (·.1 ≠ t) }

def put (c : ReplayCache) (now : ℕ) (k : ReplayKey) (value : Bytes) (t : Transport) : ReplayCache :=
  { c with items := OrderedDict.bound replayCacheSize (c.stored now k value t) }

def begin (c : ReplayCache) (k : ReplayKey) : ReplayCache := { c with inFlight := k :: c.inFlight }

/-- `end`. -/
def finish (c : ReplayCache) (k : ReplayKey) : ReplayCache :=
  { c with inFlight := c.inFlight.filter (· ≠ k) }

end ReplayCache

/-! ## Reading the request -/

/-- ID, opcode and RD of the request, and no records. -/
def headerOnly (wire : Bytes) (rcode : ℕ) : Bytes :=
  uint 2 (toNat (wire.take 2)) ++
    uint 2 (0x8000 + opcodeOf (flagsOf wire) * 2048 + flagsOf wire / 256 % 2 * 256 + rcode % 16) ++
    uint 8 0

@[simp] theorem length_headerOnly (wire : Bytes) (rcode : ℕ) : (headerOnly wire rcode).length = 12 := by
  simp [headerOnly]

def Question.same (q q' : Question) : Bool :=
  q.name.key = q'.name.key && q.rdtype = q'.rdtype && q.rdclass = q'.rdclass

def RRset.same (r r' : RRset) : Bool :=
  r.name.key = r'.name.key && r.rdclass = r'.rdclass && r.rdtype = r'.rdtype && r.rdatas = r'.rdatas

def sameList {α : Type} (same : α → α → Bool) : List α → List α → Bool
  | [], [] => true
  | a :: l, b :: r => same a b && sameList same l r
  | _, _ => false

/-- The comparison of the library, with names without case. -/
def sameMessage (m m' : Message) : Bool :=
  sameList Question.same m.question m'.question && sameList RRset.same m.answer m'.answer &&
    sameList RRset.same m.authority m'.authority && sameList RRset.same m.additional m'.additional &&
    m.tsig.map (fun (owner, t) => (owner.key, t)) = m'.tsig.map (fun (owner, t) => (owner.key, t)) &&
    m.edns = m'.edns && m.payload = m'.payload

/-- `_same_in_signed_form`: a name that is compressed into the header ID would read differently
with the original ID. -/
def sameInSignedForm (lib : Library) (wire : Bytes) (msg : Message) : Bool :=
  match msg.tsig with
  | none => true
  | some (_, t) => t.originalId = msg.id ||
      (lib.fromWire (uint 2 t.originalId ++ wire.drop 2)).any (sameMessage · msg)

def replayKey (owner : Name) (rdata : Tsig) : ReplayKey := (owner.lowerText, rdata.mac)

def replayKey? (msg : Message) : Option ReplayKey := msg.tsig.map fun (owner, t) => replayKey owner t

def withRequestId (cached wire : Bytes) : Bytes := wire.take 2 ++ cached.drop 2

/-! ## Responses -/

def skeleton (msg : Message) : Response where
  id := msg.id
  opcode := msg.opcode
  recursionDesired := msg.flags / 256 % 2 = 1
  authoritative := false
  truncated := false
  rcode := Rcode.noerror
  question := if msg.opcode = Opcode.update then [] else msg.question
  answer := []
  authority := []
  opt := msg.opt.map fun _ => maxMessageSize
  requestPayload := msg.payload

/-- `_truncated`: question and OPT only, with the same response code. -/
def truncated (r : Response) : Response :=
  { r with answer := [], authority := [], truncated := true }

def ednsSize (msg : Message) : ℕ := max minUdp (if msg.opt.isSome then msg.payload else minUdp)

def signedLimit (d : Delivery) (msg : Message) : Option ℕ :=
  match d.transport with
  | .tcp => none
  | .udp => some (ednsSize msg)

/-- `_unsigned_limit`: over UDP no longer than the request either. -/
def unsignedLimit (d : Delivery) (msg : Message) : Option ℕ :=
  match d.transport with
  | .tcp => none
  | .udp => some (min d.wire.length (ednsSize msg))

/-- A response, in its truncated form if it does not fit, or none. -/
def fitted (render : Response → Except Raised Bytes) (r : Response) (limit : Option ℕ) :
    Except Raised (Option Bytes) := do
  let out ← render r
  if fits out limit then return some out
  let short ← render (truncated r)
  return if fits short limit then some short else none

def renderUnsigned (lib : Library) (r : Response) (limit : Option ℕ) : Except Raised (Option Bytes) :=
  fitted (fun r => written (lib.toWire r wireLimit)) r limit

/-- `_servfail` without a signature; the caller has checked the length. -/
def servfail (wire : Bytes) : Option Bytes :=
  if 12 ≤ wire.length then some (headerOnly wire Rcode.servfail) else none

/-! ## QUERY -/

/-- `_soa_rrset`; the name of the mailbox may be too long. -/
def soaRrset (zone : Name) : Except Raised Soa :=
  match Name.ofLabels? (ascii "hostmaster" :: zone.labels) with
  | some rname => .ok ⟨zone, rname, soaTimers⟩
  | none => .error .raised

/-- The zone of the first row that passes the test. -/
def findZone (lib : Library) (test : ActiveRecord → Name → Except Raised Bool) :
    List ActiveRecord → Except Raised (Option Name)
  | [] => .ok none
  | row :: rest =>
    match lib.fromText row.zoneName with
    | none => .error .raised
    | some zone => do
      if ← test row zone then return some zone
      findZone lib test rest

/-- A name strictly below the apex, at or above the name of the record. -/
def isBetween (lib : Library) (qname : Name) (row : ActiveRecord) (zone : Name) :
    Except Raised Bool :=
  if qname.key ≠ zone.key && qname.isSubdomain zone then
    match lib.fromText row.recordName with
    | none => .error .raised
    | some record => .ok (record.isSubdomain qname)
  else .ok false

/-- The texts of a name and of the names above it, without the root. -/
def zoneTexts (qname : Name) : List (List Char) :=
  (qname.labels.tails.filter (· ≠ [])).map fun labels => (Name.textOf labels).map Char.toLower

/-- `_query`; the scope is the one of a signed request, if its key has one. -/
def query (lib : Library) (snapshot : ActiveSnapshot) (scope : Option (Option KeyScope))
    (raises : Bool) (msg : Message) (r : Response) : Except Raised Response :=
  match msg.question with
  | [question] =>
    if question.rdclass ≠ RdataClass.internet ∨ question.rdtype ≠ RdataType.soa then
      .ok { r with rcode := Rcode.refused }
    else if raises then .error .raised
    else if (zoneTexts question.name).all fun text => (snapshot.byZone text).isEmpty then
      .ok { r with rcode := Rcode.refused }
    else do
      let rows := (zoneTexts question.name).flatMap snapshot.byZone
      let rows := match scope with
        | none => rows
        | some scope => rows.filter fun row =>
            scope.any (·.allows row.acmeClientAccountId row.accountId)
      if let some zone ← findZone lib (fun _ zone => .ok (question.name.key = zone.key)) rows then
        return { r with authoritative := true, answer := [← soaRrset zone] }
      if let some zone ← findZone lib (isBetween lib question.name) rows then
        return { r with authoritative := true, authority := [← soaRrset zone] }
      return { r with rcode := Rcode.refused }
  -- exactly one question; the response is the header only
  | _ => .ok { r with question := [], rcode := Rcode.formerr }

/-! ## UPDATE -/

inductive Reason
  | format | notAuthoritative | prerequisite | typeNotAllowed | noPendingOrder | valueMismatch
  | notInZone
  deriving DecidableEq

/-- `_Event`: what happens after the response is decided. -/
inductive Event
  | none
  | refused (reason : Reason) (zone : List Char) (names : List (List Char))
  | accepted (zone : List Char) (names : List (List Char)) (adds deletes : ℕ) (rowIds : List ℕ)
  deriving DecidableEq

/-- The text of a TXT record, its strings joined, if it is ASCII. -/
def txtValue : Rdata → Option (List Char)
  | .txt strings =>
    if strings.flatten.all (· < 128) then
      some (strings.flatten.map fun b => Char.ofNat b.toNat)
    else none
  | .other _ => none

/-- The end of an authorization: an exception, or the reason of a refusal. -/
inductive Stop
  | raised
  | refused (reason : Reason)

/-- The rows that a key may confirm at a name. -/
def candidates (snapshot : ActiveSnapshot) (scope : Option KeyScope) (name : Name) :
    List ActiveRecord :=
  (snapshot.byName name.lowerText).filter fun row =>
    scope.any (·.allows row.acmeClientAccountId row.accountId)

/-- The ids of the candidates that expect the value. -/
def matched (rows : List ActiveRecord) (rdata : Rdata) : Except Stop (List ℕ) :=
  match (rows.filter fun row => txtValue rdata = some row.txtValue).map ActiveRecord.rowId with
  | [] => .error (.refused .valueMismatch)
  | ids => .ok ids

/-- A record that is neither TXT nor the deletion of a whole name, or not at a challenge name. -/
def isForbidden (rrset : RRset) : Bool :=
  let deleteAll := rrset.rdtype = RdataType.any && rrset.deleting = some RdataClass.any
  (rrset.rdtype ≠ RdataType.txt && !deleteAll) ||
    (rrset.name.labels.head?.map fun l => l.map lowerByte) ≠ some challengeLabel

def authorizeRRset (snapshot : ActiveSnapshot) (scope : Option KeyScope) (raises : Bool)
    (rrset : RRset) : Except Stop (List ℕ) :=
  if isForbidden rrset then .error (.refused .typeNotAllowed)
  -- a deletion changes nothing and is always allowed
  else if rrset.deleting.isSome then .ok []
  else if raises then .error .raised
  else match candidates snapshot scope rrset.name with
    | [] => .error (.refused .noPendingOrder)
    | rows => (rrset.rdatas.mapM (matched rows)).map List.flatten

/-- `_authorize`: the rows that the records match, or why one of them is refused. -/
def authorize (snapshot : ActiveSnapshot) (scope : Option KeyScope) (raises : Bool)
    (rrsets : List RRset) : Except Stop (List ℕ) :=
  (rrsets.mapM (authorizeRRset snapshot scope raises)).map List.flatten

/-- The prescan of the records in their order. -/
def prescan (zone : Name) : List RawRecord → Option (ℕ × Reason)
  | [] => none
  | rr :: rest =>
    if !rr.name.isSubdomain zone then some (Rcode.notzone, .notInZone)
    else if rr.rdclass = RdataClass.internet then prescan zone rest
    else if rr.rdclass = RdataClass.any ∨ rr.rdclass = RdataClass.none then
      if rr.ttl ≠ 0 ∨ (rr.rdclass = RdataClass.any ∧ rr.rdlen ≠ 0) then
        some (Rcode.formerr, .format)
      else prescan zone rest
    else some (Rcode.formerr, .format)

def auditNames (rrsets : List RRset) : List (List Char) :=
  rrsets.foldl (fun names rrset =>
    let text := rrset.name.toText
    if text ∉ names ∧ names.length < maxAuditNames then names ++ [text] else names) []

def refuse (r : Response) (rcode : ℕ) (reason : Reason) (zone : List Char)
    (names : List (List Char)) : Response × Event :=
  ({ r with rcode := rcode }, .refused reason zone names)

/-- What `_update` reads besides the request. -/
structure UpdateView where
  isAuthoritative : Name → Bool
  snapshot : ActiveSnapshot
  scope : ℕ → Option KeyScope
  faults : List Fault

/-- `_update` of a request whose signature verified with the key. -/
def update (lib : Library) (view : UpdateView) (wire : Bytes) (msg : Message) (r : Response)
    (keyId : ℕ) : Except Raised (Response × Event) :=
  match msg.question with
  | [zrr] =>
    let zoneText := zrr.name.toText
    if zrr.rdtype ≠ RdataType.soa then .ok (refuse r Rcode.formerr .format [] [])
    else if zrr.rdclass ≠ RdataClass.internet then
      .ok (refuse r Rcode.notauth .notAuthoritative zoneText [])
    else if .authoritative ∈ view.faults then .error .raised
    else if !view.isAuthoritative zrr.name then
      .ok (refuse r Rcode.notauth .notAuthoritative zoneText [])
    else if msg.answer ≠ [] then .ok (refuse r Rcode.refused .prerequisite zoneText [])
    else
      let names := auditNames msg.authority
      let raises : Bool := .scope ∈ view.faults ∨ .snapshot ∈ view.faults
      match authorize view.snapshot (view.scope keyId) raises msg.authority with
      | .error .raised => .error .raised
      | .error (.refused reason) => .ok (refuse r Rcode.refused reason zoneText names)
      | .ok rowIds =>
        match updateRrs lib.nameAt wire with
        | none => .error .raised
        | some rrs =>
          match prescan zrr.name rrs with
          | some (rcode, reason) => .ok (refuse r rcode reason zoneText names)
          | none =>
            let adds := rrs.countP (·.rdclass = RdataClass.internet)
            .ok (r, .accepted zoneText names adds (rrs.length - adds)
              (rowIds.dedup.insertionSort (· ≤ ·)))
  | _ => .ok (refuse r Rcode.formerr .format [] [])

end UltimateCaManager.DnsUpdate
