import UltimateCaManager.Concurrency
import UltimateCaManager.Tables
import Mathlib.Algebra.Group.Nat.Defs
import Mathlib.Data.List.MinMax
import Mathlib.Data.List.Sort
import Mathlib.Data.Prod.Lex

/-!
# The deploy queue for CRLs

A CRL that is published is queued for the targets bound to its CA, and a scheduler pushes the newest
complete CRL to them. A binding can also be edited or pushed by hand, which pushes at once. A push
reads the CRL, writes the file on the target and records its result; between these steps anything
else may commit. A publication is merged into a delivery that is still pending, which may be one
whose push has already read the CRL before. A row gets its id when its session commits.
-/
namespace UltimateCaManager.Deploy

open Concurrency Tables

/-- A row of `crl_metadata`; the flags tell which encodings it holds. -/
structure Crl where
  id : ℕ
  caId : ℕ
  crlNumber : ℕ
  isDelta : Bool
  hasPem : Bool
  hasDer : Bool
  deriving DecidableEq

/-- The order of `crl_number`, then of `id`. -/
def Crl.newness (c : Crl) : ℕ ×ₗ ℕ := toLex (c.crlNumber, c.id)

inductive CrlFormat
  | pem | der
  | other (name : String)
  deriving DecidableEq

structure Target where
  id : ℕ
  enabled : Bool

/-- A row of `crl_deploy_bindings`. -/
structure CrlBinding where
  id : ℕ
  targetId : ℕ
  caId : ℕ
  crlPath : String
  format : CrlFormat
  includeParentCrls : Bool
  enabled : Bool
  deriving DecidableEq

inductive DeliveryStatus
  | pending | delivered | failed
  deriving DecidableEq

/-- A row of `deploy_deliveries` for a CRL binding; times are in seconds. -/
structure Delivery where
  id : ℕ
  bindingId : ℕ
  status : DeliveryStatus
  attempts : ℕ
  maxAttempts : ℕ
  nextAttemptAt : ℕ
  deriving DecidableEq

/-- A file on a target, with the CRLs it was written from. -/
structure File where
  path : String
  crls : List Crl

/-- The tables, and the issuer of each CA. `handled` and `pushed` are history variables: the CRLs
whose publication event has been handled, and the file last pushed for each binding. -/
structure Server where
  now : ℕ
  cas : List ℕ
  issuingCa : ℕ → Option ℕ
  targets : List Target
  crls : List Crl
  bindings : List CrlBinding
  deliveries : List Delivery
  handled : List Crl
  pushed : ℕ → Option File

def defaultMaxAttempts : ℕ := 5

/-- `_CLAIM_LEASE_SECONDS`. -/
def claimLease : ℕ := 180

def backoffSeconds (attempts : ℕ) : ℕ := min (60 * 2 ^ (attempts - 1)) 3600

namespace Server

def empty (now : ℕ) (cas : List ℕ) (issuingCa : ℕ → Option ℕ) (targets : List Target) : Server :=
  ⟨now, cas, issuingCa, targets, [], [], [], [], fun _ => none⟩

variable (s : Server)

def binding? (id : ℕ) : Option CrlBinding := s.bindings.find? fun b => b.id = id

def delivery? (id : ℕ) : Option Delivery := s.deliveries.find? fun d => d.id = id

def latestCompleteCrl (caId : ℕ) : Option Crl :=
  (s.crls.filter fun c => c.caId = caId && !c.isDelta).argmax Crl.newness

/-- `_crl_ca_chain`: the loop stops at the first CA it has seen, so at most once per CA. -/
def crlCaChain : ℕ → List ℕ → ℕ → List ℕ
  | 0, _, _ => []
  | fuel + 1, seen, current =>
    if current ∈ seen then []
    else current :: match s.issuingCa current with
      | none => []
      | some parent =>
        if parent = current then [] else crlCaChain fuel (current :: seen) parent

def caChain (caId : ℕ) : List ℕ := s.crlCaChain s.cas.length [] caId

/-- `resolve_crl_files`, `none` when it raises. -/
def resolveCrlFiles (b : CrlBinding) : Option File :=
  if b.caId ∈ s.cas then
    match b.format with
    | .der =>
      if b.includeParentCrls then none
      else
        match s.latestCompleteCrl b.caId with
        | some c => if c.hasDer then some ⟨b.crlPath, [c]⟩ else none
        | none => none
    | .pem =>
      ((if b.includeParentCrls then s.caChain b.caId else [b.caId]).mapM fun caId =>
        (s.latestCompleteCrl caId).filter Crl.hasPem).map (File.mk b.crlPath)
    | .other _ => none
  else none

/-- An enabled binding of an enabled target. -/
def live (b : CrlBinding) : Bool :=
  b.enabled && s.targets.any fun t => t.id = b.targetId && t.enabled

def pending? (bindingId : ℕ) : Option Delivery :=
  s.deliveries.find? fun d => d.bindingId = bindingId && d.status = .pending

/-- The last delivery of a binding, as the routes show it: ids follow the order of the rows. -/
def lastDelivery? (bindingId : ℕ) : Option Delivery :=
  (s.deliveries.filter fun d => d.bindingId = bindingId).getLast?

/-- The bindings that a new CRL of the CA concerns. -/
def candidates (caId : ℕ) : List CrlBinding :=
  s.bindings.filter fun b => s.live b && (b.caId = caId ||
    (b.includeParentCrls && b.caId ∈ s.cas && caId ∈ s.caChain b.caId))

def due : List Delivery :=
  ((s.deliveries.filter fun d => d.status = .pending && d.nextAttemptAt ≤ s.now).insertionSort
    fun d e => d.nextAttemptAt ≤ e.nextAttemptAt).take 20

def insertDelivery (d : Delivery) : Server :=
  { s with deliveries := s.deliveries ++ [{ d with id := s.deliveries.length }] }

def amendDelivery (id : ℕ) (f : Delivery → Delivery) : Server :=
  { s with deliveries := amend (·.id = id) f s.deliveries }

end Server

/-- A new delivery, due at once. -/
def Delivery.queued (bindingId queuedAt : ℕ) : Delivery :=
  ⟨0, bindingId, .pending, 0, defaultMaxAttempts, queuedAt⟩

/-- The columns of a binding that an edit sets. -/
structure Edit where
  crlPath : Option String
  format : Option CrlFormat
  includeParentCrls : Option Bool
  enabled : Option Bool

def Edit.apply (e : Edit) (b : CrlBinding) : CrlBinding :=
  { b with
    crlPath := e.crlPath.getD b.crlPath
    format := e.format.getD b.format
    includeParentCrls := e.includeParentCrls.getD b.includeParentCrls
    enabled := e.enabled.getD b.enabled }

def Server.edit (s : Server) (bindingId : ℕ) (e : Edit) : Server :=
  { s with bindings := amend (·.id = bindingId) e.apply s.bindings }

/-- What the session writes of an edit: the columns whose value differs from the loaded one. -/
def Edit.changes (e : Edit) (b : CrlBinding) : Edit :=
  ⟨e.crlPath.filter (· ≠ b.crlPath), e.format.filter (· ≠ b.format),
    e.includeParentCrls.filter (· ≠ b.includeParentCrls), e.enabled.filter (· ≠ b.enabled)⟩

structure Execution where
  bindingId : ℕ
  /-- The binding, when the session has it already, with an edit applied. -/
  loaded : Option CrlBinding
  /-- The edit to commit with the result. -/
  edit : Option Edit
  /-- The row of the delivery, `none` for a new one. -/
  delivery : Option ℕ
  attempts : ℕ
  maxAttempts : ℕ
  startedAt : ℕ
  /-- The other deliveries of the scheduler pass, and its time. -/
  pass : Option (List ℕ × ℕ)

inductive Result
  | delivered | retry | failed
  deriving DecidableEq

inductive Task
  /-- The subscriber of a publication, with the deliveries it found pending. -/
  | queueing (crl : Crl) (plan : List (ℕ × Option ℕ)) (queuedAt : ℕ)
  | creating (binding : CrlBinding) (queue : Bool)
  /-- An edit of a binding that is not pushed. -/
  | saving (bindingId : ℕ) (changes : Edit)
  | requeueing (deliveryId : ℕ)
  | passing (due : List ℕ) (startedAt : ℕ)
  | executing (x : Execution)
  | pushing (x : Execution) (binding : CrlBinding) (file : File)
  | recording (x : Execution) (binding : Option CrlBinding) (result : Result)

inductive Request
  | handle (crlId : ℕ)
  | create (targetId caId : ℕ) (crlPath : String) (format : CrlFormat)
      (includeParentCrls enabled : Bool)
  | update (bindingId : ℕ) (edit : Edit)
  | deployNow (bindingId : ℕ)
  | retry (deliveryId : ℕ)
  | pass

/-- How a push ends: a failure may come after the file was written, and may be permanent. -/
inductive Outcome
  | delivered
  | failed (written permanent : Bool)

inductive Input
  | read
  | push (outcome : Outcome)
  | commit (ok : Bool)

inductive Event
  | tick (seconds : ℕ)
  | publish (caId crlNumber : ℕ) (isDelta hasPem hasDer : Bool)

def event (s : Server) : Event → Server
  | .tick seconds => { s with now := s.now + seconds }
  | .publish caId crlNumber isDelta hasPem hasDer =>
    { s with crls := s.crls ++ [⟨s.crls.length, caId, crlNumber, isDelta, hasPem, hasDer⟩] }

/-- Parent CRLs can only be included in PEM format. -/
def CrlBinding.valid (b : CrlBinding) : Bool :=
  !(b.format = .der && b.includeParentCrls)

def start (s : Server) : Request → Option Task
  | .handle crlId => do
    -- the event is emitted for complete CRLs only
    let crl ← s.crls.find? fun c => c.id = crlId && !c.isDelta
    some (.queueing crl ((s.candidates crl.caId).map fun b =>
      (b.id, (s.pending? b.id).map Delivery.id)) s.now)
  | .create targetId caId crlPath format includeParentCrls enabled =>
    let b : CrlBinding := ⟨0, targetId, caId, crlPath, format, includeParentCrls, enabled⟩
    if (s.targets.any fun t => t.id = targetId) ∧ caId ∈ s.cas ∧
        (s.bindings.all fun c => !(c.targetId = targetId && c.caId = caId)) ∧ b.valid ∧
        (s.latestCompleteCrl caId).isSome then
      some (.creating b (s.live b))
    else none
  | .update bindingId edit => do
    let b ← s.binding? bindingId
    let edited := edit.apply b
    if edited.valid then
      if s.live edited then
        some (.executing
          { bindingId, loaded := some edited, edit := some (edit.changes b),
            delivery := (s.pending? bindingId).map Delivery.id, attempts := 1,
            maxAttempts := defaultMaxAttempts, startedAt := s.now, pass := none })
      else some (.saving bindingId (edit.changes b))
    else none
  | .deployNow bindingId => do
    let b ← s.binding? bindingId
    some (.executing
      { bindingId, loaded := some b, edit := none, delivery := none, attempts := 1,
        maxAttempts := 1, startedAt := s.now, pass := none })
  | .retry deliveryId => do
    let d ← s.delivery? deliveryId
    if d.status = .failed then some (.requeueing deliveryId) else none
  | .pass =>
    match s.due with
    | [] => none
    | due => some (.passing (due.map Delivery.id) s.now)

def continuePass : Option (List ℕ × ℕ) → Option Task
  | some (d :: rest, startedAt) => some (.passing (d :: rest) startedAt)
  | _ => none

/-- One entry of a plan: a new delivery, or the pending one made due at once. -/
def queue (queuedAt : ℕ) (s : Server) (entry : ℕ × Option ℕ) : Server :=
  match entry.2 with
  | none => s.insertDelivery (.queued entry.1 queuedAt)
  | some d => s.amendDelivery d fun row => { row with attempts := 0, nextAttemptAt := queuedAt }

/-- `execute_delivery` up to the connection: the binding, its target and the file. -/
def readFiles (s : Server) (x : Execution) : Task :=
  match x.loaded <|> s.binding? x.bindingId with
  | none => .recording x none .failed
  | some b =>
    if s.live b then
      match s.resolveCrlFiles b with
      | some file => .pushing x b file
      | none => .recording x none .failed
    else .recording x none .failed

def afterPush (x : Execution) (b : CrlBinding) : Outcome → Task
  | .delivered => .recording x (some b) .delivered
  | .failed _ permanent =>
    .recording x (some b) (if permanent ∨ x.maxAttempts ≤ x.attempts then .failed else .retry)

def Outcome.written : Outcome → Bool
  | .delivered => true
  | .failed written _ => written

/-- What the session writes of a delivery. A failure that is retried leaves the status alone. -/
def Execution.write (x : Execution) (result : Result) (d : Delivery) : Delivery :=
  let d := if x.edit.isSome then
      { d with attempts := 1, maxAttempts := defaultMaxAttempts, nextAttemptAt := x.startedAt }
    else d
  match result with
  | .delivered => { d with status := .delivered }
  | .retry => { d with nextAttemptAt := x.startedAt + backoffSeconds x.attempts }
  | .failed => { d with status := .failed }

/-- The result of a delivery and the edit it came with, in one commit. -/
def record (s : Server) (x : Execution) (result : Result) : Server :=
  let s := s.edit x.bindingId (x.edit.getD ⟨none, none, none, none⟩)
  match x.delivery with
  | some d => s.amendDelivery d (x.write result)
  | none => s.insertDelivery (x.write result
      ⟨0, x.bindingId, .pending, x.attempts, x.maxAttempts, x.startedAt⟩)

/-- The claim of a due delivery, by a conditional update. -/
def claim (s : Server) (d : ℕ) (rest : List ℕ) (startedAt : ℕ) : Server × Option Task :=
  match s.delivery? d with
  | some row =>
    if row.status = .pending ∧ row.nextAttemptAt ≤ startedAt then
      (s.amendDelivery d fun row =>
          { row with attempts := row.attempts + 1, nextAttemptAt := startedAt + claimLease },
        some (.executing
          { bindingId := row.bindingId, loaded := none, edit := none, delivery := some d,
            attempts := row.attempts + 1, maxAttempts := row.maxAttempts, startedAt := s.now,
            pass := some (rest, startedAt) }))
    else (s, continuePass (some (rest, startedAt)))
  | none => (s, continuePass (some (rest, startedAt)))

/-- What a session that commits leaves, and the task after it. -/
def commit (s : Server) : Task → Option (Server × Option Task)
  | .queueing crl plan queuedAt =>
    some ({ plan.foldl (queue queuedAt) s with handled := s.handled ++ [crl] }, none)
  | .creating b queue =>
    if s.bindings.all fun c => !(c.targetId = b.targetId && c.caId = b.caId) then
      let s' : Server := { s with bindings := s.bindings ++ [{ b with id := s.bindings.length }] }
      some (if queue then s'.insertDelivery (.queued s.bindings.length s.now) else s', none)
    else some (s, none)
  | .saving bindingId changes => some (s.edit bindingId changes, none)
  | .requeueing d =>
    some (s.amendDelivery d fun row => { row with
      status := .pending, attempts := 0, maxAttempts := defaultMaxAttempts,
      nextAttemptAt := s.now }, none)
  | .passing [] _ => some (s, none)
  | .passing (d :: rest) startedAt => some (claim s d rest startedAt)
  | .recording x _ result => some (record s x result, continuePass x.pass)
  | _ => none

/-- Where a task stands after a commit that raised. -/
def rolledBack : Task → Option Task
  | .recording x _ _ => continuePass x.pass
  | _ => none

def advance (s : Server) : Task → Input → Option (Server × Option Task)
  | .executing x, .read => some (s, some (readFiles s x))
  | .pushing x b file, .push outcome =>
    some ({ s with pushed := if outcome.written then Function.update s.pushed x.bindingId (some file)
      else s.pushed }, some (afterPush x b outcome))
  | t, .commit ok => (commit s t).map fun r => if ok then r else (s, rolledBack t)
  | _, _ => none

def system : System Server Task Request Input Event := ⟨event, start, advance⟩

end UltimateCaManager.Deploy
