import UltimateCaManager.AuditWalk
import UltimateCaManager.Runs
import UltimateCaManager.Tables
import Mathlib.Data.List.Dedup

/-!
# Writing the audit ledger

`append_entry` inside the transaction of a session, the key history that is written when a
transaction or a savepoint of it ends, and the retention purge with its batches. Tables are lists
of rows in ascending order of their ids.
-/
namespace UltimateCaManager.Audit

/-! ## Sealing an entry -/

/-- The key history beside the master key. -/
structure Keyring where
  current : List Char
  history : List (List Char)

structure Entry where
  timestamp : Option ℕ
  username : Option (List Char)
  action : List Char
  resourceType : Option (List Char)
  resourceId : Option (List Char)
  resourceName : Option (List Char)
  details : Option (List Char)
  ipAddress : Option (List Char)
  userAgent : Option (List Char)
  success : Option Bool

def Entry.row (e : Entry) (id : ℤ) : AuditLog where
  id := id
  timestamp := e.timestamp
  username := e.username
  action := e.action
  resourceType := e.resourceType
  resourceId := e.resourceId
  resourceName := e.resourceName
  details := e.details
  ipAddress := e.ipAddress
  userAgent := e.userAgent
  success := e.success
  prevHash := none
  entryHash := none
  hashVersion := none
  hashKeyId := none
  chainStart := none
  retiredKeys := none

/-- The keys of a history, the current one among them. -/
def knownKeys : Option Keyring → List (List Char)
  | none => []
  | some ring =>
    if ring.current ≠ [] ∧ ring.current ∉ ring.history then ring.history ++ [ring.current]
    else ring.history

/-- `_reconcile_keyring`: the history that the end of the transaction writes. -/
def reconcileKeyring (ring : Option Keyring) (keyId : List Char) (pending : Option Keyring) :
    Option Keyring :=
  if ring.any (·.current = keyId) then pending
  else some ⟨keyId, (knownKeys ring).filter (· ≠ keyId) ++ [keyId]⟩

/-- The id of each key in the rows other than the given one, with each row under it. -/
def otherKeyed (rows : List AuditLog) (keyId : List Char) : List (List Char × ℤ) :=
  rows.filterMap fun log =>
    match log.hashKeyId with
    | some other =>
      if log.hashVersion = some keyedChain ∧ other ≠ keyId then some (other, log.id) else none
    | none => none

/-- The other keys in the ledger, each with the last entry under it. -/
def inLedger (rows : List AuditLog) (keyId : List Char) : List (List Char × ℤ) :=
  let keyed := otherKeyed rows keyId
  (keyed.map Prod.fst).dedup.filterMap fun other =>
    ((keyed.filter (·.1 = other)).map Prod.snd).max?.map (other, ·)

/-- `_rotation`: what the first entry under a key says about the other keys in the ledger. -/
def rotation (ring : Option Keyring) (rows : List AuditLog) (keyId : List Char) :
    Option Rotation :=
  let keys := inLedger rows keyId
  match ring with
  | none => if keys = [] then none else some ⟨false, keys⟩
  | some ring =>
    if ring.current = keyId then none
    else
      let known := keys.filter fun entry => entry.1 ∈ ring.history
      if known = [] then none else some ⟨true, known⟩

/-- The smallest id of the rows that is not below a bound. -/
def minIdFrom (rows : List AuditLog) (bound : ℤ) : Option ℤ :=
  ((rows.map AuditLog.id).filter (bound ≤ ·)).min?

def isUnder (keyId : List Char) (log : AuditLog) : Bool :=
  log.hashVersion = some keyedChain && log.hashKeyId = some keyId

/-- The row that `append_entry` seals and adds to the rows of the transaction. -/
def sealedRow (S : Sealing) (key : Option ℕ) (ring : Option Keyring) (rows : List AuditLog)
    (e : Entry) (id : ℤ) (purgeFrom : Option ℤ) : AuditLog :=
  let previous := (rows.filter (·.id < id)).getLast?
  let prevHash := (previous.bind fun log => given log.entryHash).getD genesis
  let entry := { e.row id with prevHash := some prevHash }
  let table := rows ++ [entry]
  let chainStart := purgeFrom.bind (minIdFrom table)
  match key with
  | none =>
    let entry := { entry with chainStart := chainStart, hashVersion := some sha256Chain }
    { entry with entryHash := some (entry.computeHash S (some prevHash) none) }
  | some k =>
    -- the first entry under its key records where the ledger starts and the other keys in it
    let isFirst := !previous.any (isUnder (S.keyId k))
    let entry := { entry with
      hashVersion := some keyedChain
      hashKeyId := some (S.keyId k)
      chainStart := if isFirst then chainStart.or (table.map AuditLog.id).min? else chainStart
      retiredKeys := if isFirst then
        rotation ring (rows.filter (·.id < id)) (S.keyId k) else none }
    { entry with entryHash := some (entry.computeHash S (some prevHash) (some k)) }

/-! ## Sessions -/

/-- The ledger, the master key and its history, and the transaction of the session that writes:
the rows that it sees and those that each open savepoint goes back to, the innermost first.
History variables: the keys used so far, the rows and the records of the purges. -/
structure Ledger where
  key : Option ℕ
  ring : Option Keyring
  committed : List AuditLog
  rows : List AuditLog
  savepoints : List (List AuditLog)
  pending : Option Keyring
  usedKeys : List ℕ
  purged : List AuditLog
  records : List AuditLog

/-- A purge that is asked for; `stopAfter` says after how many committed batches it is interrupted,
if it is. -/
structure Purge where
  cutoff : ℕ
  retentionDays : ℕ
  now : ℕ
  username : List Char
  ipAddress : Option (List Char)
  userAgent : Option (List Char)
  gap : ℕ
  stopAfter : Option ℕ

/-- A sequence may leave a gap before the id of an entry. -/
inductive Event
  | append (e : Entry) (gap : ℕ)
  | beginNested
  | release
  | rollbackTo
  | commit
  | rollback
  | switchKey (key : ℕ)
  | purge (p : Purge)

def cleanupBatchSize : ℕ := 1000

/-- `_purge_boundary`: the first id to keep. -/
def purgeBoundary (rows : List AuditLog) (cutoff : ℕ) : ℤ :=
  match ((rows.filter fun log => log.timestamp.any (cutoff ≤ ·)).map AuditLog.id).min? with
  | some firstKept => firstKept
  | none => (rows.map AuditLog.id).max?.getD 0 + 1

def batch (rows : List AuditLog) (boundary : ℤ) : List ℤ :=
  ((rows.map AuditLog.id).filter (· < boundary)).take cleanupBatchSize

/-- The loop of the purge, for so many batches at most. -/
def deleteBatches (boundary : ℤ) : ℕ → List AuditLog → List AuditLog
  | 0, rows => rows
  | limit + 1, rows =>
    let ids := batch rows boundary
    if ids = [] then rows
    else
      let rest := rows.filter (·.id ∉ ids)
      if ids.length < cleanupBatchSize then rest else deleteBatches boundary limit rest

/-- The record of a purge of so many entries. -/
def Purge.record (p : Purge) (deleted : ℕ) : Entry where
  timestamp := some p.now
  username := some p.username
  action := "audit_cleanup".toList
  resourceType := some "audit_log".toList
  resourceId := none
  resourceName := none
  details := some ("Deleted ".toList ++ Nat.toDigits 10 deleted ++ " audit logs older than ".toList ++
    Nat.toDigits 10 p.retentionDays ++ " days".toList)
  ipAddress := p.ipAddress
  userAgent := p.userAgent
  success := some true

namespace Ledger

variable (S : Sealing) (s : Ledger)

def nextId (gap : ℕ) : ℤ := (s.rows.map AuditLog.id).max?.getD 0 + 1 + gap

/-- `append_entry`. -/
def append (e : Entry) (gap : ℕ) (purgeFrom : Option ℤ) : Ledger :=
  { s with
    rows := s.rows ++ [sealedRow S s.key s.ring s.rows e (s.nextId gap) purgeFrom]
    pending := match s.key with
      | none => s.pending
      | some k => reconcileKeyring s.ring (S.keyId k) s.pending }

/-- The hook after a commit, which also runs when a savepoint is released. -/
def afterCommit : Ledger := { s with ring := s.pending.or s.ring, pending := none }

/-- The hook after a rollback, which also runs when a savepoint is rolled back. -/
def afterRollback : Ledger := { s with pending := none }

def commit : Ledger := { s with committed := s.rows, savepoints := [] }.afterCommit

def rollback : Ledger := { s with rows := s.committed, savepoints := [] }.afterRollback

/-- `_purge`: the record is committed with the first batch. -/
def purge (p : Purge) : Ledger :=
  let boundary := purgeBoundary s.rows p.cutoff
  let count := (s.rows.filter (·.id < boundary)).length
  if count = 0 then s
  else
    let staged := s.append S (p.record count) p.gap (some boundary)
    if p.stopAfter = some 0 then staged.rollback
    else
      let kept := deleteBatches boundary (p.stopAfter.getD staged.rows.length) staged.rows
      { staged with
        rows := kept
        purged := s.purged ++ staged.rows.filter (· ∉ kept)
        records := s.records ++ staged.rows.getLast?.toList }.commit

/-- A key is never used again once it was replaced. -/
def step : Event → Ledger
  | .append e gap => s.append S e gap none
  | .beginNested => { s with savepoints := s.rows :: s.savepoints }
  | .release =>
    match s.savepoints with
    | [] => s
    | _ :: rest => { s with savepoints := rest }.afterCommit
  | .rollbackTo =>
    match s.savepoints with
    | [] => s
    | saved :: rest => { s with rows := saved, savepoints := rest }.afterRollback
  | .commit => s.commit
  | .rollback => s.rollback
  | .switchKey key =>
    if key ∈ s.usedKeys then s
    else { s with key := some key, usedKeys := key :: s.usedKeys }
  | .purge p => s.purge S p

def init (key : Option ℕ) : Ledger := ⟨key, none, [], [], [], none, key.toList, [], []⟩

end Ledger

end UltimateCaManager.Audit
