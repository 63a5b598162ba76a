import UltimateCaManager.AuditSeal

/-!
# The verification pass

`_Walk` fed one entry at a time and `verify_chain` over it. Errors are kept up to a cap and counted
beyond it, as the source does.
-/
namespace UltimateCaManager.Audit

inductive ErrorKind
  | link (expected actual : Option (List Char))
  | recomputed (expected actual : List Char)
  | tampered
  | unknownVersion (version : ℤ)
  | notSealedByKey
  | unattestedKey
  | truncated
  | beforeStart

namespace ErrorKind

def code : ErrorKind → String
  | link _ _ => "link"
  | recomputed _ _ | tampered => "tampered"
  | unknownVersion _ => "unknown_version"
  | notSealedByKey => "not_sealed_by_key"
  | unattestedKey => "unattested_key"
  | truncated => "truncated"
  | beforeStart => "before_start"

def message (id : ℤ) : ErrorKind → String
  | link _ _ => "prev_hash mismatch"
  | recomputed _ _ | tampered => "entry_hash mismatch (tampered)"
  | unknownVersion version => "unknown hash version " ++ toString version
  | notSealedByKey => "entry not sealed by the master key"
  | unattestedKey => "entry under a key no rotation of the current key attests"
  | truncated => "entries before #" ++ toString id ++ " were removed outside a purge"
  | beforeStart => "entry #" ++ toString id ++ " precedes where the ledger started"

end ErrorKind

structure ChainError where
  id : ℤ
  kind : ErrorKind

def errorListCap : ℕ := 1000

/-- The entries under one of the other keys, before the first one under the current key. -/
structure Span where
  keyId : Option (List Char)
  first : ℤ
  last : ℤ

structure First where
  id : ℤ
  hashVersion : Option ℤ
  prevHash : List Char

structure Walk where
  errors : List ChainError
  errorCount : ℕ
  firstError : Option ChainError
  unsealed : List ℤ
  checked : ℕ
  first : Option First
  prevHash : Option (List Char)
  firstKeyed : Option ℤ
  rotation : List (List Char × ℤ)
  rotationAttested : Bool
  errorsAtFirstKeyed : ℕ
  runStart : Option ℤ
  runIndex : ℕ
  protectedFrom : Option ℤ
  notAttested : ℕ
  retired : List Span
  retiredCount : ℕ
  keyedStart : Option ℤ
  keyedMinStart : Option ℤ
  anyStart : Option ℤ

/-- What the seal of an entry was found to be. -/
inductive Seal
  | keyed
  | recomputable
  | other
  deriving DecidableEq

/-- The extremum so far, zero read as none. -/
def extremum (pick : ℤ → ℤ → ℤ) (bound : Option ℤ) (start : ℤ) : ℤ :=
  pick ((bound.filter (· ≠ 0)).getD start) start

/-- A span of the key is extended, or a new one is opened. -/
def noteRetired (keyId : Option (List Char)) (id : ℤ) : List Span → List Span
  | [] => [⟨keyId, id, id⟩]
  | span :: spans =>
    if span.keyId = keyId then { span with last := id } :: spans
    else span :: noteRetired keyId id spans

namespace Walk

def init : Walk where
  errors := []
  errorCount := 0
  firstError := none
  unsealed := []
  checked := 0
  first := none
  prevHash := none
  firstKeyed := none
  rotation := []
  rotationAttested := false
  errorsAtFirstKeyed := 0
  runStart := none
  runIndex := 0
  protectedFrom := none
  notAttested := 0
  retired := []
  retiredCount := 0
  keyedStart := none
  keyedMinStart := none
  anyStart := none

def error (w : Walk) (id : ℤ) (kind : ErrorKind) : Walk :=
  { w with
    errorCount := w.errorCount + 1
    firstError :=
      if w.firstError.all (id < ·.id) then some ⟨id, kind⟩ else w.firstError
    errors := if w.errors.length < errorListCap then w.errors ++ [⟨id, kind⟩] else w.errors }

variable (S : Sealing) (key : Option ℕ) (w : Walk) (log : AuditLog)

/-- The entry is counted; the first one says what it is linked to. -/
def enter : Walk :=
  let previous := (given log.prevHash).getD genesis
  { w with
    checked := w.checked + 1
    first := some (w.first.getD ⟨log.id, log.hashVersion, previous⟩)
    prevHash := if w.first.isNone then some previous else w.prevHash }

def skip : Walk :=
  let w := { w with unsealed := w.unsealed ++ [log.id], prevHash := some genesis }
  let w := if w.firstKeyed.isSome then w.error log.id .notSealedByKey else w
  { w with runStart := none }

def checkLink : Walk :=
  match given log.prevHash with
  | some prevHash =>
    if some prevHash ≠ w.prevHash then w.error log.id (.link w.prevHash log.prevHash) else w
  | none => w

def checkSeal (entryHash : List Char) : Walk × Seal :=
  if log.version = sha256Chain then
    let computed := log.computeHash S log.prevHash none
    if computed = entryHash then (w, .recomputable)
    else (w.error log.id (.recomputed computed entryHash), .other)
  else if log.version = keyedChain then
    match key with
    | some k =>
      if log.hashKeyId = some (S.keyId k) then
        if log.computeHash S log.prevHash key = entryHash then (w, .keyed)
        else (w.error log.id .tampered, .other)
      else
        ({ w with
            retiredCount := w.retiredCount + 1
            retired := if w.firstKeyed.isNone then noteRetired log.hashKeyId log.id w.retired
              else w.retired }, .other)
    | none => ({ w with retiredCount := w.retiredCount + 1 }, .other)
  else (w.error log.id (.unknownVersion log.version), .other)

/-- Where a record says that the ledger starts, if the record itself passed. -/
def noteStart (errorsBefore : ℕ) (found : Seal) : Walk :=
  match log.chainStart with
  | none => w
  | some start =>
    if w.errorCount ≠ errorsBefore then w
    else
      let w := { w with anyStart := some (extremum max w.anyStart start) }
      if found = .keyed then
        { w with
          keyedStart := some (extremum max w.keyedStart start)
          keyedMinStart := some (extremum min w.keyedMinStart start) }
      else w

/-- The first entry under the key takes over, with the recomputable entries just before it. -/
def takeOver (index : ℕ) : Walk :=
  let runStart := w.runStart.getD log.id
  let runIndex := if w.runStart.isNone then index else w.runIndex
  { w with
    firstKeyed := some log.id
    runStart := some runStart
    runIndex := runIndex
    protectedFrom := some runStart
    notAttested := runIndex
    rotation := (log.retiredKeys.map Rotation.keys).getD []
    rotationAttested := (log.retiredKeys.map Rotation.attested).getD false
    errorsAtFirstKeyed := w.errorCount }

def settle (index errorsBefore : ℕ) (found : Seal) : Walk :=
  if w.firstKeyed.isSome then
    if found ≠ .keyed ∧ w.errorCount = errorsBefore then w.error log.id .notSealedByKey else w
  else match found with
    | .keyed => w.takeOver log index
    | .recomputable =>
      if w.runStart.isNone then { w with runStart := some log.id, runIndex := index } else w
    | .other => { w with runStart := none }

def feed : Walk :=
  let entered := w.enter log
  match given log.entryHash with
  | none => entered.skip log
  | some entryHash =>
    let (checked, found) := (entered.checkLink log).checkSeal S key log entryHash
    let linked := { checked with prevHash := some entryHash }
    (linked.noteStart log w.errorCount found).settle log w.checked w.errorCount found

/-- The first entry under the key after the last one that the rotation attests. -/
def offender (table : List AuditLog) (upperId : Option ℤ) (span : Span) : Option ℤ → ℤ
  | none => span.first
  | some limit =>
    (((table.filter fun log => log.hashKeyId = span.keyId ∧ limit < log.id ∧
      upperId.any (log.id ≤ ·)).map AuditLog.id).min?).getD span.first

def limitOf (span : Span) : Option ℤ :=
  span.keyId.bind fun keyId => List.lookup keyId w.rotation

/-- `_check_retired`: entries under another key pass only up to the last id that is attested. -/
def checkRetired (table : List AuditLog) (upperId : Option ℤ) : Walk :=
  w.retired.foldl (fun w' span =>
    if (w.limitOf span).any (span.last ≤ ·) then w'
    else w'.error (offender table upperId span (w.limitOf span)) .unattestedKey) w

/-- `_check_chain_start`: the first entry is where the ledger began, or where a sealed record says
that it now begins. -/
def checkChainStart (first : First) : Walk :=
  match w.firstKeyed with
  | some firstKeyed =>
    match w.keyedStart with
    | none => if w.errorCount = 0 then w.error first.id .truncated else w
    | some start =>
      if start < first.id then w.error first.id .truncated
      else if w.keyedMinStart.any (first.id < ·) ∧ first.id ≠ firstKeyed then
        w.error first.id .beforeStart
      else w
  | none =>
    match w.anyStart with
    | some start => if start < first.id then w.error first.id .truncated else w
    | none =>
      if first.hashVersion = some keyedChain ∧ first.prevHash ≠ genesis then
        w.error first.id .truncated
      else w

/-- The checks of `finish` that may add errors. -/
def conclude (table : List AuditLog) (wholeTable : Bool) (upperId : Option ℤ) : Walk :=
  let w :=
    if key.isSome ∧ w.firstKeyed.isSome ∧ w.errorsAtFirstKeyed = 0 then
      w.checkRetired table upperId else w
  match w.first with
  | some first => if wholeTable then w.checkChainStart first else w
  | none => w

end Walk

inductive Status
  | broken | unprotected | intact
  deriving DecidableEq

structure Protection where
  keyAvailable : Bool
  protectedCount : ℕ
  protectedFromId : Option ℤ
  notAttested : ℕ
  retiredKey : ℕ
  keyRotationId : Option ℤ
  rotationAttested : Option Bool

structure Report where
  valid : Bool
  status : Status
  firstErrorId : Option ℤ
  firstErrorCode : Option String
  checked : ℕ
  attested : ℕ
  unsealed : List ℤ
  errorCount : ℕ
  errors : List ChainError
  protection : Protection

def Walk.status (w : Walk) (key : Option ℕ) : Status :=
  if w.errorCount ≠ 0 then .broken
  else if key.isNone ∨ (w.checked ≠ 0 ∧ w.firstKeyed.isNone) ∨
      (w.retired ≠ [] ∧ w.rotationAttested = false) then .unprotected
  else .intact

def Walk.finish (key : Option ℕ) (table : List AuditLog) (wholeTable : Bool) (upperId : Option ℤ)
    (walk : Walk) : Report :=
  let w := walk.conclude key table wholeTable upperId
  let intactFrom := if w.firstKeyed.isSome then w.protectedFrom else none
  let notAttested := if intactFrom.isSome then w.notAttested else w.checked
  { valid := w.errorCount = 0
    status := w.status key
    firstErrorId := w.firstError.map ChainError.id
    firstErrorCode := w.firstError.map fun e => e.kind.code
    checked := w.checked
    attested := w.checked - w.unsealed.length
    unsealed := w.unsealed
    errorCount := w.errorCount
    errors := w.errors.mergeSort fun a b => a.id ≤ b.id
    protection :=
      { keyAvailable := key.isSome
        protectedCount := w.checked - notAttested
        protectedFromId := intactFrom
        notAttested := notAttested
        retiredKey := w.retiredCount
        keyRotationId := if w.rotation ≠ [] then w.firstKeyed else none
        rotationAttested := if w.rotation ≠ [] then some w.rotationAttested else none } }

/-- The pass over entries in ascending order of their ids. -/
def walk (S : Sealing) (key : Option ℕ) (logs : List AuditLog) : Walk :=
  logs.foldl (Walk.feed S key) Walk.init

def verifyChain (S : Sealing) (key : Option ℕ) (table logs : List AuditLog) (wholeTable : Bool) :
    Report :=
  (walk S key logs).finish key table wholeTable (logs.getLast?.map AuditLog.id)

/-- The rows of a table, in ascending order, between two ids; a missing bound or zero is none. -/
def range (table : List AuditLog) (startId endId : Option ℤ) : List AuditLog :=
  table.filter fun log => (startId.filter (· ≠ 0)).all (· ≤ log.id) &&
    (endId.filter (· ≠ 0)).all (log.id ≤ ·)

def verifyIntegrity (S : Sealing) (key : Option ℕ) (table : List AuditLog)
    (startId endId : Option ℤ) : Report :=
  verifyChain S key table (range table startId endId) (startId.isNone && endId.isNone)

end UltimateCaManager.Audit
