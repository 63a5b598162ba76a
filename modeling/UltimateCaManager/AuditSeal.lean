import Mathlib.Data.List.Basic
import Mathlib.Data.Int.Basic

/-!
# Audit entries and their seals

A row of `audit_logs` and `compute_hash`: the SHA-256 seal of a joined text without a key, and the
HMAC seal of a JSON list with one. The functions of the standard library that the seals rest on are
the parameters of a `Sealing`.
-/
namespace UltimateCaManager.Audit

/-- A value of the sealed JSON list. -/
inductive Json
  | null
  | bool (b : Bool)
  | int (n : ℤ)
  | str (text : List Char)

/-- The JSON text of `retired_keys`, read back: the last entry under each of the other keys. -/
structure Rotation where
  attested : Bool
  keys : List (List Char × ℤ)
  deriving DecidableEq

/-- The hashes, the key derivation and the renderings that the seals use. A digest is never the
empty text, and two master keys never share the id that is stored with an entry. -/
structure Sealing where
  sha256 : List Char → List Char
  hmac : ℕ → List Char → List Char
  keyId : ℕ → List Char
  dumps : List Json → List Char
  rotationText : Rotation → List Char
  timestampText : ℕ → List Char
  isoformat : ℕ → List Char
  sha256_ne_nil : ∀ data, sha256 data ≠ []
  hmac_ne_nil : ∀ key message, hmac key message ≠ []
  keyId_injective : Function.Injective keyId

/-- A row of `audit_logs`. -/
@[ext] structure AuditLog where
  id : ℤ
  timestamp : Option ℕ
  username : Option (List Char)
  action : List Char
  resourceType : Option (List Char)
  resourceId : Option (List Char)
  resourceName : Option (List Char)
  details : Option (List Char)
  ipAddress : Option (List Char)
  userAgent : Option (List Char)
  success : Option Bool
  prevHash : Option (List Char)
  entryHash : Option (List Char)
  hashVersion : Option ℤ
  hashKeyId : Option (List Char)
  chainStart : Option ℤ
  retiredKeys : Option Rotation
  deriving DecidableEq

/-- A text column as a condition reads it: the empty text counts as absent. -/
def given (column : Option (List Char)) : Option (List Char) :=
  column.filter (· ≠ [])

@[simp] theorem given_some {text : List Char} (h : text ≠ []) : given (some text) = some text := by
  simp [given, h]

theorem given_eq_some {column : Option (List Char)} {text : List Char} :
    given column = some text ↔ column = some text ∧ text ≠ [] := by
  cases column with
  | none => simp [given]
  | some t =>
    simp [given]

def genesis : List Char := List.replicate 64 '0'

def sha256Chain : ℤ := 1

def keyedChain : ℤ := 2

def intText : ℤ → List Char
  | .ofNat n => Nat.toDigits 10 n
  | .negSucc n => '-' :: Nat.toDigits 10 (n + 1)

def columnText (column : Option (List Char)) : List Char :=
  column.getD ['N', 'o', 'n', 'e']

def successText : Option Bool → List Char
  | some true => ['T', 'r', 'u', 'e']
  | some false => ['F', 'a', 'l', 's', 'e']
  | none => ['N', 'o', 'n', 'e']

def Json.ofText : Option (List Char) → Json
  | some text => .str text
  | none => .null

def Json.ofInt : Option ℤ → Json
  | some n => .int n
  | none => .null

def Json.ofBool : Option Bool → Json
  | some b => .bool b
  | none => .null

namespace AuditLog

variable (S : Sealing) (log : AuditLog)

/-- The texts of the fields that a SHA-256 seal covers, between the id and the previous hash. -/
def fieldTexts : List (List Char) :=
  [columnText (log.timestamp.map S.timestampText), columnText log.username, log.action,
    columnText log.resourceType, columnText log.resourceId, columnText log.details,
    successText log.success]

/-- The joined text of a SHA-256 seal. -/
def data (prevHash : Option (List Char)) : List Char :=
  ['|'].intercalate (intText log.id :: log.fieldTexts S ++ [prevHash.getD []])

/-- The list that an HMAC seal covers. -/
def message (prevHash : Option (List Char)) : List Json :=
  [.str "ucm-audit/2".toList, .ofText log.hashKeyId, .int log.id, .ofInt log.chainStart,
    .ofText (log.retiredKeys.map S.rotationText), .ofText (log.timestamp.map S.isoformat),
    .ofText log.username, .str log.action, .ofText log.resourceType, .ofText log.resourceId,
    .ofText log.resourceName, .ofText log.details, .ofText log.ipAddress, .ofText log.userAgent,
    .ofBool log.success, .str (prevHash.getD [])]

def computeHash (prevHash : Option (List Char)) : Option ℕ → List Char
  | none => S.sha256 (log.data S prevHash)
  | some key => S.hmac key (S.dumps (log.message S prevHash))

theorem computeHash_ne_nil (prevHash : Option (List Char)) (key : Option ℕ) :
    log.computeHash S prevHash key ≠ [] := by
  cases key with
  | none => exact S.sha256_ne_nil _
  | some key => exact S.hmac_ne_nil _ _

def version : ℤ :=
  match log.hashVersion with
  | none => sha256Chain
  | some n => if n = 0 then sha256Chain else n

end AuditLog

/-! ## Transparent seals

Seals that can be read back, on which concrete ledgers are evaluated. -/

/-- A text that can be told from what follows it. -/
def frame (text : List Char) : List Char := text.flatMap (fun c => ['+', c]) ++ ['.']

def tally (n : ℕ) : List Char := List.replicate n '1'

def signedTally : ℤ → List Char
  | .ofNat n => 'p' :: tally n
  | .negSucc n => 'm' :: tally n

def Json.text : Json → List Char
  | .null => ['n']
  | .bool true => ['t']
  | .bool false => ['f']
  | .int n => 'i' :: signedTally n
  | .str text => 's' :: text

def Sealing.transparent : Sealing where
  sha256 data := '#' :: data
  hmac key message := '!' :: frame (tally key) ++ message
  keyId := tally
  dumps values := values.flatMap fun value => frame value.text
  rotationText r := (if r.attested then 't' else 'f') ::
    r.keys.flatMap fun entry => frame (frame entry.1 ++ signedTally entry.2)
  timestampText := tally
  isoformat := tally
  sha256_ne_nil _ := by simp
  hmac_ne_nil _ _ := by simp
  keyId_injective a b h := by simpa [tally] using congrArg List.length h

theorem tally_injective : Function.Injective tally := fun a b h => by
  simpa [tally] using congrArg List.length h

theorem signedTally_injective : Function.Injective signedTally := by
  intro a b h
  cases a <;> cases b <;> simp_all [signedTally, tally_injective.eq_iff]

theorem Json.text_injective : Function.Injective Json.text := by
  intro a b h
  rcases a with _ | (_ | _) | n | t <;> rcases b with _ | (_ | _) | m | u <;>
    simp_all [Json.text, signedTally_injective.eq_iff]

theorem frame_append_inj {a b u v : List Char} (h : frame a ++ u = frame b ++ v) :
    a = b ∧ u = v := by
  induction a generalizing b with
  | nil => cases b <;> simp_all [frame]
  | cons c a ih =>
    cases b with
    | nil => simp_all [frame]
    | cons d b =>
      simp only [frame, List.flatMap_cons, List.cons_append, List.cons.injEq,
        true_and] at h
      obtain ⟨rfl, h⟩ := h
      obtain ⟨rfl, rfl⟩ := ih (by simpa [frame] using h)
      exact ⟨rfl, rfl⟩

/-- A list of values is read back from their framed texts. -/
theorem flatMap_frame_injective {α : Type*} {text : α → List Char} (htext : Function.Injective text) :
    Function.Injective fun values : List α => values.flatMap fun value => frame (text value) := by
  intro a b h
  induction a generalizing b with
  | nil =>
    cases b with
    | nil => rfl
    | cons y b => simp [frame] at h
  | cons x a ih =>
    cases b with
    | nil => simp [frame] at h
    | cons y b =>
      obtain ⟨hxy, hrest⟩ := frame_append_inj h
      rw [htext hxy, ih hrest]

end UltimateCaManager.Audit
