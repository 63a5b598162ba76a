import UltimateCaManager.MasterKey
import Mathlib.Data.List.Forall2

/-!
# Encrypting all values and decrypting them again

A value of a base64 column comes back as the encoding of the bytes it was read as, every other value
as itself; the property of the database layer then takes a text that looks like a token for one.
Hence the two migrations give back every plaintext exactly when those in base64 columns are in the
form that the encoder gives and that of the property does not look like a token.
-/
namespace UltimateCaManager.MasterKey

open Base64

variable {κ : Type} {f : Fernet κ} {w : Wrapping} {k : κ} {iv iv' : Row → ℕ}
  {fails fails' : Row → Bool}

/-- Every value that was in the clear reads as before, character for character. -/
def PlaintextKept (w : Wrapping) (before after : List Row) : Prop :=
  List.Forall₂ (fun b a => b.held w = true → isEncrypted (b.get w) = false → a.get w = b.get w)
    before after

def encryptedRow (f : Fernet κ) (w : Wrapping) (k : κ) (iv : Row → ℕ) (fails : Row → Bool)
    (row : Row) : Except String Row :=
  if fails row then .error "write failed"
  else (encryptMasterKeyValue f (some k) (iv row) (row.get w) row.format).map (row.set w (iv row))

def decryptedRow (f : Fernet κ) (w : Wrapping) (k : κ) (iv : Row → ℕ) (fails : Row → Bool)
    (row : Row) : Except String Row := do
  let plaintext ← decryptMasterKeyValue f (some k) (row.get w) row.format
  if fails row then .error "write failed" else .ok (row.set w (iv row) plaintext)

theorem encryptAllKeys_some (rows : List Row) : encryptAllKeys f w (some k) iv fails false rows =
    migrate w (fun row => isEncrypted (row.get w)) (encryptedRow f w k iv fails) rows := rfl

theorem decryptAllKeys_some (rows : List Row) : decryptAllKeys f w (some k) iv fails false rows =
    let m := migrate w (fun row => !isEncrypted (row.get w)) (decryptedRow f w k iv fails) rows
    if m.errors.isEmpty then m else { m with rows := rows } := rfl

theorem encryptedRow_ok {row row' : Row} (hheld : row.held w = true)
    (hplain : isEncrypted (row.get w) = false) (h : encryptedRow f w k iv fails row = .ok row') :
    ∃ bytes, row.format.payload (row.get w) = some bytes ∧
      row' = row.set w (iv row) (mark (f.encrypt k (iv row) bytes)) := by
  unfold encryptedRow at h
  split at h
  · cases h
  cases hvalue : encryptMasterKeyValue f (some k) (iv row) (row.get w) row.format with
  | error e =>
    rw [hvalue] at h
    cases h
  | ok stored =>
    rw [hvalue] at h
    obtain ⟨bytes, hbytes, rfl⟩ :=
      (encryptMasterKeyValue_plain (Row.held_isEmpty hheld) hplain).mp hvalue
    exact ⟨bytes, hbytes, (Except.ok.inj h).symm⟩

theorem decryptedRow_iff {row row' : Row} : decryptedRow f w k iv fails row = .ok row' ↔
    fails row = false ∧ ∃ plaintext, row' = row.set w (iv row) plaintext ∧
      decryptMasterKeyValue f (some k) (row.get w) row.format = .ok plaintext := by
  unfold decryptedRow
  cases decryptMasterKeyValue f (some k) (row.get w) row.format with
  | error e => simp [bind, Except.bind]
  | ok plaintext => cases fails row <;> simp [bind, Except.bind, eq_comm]

theorem decryptAllKeys_rows {rows : List Row}
    (h : (decryptAllKeys f w (some k) iv fails false rows).errors = []) :
    (decryptAllKeys f w (some k) iv fails false rows).rows = rows.map
        (Row.migrated w (fun row => !isEncrypted (row.get w)) (decryptedRow f w k iv fails)) ∧
      ∀ row ∈ rows, row.held w = true → isEncrypted (row.get w) = true →
        ∃ row', decryptedRow f w k iv fails row = .ok row' := by
  rw [decryptAllKeys_some] at h ⊢
  have herrors : (migrate w (fun row => !isEncrypted (row.get w)) (decryptedRow f w k iv fails)
      rows).errors = [] := by
    dsimp only at h
    split at h
    · exact h
    · exact h
  have hempty : (migrate w (fun row => !isEncrypted (row.get w)) (decryptedRow f w k iv fails)
      rows).errors.isEmpty = true := by rw [herrors]; rfl
  refine ⟨?_, ?_⟩
  · rw [if_pos hempty, migrate_rows]
  · intro row hrow hheld henc
    exact migrate_errors.mp herrors row hrow hheld (by simp [henc])

/-- What has to be said of a plaintext for it to come back: a key in base64 is canonical, and the
value of the property does not look like a token. -/
def Row.Stable (w : Wrapping) (row : Row) : Prop :=
  (row.format = .b64 → Base64.canonical (row.get w) = true) ∧
    ¬(row.isProperty = true ∧ w.cipher = true ∧ isToken (row.get w) = true)
  deriving Decidable

theorem Row.isProperty_format {row : Row} (h : row.isProperty = true) : row.format = .text := by
  rw [Row.isProperty, decide_eq_true_eq] at h
  rw [Row.format, h]
  rfl

/-- A plaintext, encrypted and decrypted, reads as itself exactly when it is stable. -/
theorem row_round_trip {row row' row'' : Row} (hheld : row.held w = true)
    (hplain : isEncrypted (row.get w) = false) (henc : encryptedRow f w k iv fails row = .ok row')
    (hdec : decryptedRow f w k iv' fails' row' = .ok row'') :
    row''.get w = row.get w ↔ row.Stable w := by
  obtain ⟨bytes, hpayload, rfl⟩ := encryptedRow_ok hheld hplain henc
  obtain ⟨opened, hopened, hiff⟩ := plaintext_payload hpayload
  obtain ⟨-, plaintext, rfl, hopen⟩ := decryptedRow_iff.mp hdec
  rw [get_set, kept_mark] at hopen
  obtain ⟨bytes', hbytes', hplaintext⟩ :=
    (decryptMasterKeyValue_marked (mark_isEmpty _) (decode_mark _)).mp hopen
  rw [f.decrypt_encrypt, Option.some.injEq] at hbytes'
  subst hbytes'
  obtain rfl : plaintext = opened := Option.mem_unique hplaintext hopened
  have hkept : (row.set w (iv row) (mark (f.encrypt k (iv row) bytes))).kept w plaintext =
      row.kept w plaintext := rfl
  rw [get_set, hkept, Row.Stable]
  cases hprop : row.isProperty with
  | true =>
    -- the property holds a text, which comes back as itself
    have hformat := Row.isProperty_format hprop
    rw [hformat] at hiff
    obtain rfl : plaintext = row.get w := hiff.mpr rfl
    rw [kept_eq_iff, hprop, hformat]
    simp
  | false =>
    have hsame : row.kept w plaintext = plaintext := by simp [Row.kept, hprop]
    rw [hsame, hiff]
    cases row.format with
    | b64 | text => simp [Format.canonical]

/-- When neither migration reports an error, every plaintext comes back exactly when every plaintext
is stable. -/
theorem plaintext_kept_iff_stable {key : Option κ} {rows : List Row}
    (henc : (encryptAllKeys f w key iv fails false rows).errors = [])
    (hdec : (decryptAllKeys f w key iv' fails' false
      (encryptAllKeys f w key iv fails false rows).rows).errors = []) :
    PlaintextKept w rows (decryptAllKeys f w key iv' fails' false
        (encryptAllKeys f w key iv fails false rows).rows).rows ↔
      ∀ row ∈ rows, row.held w = true → isEncrypted (row.get w) = false → row.Stable w := by
  cases key with
  | none => cases henc
  | some k =>
    rw [encryptAllKeys_some] at henc hdec ⊢
    obtain ⟨hrows, hopens⟩ := decryptAllKeys_rows hdec
    rw [hrows, migrate_rows, PlaintextKept, List.forall₂_map_right_iff, List.forall₂_map_right_iff,
      List.forall₂_same]
    rw [migrate_rows] at hopens
    refine forall₂_congr fun row hrow => forall₂_congr fun hheld hplain => ?_
    obtain ⟨row', hrow'⟩ := migrate_errors.mp henc row hrow hheld hplain
    have hfirst : row.migrated w (fun row => isEncrypted (row.get w))
        (encryptedRow f w k iv fails) = row' := migrated_of_ok hheld hplain hrow'
    obtain ⟨bytes, -, hmark⟩ := encryptedRow_ok hheld hplain hrow'
    have hheld' : row'.held w = true := by
      rw [hmark]
      exact held_set hheld (by rw [kept_mark]; exact mark_isEmpty _)
    have henc' : isEncrypted (row'.get w) = true := by
      rw [hmark, get_set, kept_mark]
      exact isEncrypted_mark _
    obtain ⟨row'', hrow''⟩ := hopens row' (List.mem_map.mpr ⟨row, hrow, hfirst⟩) hheld' henc'
    rw [hfirst, migrated_of_ok hheld' (by simp [henc']) hrow'']
    exact row_round_trip hheld hplain hrow' hrow''

/-- The key of a byte, in front of what it seals. -/
def Fernet.transparent : Fernet UInt8 where
  encrypt k _ bytes := k :: bytes
  decrypt k token :=
    match token with
    | [] => none
    | k' :: bytes => if k' = k then some bytes else none
  decrypt_encrypt := by simp
  one_key := by
    intro k k' token bytes bytes' h h'
    cases token with
    | nil => cases h
    | cons head rest =>
      have hk : head = k := by
        by_contra hne
        simp [hne] at h
      have hk' : head = k' := by
        by_contra hne
        simp [hne] at h'
      rw [← hk, hk']

def look : Text := "gAAAAA".toList ++ List.replicate 50 '-'

theorem look_length : look.length = 56 := rfl

/-- A database layer that puts the look of a token in front of the text. -/
def Wrapping.transparent : Wrapping where
  cipher := true
  encryptValue _ text := look ++ text
  decryptValue token := if look.isPrefixOf token then some (token.drop look.length) else none
  decrypt_encrypt n text := by
    rw [if_pos (List.isPrefixOf_iff_prefix.mpr (List.prefix_append _ _)), List.drop_left]
  isToken_encrypt n text := by
    rw [isToken, Bool.and_eq_true, decide_eq_true_eq, List.length_append, look_length]
    exact ⟨rfl, by omega⟩
  shorter := by
    intro token text h
    split at h
    next hlook =>
      obtain rfl : token.drop look.length = text := Option.some.inj h
      have hlength := (List.isPrefixOf_iff_prefix.mp hlook).length_le
      rw [List.length_drop]
      rw [look_length] at hlength ⊢
      omega
    next => cases h

/-- The key of a CA, and the password of a directory as its column holds it. -/
def storedKeys (key password : String) : List Row :=
  [⟨.column .caPrv, "CA root", key.toList⟩,
    ⟨.column .ssoProviderLdapBindPassword, "SSOProvider 1", password.toList⟩]

/-- What the two migrations leave, and the errors of the first. -/
def migrations (rows : List Row) : List String × Migration :=
  let m := encryptAllKeys .transparent .transparent (some (7 : UInt8)) (fun _ => 0) (fun _ => false)
    false rows
  (m.errors, decryptAllKeys .transparent .transparent (some (7 : UInt8)) (fun _ => 0)
    (fun _ => false) false m.rows)

theorem stable_values_come_back :
    PlaintextKept .transparent (storedKeys "QUJD" "secret")
      (migrations (storedKeys "QUJD" "secret")).2.rows :=
  (plaintext_kept_iff_stable (by decide) (by decide)).mpr (by decide)

/-- The line break at the end of a file is lost. -/
theorem line_break_lost :
    (migrations (storedKeys "QUJD\n" "")).1 = [] ∧
      (migrations (storedKeys "QUJD\n" "")).2 = ⟨storedKeys "QUJD" "", 1, 0, []⟩ := by
  decide

end UltimateCaManager.MasterKey
