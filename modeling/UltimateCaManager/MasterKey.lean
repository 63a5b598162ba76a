import UltimateCaManager.Base64

/-!
# Values under the master key

Private keys and secrets are stored as texts: in the clear, or as the base64 of a marker and a
Fernet token. Columns of base64 key material keep the decoded bytes in the token, the others the
text itself. One column lies under a second Fernet of the database, which its property takes off and
puts on, and which it tells by the look of the text. The two migrations go over every value and
report those that fail.
-/
namespace UltimateCaManager.MasterKey

open List Base64

/-- Fernet under keys `κ`. A token is sealed with fresh randomness, opens to what was sealed, and
opens under one key only. -/
structure Fernet (κ : Type) where
  encrypt : κ → ℕ → List UInt8 → List UInt8
  decrypt : κ → List UInt8 → Option (List UInt8)
  decrypt_encrypt : ∀ k iv bytes, decrypt k (encrypt k iv bytes) = some bytes
  one_key : ∀ {k k' token bytes bytes'}, decrypt k token = some bytes →
    decrypt k' token = some bytes' → k = k'

attribute [simp] Fernet.decrypt_encrypt

abbrev Text := List Char

inductive Format
  | b64
  | text
  deriving DecidableEq

/-- `MASTER_KEY_COLUMNS`. -/
inductive Column
  | caPrv
  | certificatePrv
  | sshCertificateAuthorityPrivateKey
  | deployTargetPrivateKey
  | acmeClientAccountAccountKey
  | acmeClientAccountEabHmacKey
  | scepProfileChallengePassword
  | ssoProviderLdapBindPassword
  deriving DecidableEq

def Column.format : Column → Format
  | .caPrv => .b64
  | .certificatePrv => .b64
  | .sshCertificateAuthorityPrivateKey => .b64
  | .deployTargetPrivateKey => .text
  | .acmeClientAccountAccountKey => .text
  | .acmeClientAccountEabHmacKey => .text
  | .scepProfileChallengePassword => .text
  | .ssoProviderLdapBindPassword => .text

/-- `MASTER_KEY_CONFIG_KEYS`. -/
def configPatterns : List Text :=
  ["acme.client.eab_hmac_key".toList, "acme.proxy.eab_hmac_key".toList,
    "acme.account.*.private_key".toList, "acme.client.*.account_key".toList,
    "acme.proxy.account_key".toList]

/-- `fnmatchcase` for patterns whose only wildcard is the star. -/
def fnmatch : Text → Text → Bool
  | [], text => text.isEmpty
  | '*' :: pattern, text => text.tails.any fun rest => fnmatch pattern rest
  | _ :: _, [] => false
  | p :: pattern, c :: text => p = c && fnmatch pattern text

inductive Slot
  | column (c : Column)
  | config (key : Text)
  deriving DecidableEq

/-! ## The layer of the database -/

/-- `utils.encryption.is_encrypted`: the text looks like a Fernet token. -/
def isToken (text : Text) : Bool := "gAAAAA".toList.isPrefixOf text && 50 < text.length

/-- The Fernet of the database, if its key can be read. A token is longer than what it seals. -/
structure Wrapping where
  cipher : Bool
  encryptValue : ℕ → Text → Text
  decryptValue : Text → Option Text
  decrypt_encrypt : ∀ n text, decryptValue (encryptValue n text) = some text
  isToken_encrypt : ∀ n text, isToken (encryptValue n text) = true
  shorter : ∀ {token text}, decryptValue token = some text → text.length < token.length

def Wrapping.encryptIfNeeded (w : Wrapping) (n : ℕ) (text : Text) : Text :=
  if text.isEmpty || isToken text then text else w.encryptValue n text

def Wrapping.decryptIfNeeded (w : Wrapping) (text : Text) : Option Text :=
  if text.isEmpty || !isToken text then some text else w.decryptValue text

/-- A stored value, in the order in which `master_key_values` meets them; the empty text is a value
that is not there. -/
structure Row where
  slot : Slot
  label : String
  value : Text
  deriving DecidableEq

/-- The attribute of the model is a property over the column. -/
def Row.isProperty (row : Row) : Bool := row.slot = .column .ssoProviderLdapBindPassword

/-- `getattr`. -/
def Row.get (w : Wrapping) (row : Row) : Text :=
  if row.isProperty && w.cipher then (w.decryptIfNeeded row.value).getD [] else row.value

/-- `setattr`. -/
def Row.set (w : Wrapping) (n : ℕ) (row : Row) (text : Text) : Row :=
  { row with value := if row.isProperty && w.cipher then w.encryptIfNeeded n text else text }

def Row.format (row : Row) : Format :=
  match row.slot with
  | .column c => c.format
  | .config _ => .text

/-- Whether `master_key_values` yields the value. -/
def Row.held (w : Wrapping) (row : Row) : Bool :=
  !(row.get w).isEmpty &&
    match row.slot with
    | .column _ => true
    | .config key => configPatterns.any fun pattern => fnmatch pattern key

/-! ## One value -/

/-- `ENCRYPTED_MARKER`. -/
def marker : List UInt8 := [69, 78, 67, 58]

def isEncrypted (data : Text) : Bool :=
  !data.isEmpty && (decode data).any fun decoded => marker.isPrefixOf decoded

/-- `str.encode`. -/
def utf8 (text : Text) : List UInt8 := text.flatMap String.utf8EncodeChar

/-- `bytes.decode`. -/
def utf8Decode (bytes : List UInt8) : Option Text :=
  bytes.toByteArray.utf8Decode?.map Array.toList

@[simp] theorem utf8Decode_utf8 (text : Text) : utf8Decode (utf8 text) = some text := by
  have hbytes : (utf8 text).toByteArray = text.utf8Encode := rfl
  rw [utf8Decode, hbytes, utf8Decode?_utf8Encode]
  rfl

section Values

variable {κ : Type} (f : Fernet κ)

def mark (token : List UInt8) : Text := encode (marker ++ token)

/-- The message with which `b64decode` refuses a text. -/
def decodeMessage (text : Text) : String :=
  let symbols := text.countP fun c => (value? c).isSome
  if text.any fun c => 128 ≤ c.toNat then "string argument should contain only ASCII characters"
  else if symbols % 4 = 1 then "Invalid base64-encoded string: number of data characters (" ++
    toString symbols ++ ") cannot be 1 more than a multiple of 4"
  else "Incorrect padding"

def encrypt (key : Option κ) (iv : ℕ) (data : Text) : Except String Text :=
  match key with
  | none => .ok data
  | some k =>
    if data.isEmpty then .ok data
    else if isEncrypted data then .ok data
    else match decode data with
      | none => .error ("Failed to encrypt private key data: " ++ decodeMessage data)
      | some raw => .ok (mark (f.encrypt k iv raw))

def decrypt (key : Option κ) (data : Text) : Except String Text :=
  if data.isEmpty then .ok data
  else match decode data with
    | none => .ok data
    | some decoded =>
      if !marker.isPrefixOf decoded then .ok data
      else match key with
        | none => .error "Encryption key not configured"
        | some k =>
          match f.decrypt k (decoded.drop marker.length) with
          | none => .error "Failed to decrypt private key - wrong encryption key"
          | some bytes => .ok (encode bytes)

def encryptString (key : Option κ) (iv : ℕ) (plaintext : Text) : Text :=
  match key with
  | none => plaintext
  | some k => if plaintext.isEmpty then plaintext else mark (f.encrypt k iv (utf8 plaintext))

def encryptMasterKeyValue (key : Option κ) (iv : ℕ) (value : Text) : Format → Except String Text
  | .b64 => encrypt f key iv value
  | .text =>
    let encrypted := encryptString f key iv value
    if isEncrypted encrypted then .ok encrypted else .error "Encryption failed"

def decryptMasterKeyValue (key : Option κ) (value : Text) : Format → Except String Text
  | .b64 => decrypt f key value
  | .text =>
    match key with
    | none => .error "Encryption key not configured"
    | some k =>
      match decode value with
      | none => .error (decodeMessage value)
      | some decoded =>
        match f.decrypt k (decoded.drop marker.length) with
        | none => .error "Failed to decrypt - wrong encryption key"
        | some bytes =>
          match utf8Decode bytes with
          | none => .error "invalid start byte"
          | some text => .ok text

end Values

/-! ## The migrations -/

/-- The rows as they are after the loop, and the numbers and errors it returns. -/
structure Migration where
  rows : List Row
  migrated : ℕ
  skipped : ℕ
  errors : List String
  deriving DecidableEq

/-- The loop over `master_key_values`; a row that fails stays as it was. -/
def migrate (w : Wrapping) (skip : Row → Bool) (change : Row → Except String Row) :
    List Row → Migration
  | [] => ⟨[], 0, 0, []⟩
  | row :: rows =>
    let m := migrate w skip change rows
    if !row.held w then { m with rows := row :: m.rows }
    else if skip row then { m with rows := row :: m.rows, skipped := m.skipped + 1 }
    else match change row with
      | .ok row' => { m with rows := row' :: m.rows, migrated := m.migrated + 1 }
      | .error e => { m with rows := row :: m.rows, errors := (row.label ++ ": " ++ e) :: m.errors }

/-- Neither migration runs without a key. -/
def notEnabled (rows : List Row) : Migration := ⟨rows, 0, 0, ["Encryption not enabled"]⟩

section Migrations

variable {κ : Type} (f : Fernet κ) (w : Wrapping) (key : Option κ)

/-- `encrypt_all_keys`; `iv` is the randomness of each row, `fails` the rows whose write raises. -/
def encryptAllKeys (iv : Row → ℕ) (fails : Row → Bool) (dryRun : Bool) (rows : List Row) :
    Migration :=
  if key.isNone then notEnabled rows
  else migrate w (fun row => isEncrypted (row.get w))
    (fun row =>
      if dryRun then .ok row
      else if fails row then .error "write failed"
      else (encryptMasterKeyValue f key (iv row) (row.get w) row.format).map (row.set w (iv row)))
    rows

/-- `decrypt_all_keys`: one error and nothing is written. -/
def decryptAllKeys (iv : Row → ℕ) (fails : Row → Bool) (dryRun : Bool) (rows : List Row) :
    Migration :=
  if key.isNone then notEnabled rows
  else
    let m := migrate w (fun row => !isEncrypted (row.get w))
      (fun row => do
        let plaintext ← decryptMasterKeyValue f key (row.get w) row.format
        if dryRun then .ok row
        else if fails row then .error "write failed"
        else .ok (row.set w (iv row) plaintext)) rows
    if m.errors.isEmpty then m else { m with rows := rows }

end Migrations

/-! ## What a value holds -/

/-- The bytes that a plaintext is sealed as. -/
def Format.payload : Format → Text → Option (List UInt8)
  | .b64, value => decode value
  | .text, value => some (utf8 value)

/-- The plaintext that sealed bytes stand for. -/
def Format.plaintext : Format → List UInt8 → Option Text
  | .b64, bytes => some (encode bytes)
  | .text, bytes => utf8Decode bytes

/-- A text that gives itself back from its bytes. -/
def Format.canonical : Format → Text → Bool
  | .b64, value => Base64.canonical value
  | .text, _ => true

section Lemmas

variable {κ : Type} {f : Fernet κ} {k : κ} {value : Text} {fmt : Format}

@[simp] theorem decode_mark (token : List UInt8) : decode (mark token) = some (marker ++ token) :=
  decode_encode _

theorem mark_isEmpty (token : List UInt8) : (mark token).isEmpty = false := by
  cases token with
  | nil => decide
  | cons byte rest => rfl

@[simp] theorem isEncrypted_mark (token : List UInt8) : isEncrypted (mark token) = true := by
  have hpre : marker.isPrefixOf (marker ++ token) = true := by
    rw [ isPrefixOf_iff_prefix]
    exact prefix_append _ _
  simp [isEncrypted, mark_isEmpty]

theorem isEncrypted_iff : isEncrypted value = true ↔
    value.isEmpty = false ∧ ∃ token, decode value = some (marker ++ token) := by
  simp only [isEncrypted, Bool.and_eq_true, Bool.not_eq_true', Option.any_eq_true]
  constructor
  · rintro ⟨hne, decoded, hdecoded, hpre⟩
    obtain ⟨token, rfl⟩ := isPrefixOf_iff_prefix.mp hpre
    exact ⟨hne, token, hdecoded⟩
  · rintro ⟨hne, token, hdecoded⟩
    exact ⟨hne, _, hdecoded, isPrefixOf_iff_prefix.mpr (prefix_append _ _)⟩

theorem encryptMasterKeyValue_plain {iv : ℕ} {stored : Text} (hne : value.isEmpty = false)
    (hplain : isEncrypted value = false) :
    encryptMasterKeyValue f (some k) iv value fmt = .ok stored ↔
      ∃ bytes, fmt.payload value = some bytes ∧ stored = mark (f.encrypt k iv bytes) := by
  cases fmt with
  | b64 =>
    cases hdecode : decode value with
    | none => simp [encryptMasterKeyValue, encrypt, Format.payload, hne, hplain, hdecode]
    | some raw =>
      simp [encryptMasterKeyValue, encrypt, Format.payload, hne, hplain, hdecode, eq_comm]
  | text => simp [encryptMasterKeyValue, encryptString, Format.payload, hne, eq_comm]

/-- An encrypted value opens to the plaintext of the bytes in its token. -/
theorem decryptMasterKeyValue_marked {token : List UInt8} {opened : Text}
    (hne : value.isEmpty = false) (hdecode : decode value = some (marker ++ token)) :
    decryptMasterKeyValue f (some k) value fmt = .ok opened ↔
      ∃ bytes, f.decrypt k token = some bytes ∧ fmt.plaintext bytes = some opened := by
  have hpre : marker.isPrefixOf (marker ++ token) = true :=
    isPrefixOf_iff_prefix.mpr (prefix_append _ _)
  have hdrop : (marker ++ token).drop marker.length = token := drop_left
  cases fmt with
  | b64 =>
    simp only [decryptMasterKeyValue, decrypt, hne, hdecode, hpre, hdrop, Format.plaintext]
    cases f.decrypt k token <;> simp
  | text =>
    simp only [decryptMasterKeyValue, hdecode, hdrop, Format.plaintext]
    cases f.decrypt k token with
    | none => simp
    | some bytes => cases hutf8 : utf8Decode bytes <;> simp [hutf8]

/-- The payload of a text gives it back exactly when the text is in its canonical form. -/
theorem plaintext_payload {bytes : List UInt8} (h : fmt.payload value = some bytes) :
    ∃ opened, fmt.plaintext bytes = some opened ∧
      (opened = value ↔ fmt.canonical value = true) := by
  cases fmt with
  | b64 => exact ⟨encode bytes, rfl, encode_eq_iff h⟩
  | text =>
    obtain rfl : utf8 value = bytes := Option.some.inj h
    exact ⟨value, utf8Decode_utf8 value, by simp [Format.canonical]⟩

end Lemmas

/-! ## The property over its column -/

/-- What is read after a text was written: a text that looks like a token is taken for one. -/
def Row.kept (w : Wrapping) (row : Row) (text : Text) : Text :=
  if row.isProperty && w.cipher && isToken text then (w.decryptValue text).getD [] else text

section Property

variable {w : Wrapping} {row : Row} {text : Text}

theorem isEmpty_of_isToken (h : isToken text = true) : text.isEmpty = false := by
  cases text with
  | nil => cases h
  | cons => rfl

@[simp] theorem isToken_mark (token : List UInt8) : isToken (mark token) = false := by
  have hhead : (mark token).head? = some 'R' := rfl
  unfold isToken
  cases hmark : mark token with
  | nil => rfl
  | cons c rest =>
    rw [hmark] at hhead
    cases hhead
    rfl

@[simp] theorem kept_mark (token : List UInt8) : row.kept w (mark token) = mark token := by
  simp [Row.kept]

@[simp] theorem get_set (n : ℕ) : (row.set w n text).get w = row.kept w text := by
  have hsame : (row.set w n text).isProperty = row.isProperty := rfl
  unfold Row.get Row.kept
  rw [hsame]
  by_cases hprop : (row.isProperty && w.cipher) = true
  · simp only [hprop, Row.set, if_true, Bool.true_and, Wrapping.encryptIfNeeded,
      Wrapping.decryptIfNeeded]
    by_cases htoken : isToken text = true
    · simp [htoken, isEmpty_of_isToken htoken]
    · by_cases hempty : text.isEmpty = true
      · simp [htoken, hempty]
      · simp [htoken, hempty, w.isToken_encrypt, isEmpty_of_isToken (w.isToken_encrypt n text),
          w.decrypt_encrypt]
  · simp [hprop, Row.set]

/-- A text is read as it was written unless it looks like a token of the database. -/
theorem kept_eq_iff : row.kept w text = text ↔
    ¬(row.isProperty = true ∧ w.cipher = true ∧ isToken text = true) := by
  unfold Row.kept
  split
  next h =>
    simp only [Bool.and_eq_true, and_assoc] at h
    refine iff_of_false (fun heq => ?_) (not_not.mpr h)
    cases hopen : w.decryptValue text with
    | none =>
      rw [hopen] at heq
      rw [← heq] at h
      exact absurd h.2.2 (by decide)
    | some inner =>
      rw [hopen] at heq
      obtain rfl : inner = text := heq
      exact absurd (w.shorter hopen) (Nat.lt_irrefl _)
  next h => exact iff_of_true rfl (by simpa [and_assoc] using h)

end Property

/-! ## What a migration does to each row -/

def Row.migrated (w : Wrapping) (skip : Row → Bool) (change : Row → Except String Row) (row : Row) :
    Row :=
  if row.held w && !skip row then
    match change row with
    | .ok row' => row'
    | .error _ => row
  else row

section Loop

variable {w : Wrapping} {skip : Row → Bool} {change : Row → Except String Row} {rows : List Row}
  {row row' : Row} {n : ℕ} {text : Text}

theorem migrate_rows :
    (migrate w skip change rows).rows = rows.map (Row.migrated w skip change) := by
  induction rows with
  | nil => rfl
  | cons row rows ih =>
    rw [migrate, map_cons, ← ih, Row.migrated]
    by_cases hheld : row.held w
    · by_cases hskip : skip row
      · simp [hheld, hskip]
      · cases change row <;> simp [hheld, hskip]
    · simp [hheld]

/-- There is no error exactly when every row that is not skipped can be changed. -/
theorem migrate_errors : (migrate w skip change rows).errors = [] ↔
    ∀ row ∈ rows, row.held w = true → skip row = false → ∃ row', change row = .ok row' := by
  induction rows with
  | nil => simp [migrate]
  | cons row rows ih =>
    rw [migrate, forall_mem_cons, ← ih]
    by_cases hheld : row.held w
    · by_cases hskip : skip row
      · simp [hheld, hskip]
      · cases change row <;> simp [hheld, hskip]
    · simp [hheld]

theorem migrated_of_not_held (h : row.held w = false) : row.migrated w skip change = row := by
  simp [Row.migrated, h]

theorem migrated_of_skip (h : skip row = true) : row.migrated w skip change = row := by
  simp [Row.migrated, h]

theorem migrated_of_ok (hheld : row.held w = true) (hskip : skip row = false)
    (h : change row = .ok row') : row.migrated w skip change = row' := by
  simp [Row.migrated, hheld, hskip, h]

theorem Row.held_isEmpty (h : row.held w = true) : (row.get w).isEmpty = false := by
  rw [Row.held, Bool.and_eq_true] at h
  simpa using h.1

theorem held_set (h : row.held w = true) (hne : (row.kept w text).isEmpty = false) :
    (row.set w n text).held w = true := by
  rw [Row.held, Bool.and_eq_true] at h ⊢
  exact ⟨by simpa using hne, h.2⟩

end Loop

end UltimateCaManager.MasterKey
