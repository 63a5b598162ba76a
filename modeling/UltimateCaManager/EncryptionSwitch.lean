import UltimateCaManager.MasterKeyRoundTrip

/-!
# Switching encryption on and off

The two endpoints write or remove the key file, reload the key and migrate the database. Every file
operation, every row, the query, the commit and what follows it may raise; the handler of
`enable_encryption` then removes the key file, unless the exception is a `PermissionError`.
-/
namespace UltimateCaManager.MasterKey

variable {κ : Type} (f : Fernet κ) (w : Wrapping)

/-- The key file, the key that the process has loaded, the environment and the database. A process
without a key found none in the environment. -/
structure Installation (κ : Type) where
  file : Option κ
  key : Option κ
  env : Option κ
  required : Bool
  rows : List Row
  loaded : key = none → env = none

inductive Raise
  | permission
  | other

/-- How a write of the key file ends: it may also raise once the file is there. -/
inductive Write
  | done
  | refused (e : Raise)
  | raisedAfter (e : Raise)

abbrev Step (κ : Type) := Installation κ → Option Raise × Installation κ

def Step.seq (m n : Step κ) : Step κ := fun s =>
  match m s with
  | (none, s') => n s'
  | (some e, s') => (some e, s')

def writeKeyFile (write : Write) (k : κ) : Step κ := fun s =>
  match write with
  | .done => (none, { s with file := some k })
  | .refused e => (some e, s)
  | .raisedAfter e => (some e, { s with file := some k })

def removeKeyFile (raise : Option Raise) : Step κ := fun s =>
  match s.file, raise with
  | none, _ => (none, s)
  | some _, none => (none, { s with file := none })
  | some _, some e => (some e, s)

/-- `reload`; a file that cannot be read is passed over. -/
def reload (readable : Bool) : Step κ := fun s =>
  let key := (if readable then s.file else none).or s.env
  (if key.isNone && s.required then some .other else none,
    { s with
      key := key
      loaded := fun h => (Option.or_eq_none_iff.mp h).2 })

structure EnableFaults where
  write : Write
  readable : Bool
  removal : Option Raise
  query : Option Raise
  row : Row → Bool
  commit : Option Raise
  /-- The purge of key files, the audit entry and the response. -/
  after : Option Raise
  cleanup : Option Raise

/-- `encrypt_all_keys` with its query and its commit. -/
def encryptDatabase (iv : Row → ℕ) (o : EnableFaults) : Step κ := fun s =>
  match o.query.or o.commit with
  | some e => (some e, s)
  | none => (none, { s with rows := (encryptAllKeys f w s.key iv o.row false s.rows).rows })

def enableBody (fresh : κ) (iv : Row → ℕ) (o : EnableFaults) : Step κ :=
  (writeKeyFile o.write fresh).seq <| (reload o.readable).seq fun s =>
    if s.key.isNone then removeKeyFile o.removal s
    else ((encryptDatabase f w iv o).seq fun s => (o.after, s)) s

def EnableFaults.handle (o : EnableFaults) : Option Raise × Installation κ → Installation κ
  | (none, s) => s
  | (some .permission, s) => s
  | (some .other, s) => (removeKeyFile o.cleanup s).2

def enableEncryption (fresh : κ) (iv : Row → ℕ) (o : EnableFaults)
    (s : Installation κ) : Installation κ :=
  if s.key.isSome then s else o.handle (enableBody f w fresh iv o s)

/-- With the randomness of each row. -/
structure DisableFaults where
  query : Option Raise
  iv : Row → ℕ
  row : Row → Bool
  commit : Option Raise
  removal : Option Raise
  readable : Bool

/-- `disable_encryption`. What follows the reload changes neither the file nor the rows. -/
def disableEncryption (o : DisableFaults) (s : Installation κ) : Installation κ :=
  if s.required then s
  else if s.key.isNone then s
  else if s.env.isSome then s
  else
    let m := decryptAllKeys f w s.key o.iv o.row false s.rows
    if o.query.isSome then s
    else if !m.errors.isEmpty then s
    else if o.commit.isSome then s
    else ((removeKeyFile o.removal).seq (reload o.readable) { s with rows := m.rows }).2

/-! ## Keys that can be opened -/

def Opens (k : κ) (row : Row) : Prop :=
  ∃ plaintext, decryptMasterKeyValue f (some k) (row.get w) row.format = .ok plaintext

/-- Every value that is stored encrypted opens under the key of the key file. -/
def Recoverable (file : Option κ) (rows : List Row) : Prop :=
  ∀ row ∈ rows, row.held w = true → isEncrypted (row.get w) = true →
    ∃ k, file = some k ∧ Opens f w k row

def AllPlain (rows : List Row) : Prop :=
  ∀ row ∈ rows, row.held w = true → isEncrypted (row.get w) = false
  deriving Decidable

def Encryptable (o : EnableFaults) (row : Row) : Prop :=
  row.held w = true ∧ isEncrypted (row.get w) = false ∧ o.row row = false ∧
    (row.format.payload (row.get w)).isSome = true

/-- A row after `encrypt_all_keys` under the key. -/
def Row.encrypted (k : κ) (iv : Row → ℕ) (o : EnableFaults) (row : Row) : Row :=
  row.migrated w (fun row => isEncrypted (row.get w)) (encryptedRow f w k iv o.row)

section Recovery

variable {f w} {k k' fresh : κ} {row : Row} {rows : List Row} {iv : Row → ℕ}
  {o : EnableFaults}

theorem Opens.one_key (henc : isEncrypted (row.get w) = true) (h : Opens f w k row)
    (h' : Opens f w k' row) : k = k' := by
  obtain ⟨hne, token, hdecode⟩ := isEncrypted_iff.mp henc
  obtain ⟨p, hp⟩ := h
  obtain ⟨p', hp'⟩ := h'
  obtain ⟨bytes, hbytes, -⟩ := (decryptMasterKeyValue_marked hne hdecode).mp hp
  obtain ⟨bytes', hbytes', -⟩ := (decryptMasterKeyValue_marked hne hdecode).mp hp'
  exact f.one_key hbytes hbytes'

theorem AllPlain.recoverable (h : AllPlain w rows) (file : Option κ) :
    Recoverable f w file rows := by
  intro row hrow hheld henc
  rw [h row hrow hheld] at henc
  cases henc

theorem recoverable_none_iff : Recoverable f w (none : Option κ) rows ↔ AllPlain w rows := by
  constructor
  · intro h row hrow hheld
    by_contra henc
    obtain ⟨k, hk, -⟩ := h row hrow hheld (by simpa using henc)
    cases hk
  · exact fun h => h.recoverable _

/-- Under another key nothing that was encrypted opens. -/
theorem recoverable_other_iff {file : Option κ} (h : Recoverable f w file rows)
    (hfresh : file ≠ some fresh) : Recoverable f w (some fresh) rows ↔ AllPlain w rows := by
  constructor
  · intro h' row hrow hheld
    by_contra hne
    have henc : isEncrypted (row.get w) = true := by simpa using hne
    obtain ⟨k, hk, hopens⟩ := h row hrow hheld henc
    obtain ⟨k', hk', hopens'⟩ := h' row hrow hheld henc
    apply hfresh
    rw [hk, hk', hopens.one_key henc hopens']
  · intro hplain
    exact hplain.recoverable _

theorem encrypted_of_encryptable (f : Fernet κ) (k : κ) (iv : Row → ℕ)
    (h : Encryptable w o row) : ∃ bytes,
    row.encrypted f w k iv o = row.set w (iv row) (mark (f.encrypt k (iv row) bytes)) ∧
      row.format.payload (row.get w) = some bytes := by
  obtain ⟨hheld, hplain, hrow, hpayload⟩ := h
  obtain ⟨bytes, hbytes⟩ := Option.isSome_iff_exists.mp hpayload
  refine ⟨bytes, migrated_of_ok hheld hplain ?_, hbytes⟩
  have hvalue : encryptMasterKeyValue f (some k) (iv row) (row.get w) row.format =
      .ok (mark (f.encrypt k (iv row) bytes)) :=
    (encryptMasterKeyValue_plain (Row.held_isEmpty hheld) hplain).mpr ⟨bytes, hbytes, rfl⟩
  rw [encryptedRow, if_neg (by simp [hrow]), hvalue]
  rfl

theorem encrypted_of_not_encryptable (h : ¬ Encryptable w o row) :
    row.encrypted f w k iv o = row := by
  by_cases hheld : row.held w = true
  · by_cases henc : isEncrypted (row.get w) = true
    · exact migrated_of_skip henc
    · have hplain : isEncrypted (row.get w) = false := by simpa using henc
      have herror : ∀ row', encryptedRow f w k iv o.row row ≠ .ok row' := by
        intro row' hrow'
        obtain ⟨bytes, hbytes, -⟩ := encryptedRow_ok hheld hplain hrow'
        refine h ⟨hheld, hplain, ?_, by rw [hbytes]; rfl⟩
        by_contra hrow
        rw [encryptedRow, if_pos (by simpa using hrow)] at hrow'
        cases hrow'
      rw [Row.encrypted, Row.migrated, if_pos (by simp [hheld, hplain])]
      cases hrow' : encryptedRow f w k iv o.row row with
      | ok row' => exact absurd hrow' (herror row')
      | error e => rfl
  · exact migrated_of_not_held (by simpa using hheld)

theorem held_encrypted (f : Fernet κ) (k : κ) (iv : Row → ℕ) (h : Encryptable w o row) :
    let row' := row.encrypted f w k iv o
    row'.held w = true ∧ isEncrypted (row'.get w) = true ∧ Opens f w k row' := by
  intro row'
  obtain ⟨bytes, heq, hpayload⟩ := encrypted_of_encryptable f k iv h
  obtain ⟨opened, hopened, -⟩ := plaintext_payload hpayload
  rw [show row' = _ from heq, Opens, get_set, kept_mark]
  refine ⟨held_set h.1 (by rw [kept_mark]; exact mark_isEmpty _), isEncrypted_mark _, opened, ?_⟩
  exact (decryptMasterKeyValue_marked (mark_isEmpty _) (decode_mark _)).mpr
    ⟨bytes, f.decrypt_encrypt _ _ _, hopened⟩

/-- With the new key in the file the migrated rows open, unless some were encrypted before. -/
theorem recoverable_encrypted_iff {file : Option κ} (h : Recoverable f w file rows)
    (hfresh : file ≠ some fresh) :
    Recoverable f w (some fresh) (rows.map (Row.encrypted f w fresh iv o)) ↔ AllPlain w rows := by
  constructor
  · intro h'
    rw [← recoverable_other_iff h hfresh]
    intro row hrow hheld henc
    have hsame : row.encrypted f w fresh iv o = row := migrated_of_skip henc
    exact h' row (List.mem_map.mpr ⟨row, hrow, hsame⟩) hheld henc
  · intro hplain row' hrow' hheld henc
    obtain ⟨row, hrow, rfl⟩ := List.mem_map.mp hrow'
    by_cases hable : Encryptable w o row
    · exact ⟨fresh, rfl, (held_encrypted f fresh iv hable).2.2⟩
    · rw [encrypted_of_not_encryptable hable] at hheld henc
      rw [hplain row hrow hheld] at henc
      cases henc

/-- After the migration nothing is encrypted only when there was nothing to encrypt. -/
theorem allPlain_encrypted_iff : AllPlain w (rows.map (Row.encrypted f w fresh iv o)) ↔
    AllPlain w rows ∧ ∀ row ∈ rows, ¬ Encryptable w o row := by
  constructor
  · intro h
    have hable : ∀ row ∈ rows, ¬ Encryptable w o row := by
      intro row hrow hable
      obtain ⟨hheld, henc, -⟩ := held_encrypted f fresh iv hable
      rw [h _ (List.mem_map_of_mem hrow) hheld] at henc
      cases henc
    refine ⟨?_, hable⟩
    intro row hrow
    have hmem := h _ (List.mem_map_of_mem hrow)
    rwa [encrypted_of_not_encryptable (hable row hrow)] at hmem
  · rintro ⟨hplain, hable⟩ row' hrow'
    obtain ⟨row, hrow, rfl⟩ := List.mem_map.mp hrow'
    rw [encrypted_of_not_encryptable (hable row hrow)]
    exact hplain row hrow

end Recovery

/-! ## Enabling -/

section Enable

/-- A step after the commit of the migration raises, and the handler removes the key file. -/
def EnableFaults.LateCleanup (o : EnableFaults) : Prop :=
  o.write = .done ∧ o.readable = true ∧ o.query = none ∧ o.commit = none ∧ o.after = some .other ∧
    o.cleanup = none

/-- The key file of before is still there. -/
def EnableFaults.FileUntouched (o : EnableFaults) : Prop :=
  o.write = .refused .permission ∨ o.write = .refused .other ∧ o.cleanup ≠ none

inductive Enabled (f : Fernet κ) (w : Wrapping) (fresh : κ) (iv : Row → ℕ) (o : EnableFaults)
    (s : Installation κ) : Option κ → List Row → Prop
  | untouched (h : o.FileUntouched) : Enabled f w fresh iv o s s.file s.rows
  | removed (h : ¬ o.FileUntouched) (hlate : ¬ o.LateCleanup) : Enabled f w fresh iv o s none s.rows
  | replaced (h : ¬ o.FileUntouched) (hlate : ¬ o.LateCleanup) :
      Enabled f w fresh iv o s (some fresh) s.rows
  | migrated (h : ¬ o.FileUntouched) (hlate : ¬ o.LateCleanup) :
      Enabled f w fresh iv o s (some fresh) (s.rows.map (Row.encrypted f w fresh iv o))
  | lost (h : ¬ o.FileUntouched) (hlate : o.LateCleanup) :
      Enabled f w fresh iv o s none (s.rows.map (Row.encrypted f w fresh iv o))

variable {f w} {fresh : κ} {iv : Row → ℕ} {o : EnableFaults} {s : Installation κ}

theorem removeKeyFile_rows (raise : Option Raise) : (removeKeyFile raise s).2.rows = s.rows := by
  unfold removeKeyFile
  split <;> rfl

theorem removeKeyFile_file (raise : Option Raise) : (removeKeyFile raise s).2.file =
    if raise.isNone then none else s.file := by
  unfold removeKeyFile
  split <;> simp_all

/-- The new key is not kept with the old rows by a run that removes it late. -/
theorem not_lateCleanup (h : o.write ≠ .done ∨ o.readable = false ∨ o.query.or o.commit ≠ none) :
    ¬ o.LateCleanup := by
  rintro ⟨hwrite, hreadable, hquery, hcommit, -⟩
  rcases h with h | h | h
  · exact h hwrite
  · rw [hreadable] at h
    cases h
  · rw [hquery, hcommit] at h
    exact h rfl

/-- An exception before the migration is committed leaves the rows, and the new key or none. -/
theorem handle_cases (huntouched : ¬ o.FileUntouched) (hlate : ¬ o.LateCleanup)
    (raise : Option Raise) {s' : Installation κ} (hfile : s'.file = none ∨ s'.file = some fresh)
    (hrows : s'.rows = s.rows) :
    Enabled f w fresh iv o s (o.handle (raise, s')).file (o.handle (raise, s')).rows := by
  have hkept : Enabled f w fresh iv o s s'.file s'.rows := by
    rw [hrows]
    rcases hfile with hfile | hfile <;> rw [hfile]
    · exact .removed huntouched hlate
    · exact .replaced huntouched hlate
  match raise with
  | none => exact hkept
  | some .permission => exact hkept
  | some .other =>
    rw [EnableFaults.handle, removeKeyFile_rows, removeKeyFile_file]
    split
    · rw [hrows]
      exact .removed huntouched hlate
    · exact hkept

/-- Once the migration is committed, the rows are encrypted under the new key. -/
theorem handle_migrated (hwrite : o.write = .done) (hreadable : o.readable = true)
    (hcommitted : o.query.or o.commit = none) {s' : Installation κ} (hfile : s'.file = some fresh)
    (hrows : s'.rows = s.rows.map (Row.encrypted f w fresh iv o)) :
    Enabled f w fresh iv o s (o.handle (o.after, s')).file (o.handle (o.after, s')).rows := by
  obtain ⟨hquery, hcommit⟩ := Option.or_eq_none_iff.mp hcommitted
  have huntouched : ¬ o.FileUntouched := by simp [EnableFaults.FileUntouched, hwrite]
  have hkept (hlate : ¬ o.LateCleanup) : Enabled f w fresh iv o s s'.file s'.rows := by
    rw [hfile, hrows]
    exact .migrated huntouched hlate
  cases hafter : o.after with
  | none => exact hkept (by simp [EnableFaults.LateCleanup, hafter])
  | some e =>
    cases e with
    | permission => exact hkept (by simp [EnableFaults.LateCleanup, hafter])
    | other =>
      rw [EnableFaults.handle, removeKeyFile_rows, removeKeyFile_file]
      cases hcleanup : o.cleanup with
      | none =>
        rw [hrows]
        exact .lost huntouched ⟨hwrite, hreadable, hquery, hcommit, hafter, hcleanup⟩
      | some e => exact hkept (by simp [EnableFaults.LateCleanup, hcleanup])

theorem enabled_after_write (hkey : s.key = none) (hwrite : o.write = .done) :
    let s' := enableEncryption f w fresh iv o s
    Enabled f w fresh iv o s s'.file s'.rows := by
  have henv : s.env = none := s.loaded hkey
  have huntouched : ¬ o.FileUntouched := by simp [EnableFaults.FileUntouched, hwrite]
  simp only [enableEncryption, hkey, Option.isSome_none, enableBody,
    Step.seq, writeKeyFile, hwrite]
  by_cases hreadable : o.readable = true
  · simp only [hreadable, encryptDatabase]
    cases hcommitted : o.query.or o.commit with
    | none => exact handle_migrated hwrite hreadable hcommitted rfl migrate_rows
    | some e =>
      exact handle_cases huntouched (not_lateCleanup (.inr (.inr (by simp [hcommitted])))) _
        (.inr rfl) rfl
  · have hunread : o.readable = false := by simpa using hreadable
    have hlate : ¬ o.LateCleanup := not_lateCleanup (.inr (.inl hunread))
    simp only [hunread, Bool.false_eq_true, if_false, henv]
    cases hrequired : s.required with
    | true => exact handle_cases huntouched hlate _ (.inr rfl) rfl
    | false =>
      cases hremoval : o.removal with
      | none => exact handle_cases huntouched hlate _ (.inl rfl) rfl
      | some e => exact handle_cases huntouched hlate _ (.inr rfl) rfl

theorem enabled_cases (hkey : s.key = none) :
    let s' := enableEncryption f w fresh iv o s
    Enabled f w fresh iv o s s'.file s'.rows := by
  cases hwrite : o.write with
  | done => exact enabled_after_write hkey hwrite
  | refused e =>
    simp only [enableEncryption, hkey, enableBody, hwrite]
    cases e with
    | permission => exact .untouched (.inl hwrite)
    | other =>
      show Enabled f w fresh iv o s (removeKeyFile _ s).2.file (removeKeyFile _ s).2.rows
      rw [removeKeyFile_rows, removeKeyFile_file]
      cases hcleanup : o.cleanup with
      | none =>
        exact .removed (by simp [EnableFaults.FileUntouched, hwrite, hcleanup])
          (not_lateCleanup (.inl (by simp [hwrite])))
      | some e => exact .untouched (.inr ⟨hwrite, by simp [hcleanup]⟩)
  | raisedAfter e =>
    simp only [enableEncryption, hkey, enableBody, hwrite]
    exact handle_cases (by simp [EnableFaults.FileUntouched, hwrite])
      (not_lateCleanup (.inl (by simp [hwrite]))) _ (.inr rfl) rfl

def EnableSafe (w : Wrapping) (o : EnableFaults) (s : Installation κ) : Prop :=
  s.key ≠ none ∨ o.FileUntouched ∨
    AllPlain w s.rows ∧ (o.LateCleanup → ∀ row ∈ s.rows, ¬ Encryptable w o row)

theorem enable_recoverable_iff (hs : Recoverable f w s.file s.rows) (hfresh : s.file ≠ some fresh) :
    let s' := enableEncryption f w fresh iv o s
    Recoverable f w s'.file s'.rows ↔ EnableSafe w o s := by
  intro s'
  by_cases hkey : s.key = none
  · have hcases : Enabled f w fresh iv o s s'.file s'.rows := enabled_cases hkey
    rw [EnableSafe, or_iff_right (not_not.mpr hkey)]
    generalize s'.file = file, s'.rows = rows at hcases
    cases hcases with
    | untouched h => simp [h, hs]
    | removed h hlate => simp [h, hlate, recoverable_none_iff]
    | replaced h hlate => simp [h, hlate, recoverable_other_iff hs hfresh]
    | migrated h hlate => simp [h, hlate, recoverable_encrypted_iff hs hfresh]
    | lost h hlate =>
      rw [recoverable_none_iff, allPlain_encrypted_iff]
      simp [h, hlate]
  · have hsame : s' = s := by simp [s', enableEncryption, hkey]
    rw [hsame]
    simp [EnableSafe, hkey, hs]

end Enable

/-! ## Disabling -/

section Disable

/-- A value that opens to a text which reads as encrypted itself, once it is written, is not lost
with the file. -/
def NestedSafe (k : κ) (file : Option κ) (row : Row) : Prop :=
  ∀ inner, decryptMasterKeyValue f (some k) (row.get w) row.format = .ok inner →
    isEncrypted (row.kept w inner) = true → ∃ k', file = some k' ∧ ∃ plaintext,
      decryptMasterKeyValue f (some k') (row.kept w inner) row.format = .ok plaintext

def CannotDecrypt (o : DisableFaults) (k : κ) (rows : List Row) : Prop :=
  ∃ row ∈ rows, row.held w = true ∧ isEncrypted (row.get w) = true ∧
    (o.row row = true ∨ ¬ Opens f w k row)

/-- `disable_encryption` stops before it writes anything. -/
def DisableRefused (o : DisableFaults) (s : Installation κ) : Prop :=
  s.required = true ∨ s.env ≠ none ∨ o.query ≠ none ∨ o.commit ≠ none ∨
    ∀ k, s.key = some k → CannotDecrypt f w o k s.rows

def DisableSafe (o : DisableFaults) (s : Installation κ) : Prop :=
  DisableRefused f w o s ∨ ∀ k, s.key = some k → ∀ row ∈ s.rows, row.held w = true →
    isEncrypted (row.get w) = true →
      NestedSafe f w k (if o.removal.isNone then none else s.file) row

variable {f w} {k : κ} {iv : Row → ℕ} {o : DisableFaults} {s : Installation κ} {rows : List Row}

theorem recoverable_decrypted_iff {fails : Row → Bool} {file : Option κ}
    (hopens : ∀ row ∈ rows, row.held w = true → isEncrypted (row.get w) = true →
      ∃ row', decryptedRow f w k iv fails row = .ok row') :
    Recoverable f w file (rows.map (Row.migrated w (fun row => !isEncrypted (row.get w))
        (decryptedRow f w k iv fails))) ↔
      ∀ row ∈ rows, row.held w = true → isEncrypted (row.get w) = true →
        NestedSafe f w k file row := by
  constructor
  · intro h row hrow hheld henc inner hinner hnested
    obtain ⟨row', hrow'⟩ := hopens row hrow hheld henc
    obtain ⟨-, plaintext, rfl, hplaintext⟩ := decryptedRow_iff.mp hrow'
    obtain rfl : inner = plaintext := Except.ok.inj (hinner.symm.trans hplaintext)
    have hmigrated : row.migrated w (fun row => !isEncrypted (row.get w))
        (decryptedRow f w k iv fails) = row.set w (iv row) inner :=
      migrated_of_ok hheld (by simp [henc]) hrow'
    have hmem := h _ (List.mem_map.mpr ⟨row, hrow, hmigrated⟩)
      (held_set hheld (isEncrypted_iff.mp hnested).1)
    simp only [Opens, get_set] at hmem
    exact hmem hnested
  · intro h row' hrow' hheld henc
    obtain ⟨row, hrow, rfl⟩ := List.mem_map.mp hrow'
    by_cases hmove : row.held w = true ∧ isEncrypted (row.get w) = true
    · obtain ⟨row', hrow'⟩ := hopens row hrow hmove.1 hmove.2
      obtain ⟨-, plaintext, rfl, hplaintext⟩ := decryptedRow_iff.mp hrow'
      rw [migrated_of_ok hmove.1 (by simp [hmove.2]) hrow'] at henc ⊢
      simp only [Opens, get_set] at henc ⊢
      exact h row hrow hmove.1 hmove.2 plaintext hplaintext henc
    · -- the row was not touched, and it is not encrypted
      have hsame : row.migrated w (fun row => !isEncrypted (row.get w))
          (decryptedRow f w k iv fails) = row := by
        by_cases hheld' : row.held w = true
        · exact migrated_of_skip (by simpa [hheld'] using hmove)
        · exact migrated_of_not_held (by simpa using hheld')
      rw [hsame] at hheld henc
      exact absurd ⟨hheld, henc⟩ hmove

theorem decryptAllKeys_errors : (decryptAllKeys f w (some k) o.iv o.row false rows).errors = [] ↔
    ¬ CannotDecrypt f w o k rows := by
  have herrors : (decryptAllKeys f w (some k) o.iv o.row false rows).errors =
      (migrate w (fun row => !isEncrypted (row.get w)) (decryptedRow f w k o.iv o.row)
        rows).errors := by
    rw [decryptAllKeys_some]
    dsimp only
    split <;> rfl
  rw [herrors, migrate_errors]
  constructor
  · rintro h ⟨row, hrow, hheld, henc, hfails⟩
    obtain ⟨row', hrow'⟩ := h row hrow hheld (by simp [henc])
    obtain ⟨hrowok, plaintext, -, hopen⟩ := decryptedRow_iff.mp hrow'
    rcases hfails with hfails | hfails
    · rw [hrowok] at hfails
      cases hfails
    · exact hfails ⟨plaintext, hopen⟩
  · intro h row hrow hheld hskip
    have henc : isEncrypted (row.get w) = true := by simpa using hskip
    by_contra hnone
    refine h ⟨row, hrow, hheld, henc, ?_⟩
    by_cases hfails : o.row row = true
    · exact .inl hfails
    · refine .inr fun ⟨plaintext, hopen⟩ => hnone ⟨row.set w (o.iv row) plaintext, ?_⟩
      exact decryptedRow_iff.mpr ⟨by simpa using hfails, plaintext, rfl, hopen⟩

theorem disable_refused (h : DisableRefused f w o s) : disableEncryption f w o s = s := by
  cases hkey : s.key with
  | none => simp [disableEncryption, hkey]
  | some k =>
    by_cases hcannot : CannotDecrypt f w o k s.rows
    · have herrors : (decryptAllKeys f w (some k) o.iv o.row false s.rows).errors ≠ [] :=
        fun herr => decryptAllKeys_errors.mp herr hcannot
      simp [disableEncryption, hkey, herrors]
    · rcases h with h | h | h | h | h
      case inr.inr.inr.inr => exact absurd (h k hkey) hcannot
      all_goals simp [disableEncryption, h]

theorem errors_of_not_refused (hkey : s.key = some k) (h : ¬ DisableRefused f w o s) :
    (decryptAllKeys f w (some k) o.iv o.row false s.rows).errors = [] := by
  rw [decryptAllKeys_errors]
  intro hcannot
  refine h (.inr (.inr (.inr (.inr fun k' hk' => ?_))))
  rwa [← Option.mem_unique hkey hk']

/-- Otherwise the rows are decrypted, and the file goes unless its removal raises. -/
theorem disable_goes_on (hkey : s.key = some k) (h : ¬ DisableRefused f w o s) :
    (disableEncryption f w o s).rows = (decryptAllKeys f w (some k) o.iv o.row false s.rows).rows ∧
      (disableEncryption f w o s).file = if o.removal.isNone then none else s.file := by
  have herrors := errors_of_not_refused hkey h
  simp only [DisableRefused, not_or] at h
  obtain ⟨hrequired, henv, hquery, hcommit, -⟩ := h
  have hreload (s' : Installation κ) : (reload o.readable s').2.rows = s'.rows ∧
      (reload o.readable s').2.file = s'.file := ⟨rfl, rfl⟩
  have hend : disableEncryption f w o s = ((removeKeyFile o.removal).seq (reload o.readable)
      { s with rows := (decryptAllKeys f w (some k) o.iv o.row false s.rows).rows }).2 := by
    simp only [disableEncryption]
    simp_all
  rw [hend, Step.seq]
  cases hfile : s.file with
  | none | some => cases o.removal <;> simp [removeKeyFile, hreload]

theorem disable_recoverable_iff (hs : Recoverable f w s.file s.rows) :
    let s' := disableEncryption f w o s
    Recoverable f w s'.file s'.rows ↔ DisableSafe f w o s := by
  intro s'
  by_cases hrefused : DisableRefused f w o s
  · have hsame : s' = s := disable_refused hrefused
    rw [hsame]
    simp [DisableSafe, hrefused, hs]
  · cases hkey : s.key with
    | none => exact absurd (.inr (.inr (.inr (.inr (by simp [hkey]))))) hrefused
    | some k =>
      obtain ⟨hrows, hfile⟩ := disable_goes_on hkey hrefused
      obtain ⟨hmigrated, hopens⟩ := decryptAllKeys_rows (errors_of_not_refused hkey hrefused)
      rw [show s'.rows = _ from hrows, show s'.file = _ from hfile, hmigrated,
        recoverable_decrypted_iff hopens]
      simp [DisableSafe, hrefused, hkey]

end Disable

/-! ## Both endpoints -/

inductive Call (κ : Type)
  | enable (fresh : κ) (iv : Row → ℕ) (o : EnableFaults)
  | disable (o : DisableFaults)

def Call.run (s : Installation κ) : Call κ → Installation κ
  | .enable fresh iv o => enableEncryption f w fresh iv o s
  | .disable o => disableEncryption f w o s

/-- The generated key is not the one in the key file. -/
def Call.Fresh (s : Installation κ) : Call κ → Prop
  | .enable fresh _ _ => s.file ≠ some fresh
  | .disable _ => True

def Call.Safe (s : Installation κ) : Call κ → Prop
  | .enable _ _ o => EnableSafe w o s
  | .disable o => DisableSafe f w o s

/-- From a database whose encrypted values open under the key file, and with any failures, all
encrypted values open under the key file afterwards exactly when the call is safe. -/
theorem switch_recoverable_iff {f : Fernet κ} {w : Wrapping} {s : Installation κ} {c : Call κ}
    (hs : Recoverable f w s.file s.rows) (hfresh : c.Fresh s) :
    Recoverable f w (c.run f w s).file (c.run f w s).rows ↔ c.Safe f w s := by
  cases c with
  | enable fresh iv o => exact enable_recoverable_iff hs hfresh
  | disable o => exact disable_recoverable_iff hs

/-- A key and a password in the clear, and no key file. -/
def unencrypted : Installation UInt8 :=
  ⟨none, none, none, false, storedKeys "QUJD" "secret", fun _ => rfl⟩

/-- Nothing fails but what follows the commit of the migration. -/
def failsAfter (after : Option Raise) : EnableFaults :=
  ⟨.done, true, none, none, fun _ => false, none, after, none⟩

def enabled (after : Option Raise) : Installation UInt8 :=
  (Call.enable 7 (fun _ => 0) (failsAfter after)).run .transparent .transparent unencrypted

theorem enabled_key_opens :
    Recoverable .transparent .transparent (enabled none).file (enabled none).rows := by
  have hfresh : (Call.enable 7 (fun _ => 0) (failsAfter none)).Fresh unencrypted := by
    simp [Call.Fresh, unencrypted]
  refine (switch_recoverable_iff (recoverable_none_iff.mpr (by decide)) hfresh).mpr ?_
  exact .inr (.inr ⟨by decide, fun h => nomatch h.2.2.2.2.1⟩)

theorem late_failure_loses_key :
    Recoverable .transparent .transparent unencrypted.file unencrypted.rows ∧
      (enabled (some .other)).file = none ∧
      ¬ Recoverable .transparent .transparent (enabled (some .other)).file
        (enabled (some .other)).rows := by
  refine ⟨recoverable_none_iff.mpr (by decide), rfl, ?_⟩
  have hplain : ¬ AllPlain .transparent (enabled (some .other)).rows := by decide
  exact fun h => hplain (recoverable_none_iff.mp h)

end UltimateCaManager.MasterKey
