import UltimateCaManager.Numerals

/-!
# Serial numbers as text

The `serial_number` columns have three writers: decimal, lower-case and upper-case hexadecimal.
`serial_to_int` reads a column as decimal when it can, and as hexadecimal otherwise. A decimal
text is always read back; a hexadecimal one is when it has a letter, and not when its digits
happen to be decimal ones.
-/
namespace UltimateCaManager.Revocation

open Numerals

/-- The writer of a serial column. -/
inductive Spelling
  | decimal | lowerHex | upperHex
  deriving DecidableEq

def Spelling.write : Spelling → ℕ → List Char
  | .decimal, n => Nat.toDigits 10 n
  | .lowerHex, n => Nat.toDigits 16 n
  | .upperHex, n => (Nat.toDigits 16 n).map Char.toUpper

/-- Every text that the column may hold for `n`. -/
def serialVariants (n : ℕ) : List (List Char) :=
  [Spelling.decimal.write n, Spelling.lowerHex.write n, Spelling.upperHex.write n]

/-- The column without its separators and its prefix. -/
def stripSerial (text : List Char) : List Char :=
  match strip (text.filter (· ≠ ':')) with
  | '0' :: 'x' :: rest => rest
  | '0' :: 'X' :: rest => rest
  | other => other

def serialToInt (text : List Char) : Option ℕ :=
  (read 10 (stripSerial text)).or (read 16 (stripSerial text))

/-- The text is read back as the number it was written for. -/
def Spelling.ReadsBack (s : Spelling) (n : ℕ) : Prop :=
  serialToInt (s.write n) = some n
  deriving Decidable

theorem mem_serialVariants {n : ℕ} {text : List Char} :
    text ∈ serialVariants n ↔ ∃ s : Spelling, text = s.write n := by
  constructor
  · intro h
    simp only [serialVariants, List.mem_cons, List.not_mem_nil, or_false] at h
    rcases h with h | h | h
    · exact ⟨_, h⟩
    · exact ⟨_, h⟩
    · exact ⟨_, h⟩
  · rintro ⟨s, rfl⟩
    cases s <;> simp [serialVariants]

/-- The symbols of a written serial are hexadecimal digits, which the reader never strips. -/
theorem symbol_of_mem_write {s : Spelling} {n : ℕ} {c : Char} (hc : c ∈ s.write n) :
    c ≠ ':' ∧ isSpace c = false ∧ c ≠ 'x' ∧ c ≠ 'X' := by
  have hlower : ∀ d < 16, d.digitChar ≠ ':' ∧ isSpace d.digitChar = false ∧
      d.digitChar ≠ 'x' ∧ d.digitChar ≠ 'X' := by decide
  have hupper : ∀ d < 16, d.digitChar.toUpper ≠ ':' ∧ isSpace d.digitChar.toUpper = false ∧
      d.digitChar.toUpper ≠ 'x' ∧ d.digitChar.toUpper ≠ 'X' := by decide
  cases s with
  | decimal =>
    obtain ⟨d, hd, rfl⟩ := mem_toDigits (by omega) hc
    exact hlower d (by omega)
  | lowerHex =>
    obtain ⟨d, hd, rfl⟩ := mem_toDigits (by omega) hc
    exact hlower d hd
  | upperHex =>
    obtain ⟨a, ha, rfl⟩ := List.mem_map.mp hc
    obtain ⟨d, hd, rfl⟩ := mem_toDigits (by omega) ha
    exact hupper d hd

theorem stripSerial_write (s : Spelling) (n : ℕ) : stripSerial (s.write n) = s.write n := by
  have hsymbol := fun c hc => symbol_of_mem_write (s := s) (n := n) (c := c) hc
  have hfilter : (s.write n).filter (· ≠ ':') = s.write n :=
    List.filter_eq_self.mpr fun c hc => by simp [(hsymbol c hc).1]
  unfold stripSerial
  rw [hfilter, strip_of_forall fun c hc => (hsymbol c hc).2.1]
  split
  · next rest heq =>
    have hx := hsymbol 'x' (by simp [heq])
    exact absurd rfl hx.2.2.1
  · next rest heq =>
    have hx := hsymbol 'X' (by simp [heq])
    exact absurd rfl hx.2.2.2
  · rfl

theorem readsBack_decimal (n : ℕ) : Spelling.decimal.ReadsBack n := by
  rw [Spelling.ReadsBack, serialToInt, stripSerial_write, Spelling.write,
    read_toDigits (by omega) (by omega), Option.some_or]

/-- Sixteen in hexadecimal is read as ten. -/
example : serialToInt (Spelling.lowerHex.write 16) = some 10 := by decide

end UltimateCaManager.Revocation
