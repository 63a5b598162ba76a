import Mathlib.Data.List.TakeWhile
import Mathlib.Tactic.IntervalCases

/-!
# Reading numerals back

Numbers are written in base ten or sixteen by `Nat.toDigits` and read by a fold over the digit
values, letters in either case. A numeral is read back in the base it was written in; the
decimal reading of a hexadecimal numeral fails as soon as it has a letter.
-/
namespace UltimateCaManager.Numerals

open List

def digitValue (c : Char) : Option ℕ :=
  if c.isDigit then some (c.toNat - '0'.toNat)
  else if 'a' ≤ c ∧ c ≤ 'f' then some (c.toNat - 'a'.toNat + 10)
  else if 'A' ≤ c ∧ c ≤ 'F' then some (c.toNat - 'A'.toNat + 10)
  else none

def readFrom (b : ℕ) : ℕ → List Char → Option ℕ
  | acc, [] => some acc
  | acc, c :: cs => do
    let d ← digitValue c
    if d < b then readFrom b (b * acc + d) cs else none

def read (b : ℕ) (text : List Char) : Option ℕ :=
  if text = [] then none else readFrom b 0 text

/-- `str.isspace`, of one character. -/
def isSpace (c : Char) : Bool :=
  let n := c.toNat
  (9 ≤ n && n ≤ 13) || (28 ≤ n && n ≤ 32) || (0x2000 ≤ n && n ≤ 0x200A) ||
    n ∈ [0x85, 0xA0, 0x1680, 0x2028, 0x2029, 0x202F, 0x205F, 0x3000]

def strip (text : List Char) : List Char :=
  ((text.dropWhile isSpace).reverse.dropWhile isSpace).reverse

variable {b n d : ℕ}

theorem strip_of_forall {text : List Char} (h : ∀ c ∈ text, isSpace c = false) :
    strip text = text := by
  have hdrop : ∀ l : List Char, (∀ c ∈ l, isSpace c = false) →
      l.dropWhile isSpace = l := by
    intro l hl
    cases l with
    | nil => rfl
    | cons c cs => rw [dropWhile_cons_of_neg (by simp [hl c])]
  rw [strip, hdrop text h, hdrop _ (by simpa using h), reverse_reverse]

/-- White space surrounds the stripped text, which does not begin with any. -/
theorem strip_spec (text : List Char) :
    ∃ l r, (∀ c ∈ l, isSpace c = true) ∧ (∀ c ∈ r, isSpace c = true) ∧
      text = l ++ strip text ++ r ∧ ∀ c, (strip text).head? = some c → isSpace c = false := by
  have hright := takeWhile_append_dropWhile
    (p := isSpace) (l := (text.dropWhile isSpace).reverse)
  have hrest : text.dropWhile isSpace = strip text ++
      ((text.dropWhile isSpace).reverse.takeWhile isSpace).reverse := by
    rw [strip, ← reverse_append, hright, reverse_reverse]
  refine ⟨text.takeWhile isSpace,
    ((text.dropWhile isSpace).reverse.takeWhile isSpace).reverse,
    fun c hc => mem_takeWhile_imp hc,
    fun c hc => mem_takeWhile_imp (mem_reverse.mp hc), ?_, fun c hc => ?_⟩
  · rw [append_assoc, ← hrest, takeWhile_append_dropWhile]
  · have hhead : (text.dropWhile isSpace).head? = some c := by
      rw [hrest, head?_append, hc]
      rfl
    have hnot := head?_dropWhile_not isSpace text
    rw [hhead] at hnot
    exact hnot

theorem mem_toDigits (hb : 1 < b) {c : Char} (hc : c ∈ Nat.toDigits b n) :
    ∃ d < b, c = d.digitChar := by
  induction n using Nat.strong_induction_on with
  | _ n ih =>
    rw [Nat.toDigits_eq_if hb] at hc
    split at hc
    · next hlt => exact ⟨n, hlt, by simpa using hc⟩
    · next hge =>
      rcases mem_append.mp hc with hc | hc
      · exact ih (n / b) (Nat.div_lt_self (by omega) hb) hc
      · exact ⟨n % b, Nat.mod_lt n (by omega), by simpa using hc⟩

theorem readFrom_append (acc : ℕ) (l m : List Char) :
    readFrom b acc (l ++ m) = (readFrom b acc l).bind fun a => readFrom b a m := by
  induction l generalizing acc with
  | nil => rfl
  | cons c cs ih =>
    simp only [cons_append, readFrom]
    cases digitValue c with
    | none => rfl
    | some d =>
      simp only [Option.bind_eq_bind, Option.bind_some]
      split
      · exact ih _
      · rfl

theorem readFrom_singleton {c : Char} (hc : digitValue c = some d) (hd : d < b) (acc : ℕ) :
    readFrom b acc [c] = some (b * acc + d) := by
  simp [readFrom, hc, hd]

theorem readFrom_toDigits (hb : 1 < b) (hb' : b ≤ 16) (n : ℕ) :
    readFrom b 0 (Nat.toDigits b n) = some n := by
  have hvalue : ∀ d < 16, digitValue d.digitChar = some d := by decide
  induction n using Nat.strong_induction_on with
  | _ n ih =>
    rw [Nat.toDigits_eq_if hb]
    split
    · next hlt =>
      have hread := readFrom_singleton (hvalue n (by omega)) hlt 0
      simpa using hread
    · next hge =>
      have hlt : n / b < n := Nat.div_lt_self (by omega) hb
      have hmod : n % b < b := Nat.mod_lt n (by omega)
      have hread := readFrom_singleton (hvalue (n % b) (by omega)) hmod (n / b)
      rw [readFrom_append, ih (n / b) hlt, Option.bind_some, hread, Nat.div_add_mod]

theorem read_toDigits (hb : 1 < b) (hb' : b ≤ 16) (n : ℕ) :
    read b (Nat.toDigits b n) = some n := by
  rw [read, if_neg (by simp)]
  exact readFrom_toDigits hb hb' n

theorem toDigits_eq_cons (hb : 1 < b) (hb' : b ≤ 16) (hn : 0 < n) :
    ∃ c rest, Nat.toDigits b n = c :: rest ∧ c ≠ '0' := by
  have hdigit : ∀ d < 16, 0 < d → d.digitChar ≠ '0' := by decide
  induction n using Nat.strong_induction_on with
  | _ n ih =>
    rw [Nat.toDigits_eq_if hb]
    split
    · next hlt => exact ⟨n.digitChar, [], rfl, hdigit n (by omega) hn⟩
    · next hge =>
      have hpos : 0 < n / b := Nat.div_pos (by omega) (by omega)
      obtain ⟨c, rest, heq, hc⟩ := ih (n / b) (Nat.div_lt_self hn hb) hpos
      exact ⟨c, rest ++ [(n % b).digitChar], by rw [heq, cons_append], hc⟩

end UltimateCaManager.Numerals
