import Mathlib.Data.List.Basic

/-!
# Base64

The encoder, and the lenient decoder that skips characters outside the alphabet, stops at a
complete padding, and fails when its input ends inside a group. The texts that the encoder gives
are told by their form.
-/
namespace UltimateCaManager.Base64

def symbol (n : ℕ) : Char :=
  if n < 26 then .ofNat (65 + n)
  else if n < 52 then .ofNat (71 + n)
  else if n < 62 then .ofNat (n - 4)
  else if n = 62 then '+' else '/'

def value? (c : Char) : Option ℕ :=
  let n := c.toNat
  if 65 ≤ n ∧ n ≤ 90 then some (n - 65)
  else if 97 ≤ n ∧ n ≤ 122 then some (n - 71)
  else if 48 ≤ n ∧ n ≤ 57 then some (n + 4)
  else if n = 43 then some 62
  else if n = 47 then some 63
  else none

/-- Bytes in groups of three become symbols in groups of four. -/
def encode : List UInt8 → List Char
  | [] => []
  | [a] => [symbol (a.toNat / 4), symbol (a.toNat % 4 * 16), '=', '=']
  | [a, b] =>
    [symbol (a.toNat / 4), symbol (a.toNat % 4 * 16 + b.toNat / 16), symbol (b.toNat % 16 * 4), '=']
  | a :: b :: c :: rest =>
    symbol (a.toNat / 4) :: symbol (a.toNat % 4 * 16 + b.toNat / 16) ::
      symbol (b.toNat % 16 * 4 + c.toNat / 64) :: symbol (c.toNat % 64) :: encode rest

/-- The decoder at a position of a group, with the bits left over and the padding seen. -/
def decodeFrom : List Char → ℕ → ℕ → ℕ → Option (List UInt8)
  | [], position, _, _ => if position = 0 then some [] else none
  | c :: cs, position, left, pads =>
    if c = '=' then
      if 2 ≤ position then
        if 4 ≤ position + (pads + 1) then some [] else decodeFrom cs position left (pads + 1)
      else decodeFrom cs position left pads
    else
      match value? c with
      | none => decodeFrom cs position left pads
      | some v =>
        match position with
        | 0 => decodeFrom cs 1 v 0
        | 1 => (decodeFrom cs 2 (v % 16) 0).map (.ofNat (left * 4 + v / 16) :: ·)
        | 2 => (decodeFrom cs 3 (v % 4) 0).map (.ofNat (left * 16 + v / 4) :: ·)
        | _ => (decodeFrom cs 0 0 0).map (.ofNat (left * 64 + v) :: ·)

/-- Text outside ASCII is refused. -/
def decode (text : List Char) : Option (List UInt8) :=
  if text.all fun c => c.toNat < 128 then decodeFrom text 0 0 0 else none

/-- The last symbol before a padding leaves its unused bits zero. -/
def spare (c : Char) (bits : ℕ) : Bool := (value? c).any fun v => v % bits = 0

/-- Groups of four symbols; a padding at the end only, and no bits lost under it. -/
def canonical : List Char → Bool
  | [] => true
  | [a, b, '=', '='] => (value? a).isSome && spare b 16
  | [a, b, c, '='] => (value? a).isSome && (value? b).isSome && spare c 4
  | a :: b :: c :: d :: rest =>
    (value? a).isSome && (value? b).isSome && (value? c).isSome && (value? d).isSome && canonical rest
  | _ => false

variable {n : ℕ} {c : Char}

theorem value?_symbol (h : n < 64) : value? (symbol n) = some n := by
  revert n
  decide

theorem symbol_toNat_lt (h : n < 64) : (symbol n).toNat < 128 := by
  revert n
  decide

theorem symbol_ne_pad (h : n < 64) : symbol n ≠ '=' := by
  revert n
  decide

theorem eq_symbol (h : value? c = some n) : n < 64 ∧ symbol n = c := by
  simp only [value?] at h
  have hc : c = .ofNat c.toNat := (Char.ofNat_toNat c).symm
  split_ifs at h with h₁ h₂ h₃ h₄ h₅
  all_goals
    obtain rfl : _ = n := Option.some.inj h
    refine ⟨by omega, ?_⟩
    rw [symbol]
  · rw [if_pos (by omega), Nat.add_sub_cancel' h₁.1, ← hc]
  · rw [if_neg (by omega), if_pos (by omega), Nat.add_sub_cancel' (by omega), ← hc]
  · rw [if_neg (by omega), if_neg (by omega), if_pos (by omega), Nat.add_sub_cancel, ← hc]
  · rw [hc, h₄]
    rfl
  · rw [hc, h₅]
    rfl

/-! ## One symbol, one step of the decoder -/

section Steps

variable {n left pads : ℕ} (h : n < 64) (cs : List Char)
include h

theorem decodeFrom_zero : decodeFrom (symbol n :: cs) 0 left pads = decodeFrom cs 1 n 0 := by
  simp [decodeFrom, symbol_ne_pad h, value?_symbol h]

theorem decodeFrom_one : decodeFrom (symbol n :: cs) 1 left pads =
    (decodeFrom cs 2 (n % 16) 0).map (.ofNat (left * 4 + n / 16) :: ·) := by
  simp [decodeFrom, symbol_ne_pad h, value?_symbol h]

theorem decodeFrom_two : decodeFrom (symbol n :: cs) 2 left pads =
    (decodeFrom cs 3 (n % 4) 0).map (.ofNat (left * 16 + n / 4) :: ·) := by
  simp [decodeFrom, symbol_ne_pad h, value?_symbol h]

theorem decodeFrom_three : decodeFrom (symbol n :: cs) 3 left pads =
    (decodeFrom cs 0 0 0).map (.ofNat (left * 64 + n) :: ·) := by
  simp [decodeFrom, symbol_ne_pad h, value?_symbol h]

end Steps

theorem decodeFrom_pad_two (left : ℕ) : decodeFrom ['=', '='] 2 left 0 = some [] := rfl

theorem decodeFrom_pad_three (left : ℕ) : decodeFrom ['='] 3 left 0 = some [] := rfl

/-- A byte is put together from the bits that two symbols carry. -/
theorem ofNat_join {a : UInt8} (h : n = a.toNat) : UInt8.ofNat n = a := by
  rw [h, UInt8.ofNat_toNat]

theorem decodeFrom_encode (bytes : List UInt8) : decodeFrom (encode bytes) 0 0 0 = some bytes := by
  induction bytes using encode.induct with
  | case1 => rfl
  | case2 a =>
    have ha := a.toNat_lt
    rw [encode, decodeFrom_zero (by omega), decodeFrom_one (by omega), decodeFrom_pad_two]
    simp only [Option.map_some]
    rw [ofNat_join (a := a) (by omega)]
  | case3 a b =>
    have ha := a.toNat_lt
    have hb := b.toNat_lt
    rw [encode, decodeFrom_zero (by omega), decodeFrom_one (by omega), decodeFrom_two (by omega),
      decodeFrom_pad_three]
    simp only [Option.map_some]
    rw [ofNat_join (a := a) (by omega), ofNat_join (a := b) (by omega)]
  | case4 a b c rest ih =>
    have ha := a.toNat_lt
    have hb := b.toNat_lt
    have hc := c.toNat_lt
    rw [encode, decodeFrom_zero (by omega), decodeFrom_one (by omega), decodeFrom_two (by omega),
      decodeFrom_three (by omega), ih]
    simp only [Option.map_some]
    rw [ofNat_join (a := a) (by omega), ofNat_join (a := b) (by omega),
      ofNat_join (a := c) (by omega)]

theorem encode_ascii (bytes : List UInt8) : ∀ c ∈ encode bytes, c.toNat < 128 := by
  induction bytes using encode.induct with
  | case1 => simp [encode]
  | case2 a =>
    have ha := a.toNat_lt
    simp only [encode, List.forall_mem_cons]
    exact ⟨symbol_toNat_lt (by omega), symbol_toNat_lt (by omega), by decide, by decide, by simp⟩
  | case3 a b =>
    have ha := a.toNat_lt
    have hb := b.toNat_lt
    simp only [encode, List.forall_mem_cons]
    exact ⟨symbol_toNat_lt (by omega), symbol_toNat_lt (by omega), symbol_toNat_lt (by omega),
      by decide, by simp⟩
  | case4 a b c rest ih =>
    have ha := a.toNat_lt
    have hb := b.toNat_lt
    have hc := c.toNat_lt
    simp only [encode, List.forall_mem_cons]
    exact ⟨symbol_toNat_lt (by omega), symbol_toNat_lt (by omega), symbol_toNat_lt (by omega),
      symbol_toNat_lt (by omega), ih⟩

@[simp] theorem decode_encode (bytes : List UInt8) : decode (encode bytes) = some bytes := by
  have hascii : (encode bytes).all (fun c => c.toNat < 128) = true := by
    simpa using encode_ascii bytes
  rw [decode, if_pos hascii, decodeFrom_encode]

/-! ## The texts of the encoder -/

theorem isSome_value?_symbol (h : n < 64) : (value? (symbol n)).isSome = true := by
  rw [value?_symbol h]
  rfl

theorem spare_symbol {bits : ℕ} (h : n < 64) (hbits : n % bits = 0) :
    spare (symbol n) bits = true := by
  simp [spare, value?_symbol h, hbits]

theorem canonical_padded (a b : Char) (hc : c ≠ '=') :
    canonical [a, b, c, '='] = ((value? a).isSome && (value? b).isSome && spare c 4) :=
  canonical.eq_3 a b c hc

theorem canonical_group {a b d : Char} {rest : List Char} (ha : (value? a).isSome = true)
    (hb : (value? b).isSome = true) (hc : (value? c).isSome = true) (hd : (value? d).isSome = true)
    (hrest : canonical rest = true) : canonical (a :: b :: c :: d :: rest) = true := by
  have hpad : d ≠ '=' := by
    intro heq
    rw [heq] at hd
    cases hd
  rw [canonical.eq_4 _ _ _ _ _ (fun _ heq _ => hpad heq) (fun heq _ => hpad heq), ha, hb, hc, hd,
    hrest]
  rfl

theorem canonical_encode (bytes : List UInt8) : canonical (encode bytes) = true := by
  induction bytes using encode.induct with
  | case1 => rfl
  | case2 a =>
    have ha := a.toNat_lt
    rw [encode, canonical, isSome_value?_symbol (by omega), spare_symbol (by omega) (by omega)]
    rfl
  | case3 a b =>
    have ha := a.toNat_lt
    have hb := b.toNat_lt
    rw [encode, canonical_padded _ _ (symbol_ne_pad (by omega)), isSome_value?_symbol (by omega),
      isSome_value?_symbol (by omega), spare_symbol (by omega) (by omega)]
    rfl
  | case4 a b c rest ih =>
    have ha := a.toNat_lt
    have hb := b.toNat_lt
    have hc := c.toNat_lt
    exact canonical_group (isSome_value?_symbol (by omega)) (isSome_value?_symbol (by omega))
      (isSome_value?_symbol (by omega)) (isSome_value?_symbol (by omega)) ih

theorem exists_symbol (h : (value? c).isSome = true) : ∃ n < 64, c = symbol n := by
  obtain ⟨n, hn⟩ := Option.isSome_iff_exists.mp h
  exact ⟨n, (eq_symbol hn).1, (eq_symbol hn).2.symm⟩

theorem exists_spare {bits : ℕ} (h : spare c bits = true) :
    ∃ n < 64, n % bits = 0 ∧ c = symbol n := by
  cases hn : value? c with
  | none => simp [spare, hn] at h
  | some n => exact ⟨n, (eq_symbol hn).1, by simpa [spare, hn] using h, (eq_symbol hn).2.symm⟩

theorem toNat_byte (h : n < 256) : (UInt8.ofNat n).toNat = n := UInt8.toNat_ofNat_of_lt h

theorem exists_encode_eq (text : List Char) (h : canonical text = true) :
    ∃ bytes, encode bytes = text := by
  induction text using canonical.induct with
  | case1 => exact ⟨[], rfl⟩
  | case2 a b =>
    simp only [canonical, Bool.and_eq_true] at h
    obtain ⟨x, hx, rfl⟩ := exists_symbol h.1
    obtain ⟨y, hy, hspare, rfl⟩ := exists_spare h.2
    refine ⟨[.ofNat (x * 4 + y / 16)], ?_⟩
    rw [encode, toNat_byte (by omega), show (x * 4 + y / 16) / 4 = x by omega,
      show (x * 4 + y / 16) % 4 * 16 = y by omega]
  | case3 a b c hc =>
    rw [canonical.eq_3 a b c hc, Bool.and_eq_true, Bool.and_eq_true] at h
    obtain ⟨x, hx, rfl⟩ := exists_symbol h.1.1
    obtain ⟨y, hy, rfl⟩ := exists_symbol h.1.2
    obtain ⟨z, hz, hspare, rfl⟩ := exists_spare h.2
    refine ⟨[.ofNat (x * 4 + y / 16), .ofNat (y % 16 * 16 + z / 4)], ?_⟩
    rw [encode, toNat_byte (by omega), toNat_byte (by omega),
      show (x * 4 + y / 16) / 4 = x by omega,
      show (x * 4 + y / 16) % 4 * 16 + (y % 16 * 16 + z / 4) / 16 = y by omega,
      show (y % 16 * 16 + z / 4) % 16 * 4 = z by omega]
  | case4 a b c d rest h₁ h₂ ih =>
    rw [canonical.eq_4 _ _ _ _ _ h₁ h₂] at h
    simp only [Bool.and_eq_true] at h
    obtain ⟨⟨⟨⟨ha, hb⟩, hc⟩, hd⟩, hrest⟩ := h
    obtain ⟨x, hx, rfl⟩ := exists_symbol ha
    obtain ⟨y, hy, rfl⟩ := exists_symbol hb
    obtain ⟨z, hz, rfl⟩ := exists_symbol hc
    obtain ⟨u, hu, rfl⟩ := exists_symbol hd
    obtain ⟨bytes, rfl⟩ := ih hrest
    refine ⟨.ofNat (x * 4 + y / 16) :: .ofNat (y % 16 * 16 + z / 4) :: .ofNat (z % 4 * 64 + u) ::
      bytes, ?_⟩
    rw [encode, toNat_byte (by omega), toNat_byte (by omega), toNat_byte (by omega),
      show (x * 4 + y / 16) / 4 = x by omega,
      show (x * 4 + y / 16) % 4 * 16 + (y % 16 * 16 + z / 4) / 16 = y by omega,
      show (y % 16 * 16 + z / 4) % 16 * 4 + (z % 4 * 64 + u) / 64 = z by omega,
      show (z % 4 * 64 + u) % 64 = u by omega]
  | case5 text h₁ h₂ h₃ h₄ => simp_all [canonical]

/-- A text that decodes is what its bytes encode to exactly when it is canonical. -/
theorem encode_eq_iff {text : List Char} {bytes : List UInt8} (h : decode text = some bytes) :
    encode bytes = text ↔ canonical text = true := by
  constructor
  · intro heq
    rw [← heq]
    exact canonical_encode bytes
  · intro hcanonical
    obtain ⟨bytes', rfl⟩ := exists_encode_eq text hcanonical
    rw [decode_encode, Option.some.injEq] at h
    rw [h]

end UltimateCaManager.Base64
