import Mathlib.Algebra.Group.Nat.Defs
import Mathlib.Data.List.Basic
import Mathlib.Order.MinMax

/-!
# Bounded decompression of a backup

`decompress_bounded` over the decompression objects of `zlib`, which stay abstract: only what they
promise about their output and their input is used.
-/
namespace UltimateCaManager.Container

abbrev Bytes := List UInt8

/-- What one call of `decompress` returns, and the attributes of the object after it. -/
structure Inflated (σ : Type) where
  chunk : Bytes
  state : σ
  unconsumedTail : Bytes
  unusedData : Bytes
  eof : Bool

/-- What the call leaves of its input. -/
def Inflated.left {σ : Type} (d : Inflated σ) : Bytes :=
  if d.eof then d.unusedData else d.unconsumedTail

/-- Decompression objects in states `σ`; a call that returns nothing raised `zlib.error`. What an
object gives to the end of its member when it is fed an input, and the bytes after the member, are
`toCome`. -/
structure Zlib (σ : Type) where
  decompressobj : σ
  decompress : σ → Bytes → ℕ → Option (Inflated σ)
  toCome : σ → Bytes → Option (Bytes × Bytes)
  bounded : ∀ {s x n d}, decompress s x n = some d → d.chunk.length ≤ n
  consumes : ∀ {s x n d}, decompress s x n = some d → d.left.length ≤ x.length
  progress : ∀ {s x n d}, decompress s x n = some d → 0 < n → x ≠ [] →
    d.chunk ≠ [] ∨ d.left.length < x.length
  ends : ∀ {s x n d}, decompress s x n = some d → d.eof = true →
    toCome s x = some (d.chunk, d.unusedData)
  goes_on : ∀ {s x n d}, decompress s x n = some d → d.eof = false →
    toCome s x = (toCome d.state d.unconsumedTail).map (Prod.map (d.chunk ++ ·) id)

variable {σ : Type} (z : Zlib σ) (limit : ℕ)

/-- The gzip members of a text and their outputs, one after the other. -/
inductive Members : Bytes → Bytes → Prop
  | nil : Members [] []
  | cons {text out rest outs : Bytes} (hne : text ≠ [])
      (hmember : z.toCome z.decompressobj text = some (out, rest)) (hrest : Members rest outs) :
      Members text (out ++ outs)

/-- The promises can be kept: here every byte is a member that gives itself. -/
def copying : Zlib Unit where
  decompressobj := ()
  decompress _ x n :=
    match x, n with
    | b :: rest, _ + 1 => some ⟨[b], (), [], rest, true⟩
    | x, _ => some ⟨[], (), x, [], false⟩
  toCome _ x := x.head?.map fun b => ([b], x.tail)
  bounded := by rintro _ (_ | _) (_ | _) _ ⟨⟩ <;> simp
  consumes := by rintro _ (_ | _) (_ | _) _ ⟨⟩ <;> simp [Inflated.left]
  progress := by rintro _ (_ | _) (_ | _) _ ⟨⟩ <;> simp
  ends := by rintro _ (_ | _) (_ | _) _ ⟨⟩ <;> simp
  goes_on := by rintro _ (_ | _) (_ | _) _ ⟨⟩ <;> simp

/-- Bytes after a member were in the input of the call, so that the call made progress. -/
theorem Zlib.progress_of_unused {z : Zlib σ} {s : σ} {x : Bytes} {n : ℕ} {d : Inflated σ}
    (hd : z.decompress s x n = some d) (hn : 0 < n) (heof : d.eof = true)
    (hunused : d.unusedData ≠ []) :
    d.unusedData.length ≤ x.length ∧ (0 < d.chunk.length ∨ d.unusedData.length < x.length) := by
  have hconsumes := z.consumes hd
  have hprogress := z.progress hd hn
  simp only [Inflated.left, heof, if_true, ← List.length_pos_iff] at hconsumes hprogress hunused
  exact ⟨hconsumes, hprogress (by omega)⟩

/-- The result, and the most bytes of output that were held at once. -/
structure Outcome where
  result : Except String Bytes
  peak : ℕ

def Outcome.after (o : Outcome) (held : ℕ) : Outcome := { o with peak := max held o.peak }

def inflateChunk : ℕ := 1024 * 1024

/-- The two loops, with the output held so far, the object and the input that remains. At the end
the chunks are joined, and the chunks and the joined bytes are held together. -/
def inflate (held : Bytes) (s : σ) (remaining : Bytes) : Outcome :=
  match hd : z.decompress s remaining inflateChunk with
  | none => ⟨.error "Invalid backup: gzip decompression failed", held.length⟩
  | some d =>
    let produced := held.length + d.chunk.length
    if hlimit : limit < produced then
      ⟨.error "Refusing backup: its compressed payload expands beyond the accepted size", produced⟩
    else if heof : d.eof = true then
      if hend : d.unusedData = [] then ⟨.ok (held ++ d.chunk), 2 * produced⟩
      else
        have := Zlib.progress_of_unused hd (by decide) heof hend
        (inflate (held ++ d.chunk) z.decompressobj d.unusedData).after produced
    else if hstuck : d.chunk = [] ∧ remaining.length - d.unconsumedTail.length = 0 then
      ⟨.error "Invalid backup: truncated compressed payload", produced⟩
    else
      have : d.unconsumedTail.length ≤ remaining.length := by
        simpa [Inflated.left, heof] using z.consumes hd
      (inflate (held ++ d.chunk) d.state d.unconsumedTail).after produced
termination_by remaining.length + (limit - held.length)
decreasing_by
  all_goals grind [List.length_eq_zero_iff]

/-- `decompress_bounded`, for the limit that the source computes from the length of the input. -/
def decompressBounded (plaintext : Bytes) : Outcome :=
  if plaintext = [] then ⟨.error "Invalid backup: empty compressed payload", 0⟩
  else inflate z limit [] z.decompressobj plaintext

variable {z limit} {held remaining out : Bytes} {s : σ}

theorem inflate_peak (h : held.length ≤ limit) :
    (inflate z limit held s remaining).peak ≤ max (limit + inflateChunk) (2 * limit) := by
  fun_induction inflate z limit held s remaining with
  | case1 =>
    show List.length _ ≤ _
    omega
  | case2 _ _ _ d hd | case5 _ _ _ d hd =>
    have := z.bounded hd
    show List.length _ + List.length _ ≤ _
    omega
  | case3 _ _ _ d hd produced hlimit =>
    show 2 * produced ≤ _
    omega
  | case4 _ _ _ d hd produced hlimit _ _ _ ih | case6 _ _ _ d hd produced hlimit _ _ _ ih =>
    exact max_le (by omega) (ih (by simpa using hlimit))

/-- What is returned is what was held, what the object still gave and the members after that. -/
theorem inflate_eq_ok (h : (inflate z limit held s remaining).result = .ok out) :
    ∃ o rest outs, z.toCome s remaining = some (o, rest) ∧ Members z rest outs ∧
      out = held ++ (o ++ outs) := by
  fun_induction inflate z limit held s remaining with
  | case1 | case2 | case5 => cases h
  | case3 held s remaining d hd _ _ heof hend =>
    obtain rfl := Except.ok.inj h
    exact ⟨d.chunk, [], [], hend ▸ z.ends hd heof, .nil, by simp⟩
  | case4 held s remaining d hd _ _ heof hend _ ih =>
    obtain ⟨o, rest, outs, ho, hrest, rfl⟩ := ih h
    exact ⟨d.chunk, _, _, z.ends hd heof, .cons hend ho hrest, by simp⟩
  | case6 held s remaining d hd _ _ heof _ _ ih =>
    obtain ⟨o, rest, outs, ho, hrest, rfl⟩ := ih h
    refine ⟨d.chunk ++ o, rest, outs, ?_, hrest, by simp⟩
    simp [z.goes_on hd (by simpa using heof), ho]

/-- The function is total, holds at most a chunk more than the limit or, when the chunks are joined,
twice the limit, and returns the outputs of the members of its input or raises. -/
theorem decompressBounded_spec (plaintext : Bytes) :
    let outcome := decompressBounded z limit plaintext
    outcome.peak ≤ max (limit + inflateChunk) (2 * limit) ∧
      ((∃ out, Members z plaintext out ∧ outcome.result = .ok out) ∨
        ∃ message, outcome.result = .error message) := by
  simp only [decompressBounded]
  split
  · exact ⟨Nat.zero_le _, .inr ⟨_, rfl⟩⟩
  · next hne =>
    refine ⟨inflate_peak (Nat.zero_le _), ?_⟩
    cases hresult : (inflate z limit [] z.decompressobj plaintext).result with
    | error message => exact .inr ⟨message, rfl⟩
    | ok out =>
      obtain ⟨o, rest, outs, ho, hrest, rfl⟩ := inflate_eq_ok hresult
      exact .inl ⟨_, .cons hne ho hrest, rfl⟩

theorem inflate_copying (held text : Bytes) (hne : text ≠ [])
    (h : held.length + text.length ≤ limit) :
    let outcome := inflate copying limit held copying.decompressobj text
    outcome.result = .ok (held ++ text) ∧ 2 * (held.length + text.length) ≤ outcome.peak := by
  induction text generalizing held with
  | nil => exact absurd rfl hne
  | cons b rest ih =>
    have hcall : copying.decompress copying.decompressobj (b :: rest) inflateChunk =
      some ⟨[b], (), [], rest, true⟩ := rfl
    rw [List.length_cons] at h
    have hlimit : ¬ limit < held.length + 1 := by omega
    rw [inflate]
    split
    · next hd => cases hcall.symm.trans hd
    · next d hd =>
      obtain rfl := Option.some.inj (hcall.symm.trans hd)
      by_cases hend : rest = []
      · simp [hend, hlimit]
      · obtain ⟨hresult, hpeak⟩ := ih (held ++ [b]) hend (by simp; omega)
        simp [hend, hlimit, Outcome.after] at hresult hpeak ⊢
        exact ⟨hresult, .inr (by omega)⟩

theorem decompressBounded_copying (text : Bytes) (hne : text ≠ []) (h : text.length ≤ limit) :
    let outcome := decompressBounded copying limit text
    outcome.result = .ok text ∧ 2 * text.length ≤ outcome.peak := by
  simpa [decompressBounded, hne] using inflate_copying [] text hne (by simpa using h)

/-- Two MiB that are within the limit are held twice, which is more than the limit and a chunk. -/
theorem joined_chunks_held_twice :
    ¬ (decompressBounded copying (2 ^ 21) (List.replicate (2 ^ 21) 0)).peak ≤
      2 ^ 21 + inflateChunk := by
  have hlength : (List.replicate (2 ^ 21) (0 : UInt8)).length = 2 ^ 21 := List.length_replicate
  generalize List.replicate (2 ^ 21) (0 : UInt8) = text at hlength
  have hne : text ≠ [] := by
    rintro rfl
    simp at hlength
  have h := (decompressBounded_copying text hne hlength.le).2
  simp only [hlength, inflateChunk] at h ⊢
  omega

/-- Three members: with room for three bytes they are returned, and held within the bound. -/
theorem decompressBounded_spec_copying :
    (decompressBounded copying 3 [1, 2, 3]).peak ≤ max (3 + inflateChunk) (2 * 3) ∧
      Members copying [1, 2, 3] [1, 2, 3] := by
  have hresult : (decompressBounded copying 3 [1, 2, 3]).result = .ok [1, 2, 3] :=
    (decompressBounded_copying [1, 2, 3] (by simp) (by simp)).1
  obtain ⟨hpeak, ⟨out, hmembers, hout⟩ | ⟨message, herror⟩⟩ :=
    @decompressBounded_spec Unit copying 3 [1, 2, 3]
  · cases hout.symm.trans hresult
    exact ⟨hpeak, hmembers⟩
  · cases herror.symm.trans hresult

end UltimateCaManager.Container
