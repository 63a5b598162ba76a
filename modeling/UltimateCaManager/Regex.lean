import Mathlib.Data.List.Basic

/-!
# Regular expressions

Matching of the regular expressions of Python's `re` that need no groups: character classes,
repetition, one-character lookaround and anchors. A position is the text read so far, last
character first, and the text ahead. `ends` lists the positions at which a match can end. The `$`
anchor also holds before a final line feed. An expression `Reads` a set of words when it consumes
exactly these from every position; the rules below put such sets together.
-/
namespace UltimateCaManager

open List

inductive Regex
  | set (p : Char → Bool)
  | seq (r s : Regex)
  | opt (r : Regex)
  /-- `r{least,most}`. -/
  | times (least most : ℕ) (r : Regex)
  /-- `r+`, for an expression that consumes something. -/
  | plus (r : Regex)
  | notAhead (p : Char → Bool)
  | notBehind (p : Char → Bool)
  | start
  | finish

namespace Regex

/-- The text read so far, reversed, and the text ahead. -/
abbrev Position := List Char × List Char

/-- The ends of between `least` and `most` matches in a row. -/
def repeated (f : Position → List Position) : ℕ → ℕ → Position → List Position
  | least, 0, pos => if least = 0 then [pos] else []
  | least, most + 1, pos =>
    (f pos).flatMap (repeated f (least - 1) most) ++ if least = 0 then [pos] else []

/-- The positions at which a match that starts at `pos` can end. -/
def ends : Regex → Position → List Position
  | .set p, (before, c :: after) => if p c then [(c :: before, after)] else []
  | .set _, (_, []) => []
  | .seq r s, pos => (r.ends pos).flatMap s.ends
  | .opt r, pos => r.ends pos ++ [pos]
  | .times least most r, pos => repeated r.ends least most pos
  | .plus r, pos => repeated r.ends 1 pos.2.length pos
  | .notAhead p, pos => if pos.2.head?.any p then [] else [pos]
  | .notBehind p, pos => if pos.1.head?.any p then [] else [pos]
  | .start, pos => if pos.1 = [] then [pos] else []
  | .finish, pos => if pos.2 = [] ∨ pos.2 = ['\n'] then [pos] else []

-- made here, its equations serve all proofs below
attribute [local grind =] ends

/-- `re.match` finds a match. -/
def isMatch (r : Regex) (text : List Char) : Bool := !(r.ends ([], text)).isEmpty

def char (c : Char) : Regex := .set (· = c)

variable {r : Regex} {W : List Char → Prop}

/-- From every position the function reaches the ends of the words ahead that are in `W`. -/
def Reads (f : Position → List Position) (W : List Char → Prop) : Prop :=
  ∀ before after before' after', (before', after') ∈ f (before, after) ↔
    ∃ w, W w ∧ after = w ++ after' ∧ before' = w.reverse ++ before

/-- Concatenations of words. -/
def Words (W : List Char → Prop) (least most : ℕ) (w : List Char) : Prop :=
  ∃ ws : List (List Char), (∀ u ∈ ws, W u) ∧ least ≤ ws.length ∧ ws.length ≤ most ∧ w = ws.flatten

theorem reads_set (p : Char → Bool) :
    Reads (Regex.set p).ends (fun w => ∃ c, p c = true ∧ w = [c]) := by
  intro before after before' after'
  cases after with
  | nil => simp [Regex.ends]
  | cons c after =>
    simp only [Regex.ends]
    constructor
    · intro h
      split at h
      next hp =>
        obtain ⟨rfl, rfl⟩ := Prod.mk.inj (mem_singleton.mp h)
        exact ⟨[c], ⟨c, hp, rfl⟩, rfl, rfl⟩
      next => cases h
    · rintro ⟨w, ⟨d, hd, rfl⟩, hafter, rfl⟩
      obtain ⟨rfl, rfl⟩ := cons.inj hafter
      simp [hd]

theorem Reads.seq {s : Regex} {V : List Char → Prop} (hr : Reads r.ends V) (hs : Reads s.ends W) :
    Reads (Regex.seq r s).ends (fun w => ∃ u v, V u ∧ W v ∧ w = u ++ v) := by
  intro before after before' after'
  simp only [Regex.ends, mem_flatMap, Prod.exists]
  constructor
  · rintro ⟨middle, rest, hfirst, hsecond⟩
    obtain ⟨u, hu, rfl, rfl⟩ := (hr _ _ _ _).mp hfirst
    obtain ⟨v, hv, rfl, rfl⟩ := (hs _ _ _ _).mp hsecond
    exact ⟨u ++ v, ⟨u, v, hu, hv, rfl⟩, by simp, by simp⟩
  · rintro ⟨w, ⟨u, v, hu, hv, rfl⟩, rfl, rfl⟩
    refine ⟨u.reverse ++ before, v ++ after', (hr _ _ _ _).mpr ⟨u, hu, by simp, rfl⟩, ?_⟩
    exact (hs _ _ _ _).mpr ⟨v, hv, rfl, by simp⟩

theorem Reads.opt (hr : Reads r.ends W) : Reads (Regex.opt r).ends (fun w => W w ∨ w = []) := by
  intro before after before' after'
  simp only [Regex.ends, mem_append, mem_singleton, Prod.mk.injEq, hr before after]
  constructor
  · rintro (⟨w, hw, hafter, hbefore⟩ | ⟨rfl, rfl⟩)
    · exact ⟨w, .inl hw, hafter, hbefore⟩
    · exact ⟨[], .inr rfl, rfl, rfl⟩
  · rintro ⟨w, hw | rfl, hafter, hbefore⟩
    · exact .inl ⟨w, hw, hafter, hbefore⟩
    · exact .inr ⟨hbefore, hafter.symm⟩

theorem Reads.repeated {f : Position → List Position} (hf : Reads f W)
    (least most : ℕ) : Reads (repeated f least most) (Words W least most) := by
  induction most generalizing least with
  | zero =>
    intro before after before' after'
    simp only [Regex.repeated]
    constructor
    · intro h
      split at h
      next hleast =>
        obtain ⟨rfl, rfl⟩ := Prod.mk.inj (mem_singleton.mp h)
        exact ⟨[], ⟨[], by simp, by omega, by simp, rfl⟩, rfl, rfl⟩
      next => cases h
    · rintro ⟨w, ⟨ws, -, hleast, hmost, rfl⟩, rfl, rfl⟩
      obtain rfl := length_eq_zero_iff.mp (Nat.le_zero.mp hmost)
      simpa using hleast
  | succ most ih =>
    intro before after before' after'
    simp only [Regex.repeated, mem_append, mem_flatMap, Prod.exists]
    constructor
    · rintro (⟨middle, rest, hfirst, hmore⟩ | h)
      · obtain ⟨u, hu, rfl, rfl⟩ := (hf _ _ _ _).mp hfirst
        obtain ⟨w, ⟨ws, hws, hleast, hmost, rfl⟩, rfl, rfl⟩ := (ih _ _ _ _ _).mp hmore
        refine ⟨u ++ ws.flatten, ⟨u :: ws, ?_, ?_, ?_, rfl⟩, by simp, by simp⟩
        · simpa using ⟨hu, hws⟩
        · simp only [length_cons]
          omega
        · simp only [length_cons]
          omega
      · split at h
        next hleast =>
          obtain ⟨rfl, rfl⟩ := Prod.mk.inj (mem_singleton.mp h)
          exact ⟨[], ⟨[], by simp, by omega, by simp, rfl⟩, rfl, rfl⟩
        next => cases h
    · rintro ⟨w, ⟨ws, hws, hleast, hmost, rfl⟩, rfl, rfl⟩
      cases ws with
      | nil =>
        simp only [length_nil, Nat.le_zero] at hleast
        simp [hleast]
      | cons u ws =>
        left
        simp only [length_cons] at hleast hmost
        refine ⟨u.reverse ++ before, ws.flatten ++ after', (hf _ _ _ _).mpr
          ⟨u, hws u mem_cons_self, by simp, rfl⟩, (ih _ _ _ _ _).mpr ?_⟩
        exact ⟨ws.flatten, ⟨ws, fun v hv => hws v (mem_cons_of_mem u hv), by omega, by omega,
          rfl⟩, rfl, by simp⟩

/-- Words that are not empty are no more than their characters. -/
theorem length_le_flatten (hW : ∀ w, W w → w ≠ []) {ws : List (List Char)}
    (hws : ∀ w ∈ ws, W w) : ws.length ≤ ws.flatten.length := by
  induction ws with
  | nil => simp
  | cons w ws ih =>
    have hpos := length_pos_of_ne_nil (hW w (hws w mem_cons_self))
    have hrest := ih fun v hv => hws v (mem_cons_of_mem w hv)
    simp only [length_cons, flatten_cons, length_append]
    omega

theorem Reads.plus (hr : Reads r.ends W) (hW : ∀ w, W w → w ≠ []) :
    Reads (Regex.plus r).ends
      (fun w => ∃ ws : List (List Char), (∀ u ∈ ws, W u) ∧ ws ≠ [] ∧ w = ws.flatten) := by
  intro before after before' after'
  rw [Regex.ends, hr.repeated 1 after.length before after]
  constructor
  · rintro ⟨w, ⟨ws, hws, hleast, -, rfl⟩, hafter, hbefore⟩
    exact ⟨_, ⟨ws, hws, ne_nil_of_length_pos hleast, rfl⟩, hafter, hbefore⟩
  · rintro ⟨w, ⟨ws, hws, hne, rfl⟩, hafter, hbefore⟩
    refine ⟨_, ⟨ws, hws, length_pos_of_ne_nil hne, ?_, rfl⟩, hafter, hbefore⟩
    have hlength := length_le_flatten hW hws
    rw [hafter, length_append]
    omega

theorem reads_class (p : Char → Bool) (least most : ℕ) :
    Reads (Regex.times least most (.set p)).ends
      (fun w => (∀ c ∈ w, p c = true) ∧ least ≤ w.length ∧ w.length ≤ most) := by
  intro before after before' after'
  rw [Regex.ends, (reads_set p).repeated least most before after]
  constructor
  · rintro ⟨w, ⟨ws, hws, hleast, hmost, rfl⟩, hafter, hbefore⟩
    obtain ⟨cs, hcs, rfl⟩ : ∃ cs : List Char, (∀ c ∈ cs, p c = true) ∧ ws = cs.map ([·]) := by
      clear hleast hmost hafter hbefore
      induction ws with
      | nil => exact ⟨[], by simp, rfl⟩
      | cons w ws ih =>
        obtain ⟨c, hc, rfl⟩ := hws w mem_cons_self
        obtain ⟨cs, hcs, rfl⟩ := ih fun u hu => hws u (mem_cons_of_mem _ hu)
        exact ⟨c :: cs, by simpa using ⟨hc, hcs⟩, rfl⟩
    have hflat : (cs.map ([·])).flatten = cs := by simp [← flatMap_def]
    rw [hflat] at hafter hbefore
    exact ⟨cs, ⟨hcs, by simpa using hleast, by simpa using hmost⟩, hafter, hbefore⟩
  · rintro ⟨w, ⟨hw, hleast, hmost⟩, hafter, hbefore⟩
    refine ⟨w, ⟨w.map ([·]), ?_, by simpa using hleast, by simpa using hmost, ?_⟩, hafter, hbefore⟩
    · intro u hu
      obtain ⟨c, hc, rfl⟩ := mem_map.mp hu
      exact ⟨c, hw c hc, rfl⟩
    · simp [← flatMap_def]

/-- `(?!p)r(?<!q)`: a word of the expression that does not begin with `p` or end with `q`. -/
theorem Reads.between (hr : Reads r.ends W) (hW : ∀ w, W w → w ≠ []) (p q : Char → Bool) :
    Reads (Regex.seq (.notAhead p) (.seq r (.notBehind q))).ends
      (fun w => W w ∧ w.head?.any p = false ∧ w.getLast?.any q = false) := by
  intro before after before' after'
  have hfirst : ∀ w : List Char, w ≠ [] → ∀ rest, (w ++ rest).head? = w.head? := by
    intro w hw rest
    exact head?_append_of_ne_nil w hw
  have hlast : ∀ w : List Char, w ≠ [] → ∀ rest, (w.reverse ++ rest).head? = w.getLast? := by
    intro w hw rest
    rw [head?_append_of_ne_nil _ (reverse_ne_nil_iff.mpr hw), head?_reverse]
  simp only [Regex.ends]
  by_cases hahead : after.head?.any p = true
  · simp only [hahead, if_true, flatMap_nil, not_mem_nil, false_iff]
    rintro ⟨w, ⟨hw, hp, -⟩, rfl, -⟩
    rw [hfirst w (hW w hw), hp] at hahead
    cases hahead
  · simp only [hahead, Bool.false_eq_true, if_false, flatMap_cons, flatMap_nil,
      append_nil, mem_flatMap, Prod.exists]
    rw [Bool.not_eq_true] at hahead
    constructor
    · rintro ⟨middle, rest, hword, hmem⟩
      obtain ⟨w, hw, rfl, rfl⟩ := (hr _ _ _ _).mp hword
      rw [hlast w (hW w hw)] at hmem
      split at hmem
      next => cases hmem
      next hq =>
        obtain ⟨rfl, rfl⟩ := Prod.mk.inj (mem_singleton.mp hmem)
        rw [hfirst w (hW w hw)] at hahead
        exact ⟨w, ⟨hw, hahead, by simpa using hq⟩, rfl, rfl⟩
    · rintro ⟨w, ⟨hw, -, hq⟩, rfl, rfl⟩
      refine ⟨_, _, (hr _ _ _ _).mpr ⟨w, hw, rfl, rfl⟩, ?_⟩
      rw [hlast w (hW w hw), hq]
      exact mem_singleton_self _

/-- `^r$`: the text is a word of the expression, which a line feed may follow. -/
def anchored (r : Regex) : Regex := .seq .start (.seq r .finish)

theorem Reads.anchored_isMatch (hr : Reads r.ends W) {text : List Char} :
    r.anchored.isMatch text = true ↔ ∃ w, W w ∧ (text = w ∨ text = w ++ ['\n']) := by
  rw [Regex.isMatch, Bool.not_eq_true', isEmpty_eq_false_iff_exists_mem]
  simp only [Regex.anchored, Regex.ends, if_true, flatMap_cons, flatMap_nil,
    append_nil, mem_flatMap]
  constructor
  · rintro ⟨pos, ⟨before, after⟩, hmem, hpos⟩
    obtain ⟨w, hw, rfl, -⟩ := (hr _ _ _ _).mp hmem
    split at hpos
    next hend =>
      rcases hend with hend | hend
      · exact ⟨w, hw, .inl (by simp_all)⟩
      · exact ⟨w, hw, .inr (by simp_all)⟩
    next => cases hpos
  · rintro ⟨w, hw, rfl | rfl⟩
    · refine ⟨(text.reverse, []), (text.reverse, []), (hr _ _ _ _).mpr ⟨text, hw, ?_, ?_⟩, ?_⟩ <;>
        simp
    · refine ⟨(w.reverse, ['\n']), (w.reverse, ['\n']), (hr _ _ _ _).mpr ⟨w, hw, ?_, ?_⟩, ?_⟩ <;>
        simp

end Regex

end UltimateCaManager
