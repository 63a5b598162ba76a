import UltimateCaManager.AcmeData
import UltimateCaManager.Numerals

/-!
# Which registered entry covers a domain

`domain_match` of the ACME service: an entry covers itself and everything under it, and the most
specific entry decides. Identifiers that reach the lookup are ASCII, so lower-casing is that of
ASCII letters.
-/
namespace UltimateCaManager.Acme

open List Numerals

def stripWildcard (value : String) : Option String :=
  match value.toList with
  | '*' :: '.' :: rest => some (String.ofList rest)
  | _ => none

theorem toList_of_stripWildcard {value rest : String} (h : stripWildcard value = some rest) :
    value.toList = '*' :: '.' :: rest.toList := by
  unfold stripWildcard at h
  split at h
  next chars heq =>
    rw [heq, ← Option.some.inj h, String.toList_ofList]
  next => cases h

def rstripDots (text : List Char) : List Char :=
  (text.reverse.dropWhile (· = '.')).reverse

/-- The bare form of a domain: lower-case, no wildcard label, no trailing dot. A star anywhere
else leaves nothing that could match. -/
def normalize (domain : String) : List Char :=
  let lowered := (strip domain.toList).map Char.toLower
  let bare := rstripDots (match lowered with
    | '*' :: '.' :: rest => rest
    | other => other)
  if '*' ∈ bare then [] else bare

/-- The name and each of its parents, the name first. -/
def levels (bare : List Char) : List (List Char) :=
  ((bare.splitOn '.').tails.filter (· ≠ [])).map (List.intercalate ['.'])

/-- Every stored spelling that covers `domain`, most specific first. -/
def candidates (domain : String) : List String :=
  if normalize domain = [] then []
  else (levels (normalize domain)).flatMap fun level =>
    [String.ofList level, String.ofList ('*' :: '.' :: level)]

/-- The first row that no other row comes strictly before, as Python's `min` and an `ORDER BY`
with `first()` pick it. -/
def firstBy {α : Type} (before : α → α → Bool) : List α → Option α
  | [] => none
  | a :: rest => match firstBy before rest with
    | none => some a
    | some b => if before b a then some b else some a

theorem mem_of_firstBy {α : Type} {before : α → α → Bool} {rows : List α} {a : α}
    (h : firstBy before rows = some a) : a ∈ rows := by
  induction rows generalizing a with
  | nil => cases h
  | cons r rest ih =>
    simp only [firstBy] at h
    split at h
    next => cases h; simp
    next b hb =>
      split at h
      next => cases h; exact mem_cons_of_mem r (ih hb)
      next => cases h; simp

def find (rows : List DomainEntry) (domain : String) : Option DomainEntry :=
  let wanted := candidates domain
  let lower := fun row : DomainEntry => String.ofList (row.domain.toList.map Char.toLower)
  firstBy (fun row other => wanted.idxOf (lower row) < wanted.idxOf (lower other))
    (rows.filter (·.domain ∈ wanted))

/-- The entry, read without its wildcard label, is the bare domain or one of its parents. -/
def Covers (entry : DomainEntry) (domain : String) : Prop :=
  ∃ base, (entry.domain.toList = base ∨ entry.domain.toList = '*' :: '.' :: base) ∧
    (normalize domain = base ∨ ∃ front, normalize domain = front ++ '.' :: base)

/-- Joining labels ends in the join of any last part of them, at a label boundary. -/
theorem intercalate_suffix {front rest : List (List Char)} (hrest : rest ≠ []) :
    List.intercalate ['.'] (front ++ rest) = List.intercalate ['.'] rest ∨
      ∃ pre, List.intercalate ['.'] (front ++ rest) =
        pre ++ '.' :: List.intercalate ['.'] rest := by
  induction front with
  | nil => exact .inl rfl
  | cons label front ih =>
    right
    rw [cons_append, intercalate_cons_of_ne_nil (by simp [hrest])]
    rcases ih with heq | ⟨pre, heq⟩
    · exact ⟨label, by simp [heq]⟩
    · exact ⟨label ++ '.' :: pre, by simp [heq]⟩

theorem mem_levels {bare level : List Char} (h : level ∈ levels bare) :
    bare = level ∨ ∃ front, bare = front ++ '.' :: level := by
  simp only [levels, mem_map, mem_filter, mem_tails, decide_eq_true_eq] at h
  obtain ⟨rest, ⟨⟨front, hfront⟩, hne⟩, rfl⟩ := h
  have hbare : List.intercalate ['.'] (front ++ rest) = bare := by
    rw [hfront, intercalate_splitOn]
  rw [← hbare]
  exact intercalate_suffix hne

theorem covers_of_mem_candidates {domain : String} {entry : DomainEntry}
    (h : entry.domain ∈ candidates domain) : Covers entry domain := by
  unfold candidates at h
  split at h
  · cases h
  · simp only [mem_flatMap, mem_cons, not_mem_nil, or_false] at h
    obtain ⟨level, hlevel, hspell⟩ := h
    refine ⟨level, ?_, mem_levels hlevel⟩
    rcases hspell with hspell | hspell
    · exact .inl (by rw [hspell, String.toList_ofList])
    · exact .inr (by rw [hspell, String.toList_ofList])

theorem find_covers {rows : List DomainEntry} {domain : String} {entry : DomainEntry}
    (h : find rows domain = some entry) : entry ∈ rows ∧ Covers entry domain := by
  have hmem := mem_of_firstBy h
  simp only [mem_filter, decide_eq_true_eq] at hmem
  exact ⟨hmem.1, covers_of_mem_candidates hmem.2⟩

end UltimateCaManager.Acme
