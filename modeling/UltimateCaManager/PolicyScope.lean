import Mathlib
import UltimateCaManager.NameConstraints

/-!
# The policies in whose scope a request lies

A policy with a name pattern covers the requests with a name that starts or ends with it. The
comparison is one of characters, so a letter in a pattern is met in one case only.
-/
namespace UltimateCaManager.Policies

open List

inductive Operation
  | issuance | renewal | revocation
  deriving DecidableEq

/-- The columns that scope a policy; `dnsPattern` is empty where the rules have none. -/
structure Policy where
  isActive : Bool
  requiresApproval : Bool
  priority : ℤ
  operations : List Operation
  caId : Option ℕ
  templateId : Option ℕ
  dnsPattern : List Char
  deriving DecidableEq

/-- The arguments of `_in_scope` other than the names. -/
structure Call where
  operations : List Operation
  caIds : List (Option ℕ)
  templateId : Option ℕ
  approval : Bool

structure Names where
  cn : Option (List Char)
  sanList : List (List Char)

def Names.all (names : Names) : List (List Char) :=
  names.cn.toList.filter (· ≠ []) ++ names.sanList

def matchesName (pattern name : List Char) : Bool :=
  if pattern = ['*', '.'] then ['*', '.'].isPrefixOf name
  else pattern.isPrefixOf name || pattern.isSuffixOf name

def matchesRules (names : Names) (policy : Policy) : Bool :=
  policy.dnsPattern = [] || names.all.any (matchesName policy.dnsPattern)

/-- The filters that do not read the names. -/
def governs (call : Call) (policy : Policy) : Bool :=
  policy.isActive && (!call.approval || policy.requiresApproval) &&
    call.operations.any (· ∈ policy.operations) &&
    (policy.caId = none || policy.caId ∈ call.caIds) &&
    (policy.templateId = none || policy.templateId = call.templateId)

def inScope (policies : List Policy) (call : Call) (names : Names) : List Policy :=
  ((policies.mergeSort (·.priority ≤ ·.priority)).filter (governs call)).filter (matchesRules names)

def checkApprovalRequired (policies : List Policy) (call : Call) (names : Names) : Option Policy :=
  (inScope policies { call with approval := true } names).head?

/-! ## Letter case -/

def fold (name : List Char) : List Char := name.map Char.toLower

theorem toLower_eq_iff_of_not_isAlpha {c d : Char} (hc : c.isAlpha = false) :
    d.toLower = c ↔ d = c := by
  have hself : ∀ e : Char, e.isAlpha = false → e.toLower = e := by
    intro e he
    apply Char.toLower_eq_of_not_isUpper
    intro hupper
    simp [Char.isAlpha, hupper] at he
  constructor
  · intro h
    have hd : d.isAlpha = false := by rw [← Char.isAlpha_toLower_eq_isAlpha, h, hc]
    rw [← hself d hd, h]
  · rintro rfl
    exact hself d hc

theorem exists_other_case {c : Char} (hc : c.isAlpha = true) : ∃ d ≠ c, d.toLower = c.toLower := by
  cases hupper : c.isUpper with
  | true =>
    refine ⟨c.toLower, fun h => ?_, Char.toLower_toLower_eq_toLower c⟩
    rw [← h, Char.isUpper_toLower_eq_false] at hupper
    cases hupper
  | false =>
    have hlower : c.isLower = true := by simpa [Char.isAlpha, hupper] using hc
    refine ⟨c.toUpper, fun h => ?_, Char.toLower_toUpper_eq_toLower c⟩
    rw [← h, Char.isLower_toUpper_eq_false] at hlower
    cases hlower

section NoLetters

variable {pattern name : List Char}

theorem fold_eq_iff (hpattern : ∀ c ∈ pattern, c.isAlpha = false) :
    fold name = pattern ↔ name = pattern := by
  induction pattern generalizing name with
  | nil => exact map_eq_nil_iff
  | cons c rest ih =>
    cases name with
    | nil => simp [fold]
    | cons d name =>
      rw [forall_mem_cons] at hpattern
      simp only [fold, map_cons, cons.injEq]
      exact and_congr (toLower_eq_iff_of_not_isAlpha hpattern.1) (ih hpattern.2)

theorem matchesName_fold (hpattern : ∀ c ∈ pattern, c.isAlpha = false) :
    matchesName pattern (fold name) = matchesName pattern name := by
  have hstart : pattern <+: fold name ↔ pattern <+: name := by
    rw [prefix_iff_eq_take, prefix_iff_eq_take, fold, ← map_take, eq_comm, eq_comm (b := take _ _)]
    exact fold_eq_iff hpattern
  have hend : pattern <:+ fold name ↔ pattern <:+ name := by
    rw [suffix_iff_eq_drop, suffix_iff_eq_drop, fold, ← map_drop, length_map, eq_comm,
      eq_comm (b := drop _ _)]
    exact fold_eq_iff hpattern
  unfold matchesName
  split
  · rename_i hstar
    rw [hstar] at hstart
    rw [Bool.eq_iff_iff, isPrefixOf_iff_prefix, isPrefixOf_iff_prefix, hstart]
  · rw [Bool.eq_iff_iff]
    simp [hstart, hend]

end NoLetters

/-- A text of the length of the pattern is matched only if it is the pattern. -/
theorem matchesName_of_length {pattern name : List Char} (hlen : pattern.length = name.length) :
    matchesName pattern name = true ↔ pattern = name := by
  have hstart : pattern <+: name ↔ pattern = name :=
    ⟨fun h => h.eq_of_length hlen, fun h => h ▸ prefix_rfl⟩
  have hend : pattern <:+ name ↔ pattern = name :=
    ⟨fun h => h.eq_of_length hlen, fun h => h ▸ suffix_rfl⟩
  unfold matchesName
  split
  · rename_i hstar
    rw [← hstar, isPrefixOf_iff_prefix, hstart]
  · rw [Bool.or_eq_true, isPrefixOf_iff_prefix, isSuffixOf_iff_suffix, hstart, hend, or_self]

/-- Requests that differ in the case of letters only, in the names of the subject alternative name
and in a common name that could be one. -/
structure SameButCase (a b : Names) : Prop where
  cn : a.cn = b.cn ∨ ∃ x ∈ a.cn, ∃ y ∈ b.cn,
    Constraints.isDnsLike x = true ∧ Constraints.isDnsLike y = true ∧ fold x = fold y
  san : a.sanList.map fold = b.sanList.map fold

theorem SameButCase.all {a b : Names} (h : SameButCase a b) : a.all.map fold = b.all.map fold := by
  rw [Names.all, Names.all, map_append, map_append, h.san]
  obtain heq | ⟨x, hx, y, hy, -, -, hfold⟩ := h.cn
  · rw [heq]
  · have hnil : x = [] ↔ y = [] := by
      rw [← map_eq_nil_iff (f := Char.toLower), ← map_eq_nil_iff (l := y) (f := Char.toLower)]
      exact iff_of_eq (congrArg (· = []) hfold)
    rw [Option.mem_def.mp hx, Option.mem_def.mp hy]
    by_cases hempty : x = []
    · simp [hempty, hnil.mp hempty]
    · simp [hempty, mt hnil.mpr hempty, hfold]

theorem matchesRules_congr {a b : Names} (h : SameButCase a b) {policy : Policy}
    (hpattern : ∀ c ∈ policy.dnsPattern, c.isAlpha = false) :
    matchesRules a policy = matchesRules b policy := by
  have hany : ∀ l : List (List Char), l.any (matchesName policy.dnsPattern) =
      (l.map fold).any (matchesName policy.dnsPattern) := by
    intro l
    rw [any_map]
    exact congrArg (l.any ·) (funext fun name => (matchesName_fold hpattern).symm)
  rw [matchesRules, matchesRules, hany a.all, hany b.all, h.all]

/-- The case of letters is without effect on the scope exactly when the patterns have none. -/
theorem in_scope_ignores_case_iff (policies : List Policy) (call : Call) :
    (∀ a b, SameButCase a b → inScope policies call a = inScope policies call b) ↔
      ∀ policy ∈ policies, governs call policy = true →
        ∀ c ∈ policy.dnsPattern, c.isAlpha = false := by
  constructor
  · intro h policy hpolicy hgoverns c hc
    by_contra halpha
    obtain ⟨d, hne, hlower⟩ := exists_other_case (Bool.not_eq_false _ ▸ halpha)
    obtain ⟨front, back, hsplit⟩ := append_of_mem hc
    -- the pattern itself as a name, and the same text with one letter in the other case
    have hsame := h ⟨none, [policy.dnsPattern]⟩ ⟨none, [front ++ d :: back]⟩
      ⟨.inl rfl, by simp [hsplit, fold, hlower]⟩
    have hmem : ∀ name, name.length = policy.dnsPattern.length →
        (policy ∈ inScope policies call ⟨none, [name]⟩ ↔ policy.dnsPattern = name) := by
      intro name hlen
      have hnil : policy.dnsPattern ≠ [] := ne_nil_of_mem hc
      simp [inScope, hpolicy, hgoverns, matchesRules, hnil, Names.all,
        matchesName_of_length hlen.symm]
    have hother := (hmem _ (by simp [hsplit])).mp (hsame ▸ (hmem _ rfl).mpr rfl)
    rw [hsplit, append_cancel_left_eq, cons.injEq] at hother
    exact hne hother.1.symm
  · intro h a b hab
    apply filter_congr
    intro policy hpolicy
    rw [mem_filter, mem_mergeSort] at hpolicy
    exact matchesRules_congr hab (h policy hpolicy.1 hpolicy.2)

/-- Approval for the hosts of one domain. -/
def exampleHosts : Policy where
  isActive := true
  requiresApproval := true
  priority := 100
  operations := [.issuance]
  caId := none
  templateId := none
  dnsPattern := ".example.com".toList

theorem approval_avoided_in_capitals :
    let call : Call := ⟨[.issuance], [some 1], none, true⟩
    Constraints.isDnsLike "host.example.com".toList = true ∧
      Constraints.isDnsLike "HOST.EXAMPLE.COM".toList = true ∧
      fold "HOST.EXAMPLE.COM".toList = fold "host.example.com".toList ∧
      checkApprovalRequired [exampleHosts] call ⟨some "host.example.com".toList, []⟩ =
        some exampleHosts ∧
      checkApprovalRequired [exampleHosts] call ⟨some "HOST.EXAMPLE.COM".toList, []⟩ = none := by
  decide +kernel

end UltimateCaManager.Policies
