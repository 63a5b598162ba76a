import UltimateCaManager.DnsIdentifiers
import UltimateCaManager.EabAccounts
import UltimateCaManager.Guards

/-!
# The scope of a binding, label by label

`clean_allowed_domains` checks the patterns of a credential before they are stored;
`allows_identifier` compares them as text with what an order names. The comparison is the subtree
relation on labels of the trimmed names. Trimming is what the two differ by: a line feed at the
end of a name passes the syntax check of `newOrder` and is then stripped.
-/
namespace UltimateCaManager.Eab

open List Acme Identifiers Numerals Regex LowerCase

/-! ## The patterns that are stored -/

/-- `[a-z0-9_-]`. -/
def patternChar (c : Char) : Bool := c.isLower || c.isDigit || c = '_' || c = '-'

/-- `[a-z0-9-]`. -/
def lastPatternChar (c : Char) : Bool := c.isLower || c.isDigit || c = '-'

/-- `_LABEL_RE`. -/
def patternLabelRe : Regex := (labelRe patternChar).anchored

/-- `_LAST_LABEL_RE`. -/
def lastPatternLabelRe : Regex := (labelRe lastPatternChar).anchored

/-- `_check_domain_pattern`: an address, a host name or `*.` and a host name. -/
def checkDomainPattern (ipAddress : List Char → Option Address) (pattern : List Char)
    (shown : String) : Except String Unit :=
  let wildcard := ['*', '.'].isPrefixOf pattern
  let host := if wildcard then pattern.drop 2 else pattern
  if (ipAddress host).isSome then
    if wildcard then .error ("Wildcard patterns cannot apply to IP addresses: " ++ shown)
    else .ok ()
  else
    let labels := host.splitOn '.'
    if pattern.length ≤ 255 ∧ host.length ≤ 253 ∧ labels.dropLast.all patternLabelRe.isMatch ∧
        labels.getLast?.any lastPatternLabelRe.isMatch then .ok ()
    else .error ("Invalid domain pattern: " ++ shown)

def maxAllowedDomains : ℕ := 100

/-- One turn of the loop: the patterns with that of an entry added. An entry that is not a string
is `none`. -/
def cleanEntry [LowerCase] (ipAddress : List Char → Option Address) (patterns : List String) :
    Option String → Except String (List String)
  | none => .error "allowed_domains entries must be strings"
  | some entry =>
    let stripped := lower (strip entry.toList)
    let pattern := normalizeDomain entry
    let shown := String.ofList (strip entry.toList)
    if pattern = [] then .ok patterns
    -- `*.` must not collapse into `*`, nor `x..` into `x.`
    else if pattern.getLast? = some '.' ∨ pattern = ['*'] ∧ stripped ≠ ['*'] then
      .error ("Invalid domain pattern: " ++ shown)
    else do
      if pattern ≠ ['*'] then checkDomainPattern ipAddress pattern shown
      .ok (if String.ofList pattern ∈ patterns then patterns
        else patterns ++ [String.ofList pattern])

/-- `clean_allowed_domains`, of a JSON value that is `none` when it is not an array. -/
def cleanAllowedDomains [LowerCase] (ipAddress : List Char → Option Address) :
    Option (List (Option String)) → Except String (List String)
  | none => .error "allowed_domains must be an array of strings"
  | some raw =>
    if maxAllowedDomains < raw.length then .error "allowed_domains accepts at most 100 patterns"
    else raw.foldlM (cleanEntry ipAddress) []

/-! ## Covering -/

/-- The labels of a name: the letter case and one root dot do not count. -/
def labels [LowerCase] (text : List Char) : List (List Char) :=
  (dropDot (lower text)).splitOn '.'

/-- A name strictly below another: at least one more label in front. -/
def Below (name parent : List (List Char)) : Prop := ∃ front, front ≠ [] ∧ name = front ++ parent

/-- A requested wildcard is covered when its base is the parent or below it, any other name when
it is below the parent. -/
def UnderWildcard (name parent : List (List Char)) : Prop :=
  match name with
  | ['*'] :: base => base = parent ∨ Below base parent
  | name => Below name parent

/-- What a pattern covers: `*` everything, `*.s` the names under `s`, any other its own name. -/
def Covers [LowerCase] (pattern : List Char) (type : IdentifierType) (value : List Char) : Prop :=
  match pattern with
  | ['*'] => True
  | '*' :: '.' :: parent => type = .dns ∧ UnderWildcard (labels value) (labels parent)
  | pattern => labels value = labels pattern

theorem underWildcard_iff {name parent : List (List Char)} :
    UnderWildcard name parent ↔ Below name parent := by
  unfold UnderWildcard
  split
  next base =>
    constructor
    · rintro (rfl | ⟨front, -, rfl⟩)
      · exact ⟨[['*']], by simp, rfl⟩
      · exact ⟨['*'] :: front, by simp, rfl⟩
    · rintro ⟨front, hne, heq⟩
      obtain _ | ⟨first, front⟩ := front
      · exact absurd rfl hne
      obtain ⟨rfl, rfl⟩ := cons.inj heq
      cases front with
      | nil => exact .inl rfl
      | cons l front => exact .inr ⟨l :: front, by simp, rfl⟩
  next => rfl

theorem join_append {front rest : List (List Char)} (hfront : front ≠ []) (hrest : rest ≠ []) :
    join (front ++ rest) = join front ++ '.' :: join rest := by
  induction front with
  | nil => exact absurd rfl hfront
  | cons l front ih =>
    cases front with
    | nil =>
      obtain ⟨m, rest, rfl⟩ := exists_cons_of_ne_nil hrest
      rw [singleton_append, join_cons_cons, join_singleton]
    | cons m front =>
      rw [cons_append, cons_append, join_cons_cons, ← cons_append, ih (by simp),
        join_cons_cons, append_assoc, cons_append]

variable {value : List Char} {c : Char} {patterns : List String} {i : Identifier}

/-- A text ends in a dot and a suffix just when its labels are below those of the suffix. -/
theorem suffix_iff_below {suffix : List Char} :
    ('.' :: suffix) <:+ value ↔ Below (value.splitOn '.') (suffix.splitOn '.') := by
  constructor
  · rintro ⟨front, rfl⟩
    exact ⟨front.splitOn '.', splitOn_ne_nil _ _, splitOn_append_cons_self _ _⟩
  · rintro ⟨front, hne, heq⟩
    refine ⟨join front, ?_⟩
    rw [← join_splitOn value, heq, join_append hne (splitOn_ne_nil _ _), join_splitOn]

theorem splitOn_inj {a b : List Char} : a.splitOn '.' = b.splitOn '.' ↔ a = b := by
  refine ⟨fun h => ?_, fun h => h ▸ rfl⟩
  rw [← join_splitOn a, h, join_splitOn]

/-! ## Trimmed names -/

theorem dropDot_eq_or (value : List Char) :
    value = dropDot value ∨ value = dropDot value ++ ['.'] := by
  unfold dropDot
  split
  next h =>
    obtain ⟨front, rfl⟩ := getLast?_eq_some_iff.mp h
    simp
  next => exact .inl rfl

theorem mem_dropDot (hc : c ∈ value) (hdot : c ≠ '.') : c ∈ dropDot value := by
  rcases dropDot_eq_or value with h | h
  · exact h ▸ hc
  · rw [h, mem_append, mem_singleton] at hc
    exact hc.resolve_right hdot

theorem dropDot_cons_cons (c d : Char) (value : List Char) :
    dropDot (c :: d :: value) = c :: dropDot (d :: value) := by
  unfold dropDot
  rw [getLast?_cons_cons]
  split
  · exact dropLast_cons_of_ne_nil (by simp)
  · rfl

theorem dropDot_wildcard {q : List Char} (hq : q ≠ []) :
    dropDot ('*' :: '.' :: q) = '*' :: '.' :: dropDot q := by
  obtain ⟨c, q, rfl⟩ := exists_cons_of_ne_nil hq
  rw [dropDot_cons_cons, dropDot_cons_cons]

/-! ## Plain characters -/

theorem labelChar_of_hostChar (hc : hostChar c = true) : labelChar c = true := by
  simp only [hostChar, Bool.or_eq_true] at hc
  rcases hc with h | h <;> simp [labelChar, h]

theorem plain_of_labelChar (hc : labelChar c = true) : isSpace c = false ∧ c ≠ '.' := by
  have hrange : 45 ≤ c.toNat ∧ c.toNat ≤ 122 ∧ c ≠ '.' := by
    refine ⟨?_, ?_, by rintro rfl; cases hc⟩ <;>
    · simp only [labelChar, Char.isAlphanum] at hc
      delta Char.isAlpha Char.isUpper Char.isLower at hc
      simp only [Char.isDigit, UInt32.le_iff_toNat_le, ge_iff_le, Bool.or_eq_true,
        Bool.and_eq_true, decide_eq_true_eq] at hc
      rcases hc with ((hc | hc) | rfl) | rfl
      · change (65 ≤ c.toNat ∧ c.toNat ≤ 90 ∨ 97 ≤ c.toNat ∧ c.toNat ≤ 122) at hc
        omega
      · change 48 ≤ c.toNat ∧ c.toNat ≤ 57 at hc
        omega
      · decide
      · decide
  refine ⟨?_, hrange.2.2⟩
  simp only [isSpace, Bool.or_eq_false_iff, Bool.and_eq_false_iff, decide_eq_false_iff_not,
    mem_cons, not_mem_nil, or_false]
  omega

theorem exists_plain_of_isValidDnsIdentifier
    (h : isValidDnsIdentifier value = true) : ∃ c ∈ value, isSpace c = false ∧ c ≠ '.' := by
  obtain ⟨-, hlabels⟩ := labels_of_isValidDnsIdentifier h
  obtain ⟨l, hl⟩ := exists_mem_of_ne_nil _
    (splitOn_ne_nil '.' (dropDot (dropWildcard value)))
  obtain ⟨w, hw, hword⟩ := hlabels l hl
  obtain ⟨c, cs, rfl⟩ := exists_cons_of_ne_nil hw.ne_nil
  refine ⟨c, mem_of_mem_dropWildcard ?_,
    plain_of_labelChar (hw.chars c mem_cons_self)⟩
  have hcl : c ∈ l := by
    rcases hword with rfl | rfl <;> simp
  have hcore : c ∈ dropDot (dropWildcard value) := by
    rw [← join_splitOn (dropDot (dropWildcard value))]
    exact mem_join_of_mem hl hcl
  rcases dropDot_eq_or (dropWildcard value) with heq | heq <;> rw [heq]
  · exact hcore
  · exact mem_append_left _ hcore

theorem exists_plain_of_address (ip : Address) :
    ∃ c ∈ ip.text, isSpace c = false ∧ c ≠ '.' := by
  cases ip with
  | v4 a b c d =>
    obtain ⟨x, hx⟩ := exists_mem_of_ne_nil _ (isLabel_octet a).ne_nil
    exact ⟨x, mem_join_of_mem mem_cons_self hx,
      plain_of_labelChar (labelChar_of_hostChar ((isLabel_octet a).chars x hx))⟩
  | v6 text colon => exact ⟨':', colon, by decide, by decide⟩

/-- An accepted pattern: no white space in front, and `*` or of a checked form. -/
structure Cleaned (ipAddress : List Char → Option Address) (p : List Char) : Prop where
  head : ∀ c, p.head? = some c → isSpace c = false
  checked : p = ['*'] ∨ ∃ shown, checkDomainPattern ipAddress p shown = .ok ()

variable {ipAddress : List Char → Option Address}

theorem exists_mem_base {q r : List Char} (hp : Cleaned ipAddress ('*' :: '.' :: (q ++ r)))
    (hr : ∀ c ∈ r, isSpace c = true) : ∃ c ∈ q, c ≠ '.' := by
  obtain hstar | ⟨shown, hcheck⟩ := hp.checked
  · cases hstar
  simp only [checkDomainPattern, isPrefixOf_cons_cons, isPrefixOf_nil_left, beq_self_eq_true,
    Bool.and_self, if_true] at hcheck
  split at hcheck
  · cases hcheck
  split at hcheck
  next hok =>
    obtain ⟨-, -, -, hlast⟩ := hok
    obtain ⟨l, hl, hmatch⟩ := (Option.any_eq_true _ _).mp hlast
    obtain ⟨w, hw, hword⟩ := (reads_label lastPatternChar).anchored_isMatch.mp hmatch
    obtain ⟨c, cs, rfl⟩ := exists_cons_of_ne_nil hw.ne_nil
    have hc : lastPatternChar c = true := hw.chars c mem_cons_self
    have hhost : hostChar c = true := by
      simp only [lastPatternChar, Bool.or_eq_true] at hc
      rcases hc with (h | h) | h
      · have halpha : c.isAlpha = true := by
          delta Char.isAlpha
          rw [h, Bool.or_true]
        simp [hostChar, Char.isAlphanum, halpha]
      · simp [hostChar, Char.isAlphanum, h]
      · simp [hostChar, h]
    have hplain := plain_of_labelChar (labelChar_of_hostChar hhost)
    have hcl : c ∈ l := by
      rcases hword with rfl | rfl <;> simp
    have hmem : c ∈ q ++ r := by
      rw [← join_splitOn (q ++ r)]
      exact mem_join_of_mem (mem_of_getLast? hl) hcl
    rcases mem_append.mp hmem with hmem | hmem
    · exact ⟨c, hmem, hplain.2⟩
    · exact absurd (hr c hmem) (by simp [hplain.1])
  next => cases hcheck

/-- How a pattern other than `*` is compared with a trimmed name. -/
def comparesTo (type : IdentifierType) (m value : List Char) : Bool :=
  match type with
  | .ip => ! ['*', '.'].isPrefixOf m && m = value
  | .dns => patternCovers m value

theorem comparesTo_exact {type : IdentifierType} {m : List Char}
    (hm : ∀ q, m ≠ '*' :: '.' :: q) : comparesTo type m value = true ↔ m = value := by
  have hprefix : ['*', '.'].isPrefixOf m = false := by
    rw [← Bool.not_eq_true, isPrefixOf_iff_prefix]
    rintro ⟨q, hq⟩
    exact hm q hq.symm
  cases type with
  | ip => simp [comparesTo, hprefix]
  | dns =>
    simp only [comparesTo]
    unfold patternCovers
    split
    next q => exact absurd rfl (hm q)
    next => exact decide_eq_true_iff

section Trimmed

variable [LowerCase]

theorem normalizeDomain_eq (value : String) :
    normalizeDomain value = dropDot (lower (strip value.toList)) := rfl

theorem labels_strip (value : String) :
    labels (strip value.toList) = (normalizeDomain value).splitOn '.' := rfl

theorem head?_normalizeDomain {value : String}
    (h : (normalizeDomain value).head? = some c) : isSpace c = false := by
  obtain ⟨-, -, -, -, -, hhead⟩ := strip_spec value.toList
  have hlow : (lower (strip value.toList)).head? = some c := by
    rw [normalizeDomain_eq] at h
    rcases dropDot_eq_or (lower (strip value.toList)) with heq | heq
    · exact heq ▸ h
    · rw [heq, head?_append, h]
      rfl
  by_contra hspace
  obtain ⟨d, hd, hd'⟩ := lower_head hlow (by simpa using hspace)
  exact absurd hd' (by simp [hhead d hd])

/-! ## What is stored -/

theorem cleaned_of_cleanEntry {patterns' : List String} {entry : Option String}
    (h : cleanEntry ipAddress patterns entry = .ok patterns')
    (hp : ∀ p ∈ patterns, Cleaned ipAddress p.toList) :
    ∀ p ∈ patterns', Cleaned ipAddress p.toList := by
  cases entry with
  | none => cases h
  | some entry =>
    simp only [cleanEntry] at h
    split at h
    · cases h
      exact hp
    split at h
    · cases h
    have hnew : patterns' = (if String.ofList (normalizeDomain entry) ∈ patterns then patterns
        else patterns ++ [String.ofList (normalizeDomain entry)]) ∧
        (normalizeDomain entry = ['*'] ∨ ∃ shown,
          checkDomainPattern ipAddress (normalizeDomain entry) shown = .ok ()) := by
      by_cases hstar : normalizeDomain entry = ['*']
      · simp only [hstar] at h
        rw [hstar]
        exact ⟨(Except.ok.inj h).symm, .inl rfl⟩
      · simp only [hstar, ne_eq] at h
        cases hcheck : checkDomainPattern ipAddress (normalizeDomain entry)
            (String.ofList (strip entry.toList)) with
        | error e =>
          rw [hcheck] at h
          cases h
        | ok u =>
          rw [hcheck] at h
          exact ⟨(Except.ok.inj h).symm, .inr ⟨_, hcheck⟩⟩
    obtain ⟨rfl, hchecked⟩ := hnew
    intro p hmem
    split at hmem
    · exact hp p hmem
    · refine forall_mem_append.mpr ⟨hp, forall_mem_singleton.mpr ?_⟩ p hmem
      rw [String.toList_ofList]
      exact ⟨fun c hc => head?_normalizeDomain hc, hchecked⟩

theorem cleaned_of_clean {raw : Option (List (Option String))}
    (h : cleanAllowedDomains ipAddress raw = .ok patterns) :
    ∀ p ∈ patterns, Cleaned ipAddress p.toList := by
  cases raw with
  | none => cases h
  | some raw =>
    simp only [cleanAllowedDomains] at h
    split at h
    · cases h
    · exact Guards.foldlM_rel (R := fun l l' : List String =>
        (∀ p ∈ l, Cleaned ipAddress p.toList) → ∀ p ∈ l', Cleaned ipAddress p.toList)
        (fun _ h => h) (fun _ _ _ h h' hp => h' (h hp)) (fun _ _ _ _ => cleaned_of_cleanEntry) h
        (by simp)

/-! ## The stored patterns as they are read -/

theorem mem_allowedDomains {c : Credential} {entries : List String}
    (hc : c.allowed = some entries) : ∃ patterns, c.allowedDomains = some patterns ∧
      ∀ m, m ∈ patterns ↔ ∃ e ∈ entries, m = normalizeDomain e ∧ m ≠ [] ∧
        ¬ (m = ['*'] ∧ strip e.toList ≠ ['*']) := by
  rw [Credential.allowedDomains, hc]
  refine ⟨_, rfl, fun m => ?_⟩
  -- the patterns of the entries that remain are added to those found
  suffices hfold : ∀ start : List (List Char), m ∈ entries.foldl (fun patterns entry =>
      if normalizeDomain entry = ['*'] ∧ strip entry.toList ≠ ['*'] then patterns
      else if normalizeDomain entry ≠ [] ∧ normalizeDomain entry ∉ patterns then
        patterns ++ [normalizeDomain entry] else patterns) start ↔
      m ∈ start ∨ ∃ e ∈ entries, m = normalizeDomain e ∧ m ≠ [] ∧
        ¬ (m = ['*'] ∧ strip e.toList ≠ ['*']) by
    simpa using hfold []
  clear hc
  induction entries with
  | nil => simp
  | cons e entries ih =>
    intro start
    rw [foldl_cons, ih, exists_mem_cons_iff, ← or_assoc]
    refine or_congr_left ?_
    by_cases hskip : normalizeDomain e = ['*'] ∧ strip e.toList ≠ ['*']
    · rw [if_pos hskip]
      refine ⟨.inl, fun h => h.resolve_right ?_⟩
      rintro ⟨rfl, -, hkeep⟩
      exact hkeep hskip
    rw [if_neg hskip]
    by_cases hnew : normalizeDomain e ≠ [] ∧ normalizeDomain e ∉ start
    · rw [if_pos hnew, mem_append, mem_singleton]
      refine or_congr_right ⟨?_, fun h => h.1⟩
      rintro rfl
      exact ⟨rfl, hnew.1, hskip⟩
    · rw [if_neg hnew]
      refine ⟨.inl, ?_⟩
      rintro (h | ⟨rfl, hne, -⟩)
      · exact h
      · exact not_not.mp fun hout => hnew ⟨hne, hout⟩

theorem allowsIdentifier_eq_true {c : Credential} {patterns : List (List Char)}
    (hc : c.allowedDomains = some patterns) (hi : normalizeDomain i.value ≠ []) :
    c.allowsIdentifier i = true ↔
      ∃ m ∈ patterns, m = ['*'] ∨ comparesTo i.type m (normalizeDomain i.value) = true := by
  simp only [Credential.allowsIdentifier, hc, if_neg hi]
  by_cases hany : ['*'] ∈ patterns
  · simp only [hany, if_true, true_iff]
    exact ⟨['*'], hany, .inl rfl⟩
  · have hnot : ∀ m ∈ patterns, m ≠ ['*'] := fun m hm heq => hany (heq ▸ hm)
    rw [if_neg hany, exists_congr fun m => and_congr_right fun hm => or_iff_right (hnot m hm),
      ← any_eq_true]
    cases i.type <;> rfl

/-- On trimmed names the comparison of texts is the covering of labels. -/
theorem covers_strip_iff {p : String} (hp : Cleaned ipAddress p.toList)
    (hi : normalizeDomain i.value ≠ []) :
    Covers (strip p.toList) i.type (strip i.value.toList) ↔
      normalizeDomain p ≠ [] ∧ ¬ (normalizeDomain p = ['*'] ∧ strip p.toList ≠ ['*']) ∧
        (normalizeDomain p = ['*'] ∨
          comparesTo i.type (normalizeDomain p) (normalizeDomain i.value) = true) := by
  have hnorm := normalizeDomain_eq p
  unfold Covers
  split
  next hstar =>
    rw [hstar] at hnorm
    have hn : normalizeDomain p = ['*'] := by
      rw [hnorm, lower_star.mpr rfl]
      rfl
    simp [hn, hstar]
  next q hwild =>
    obtain ⟨l, r, hl, hr, hsplit, -⟩ := strip_spec p.toList
    -- nothing was stripped in front, so that the pattern itself was checked as a wildcard
    obtain rfl : l = [] := by
      cases l with
      | nil => rfl
      | cons a l =>
        have ha := hp.head a (by rw [hsplit]; rfl)
        rw [hl a mem_cons_self] at ha
        cases ha
    rw [hwild] at hsplit
    obtain ⟨c, hc, hdot⟩ := exists_mem_base (hsplit ▸ hp) hr
    obtain ⟨d, hd, hddot⟩ := lower_plain hc hdot
    have hbase : dropDot (lower q) ≠ [] := ne_nil_of_mem (mem_dropDot hd hddot)
    rw [hwild, lower_wildcard, dropDot_wildcard (ne_nil_of_mem hd)] at hnorm
    rw [underWildcard_iff, labels_strip, labels, ← suffix_iff_below, hnorm]
    cases i.type with
    | ip => simp [comparesTo]
    | dns => simp [comparesTo, patternCovers, wildcardCovers, hbase]
  next hstar hwild =>
    have hlow := dropDot_eq_or (lower (strip p.toList))
    rw [← hnorm] at hlow
    have hexact : ∀ q, normalizeDomain p ≠ '*' :: '.' :: q := by
      intro q hq
      rw [hq] at hlow
      obtain ⟨q, hq⟩ := hlow.elim of_lower_wildcard of_lower_wildcard
      exact hwild q hq
    have hany : normalizeDomain p ≠ ['*'] := by
      intro hq
      rw [hq] at hlow
      rcases hlow with h | h
      · exact hstar (lower_star.mp h)
      · obtain ⟨q, hq⟩ := of_lower_wildcard h
        exact hwild q hq
    rw [labels_strip, labels_strip, splitOn_inj, comparesTo_exact hexact]
    simp only [hany, false_and, not_false_eq_true, true_and, false_or]
    exact ⟨fun h => ⟨h ▸ hi, h.symm⟩, fun h => h.2.symm⟩

/-! ## Identifiers that an order can carry -/

theorem normalizeDomain_ne_nil {value : String} (hc : c ∈ value.toList)
    (hplain : isSpace c = false ∧ c ≠ '.') : normalizeDomain value ≠ [] := by
  obtain ⟨l, r, hl, hr, hsplit, -⟩ := strip_spec value.toList
  have hmem : c ∈ strip value.toList := by
    rw [hsplit, mem_append, mem_append] at hc
    rcases hc with (hc | hc) | hc
    · simp [hl c hc] at hplain
    · exact hc
    · simp [hr c hc] at hplain
  obtain ⟨d, hd, hdot⟩ := lower_plain hmem hplain.2
  exact ne_nil_of_mem (mem_dropDot hd hdot)

theorem normalizeDomain_ne_nil_of_validate {problem : List Char → String} {sent : List Char}
    (h : validateAcmeIdentifier ipAddress problem i.type sent = .ok i.value.toList) :
    normalizeDomain i.value ≠ [] := by
  have hplain : ∃ c ∈ i.value.toList, isSpace c = false ∧ c ≠ '.' := by
    unfold validateAcmeIdentifier at h
    split at h
    · split at h
      next hvalid =>
        rw [← Except.ok.inj h]
        exact exists_plain_of_isValidDnsIdentifier hvalid
      next => cases h
    · split at h
      next ip _ =>
        rw [← Except.ok.inj h]
        exact exists_plain_of_address ip
      next => cases h
  obtain ⟨c, hc, hplain⟩ := hplain
  exact normalizeDomain_ne_nil hc hplain

/-! ## The scope -/

/-- Some entry covers the identifier, after `trim` of both. -/
def CoveredBy (trim : List Char → List Char) (entries : List String) (i : Identifier) : Prop :=
  ∃ p ∈ entries, Covers (trim p.toList) i.type (trim i.value.toList)

theorem CoveredBy.mono {trim : List Char → List Char} {entries entries' : List String}
    (h : CoveredBy trim entries' i) (hsub : entries' ⊆ entries) :
    CoveredBy trim entries i := by
  obtain ⟨p, hp, hcovers⟩ := h
  exact ⟨p, hsub hp, hcovers⟩

/-- An identifier of an order is allowed just when a stored entry covers it, both trimmed. -/
theorem allowsIdentifier_iff_coveredBy {raw : Option (List (Option String))}
    (hclean : cleanAllowedDomains ipAddress raw = .ok patterns) {c : Credential}
    (hc : c.allowed = some patterns) (hi : normalizeDomain i.value ≠ []) :
    c.allowsIdentifier i = true ↔ CoveredBy strip patterns i := by
  have hcleaned := cleaned_of_clean hclean
  obtain ⟨read, hread, hmem⟩ := mem_allowedDomains hc
  rw [allowsIdentifier_eq_true hread hi]
  constructor
  · rintro ⟨m, hm, hcompare⟩
    obtain ⟨p, hp, rfl, hne, hkeep⟩ := (hmem m).mp hm
    exact ⟨p, hp, (covers_strip_iff (hcleaned p hp) hi).mpr ⟨hne, hkeep, hcompare⟩⟩
  · rintro ⟨p, hp, hcovers⟩
    obtain ⟨hne, hkeep, hcompare⟩ := (covers_strip_iff (hcleaned p hp) hi).mp hcovers
    exact ⟨_, (hmem _).mpr ⟨p, hp, rfl, hne, hkeep⟩, hcompare⟩

/-- The scope is covering by labels of the trimmed names, so it is covering by labels just when
trimming changes no covering, as when there is nothing to trim. A narrower list allows no more. -/
theorem allowsIdentifier_covers_iff {problem : List Char → String}
    {raw : Option (List (Option String))} {patterns : List String}
    (hclean : cleanAllowedDomains ipAddress raw = .ok patterns) {c : Credential}
    (hc : c.allowed = some patterns) {sent : List Char} {i : Identifier}
    (hi : validateAcmeIdentifier ipAddress problem i.type sent = .ok i.value.toList) :
    ((c.allowsIdentifier i = true ↔ CoveredBy id patterns i) ↔
      (CoveredBy strip patterns i ↔ CoveredBy id patterns i)) ∧
    ((∀ p ∈ patterns, strip p.toList = p.toList) → strip i.value.toList = i.value.toList →
      (c.allowsIdentifier i = true ↔ CoveredBy id patterns i)) ∧
    ∀ raw' patterns' (c' : Credential), cleanAllowedDomains ipAddress raw' = .ok patterns' →
      c'.allowed = some patterns' → patterns' ⊆ patterns →
      c'.allowsIdentifier i = true → c.allowsIdentifier i = true := by
  have hne := normalizeDomain_ne_nil_of_validate hi
  have hallows := allowsIdentifier_iff_coveredBy hclean hc hne
  refine ⟨by rw [hallows], fun hentries hvalue => ?_,
    fun raw' patterns' c' hclean' hc' hsub h => ?_⟩
  · rw [hallows]
    refine exists_congr fun p => and_congr_right fun hp => ?_
    rw [hentries p hp, hvalue, id, id]
  · rw [hallows]
    exact ((allowsIdentifier_iff_coveredBy hclean' hc' hne).mp h).mono hsub

end Trimmed

attribute [local instance] asciiCase

def scopedTo (entries : List String) : Credential :=
  ⟨1, "kid-1", 1, some entries, .used, none, some 0, some 1⟩

theorem allows_below_wildcard :
    (scopedTo ["*.example.com"]).allowsIdentifier ⟨.dns, "WWW.example.com", ""⟩ = true := by
  have hclean : cleanAllowedDomains (fun _ => none) (some [some "*.Example.com."]) =
      .ok ["*.example.com"] := rfl
  have hsent : validateAcmeIdentifier (fun _ => none) (fun _ => "") .dns "WWW.example.com".toList =
      .ok "WWW.example.com".toList := rfl
  have hscope := allowsIdentifier_covers_iff hclean (c := scopedTo ["*.example.com"]) rfl
    (i := ⟨.dns, "WWW.example.com", ""⟩) hsent
  refine (hscope.2.1 (by decide) (by decide)).mpr ⟨_, mem_singleton_self _, rfl, ?_⟩
  exact ⟨[['w', 'w', 'w']], by decide, by decide⟩

/-- A line feed after the name is accepted in the order and stripped for the comparison. -/
theorem feed_stripped_from_identifier :
    cleanAllowedDomains (fun _ => none) (some [some "example.com"]) = .ok ["example.com"] ∧
    validateAcmeIdentifier (fun _ => none) (fun _ => "") .dns "example.com\n".toList =
      .ok "example.com\n".toList ∧
    (scopedTo ["example.com"]).allowsIdentifier ⟨.dns, "example.com\n", ""⟩ = true ∧
    ¬ CoveredBy id ["example.com"] ⟨.dns, "example.com\n", ""⟩ := by
  refine ⟨rfl, rfl, by decide, ?_⟩
  rintro ⟨p, hp, hcovers⟩
  obtain rfl := mem_singleton.mp hp
  have hlabels : labels "example.com\n".toList = labels "example.com".toList := hcovers
  exact absurd hlabels (by decide)

end UltimateCaManager.Eab
