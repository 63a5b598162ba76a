import UltimateCaManager.AcmeData
import UltimateCaManager.Regex

/-!
# Names that an ACME order may carry

`services/acme/identifiers.py`: the syntax check of the server and of the proxy, and the stricter
rule of the outbound client. Both match labels with regular expressions that end in `$`, which
lets a line feed follow. An accepted name is a DNS name just when it holds none, and, for the
server's rule, no underscore and no root dot.
-/
namespace UltimateCaManager.Identifiers

open List Regex

/-- `(?!-)[…]{1,63}(?<!-)`, for a class of characters. -/
def labelRe (p : Char → Bool) : Regex :=
  .seq (.notAhead (· = '-')) (.seq (.times 1 63 (.set p)) (.notBehind (· = '-')))

/-- `[A-Za-z0-9_-]`. -/
def labelChar (c : Char) : Bool := c.isAlphanum || c = '_' || c = '-'

/-- `[A-Za-z0-9-]`. -/
def hostChar (c : Char) : Bool := c.isAlphanum || c = '-'

def dnsLabelRe : Regex := (labelRe labelChar).anchored

/-- `value[2:]` after `*.`. -/
def dropWildcard : List Char → List Char
  | '*' :: '.' :: rest => rest
  | value => value

/-- `value[:-1]` before a final dot. -/
def dropDot (value : List Char) : List Char :=
  if value.getLast? = some '.' then value.dropLast else value

def isValidDnsIdentifier (value : List Char) : Bool :=
  if value = [] ∨ 253 < value.length then false
  else
    let core := dropDot (dropWildcard value)
    core ≠ [] && (core.splitOn '.').all dnsLabelRe.isMatch

def clientMaxDomainLength : ℕ := 253

def clientFqdnRe : Regex :=
  .anchored (.seq (.opt (.seq (.char '*') (.char '.')))
    (.seq (.plus (.seq (labelRe hostChar) (.char '.'))) (labelRe hostChar)))

/-- What `ipaddress.ip_address` reads: an IPv4 address, or the canonical text of an IPv6 one. -/
inductive Address
  | v4 (a b c d : Fin 256)
  | v6 (text : List Char) (colon : ':' ∈ text)

/-- A name as its labels, with dots between. -/
def join (labels : List (List Char)) : List Char := List.intercalate ['.'] labels

def octet (n : Fin 256) : List Char := Nat.toDigits 10 n

def Address.text : Address → List Char
  | .v4 a b c d => join [octet a, octet b, octet c, octet d]
  | .v6 text _ => text

/-- `validate_acme_identifier` for the two supported types: the value that the order keeps, or the
error. `problem` is the message of `ipaddress` for a text that is no address. -/
def validateAcmeIdentifier (ipAddress : List Char → Option Address) (problem : List Char → String)
    (type : Acme.IdentifierType) (value : List Char) : Except (String × String) (List Char) :=
  match type with
  | .dns =>
    if isValidDnsIdentifier value then .ok value
    else .error ("malformed", "Malformed DNS identifier value")
  | .ip =>
    match ipAddress value with
    | some ip => .ok ip.text
    | none => .error ("malformed", "Invalid IP address format: " ++ problem value)

/-- `normalize_client_identifier`: the name and whether it is an address, or the problem. -/
def normalizeClientIdentifier (ipAddress : List Char → Option Address) (value : List Char) :
    Except String (List Char × Bool) :=
  if value = [] then .error "Invalid domain (empty or not a string)"
  else match ipAddress value with
    | some ip => .ok (ip.text, true)
    | none =>
      if clientMaxDomainLength < value.length then
        .error ("Invalid domain (>253 chars): " ++ String.ofList (value.take 60) ++ "...")
      else if clientFqdnRe.isMatch value then .ok (value, false)
      else .error ("Invalid domain syntax: " ++ String.ofList value)

/-! ## DNS names -/

/-- One to 63 characters of a class, with no hyphen at either end. -/
structure IsLabel (p : Char → Bool) (w : List Char) : Prop where
  chars : ∀ c ∈ w, p c = true
  pos : 1 ≤ w.length
  length : w.length ≤ 63
  first : w.head? ≠ some '-'
  last : w.getLast? ≠ some '-'

/-- At least `least` labels of letters, digits and inner hyphens, in at most 253 characters; a
single `*.` may come first. -/
def IsDnsName (least : ℕ) (text : List Char) : Prop :=
  text.length ≤ 253 ∧ ∃ labels : List (List Char), labels ≠ [] ∧ least ≤ labels.length ∧
    (∀ l ∈ labels, IsLabel hostChar l) ∧ (text = join labels ∨ text = '*' :: '.' :: join labels)

theorem IsLabel.ne_nil {p : Char → Bool} {w : List Char} (h : IsLabel p w) : w ≠ [] :=
  ne_nil_of_length_pos h.pos

theorem reads_label (p : Char → Bool) : Reads (labelRe p).ends (IsLabel p) := by
  intro before after before' after'
  have hclass := reads_class p 1 63
  have hlabel := hclass.between (fun w hw => ne_nil_of_length_pos hw.2.1) (· = '-') (· = '-')
  rw [labelRe, hlabel]
  refine exists_congr fun w => and_congr_left fun _ => ?_
  simp only [Option.any_eq_false, decide_eq_false_iff_not]
  constructor
  · rintro ⟨⟨hchars, hpos, hlength⟩, hfirst, hlast⟩
    exact ⟨hchars, hpos, hlength, fun h => hfirst _ h rfl, fun h => hlast _ h rfl⟩
  · intro h
    exact ⟨⟨h.chars, h.pos, h.length⟩, fun c hc hd => h.first (hd ▸ hc),
      fun c hc hd => h.last (hd ▸ hc)⟩

variable {c : Char} {labels : List (List Char)} {least : ℕ} {text value : List Char}

theorem hostChar_iff : hostChar c = true ↔ labelChar c = true ∧ c ≠ '_' := by
  unfold hostChar labelChar
  by_cases h : c = '_'
  · subst h
    decide
  · simp [h]

/-- A label of the server's class that has no underscore is a label. -/
theorem IsLabel.host {w : List Char} (h : IsLabel labelChar w) (hw : '_' ∉ w) :
    IsLabel hostChar w :=
  ⟨fun c hc => hostChar_iff.mpr ⟨h.chars c hc, fun he => hw (he ▸ hc)⟩, h.pos, h.length, h.first,
    h.last⟩

@[simp] theorem join_singleton (l : List Char) : join [l] = l := intercalate_singleton

theorem join_cons_cons (l m : List Char) (labels : List (List Char)) :
    join (l :: m :: labels) = l ++ '.' :: join (m :: labels) := by
  simp [join]

theorem mem_join (h : c ∈ join labels) : c = '.' ∨ ∃ l ∈ labels, c ∈ l := by
  induction labels with
  | nil => simp [join] at h
  | cons l labels ih =>
    cases labels with
    | nil => exact .inr ⟨l, by simp, by simpa using h⟩
    | cons m labels =>
      rw [join_cons_cons, mem_append, mem_cons] at h
      rcases h with h | h | h
      · exact .inr ⟨l, by simp, h⟩
      · exact .inl h
      · rcases ih h with h | ⟨k, hk, h⟩
        · exact .inl h
        · exact .inr ⟨k, mem_cons_of_mem l hk, h⟩

theorem mem_join_of_mem {l : List Char} (hl : l ∈ labels) (hc : c ∈ l) : c ∈ join labels := by
  induction labels with
  | nil => cases hl
  | cons k labels ih =>
    cases labels with
    | nil =>
      rw [join_singleton]
      exact mem_singleton.mp hl ▸ hc
    | cons m labels =>
      rw [join_cons_cons, mem_append, mem_cons]
      rcases mem_cons.mp hl with rfl | hl
      · exact .inl hc
      · exact .inr (.inr (ih hl))

/-- The text of a name ends as its last label does. -/
theorem getLast?_join (hne : labels ≠ [])
    (h : ∀ l ∈ labels, l ≠ []) : ∃ l ∈ labels, (join labels).getLast? = l.getLast? := by
  induction labels with
  | nil => exact absurd rfl hne
  | cons l labels ih =>
    cases labels with
    | nil => exact ⟨l, by simp, by simp⟩
    | cons m labels =>
      obtain ⟨k, hk, hlast⟩ := ih (by simp) fun k hk => h k (mem_cons_of_mem l hk)
      have hkne : k.getLast? ≠ none := by
        rw [ne_eq, getLast?_eq_none_iff]
        exact h k (mem_cons_of_mem l hk)
      refine ⟨k, mem_cons_of_mem l hk, ?_⟩
      rw [join_cons_cons, ← hlast, getLast?_append, getLast?_cons]
      cases hj : (join (m :: labels)).getLast? with
      | none => exact absurd (hlast ▸ hj) hkne
      | some c => rfl

/-- The words of `(LABEL\.)+LABEL`. -/
theorem join_snoc (heads : List (List Char)) (l : List Char) :
    (heads.map (· ++ ['.'])).flatten ++ l = join (heads ++ [l]) := by
  induction heads with
  | nil => simp
  | cons h heads ih =>
    cases heads with
    | nil => simp [join_cons_cons]
    | cons g heads =>
      rw [cons_append, cons_append, join_cons_cons, ← cons_append, ← ih]
      simp

theorem join_splitOn (text : List Char) : join (text.splitOn '.') = text :=
  intercalate_splitOn '.'

theorem IsDnsName.chars (h : IsDnsName least text) :
    ∀ c ∈ text, c = '*' ∨ c = '.' ∨ hostChar c = true := by
  obtain ⟨-, labels, -, -, hlabels, htext⟩ := h
  have hjoin : ∀ c ∈ join labels, c = '.' ∨ hostChar c = true := by
    intro c hc
    rcases mem_join hc with hdot | ⟨l, hl, hc⟩
    · exact .inl hdot
    · exact .inr ((hlabels l hl).chars c hc)
  rcases htext with rfl | rfl
  · exact fun c hc => .inr (hjoin c hc)
  · intro c hc
    rcases mem_cons.mp hc with rfl | hc
    · exact .inl rfl
    rcases mem_cons.mp hc with rfl | hc
    · exact .inr (.inl rfl)
    exact .inr (hjoin c hc)

/-- A DNS name holds no line feed and no underscore, and does not end in a dot. -/
theorem IsDnsName.plain (h : IsDnsName least text) :
    '\n' ∉ text ∧ '_' ∉ text ∧ text.getLast? ≠ some '.' := by
  have hmem := h.chars
  obtain ⟨-, labels, hne, -, hlabels, htext⟩ := h
  obtain ⟨l, hl, hlast⟩ := getLast?_join hne fun l hl => (hlabels l hl).ne_nil
  have hend : text.getLast? = l.getLast? := by
    rw [← hlast]
    rcases htext with rfl | rfl
    · rfl
    · have hsome : (join labels).getLast? ≠ none := by
        rw [hlast, ne_eq, getLast?_eq_none_iff]
        exact (hlabels l hl).ne_nil
      rw [getLast?_cons_cons, getLast?_cons]
      cases hj : (join labels).getLast? with
      | none => exact absurd hj hsome
      | some c => rfl
  refine ⟨fun hc => ?_, fun hc => ?_, fun hdot => ?_⟩
  · rcases hmem _ hc with h | h | h <;> exact absurd h (by decide)
  · rcases hmem _ hc with h | h | h <;> exact absurd h (by decide)
  · have hc := (hlabels l hl).chars '.' (mem_of_getLast? (hend ▸ hdot))
    exact absurd hc (by decide)

/-! ## What the server accepts -/

theorem dropWildcard_spec (value : List Char) :
    value = dropWildcard value ∨ value = '*' :: '.' :: dropWildcard value := by
  unfold dropWildcard
  split
  · exact .inr rfl
  · exact .inl rfl

theorem mem_of_mem_dropWildcard (hc : c ∈ dropWildcard value) : c ∈ value := by
  rcases dropWildcard_spec value with heq | heq <;> rw [heq]
  · exact hc
  · exact mem_cons_of_mem _ (mem_cons_of_mem _ hc)

/-- An accepted value is labels, each of which a line feed may follow. -/
theorem labels_of_isValidDnsIdentifier (h : isValidDnsIdentifier value = true) :
    value.length ≤ 253 ∧ ∀ l ∈ (dropDot (dropWildcard value)).splitOn '.',
      ∃ w, IsLabel labelChar w ∧ (l = w ∨ l = w ++ ['\n']) := by
  unfold isValidDnsIdentifier at h
  split at h
  next => cases h
  next hlength =>
    simp only [Bool.and_eq_true, all_eq_true] at h
    rw [not_or, not_lt] at hlength
    exact ⟨hlength.2, fun l hl => (reads_label labelChar).anchored_isMatch.mp (h.2 l hl)⟩

/-- Without line feeds, underscores and a root dot the accepted value is a DNS name. -/
theorem isDnsName_of_isValidDnsIdentifier
    (h : isValidDnsIdentifier value = true) (hfeed : '\n' ∉ value) (hunder : '_' ∉ value)
    (hdot : value.getLast? ≠ some '.') : IsDnsName 1 value := by
  obtain ⟨hlength, hlabels⟩ := labels_of_isValidDnsIdentifier h
  have hkept : dropDot (dropWildcard value) = dropWildcard value := by
    unfold dropDot
    split
    next hend =>
      rcases dropWildcard_spec value with heq | heq
      · exact absurd (heq ▸ hend) hdot
      · refine absurd ?_ hdot
        rw [heq, getLast?_cons_cons, getLast?_cons, hend]
        rfl
    next => rfl
  rw [hkept] at hlabels
  have hin : ∀ l ∈ (dropWildcard value).splitOn '.', ∀ c ∈ l, c ∈ value := by
    intro l hl c hc
    refine mem_of_mem_dropWildcard ?_
    rw [← join_splitOn (dropWildcard value)]
    exact mem_join_of_mem hl hc
  refine ⟨hlength, (dropWildcard value).splitOn '.', splitOn_ne_nil _ _,
    length_pos_of_ne_nil (splitOn_ne_nil _ _), fun l hl => ?_, ?_⟩
  · obtain ⟨w, hw, rfl | rfl⟩ := hlabels l hl
    · exact hw.host fun hc => hunder (hin l hl _ hc)
    · exact absurd (hin _ hl '\n' (by simp)) hfeed
  · rw [join_splitOn]
    exact dropWildcard_spec value

/-! ## What the client accepts -/

/-- The words of the client's expression are the DNS names of two labels or more. -/
theorem clientFqdnRe_isMatch (h : clientFqdnRe.isMatch value = true) :
    ∃ labels : List (List Char), 2 ≤ labels.length ∧ (∀ l ∈ labels, IsLabel hostChar l) ∧
      ∃ name, (name = join labels ∨ name = '*' :: '.' :: join labels) ∧
        (value = name ∨ value = name ++ ['\n']) := by
  have hlabel := reads_label hostChar
  have hstar := ((reads_set (· = '*')).seq (reads_set (· = '.'))).opt
  have hheads := (hlabel.seq (reads_set (· = '.'))).plus
    (by rintro w ⟨u, v, -, ⟨c, -, rfl⟩, rfl⟩; simp)
  obtain ⟨name, ⟨star, rest, hs, ⟨front, l, ⟨ws, hws, hne, rfl⟩, hl, rfl⟩, rfl⟩, hvalue⟩ :=
    (hstar.seq (hheads.seq hlabel)).anchored_isMatch.mp h
  -- the words before the last label, without their dots
  obtain ⟨heads, hheads, rfl⟩ : ∃ heads : List (List Char),
      (∀ u ∈ heads, IsLabel hostChar u) ∧ ws = heads.map (· ++ ['.']) := by
    clear hne hvalue
    induction ws with
    | nil => exact ⟨[], by simp, rfl⟩
    | cons w ws ih =>
      obtain ⟨u, v, hu, ⟨c, hc, rfl⟩, rfl⟩ := hws w mem_cons_self
      obtain ⟨heads, hheads, rfl⟩ := ih fun x hx => hws x (mem_cons_of_mem _ hx)
      obtain rfl : c = '.' := by simpa using hc
      exact ⟨u :: heads, by simpa using ⟨hu, hheads⟩, rfl⟩
  rw [join_snoc] at hvalue
  refine ⟨heads ++ [l], ?_, ?_, _, ?_, hvalue⟩
  · have hpos := length_pos_of_ne_nil hne
    simp only [length_map] at hpos
    simp only [length_append, length_singleton]
    omega
  · exact forall_mem_append.mpr ⟨hheads, forall_mem_singleton.mpr hl⟩
  · rcases hs with ⟨u, v, ⟨c, hc, rfl⟩, ⟨d, hd, rfl⟩, rfl⟩ | rfl
    · obtain rfl : c = '*' := by simpa using hc
      obtain rfl : d = '.' := by simpa using hd
      exact .inr rfl
    · exact .inl rfl

theorem isLabel_octet (n : Fin 256) : IsLabel hostChar (octet n) := by
  have hdigit : ∀ c ∈ octet n, c.isDigit = true := fun c hc =>
    Nat.isDigit_of_mem_toDigits (by decide) (by decide) hc
  have hhyphen : '-' ∉ octet n := fun hc => absurd (hdigit _ hc) (by decide)
  have hlength : (octet n).length ≤ 3 :=
    (Nat.length_toDigits_le_iff (by decide) (by decide)).mpr (by omega)
  refine ⟨fun c hc => ?_, Nat.length_toDigits_pos, by omega, fun h => ?_, fun h => ?_⟩
  · simp [hostChar, Char.isAlphanum, hdigit c hc]
  · exact hhyphen (mem_of_head? h)
  · exact hhyphen (mem_of_getLast? h)

theorem isDnsName_v4 (a b c d : Fin 256) : IsDnsName 2 (Address.v4 a b c d).text := by
  have hlength : ∀ n : Fin 256, (octet n).length ≤ 3 := fun n =>
    (Nat.length_toDigits_le_iff (by decide) (by decide)).mpr (by omega)
  refine ⟨?_, [octet a, octet b, octet c, octet d], by simp, by simp, ?_, .inl rfl⟩
  · have ha := hlength a
    have hb := hlength b
    have hc := hlength c
    have hd := hlength d
    simp only [Address.text, join_cons_cons, join_singleton, length_append, length_cons]
    omega
  · simp [isLabel_octet]

/-- What the client accepts: an address, or a value of its expression. -/
theorem normalizeClientIdentifier_eq_ok {ipAddress : List Char → Option Address} {name : List Char}
    {isIp : Bool} (h : normalizeClientIdentifier ipAddress value = .ok (name, isIp)) :
    (∃ ip, ipAddress value = some ip ∧ name = ip.text) ∨
      (ipAddress value = none ∧ name = value ∧ value.length ≤ 253 ∧
        clientFqdnRe.isMatch value = true) := by
  unfold normalizeClientIdentifier at h
  split at h
  · cases h
  split at h
  next ip hip =>
    cases h
    exact .inl ⟨ip, hip, rfl⟩
  next hip =>
    split at h
    · cases h
    next hlength =>
      split at h
      next hmatch =>
        cases h
        exact .inr ⟨hip, rfl, Nat.le_of_not_lt hlength, hmatch⟩
      next => cases h

/-- A value of the client's expression is a DNS name unless it ends in a line feed. -/
theorem isDnsName_of_clientFqdnRe (h : clientFqdnRe.isMatch value = true)
    (hlength : value.length ≤ 253) (hfeed : '\n' ∉ value) : IsDnsName 2 value := by
  obtain ⟨labels, htwo, hlabels, name, hname, hvalue⟩ := clientFqdnRe_isMatch h
  have hne : labels ≠ [] := ne_nil_of_length_pos (by omega)
  rcases hvalue with rfl | rfl
  · exact ⟨hlength, labels, hne, htwo, hlabels, hname⟩
  · exact absurd (by simp) hfeed

theorem IsDnsName.colon (h : IsDnsName least text) : ':' ∉ text := by
  intro hc
  rcases h.chars _ hc with h | h | h <;> exact absurd h (by decide)

/-- The server accepts a DNS name unless the value holds a line feed, an underscore or a root dot.
The client accepts one unless the value is an IPv6 address or holds a line feed. -/
theorem accepted_isDnsName_iff (ipAddress : List Char → Option Address) (value : List Char) :
    (isValidDnsIdentifier value = true →
      (IsDnsName 1 value ↔ '\n' ∉ value ∧ '_' ∉ value ∧ value.getLast? ≠ some '.')) ∧
    ∀ name isIp, normalizeClientIdentifier ipAddress value = .ok (name, isIp) →
      (IsDnsName 2 name ↔ (∀ text colon, ipAddress value ≠ some (.v6 text colon)) ∧
        (ipAddress value = none → '\n' ∉ value)) := by
  refine ⟨fun h => ⟨IsDnsName.plain, fun ⟨hfeed, hunder, hdot⟩ =>
    isDnsName_of_isValidDnsIdentifier h hfeed hunder hdot⟩, fun name isIp h => ?_⟩
  rcases normalizeClientIdentifier_eq_ok h with ⟨ip, hip, rfl⟩ | ⟨hip, rfl, hlength, hmatch⟩
  · cases ip with
    | v4 a b c d => simp [hip, isDnsName_v4]
    | v6 text colon =>
      have hno : ¬ IsDnsName 2 (Address.v6 text colon).text := fun hname => hname.colon colon
      simp [hip, hno, colon]
  · refine ⟨fun hname => ⟨by simp [hip], fun _ => hname.plain.1⟩, fun ⟨_, hfeed⟩ => ?_⟩
    exact isDnsName_of_clientFqdnRe hmatch hlength (hfeed hip)

theorem accepted_example_com :
    IsDnsName 1 "example.com".toList ∧ IsDnsName 2 "example.com".toList :=
  have h := accepted_isDnsName_iff (fun _ => none) "example.com".toList
  ⟨(h.1 (by decide)).mpr (by decide), (h.2 _ false rfl).mpr ⟨fun _ _ => nofun, fun _ => by decide⟩⟩

/-- A line feed after the name passes both rules. -/
theorem trailing_feed_accepted :
    isValidDnsIdentifier "example.com\n".toList = true ∧ ¬ IsDnsName 1 "example.com\n".toList ∧
    normalizeClientIdentifier (fun _ => none) "example.com\n".toList =
      .ok ("example.com\n".toList, false) ∧ ¬ IsDnsName 2 "example.com\n".toList :=
  ⟨by decide, fun h => h.plain.1 (by decide), by rfl, fun h => h.plain.1 (by decide)⟩

end UltimateCaManager.Identifiers
