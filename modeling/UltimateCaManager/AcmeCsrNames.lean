import UltimateCaManager.AcmeIssuance

/-!
# The names of a CSR and of its order

The checks of `finalize_order` on a CSR against what they are for: that the subjectAltName names
the identifiers of the order and the subject no other. The comparison of the DNS names takes the
first common name for a DNS name. So it refuses a common name that is an address of the order,
which the check of the subject lets through, and lets a common name stand for a missing entry.
-/
namespace UltimateCaManager.Acme

open List

variable (text : Text)

/-- The DNS entries of the subjectAltName, compared without letter case and trailing dots. -/
def Csr.dnsSans (csr : Csr) : List String := (dnsNames (csr.san.getD [])).map text.norm

def Csr.ipSans (csr : Csr) : List String := ipNames (csr.san.getD [])

/-- The first common name, as `_extract_domains_from_csr` takes it. -/
def Csr.firstName (csr : Csr) : List String := ((commonNames csr.subject).take 1).map text.norm

def Order.IsNamed (o : Order) (cn : String) : Prop :=
  text.norm cn ∈ o.domains.map text.norm ∨ text.norm cn ∈ o.ips ∨ cn ∈ o.ips

/-- The subjectAltName holds the identifiers of the order, and every common name is one. -/
def NamesExactly (csr : Csr) (o : Order) : Prop :=
  (∀ n, n ∈ csr.dnsSans text ↔ n ∈ o.domains.map text.norm) ∧ (∀ n, n ∈ csr.ipSans ↔ n ∈ o.ips) ∧
    ∀ cn ∈ commonNames csr.subject, o.IsNamed text cn

/-- The names agree, but for a DNS name of the order that only the first common name gives. -/
def NamesUpToCommonName (csr : Csr) (o : Order) : Prop :=
  (∀ n ∈ csr.dnsSans text, n ∈ o.domains.map text.norm) ∧
    (∀ n ∈ o.domains.map text.norm, n ∈ csr.dnsSans text ∨ n ∈ csr.firstName text) ∧
    (∀ n, n ∈ csr.ipSans ↔ n ∈ o.ips) ∧ ∀ cn ∈ commonNames csr.subject, o.IsNamed text cn

/-- Where the subjectAltName has all DNS names of the order, the subject has no e-mail address and
its first common name is a DNS name of the order; where it has not, there is an e-mail address. -/
def SubjectAgrees (csr : Csr) (o : Order) : Prop :=
  ((∀ n ∈ o.domains.map text.norm, n ∈ csr.dnsSans text) →
    emails csr.subject = [] ∧ ∀ n ∈ csr.firstName text, n ∈ o.domains.map text.norm) ∧
  ((∃ n ∈ o.domains.map text.norm, n ∉ csr.dnsSans text) → emails csr.subject ≠ [])

variable {text} {csr : Csr} {o : Order}

theorem mem_map_extractDomainsFromCsr {n : String} :
    n ∈ (extractDomainsFromCsr csr).map text.norm ↔
      n ∈ csr.firstName text ∨ n ∈ csr.dnsSans text := by
  simp only [Csr.firstName, Csr.dnsSans, mem_map, mem_extractDomainsFromCsr, or_and_right,
    exists_or]

theorem eq_of_mem_firstName {m n : String} (hm : m ∈ csr.firstName text)
    (hn : n ∈ csr.firstName text) : m = n := by
  unfold Csr.firstName at hm hn
  cases hnames : commonNames csr.subject with
  | nil => simp [hnames] at hm
  | cons cn names =>
    simp only [hnames, take_succ_cons, take_zero, map_cons, map_nil,
      mem_singleton] at hm hn
    rw [hm, hn]

theorem sameSet_eq_true {xs ys : List String} : sameSet xs ys = true ↔ ∀ n, n ∈ xs ↔ n ∈ ys := by
  simp only [sameSet, Bool.and_eq_true, all_eq_true, decide_eq_true_eq]
  exact ⟨fun h n => ⟨h.1 n, h.2 n⟩, fun h => ⟨fun n => (h n).mp, fun n => (h n).mpr⟩⟩

/-- With DNS and IP entries only, what the checks come to. -/
theorem csrMatchesOrder_iff
    (hsan : ∀ n ∈ csr.san.getD [], n.kind = .dns ∨ n.kind = .ip) :
    csrMatchesOrder text csr o = true ↔ NamesUpToCommonName text csr o ∧
      emails csr.subject = [] ∧ ∀ n ∈ csr.firstName text, n ∈ o.domains.map text.norm := by
  have hsubject : validateCsrSubject text csr (o.domains.map text.norm) o.ips = true ↔
      emails csr.subject = [] ∧ ∀ cn ∈ commonNames csr.subject, o.IsNamed text cn := by
    simp [validateCsrSubject, Order.IsNamed, or_assoc]
  simp only [csrMatchesOrder, Bool.and_eq_true, sameSet_eq_true, mem_map_extractDomainsFromCsr,
    hsubject]
  constructor
  · rintro ⟨⟨⟨hdomains, hips⟩, -⟩, hemails, hnames⟩
    refine ⟨⟨fun n hn => (hdomains n).mp (.inr hn), fun n hn => ((hdomains n).mpr hn).symm, hips,
      hnames⟩, hemails, fun n hn => (hdomains n).mp (.inl hn)⟩
  · rintro ⟨⟨hdns, hdomains, hips, hnames⟩, hemails, hfirst⟩
    refine ⟨⟨⟨fun n => ⟨?_, fun hn => (hdomains n hn).symm⟩, hips⟩, all_eq_true.mpr fun n hn => ?_⟩,
      hemails, hnames⟩
    · rintro (hn | hn)
      · exact hfirst n hn
      · exact hdns n hn
    · cases n with
      | dns => exact decide_eq_true (hdns _ (mem_map_of_mem (mem_filterMap.mpr ⟨_, hn, rfl⟩)))
      | ip => exact decide_eq_true ((hips _).mp (mem_filterMap.mpr ⟨_, hn, rfl⟩))
      | email | other => rcases hsan _ hn with h | h <;> cases h

theorem namesExactly_iff : NamesExactly text csr o ↔ NamesUpToCommonName text csr o ∧
    ∀ n ∈ o.domains.map text.norm, n ∈ csr.dnsSans text := by
  constructor
  · rintro ⟨hdns, hips, hnames⟩
    exact ⟨⟨fun n => (hdns n).mp, fun n hn => .inl ((hdns n).mpr hn), hips, hnames⟩,
      fun n => (hdns n).mpr⟩
  · rintro ⟨⟨hdns, -, hips, hnames⟩, hall⟩
    exact ⟨fun n => ⟨hdns n, hall n⟩, hips, hnames⟩

/-- The checks accept exactly the names of the order just when, for a CSR that gives these names
at least by its first common name, the subject agrees. -/
theorem csrMatchesOrder_exact_iff
    (hsan : ∀ n ∈ csr.san.getD [], n.kind = .dns ∨ n.kind = .ip) :
    (csrMatchesOrder text csr o = true ↔ NamesExactly text csr o) ↔
      (NamesUpToCommonName text csr o → SubjectAgrees text csr o) := by
  rw [csrMatchesOrder_iff hsan, namesExactly_iff]
  constructor
  · intro hiff hnames
    refine ⟨fun hall => (hiff.mpr ⟨hnames, hall⟩).2, fun hmissing hemails => ?_⟩
    obtain ⟨n, hn, hout⟩ := hmissing
    -- the missing name is the first common name, so that the checks pass
    have hfirst : ∀ m ∈ csr.firstName text, m ∈ o.domains.map text.norm := by
      intro m hm
      have hmn := (hnames.2.1 n hn).resolve_left hout
      obtain rfl := eq_of_mem_firstName hm hmn
      exact hn
    exact hout ((hiff.mp ⟨hnames, hemails, hfirst⟩).2 n hn)
  · intro hagrees
    constructor
    · rintro ⟨hnames, hemails, -⟩
      refine ⟨hnames, fun n hn => ?_⟩
      by_contra hout
      exact (hagrees hnames).2 ⟨n, hn, hout⟩ hemails
    · rintro ⟨hnames, hall⟩
      exact ⟨hnames, (hagrees hnames).1 hall⟩

/-- Lower-casing of ASCII letters; no text is an address. -/
def asciiText : Text := ⟨fun s => String.ofList (s.toList.map Char.toLower), fun _ => none⟩

def orderOf (identifiers : List Identifier) : Order :=
  ⟨1, 1, .ready, identifiers, 100, none, none⟩

def namedTwice : Csr := ⟨[.commonName "example.com"], some [.dns "example.com"]⟩

def exampleOrder : Order := orderOf [⟨.dns, "example.com", ""⟩]

theorem csrMatchesOrder_example_com : csrMatchesOrder asciiText namedTwice exampleOrder = true := by
  have hsan : ∀ n ∈ namedTwice.san.getD [], n.kind = .dns ∨ n.kind = .ip := by decide
  have hdns : namedTwice.dnsSans asciiText = exampleOrder.domains.map asciiText.norm := by decide
  have hips : namedTwice.ipSans = exampleOrder.ips := rfl
  have hexact : NamesExactly asciiText namedTwice exampleOrder := by
    refine ⟨fun n => by rw [hdns], fun n => by rw [hips], fun cn hcn => .inl ?_⟩
    exact mem_map_of_mem hcn
  have hagrees : SubjectAgrees asciiText namedTwice exampleOrder := by
    refine ⟨fun _ => ⟨rfl, fun n hn => ?_⟩, fun ⟨n, hn, hout⟩ => ?_⟩
    · exact hn
    · exact absurd hn hout
  exact ((csrMatchesOrder_exact_iff hsan).mpr fun _ => hagrees).mpr hexact

/-- An order for an address, and a CSR with this address as entry and as common name. -/
theorem address_common_name_refused :
    csrMatchesOrder asciiText ⟨[.commonName "192.0.2.1"], some [.ip "192.0.2.1"]⟩
      (orderOf [⟨.ip, "192.0.2.1", ""⟩]) = false ∧
    NamesExactly asciiText ⟨[.commonName "192.0.2.1"], some [.ip "192.0.2.1"]⟩
      (orderOf [⟨.ip, "192.0.2.1", ""⟩]) := by
  refine ⟨by decide, fun n => ?_, fun n => ?_, fun cn hcn => ?_⟩
  · exact Iff.rfl
  · exact Iff.rfl
  · exact .inr (.inr hcn)

end UltimateCaManager.Acme
