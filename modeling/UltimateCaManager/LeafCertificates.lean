import UltimateCaManager.CsrSigning

/-!
# A CSR cannot widen a leaf

Every step that builds a certificate keeps the builder narrow: no CA bit, no key usage for signing
certificates or CRLs, and only purposes that were granted. The purposes are granted by the type of
the certificate, by the bound template, by the renewed certificate and by the operator, and the
sensitive ones by the operator alone. The extensions of a CSR outside the allow-list change nothing.
-/
namespace UltimateCaManager.Signing

open List Constraints Guards Tables

/-! ## Narrow builders -/

/-- What a value may say on a leaf whose purposes are granted by `granted`. -/
def Value.Narrow (granted : String → Prop) : Value → Prop
  | .basicConstraints isCa _ => isCa = false
  | .keyUsage usage => usage.keyCertSign = false ∧ usage.crlSign = false
  | .extendedKeyUsage oids => ∀ oid ∈ oids, granted oid
  | _ => True

def Builder.Narrow (granted : String → Prop) (b : Builder) : Prop :=
  ∀ e ∈ b, e.value.Narrow granted

/-- A step keeps a narrow builder narrow and drops no kind of extension. -/
structure Builder.Grows (granted : String → Prop) (b b' : Builder) : Prop where
  narrow : b.Narrow granted → b'.Narrow granted
  has : ∀ oid, b.has oid = true → b'.has oid = true

section Builders

variable {granted : String → Prop} {b b' b'' : Builder} {value : Value} {critical : Bool}
  {oid : ExtensionOid}

theorem Builder.add_eq_ok :
    b.add value critical = .ok b' ↔ b.has value.oid = false ∧ b' = b ++ [⟨value, critical⟩] := by
  unfold Builder.add
  cases hb : b.has value.oid with
  | true => simp
  | false => simp [eq_comm]

theorem Builder.has_iff : b.has oid = true ↔ ∃ e ∈ b, e.oid = oid := by
  simp [Builder.has]

theorem Builder.has_add (h : b.add value critical = .ok b') : b'.has value.oid = true := by
  obtain ⟨-, rfl⟩ := Builder.add_eq_ok.mp h
  exact Builder.has_iff.mpr ⟨⟨value, critical⟩, by simp, rfl⟩

namespace Builder.Grows

theorem refl (b : Builder) : b.Grows granted b := ⟨fun h => h, fun _ h => h⟩

theorem trans (h : b.Grows granted b') (h' : b'.Grows granted b'') : b.Grows granted b'' :=
  ⟨fun hb => h'.narrow (h.narrow hb), fun oid hb => h'.has oid (h.has oid hb)⟩

theorem of_add (h : b.add value critical = .ok b') (hvalue : value.Narrow granted) :
    b.Grows granted b' := by
  obtain ⟨-, rfl⟩ := Builder.add_eq_ok.mp h
  constructor
  · exact fun hb => forall_mem_append.mpr ⟨hb, forall_mem_singleton.mpr hvalue⟩
  · intro oid hb
    obtain ⟨e, he, hoid⟩ := Builder.has_iff.mp hb
    exact Builder.has_iff.mpr ⟨e, mem_append_left _ he, hoid⟩

theorem of_ok (h : (.ok b : Except String Builder) = .ok b') : b.Grows granted b' := by
  cases h
  exact refl _

theorem of_ite {c : Prop} [Decidable c]
    (h : (if c then .ok b else b.add value critical) = .ok b') (hvalue : value.Narrow granted) :
    b.Grows granted b' := by
  split at h
  · exact of_ok h
  · exact of_add h hvalue

theorem of_bind {x : Except String Builder} {f : Builder → Except String Builder}
    (h : x >>= f = .ok b') (hx : ∀ c, x = .ok c → b.Grows granted c)
    (hf : ∀ c, f c = .ok b' → c.Grows granted b') : b.Grows granted b' := by
  obtain ⟨c, hc, h⟩ := bind_eq_ok.mp h
  exact (hx c hc).trans (hf c h)

end Builder.Grows

variable {ekus : List String}

theorem addOcspNoCheck_grows (h : addOcspNoCheck ekus b = .ok b') : b.Grows granted b' :=
  .of_ite h trivial

theorem addEkus_grows (hekus : ∀ oid ∈ ekus, granted oid)
    (h : addEkus ekus critical b = .ok b') : b.Grows granted b' := by
  unfold addEkus at h
  split at h
  · exact .of_ok h
  · exact .of_bind h (fun _ h => .of_add h hekus) fun _ => addOcspNoCheck_grows

theorem addEkus_has (hekus : ekus ≠ [])
    (h : addEkus ekus critical b = .ok b') : b'.has .extendedKeyUsage = true := by
  unfold addEkus at h
  rw [if_neg hekus] at h
  obtain ⟨c, hc, h⟩ := bind_eq_ok.mp h
  have hgrows : c.Grows (fun _ => True) b' := addOcspNoCheck_grows h
  exact hgrows.has _ (Builder.has_add hc)

end Builders

/-! ## Granted purposes -/

/-- An entry of the list stands for the purpose. -/
def EkuItems.Lists (lib : Library) (items : EkuItems) (oid : String) : Prop :=
  ∃ entries raw, items = .entries entries ∧ some raw ∈ entries ∧
    String.ofList (ekuCandidate lib raw) = oid

def Options.TemplateLists (lib : Library) (o : Options) (oid : String) : Prop :=
  ∃ template ∈ o.templateExt, template.extendedKeyUsage.Lists lib oid

/-- Where a purpose of a leaf may come from; a sensitive one comes from the operator. -/
structure Granted (lib : Library) (o : Options) (ceiling : List String) (oid : String) : Prop where
  origin : oid ∈ ceiling ∨ oid ∈ defaultEkus o.certType ∨ o.TemplateLists lib oid ∨
    oid ∈ priorEkus o.renewalOf ∨ o.extraEkus.Lists lib oid
  sensitive : oid ∈ sensitiveEkus → o.extraEkus.Lists lib oid

section Purposes

variable {lib : Library} {o : Options} {ceiling : List String}

variable {oids extra : List String} {oid : String}

theorem mem_normalizeEntries {items : List (Option String)} {out : List String}
    (h : normalizeEntries lib items out = .ok oids) (hoid : oid ∈ oids) :
    oid ∈ out ∨ ∃ raw, some raw ∈ items ∧ String.ofList (ekuCandidate lib raw) = oid := by
  fun_induction normalizeEntries lib items out with
  | case1 out =>
    cases h
    exact .inl hoid
  | case2 => cases h
  | case3 raw rest out hblank ih =>
    rcases ih h with hout | ⟨r, hr, heq⟩
    · exact .inl hout
    · exact .inr ⟨r, mem_cons_of_mem _ hr, heq⟩
  | case4 raw rest out hblank ih =>
    obtain ⟨-, -, h⟩ := bind_eq_ok.mp h
    rcases ih h with hout | ⟨r, hr, heq⟩
    · split at hout
      · exact .inl hout
      · rcases mem_concat.mp hout with hout | hnew
        · exact .inl hout
        · exact .inr ⟨raw, mem_cons_self, hnew.symm⟩
    · exact .inr ⟨r, mem_cons_of_mem _ hr, heq⟩

theorem lists_of_mem_normalize {items : EkuItems}
    (h : normalizeExtraEkus lib items = .ok oids) (hoid : oid ∈ oids) :
    items.Lists lib oid := by
  cases items with
  | absent =>
    cases h
    cases hoid
  | notAList => cases h
  | entries entries =>
    rw [normalizeExtraEkus] at h
    split at h
    · cases h
    · rcases mem_normalizeEntries h hoid with hnil | ⟨raw, hraw, heq⟩
      · cases hnil
      · exact ⟨entries, raw, rfl, hraw, heq⟩

theorem toObjectIdentifiers_eq_ok {oids' : List String}
    (h : toObjectIdentifiers lib oids = .ok oids') : oids' = oids := by
  obtain ⟨-, -, h⟩ := bind_eq_ok.mp h
  exact (pure_eq_ok.mp h).symm

theorem lists_of_mem_extraEkuOids
    (h : extraEkuOids lib o.extraEkus = .ok extra) (hoid : oid ∈ extra) :
    o.extraEkus.Lists lib oid := by
  obtain ⟨oids, hnormal, h⟩ := bind_eq_ok.mp h
  obtain rfl := toObjectIdentifiers_eq_ok h
  exact lists_of_mem_normalize (mapError_eq_ok.mp hnormal) hoid

theorem not_sensitive_of_mem_default {certType : CertType}
    (h : oid ∈ defaultEkus certType) : oid ∉ sensitiveEkus := by
  have hall : ∀ oid ∈ defaultEkus certType, oid ∉ sensitiveEkus := by
    cases certType with
    | other name => simp [defaultEkus]
    | _ => decide
  exact hall oid h

theorem defaultEkus_ne_nil {certType : CertType} (h : allowedEkus? certType = some ceiling) :
    defaultEkus certType ≠ [] := by
  cases certType with
  | intermediateCa | other => cases h
  | _ => simp [defaultEkus]

theorem granted_of_default (h : oid ∈ defaultEkus o.certType) : Granted lib o ceiling oid :=
  ⟨.inr (.inl h), fun hs => absurd hs (not_sensitive_of_mem_default h)⟩

theorem mem_mergeEkuLists {base : List String} :
    oid ∈ mergeEkuLists base extra ↔ oid ∈ base ∨ oid ∈ extra := by
  simp [mergeEkuLists]

theorem mergeEkuLists_ne_nil {base : List String} (h : base ≠ []) :
    mergeEkuLists base extra ≠ [] := by
  obtain ⟨oid, hoid⟩ := exists_mem_of_ne_nil base h
  exact ne_nil_of_mem (mem_mergeEkuLists.mpr (.inl hoid))

theorem filterCsrEkus_spec (hceiling : allowedEkus? o.certType = some ceiling)
    (hsensitive : o.allowSensitiveEkus = false) {kept : List String}
    (h : filterCsrEkus oids o.certType o.allowSensitiveEkus o.renewalOf = .ok kept) :
    kept ≠ [] ∧ ∀ oid ∈ kept, Granted lib o ceiling oid := by
  unfold filterCsrEkus at h
  rw [hsensitive, if_neg Bool.false_ne_true] at h
  dsimp only at h
  split at h
  · rename_i hkept
    cases h
    refine ⟨hkept, fun oid hoid => ?_⟩
    obtain ⟨-, hoid⟩ := mem_filter.mp hoid
    simp only [isWithinCeiling, hceiling, Bool.and_eq_true, decide_eq_true_eq,
      Bool.or_eq_true] at hoid
    refine ⟨?_, fun hs => absurd hs hoid.1⟩
    rcases hoid.2 with hallowed | hprior
    · exact .inl hallowed
    · exact .inr (.inr (.inr (.inl hprior)))
  · -- every purpose was refused: the profile of the type stands in
    obtain ⟨-, -, h⟩ := bind_eq_ok.mp h
    obtain rfl := pure_eq_ok.mp h
    exact ⟨defaultEkus_ne_nil hceiling, fun oid hoid => granted_of_default hoid⟩

structure Imposed.Narrow (granted : String → Prop) (imposed : Imposed) : Prop where
  usage : ∀ usage ∈ imposed.1, usage.keyCertSign = false ∧ usage.crlSign = false
  ekus : ∀ ekus ∈ imposed.2, ∀ oid ∈ ekus, granted oid

theorem templateKeyUsage_narrow {names : List String} {usage : KeyUsage}
    (h : templateKeyUsage lib names = some usage) :
    usage.keyCertSign = false ∧ usage.crlSign = false := by
  unfold templateKeyUsage at h
  dsimp only at h
  split at h
  · cases h
  · cases h
    exact foldlRecOn
      (motive := fun u : KeyUsage => u.keyCertSign = false ∧ u.crlSign = false) names _ ⟨rfl, rfl⟩
      fun u hu name _ => by unfold setTemplateFlag; split <;> exact hu

theorem templateKeyPurposes_narrow (hsensitive : o.allowSensitiveEkus = false) {imposed : Imposed}
    (h : templateKeyPurposes lib o.templateExt o.allowSensitiveEkus = .ok imposed) :
    imposed.Narrow (Granted lib o ceiling) := by
  unfold templateKeyPurposes at h
  split at h
  · cases h
    exact ⟨fun _ hu => (Option.not_mem_none _ hu).elim, fun _ he => (Option.not_mem_none _ he).elim⟩
  rename_i template htemplate
  have husage : ∀ usage ∈ template.keyUsage.bind (templateKeyUsage lib),
      usage.keyCertSign = false ∧ usage.crlSign = false := by
    intro usage hu
    obtain ⟨names, -, hnames⟩ := Option.bind_eq_some_iff.mp hu
    exact templateKeyUsage_narrow hnames
  split at h
  · rename_i item items hitems
    obtain ⟨oids, hoids, h⟩ := bind_eq_ok.mp h
    obtain ⟨oids', hoids', hpure⟩ := bind_eq_ok.mp h
    obtain rfl := toObjectIdentifiers_eq_ok hoids'
    obtain rfl := pure_eq_ok.mp hpure
    refine ⟨husage, ?_⟩
    rintro ekus ⟨⟩ oid hoid
    obtain ⟨hmem, hkept⟩ := mem_filter.mp hoid
    have hlists : o.TemplateLists lib oid :=
      ⟨template, htemplate, hitems ▸ lists_of_mem_normalize (mapError_eq_ok.mp hoids) hmem⟩
    refine ⟨.inr (.inr (.inl hlists)), fun hs => ?_⟩
    simp [hsensitive, hs] at hkept
  · obtain rfl := pure_eq_ok.mp h
    exact ⟨husage, fun _ he => (Option.not_mem_none _ he).elim⟩

end Purposes

/-! ## The steps -/

section Steps

variable {ca : Issuer} {csr : Csr} {o : Options} {ceiling : List String} {subject : Subject}
  {sans : List GeneralName} {imposed : Imposed} {b b' : Builder} {e : Extension}
  {granted : String → Prop}

theorem issuingCa_eq_false (hceiling : allowedEkus? o.certType = some ceiling) :
    o.issuingCa = false := by
  refine decide_eq_false fun hca => ?_
  rw [hca] at hceiling
  cases hceiling

theorem copyExtension_grows (hleaf : o.issuingCa = false)
    (hcsr : ∀ oids kept, filterCsrEkus oids o.certType o.allowSensitiveEkus o.renewalOf = .ok kept →
      ∀ oid ∈ kept, granted oid)
    (h : copyExtension ca o subject sans imposed b e = .ok b') : b.Grows granted b' := by
  unfold copyExtension at h
  split at h
  · exact .of_ok h
  split at h
  · exact .of_ok h
  simp only [hleaf, Bool.false_eq_true, ↓reduceIte] at h
  split at h
  case h_1 => exact .of_add h rfl
  case h_2 => exact .of_ite h ⟨rfl, rfl⟩
  case h_3 oids _ =>
    split at h
    · cases h
      exact .refl _
    · obtain ⟨kept, hkept, h⟩ := bind_eq_ok.mp h
      exact addEkus_grows (hcsr oids kept hkept) h
  case h_4 => exact .of_ite h trivial
  case h_5 => exact .of_add h trivial
  case h_6 => exact .of_add h trivial
  case h_7 hvalue => exact .of_add h (by rw [hvalue]; trivial)

theorem copyExtension_basicConstraints (hleaf : o.issuingCa = false)
    (he : e.oid = .basicConstraints) (h : copyExtension ca o subject sans imposed b e = .ok b') :
    b'.has .basicConstraints = true := by
  obtain ⟨value, critical⟩ := e
  cases value with
  | basicConstraints isCa pathLength =>
    simp only [copyExtension, hleaf] at h
    exact Builder.has_add h
  | _ => cases he

/-- The purposes of a CSR that no template replaces leave some. -/
theorem copyExtension_extendedKeyUsage (hleaf : o.issuingCa = false)
    (hcsr : ∀ oids kept, filterCsrEkus oids o.certType o.allowSensitiveEkus o.renewalOf = .ok kept →
      kept ≠ [])
    (himposed : imposed.2 = none) (he : e.oid = .extendedKeyUsage)
    (h : copyExtension ca o subject sans imposed b e = .ok b') :
    b'.has .extendedKeyUsage = true := by
  obtain ⟨value, critical⟩ := e
  cases value with
  | extendedKeyUsage oids =>
    simp only [copyExtension, hleaf, himposed] at h
    obtain ⟨kept, hkept, h⟩ := bind_eq_ok.mp h
    exact addEkus_has (hcsr oids kept hkept) h
  | _ => cases he

theorem addNames_grows (h : addNames csr subject sans b = .ok b') : b.Grows granted b' := by
  unfold addNames at h
  split at h
  · exact .of_add h trivial
  · exact .of_ok h

theorem addBasicConstraints_grows (hleaf : o.issuingCa = false)
    (h : addBasicConstraints ca csr o b = .ok b') : b.Grows granted b' := by
  unfold addBasicConstraints at h
  simp only [hleaf] at h
  exact .of_ite h rfl

theorem addKeyUsage_grows (hleaf : o.issuingCa = false) {usage : Option KeyUsage}
    (husage : ∀ u ∈ usage, u.keyCertSign = false ∧ u.crlSign = false)
    (h : addKeyUsage csr o usage b = .ok b') : b.Grows granted b' := by
  unfold addKeyUsage at h
  split at h
  case h_1 u =>
    exact .of_add h (husage u rfl)
  split at h
  · exact .of_ok h
  split at h
  case h_1 htype => simp [Options.issuingCa, htype] at hleaf
  case h_2 => exact .of_add h ⟨rfl, rfl⟩
  case h_3 => exact .of_add h ⟨rfl, rfl⟩
  case h_4 => exact .of_ok h

theorem constrainKeyUsage_grows (key : KeyKind) : b.Grows granted (constrainKeyUsage key b) := by
  constructor
  · intro hb e he
    obtain ⟨e₀, he₀, rfl⟩ := mem_map.mp he
    have hnarrow := hb e₀ he₀
    split
    · rename_i usage husage
      rw [husage] at hnarrow
      unfold keyUsageForKey
      split <;> exact hnarrow
    · exact hnarrow
  · intro oid hb
    obtain ⟨e, he, rfl⟩ := Builder.has_iff.mp hb
    refine Builder.has_iff.mpr ⟨_, mem_map_of_mem he, ?_⟩
    split
    · rename_i usage husage
      simp [Extension.oid, husage, Value.oid]
    · rfl

theorem addIssuerExtension_grows {oid : OtherOid} {content : Content}
    (h : addIssuerExtension csr o oid content b = .ok b') : b.Grows granted b' :=
  .of_ite h trivial

theorem addQcStatements_grows (h : addQcStatements o b = .ok b') : b.Grows granted b' := by
  unfold addQcStatements at h
  split at h
  · exact .of_ite h trivial
  · exact .of_ok h

theorem addIssuerExtensions_grows (h : addIssuerExtensions ca csr o b = .ok b') :
    b.Grows granted b' := by
  refine .of_bind h (fun _ => addIssuerExtension_grows) fun _ h => ?_
  refine .of_bind h (fun _ => addIssuerExtension_grows) fun _ h => ?_
  refine .of_bind h (fun _ => addIssuerExtension_grows) fun _ h => ?_
  refine .of_bind h (fun _ => addQcStatements_grows) fun _ h => ?_
  refine .of_bind h (fun _ h => .of_add h trivial) fun _ h => ?_
  refine .of_bind h (fun _ h => .of_add h trivial) fun _ h => ?_
  split at h
  · exact .of_add h trivial
  · exact .of_ok h

theorem addGiven_grows {oid : OtherOid} {text : Option String}
    (h : addGiven oid text b = .ok b') : b.Grows granted b' := by
  unfold addGiven at h
  split at h
  · exact .of_add h trivial
  · exact .of_ok h

theorem addRelated_grows {related : Option RelatedCert} (h : addRelated related b = .ok b') :
    b.Grows granted b' := by
  unfold addRelated at h
  split at h
  · obtain ⟨-, -, h⟩ := bind_eq_ok.mp h
    exact .of_add h trivial
  · exact .of_ok h

theorem addLinks_grows {related : Option RelatedCert} (h : addLinks o related b = .ok b') :
    b.Grows granted b' :=
  .of_bind h (fun _ => addRelated_grows) fun _ h =>
    .of_bind h (fun _ => addGiven_grows) fun _ => addGiven_grows

theorem embedScts_grows (h : embedScts ca o b = .ok b') : b.Grows granted b' := by
  unfold embedScts at h
  split at h
  · exact .of_ok h
  obtain ⟨list, -, h⟩ := bind_eq_ok.mp h
  split at h
  · exact .of_add h trivial
  · exact .of_ok h

theorem granted_of_mem_base {oid : String}
    (h : oid ∈ (if (priorEkus o.renewalOf).filter (· ∉ sensitiveEkus) = []
      then defaultEkus o.certType
      else mergeEkuLists (defaultEkus o.certType)
        ((priorEkus o.renewalOf).filter (· ∉ sensitiveEkus)))) :
    Granted ca.lib o ceiling oid := by
  split at h
  · exact granted_of_default h
  · rcases mem_mergeEkuLists.mp h with h | h
    · exact granted_of_default h
    · obtain ⟨hprior, hs⟩ := mem_filter.mp h
      exact ⟨.inr (.inr (.inr (.inl hprior))), fun hoid => absurd hoid (of_decide_eq_true hs)⟩

/-- Making the builder again without its purposes, and setting others. -/
theorem addEkus_filter_grows {ekus : List String} {critical : Bool} (hne : ekus ≠ [])
    (hekus : ∀ oid ∈ ekus, granted oid)
    (h : addEkus ekus critical (b.filter fun e => e.oid ≠ .extendedKeyUsage) = .ok b') :
    b.Grows granted b' := by
  have hgrows : Builder.Grows granted (b.filter fun e => e.oid ≠ .extendedKeyUsage) b' :=
    addEkus_grows hekus h
  constructor
  · intro hb
    exact hgrows.narrow fun e he => hb e (mem_of_mem_filter he)
  · intro oid hb
    by_cases hoid : oid = .extendedKeyUsage
    · rw [hoid]
      exact addEkus_has hne h
    · obtain ⟨e, he, rfl⟩ := Builder.has_iff.mp hb
      exact hgrows.has _ (Builder.has_iff.mpr ⟨e, mem_filter.mpr ⟨he, by simp [hoid]⟩, rfl⟩)

section Ekus

variable (hceiling : allowedEkus? o.certType = some ceiling)
  (hsensitive : o.allowSensitiveEkus = false) {extra : List String}
include hceiling hsensitive

theorem addExtendedKeyUsage_grows (himposed : imposed.Narrow (Granted ca.lib o ceiling))
    (hextra : extraEkuOids ca.lib o.extraEkus = .ok extra)
    (h : addExtendedKeyUsage csr o imposed.2 extra b = .ok b') :
    b.Grows (Granted ca.lib o ceiling) b' := by
  -- what is merged with the purposes of the operator is granted if the rest is
  have hmerged : ∀ base : List String, (∀ oid ∈ base, Granted ca.lib o ceiling oid) →
      ∀ oid ∈ mergeEkuLists base extra, Granted ca.lib o ceiling oid := by
    intro base hbase oid hoid
    rcases mem_mergeEkuLists.mp hoid with hoid | hoid
    · exact hbase oid hoid
    · have hlists := lists_of_mem_extraEkuOids hextra hoid
      exact ⟨.inr (.inr (.inr (.inr hlists))), fun _ => hlists⟩
  unfold addExtendedKeyUsage at h
  split at h
  case h_1 _ ekus hekus =>
    refine addEkus_grows (hmerged _ fun oid hoid => ?_) h
    split at hoid
    · exact granted_of_default hoid
    · exact himposed.ekus ekus hekus oid hoid
  case h_2 => exact addEkus_grows (hmerged _ fun oid hoid => granted_of_mem_base hoid) h
  case h_3 oids critical _ _ =>
    split at h
    · cases h
      exact .refl _
    · obtain ⟨kept, hkept, h⟩ := bind_eq_ok.mp h
      obtain ⟨hne, hgranted⟩ := filterCsrEkus_spec hceiling hsensitive hkept
      exact addEkus_filter_grows (mergeEkuLists_ne_nil hne) (hmerged kept hgranted) h
  case h_4 => exact .of_ok h

/-- A leaf has purposes, if those of a CSR that no template replaces have been copied. -/
theorem addExtendedKeyUsage_has (himposed : imposed.Narrow (Granted ca.lib o ceiling))
    (hextra : extraEkuOids ca.lib o.extraEkus = .ok extra)
    (hcopied : imposed.2 = none → (csr.extension? .extendedKeyUsage).isSome = true →
      b.has .extendedKeyUsage = true)
    (h : addExtendedKeyUsage csr o imposed.2 extra b = .ok b') :
    b'.has .extendedKeyUsage = true := by
  have hgrows := addExtendedKeyUsage_grows hceiling hsensitive himposed hextra h
  have hdefault := defaultEkus_ne_nil hceiling
  cases himp : imposed.2 with
  | some ekus =>
    rw [himp] at h
    refine addEkus_has (mergeEkuLists_ne_nil ?_) h
    split
    · exact hdefault
    · assumption
  | none =>
    cases hx : csr.extension? .extendedKeyUsage with
    | some e => exact hgrows.has _ (hcopied himp (by rw [hx]; rfl))
    | none =>
      rw [himp] at h
      simp only [addExtendedKeyUsage, hx] at h
      refine addEkus_has (mergeEkuLists_ne_nil ?_) h
      split
      · exact hdefault
      · exact mergeEkuLists_ne_nil hdefault

end Ekus

end Steps

/-! ## What a request contributes -/

/-- The request with no extension outside the allow-list of a leaf. -/
def Csr.leafPart (csr : Csr) : Csr :=
  { csr with
    extensions := csr.extensions.filter fun e => e.oid ∈ leafCsrCopyable
    nodup := csr.nodup.sublist (List.filter_sublist.map Extension.oid) }

section LeafPart

variable {ca : Issuer} {csr : Csr} {o : Options} {subject : Subject} {sans : List GeneralName}
  {imposed : Imposed} {b : Builder}

theorem Csr.exists_of_extension? {oid : ExtensionOid} (h : (csr.extension? oid).isSome = true) :
    ∃ e ∈ csr.extensions, e.oid = oid := by
  obtain ⟨e, he⟩ := Option.isSome_iff_exists.mp h
  exact ⟨e, mem_of_find?_eq_some he, by simpa using find?_some he⟩

theorem Csr.leafPart_extension? {oid : ExtensionOid} (h : oid ∈ leafCsrCopyable) :
    csr.leafPart.extension? oid = csr.extension? oid := by
  unfold Csr.extension? Csr.leafPart
  rw [find?_filter]
  congr 1
  funext e
  by_cases he : e.oid = oid
  · simp [he, h]
  · simp [he]

theorem Csr.leafPart_san? : csr.leafPart.san? = csr.san? := by
  unfold Csr.san?
  rw [Csr.leafPart_extension? (by decide)]

theorem checkRequest_leafPart : checkRequest ca csr.leafPart o = checkRequest ca csr o := by
  have hsub : checkSubCa csr.leafPart o = checkSubCa csr o := by
    unfold checkSubCa
    rw [Csr.leafPart_extension? (by decide)]
  simp only [checkRequest, effectiveSubject, effectiveSans, collectedSans, Csr.leafPart_san?, hsub]
  rfl

theorem copyLoop_leafPart (hleaf : o.issuingCa = false) :
    csr.leafPart.extensions.foldlM (copyExtension ca o subject sans imposed) b =
      csr.extensions.foldlM (copyExtension ca o subject sans imposed) b := by
  refine foldlM_filter_eq fun b e _ he => ?_
  unfold copyExtension
  split
  · rfl
  · rw [if_pos (by simpa [hleaf] using he)]

theorem signCsr_leafPart (hleaf : o.issuingCa = false) :
    signCsr ca csr.leafPart o = signCsr ca csr o := by
  unfold signCsr
  rw [checkRequest_leafPart]
  refine bind_congr fun checked => bind_congr fun imposed => ?_
  rw [copyLoop_leafPart hleaf]
  -- the later steps look only for extensions of the allow-list
  simp only [addNames, addBasicConstraints, addKeyUsage, addExtendedKeyUsage, addIssuerExtensions,
    addIssuerExtension, Csr.leafPart_san?, hleaf, Bool.false_eq_true, false_and,
    @Csr.leafPart_extension? csr .basicConstraints (by decide),
    @Csr.leafPart_extension? csr .keyUsage (by decide),
    @Csr.leafPart_extension? csr .extendedKeyUsage (by decide)]
  rfl

end LeafPart

/-! ## The certificate -/

/-- What a certificate is that was signed as a leaf: no CA, with purposes, each of them granted. -/
structure Certificate.IsLeaf (granted : String → Prop) (cert : Certificate) : Prop where
  narrow : Builder.Narrow granted cert.extensions
  constraints : Builder.has cert.extensions .basicConstraints = true
  purposes : Builder.has cert.extensions .extendedKeyUsage = true

section Leaf

variable {ca : Issuer} {csr : Csr} {o : Options} {ceiling : List String}
  (hceiling : allowedEkus? o.certType = some ceiling) (hsensitive : o.allowSensitiveEkus = false)
  {subject : Subject} {sans : List GeneralName} {imposed : Imposed} {b : Builder}
include hceiling hsensitive

theorem copyLoop_grows
    (h : csr.extensions.foldlM (copyExtension ca o subject sans imposed) [] = .ok b) :
    Builder.Grows (Granted ca.lib o ceiling) [] b := by
  refine foldlM_rel .refl (fun _ _ _ => .trans) (fun b b' e _ he => ?_) h
  exact copyExtension_grows (issuingCa_eq_false hceiling)
    (fun oids kept hkept => (filterCsrEkus_spec hceiling hsensitive hkept).2) he

/-- What a round for an extension of the CSR establishes holds after the loop. -/
theorem copyLoop_has {oid : ExtensionOid}
    (hround : ∀ b b' e, e.oid = oid → copyExtension ca o subject sans imposed b e = .ok b' →
      b'.has oid = true)
    (h : csr.extensions.foldlM (copyExtension ca o subject sans imposed) [] = .ok b)
    (hcsr : (csr.extension? oid).isSome = true) : b.has oid = true := by
  obtain ⟨e, he, hoid⟩ := Csr.exists_of_extension? hcsr
  refine foldlM_establishes (P := fun b : Builder => b.has oid = true) he
    (fun b b' => hround b b' e hoid) (fun b b' a _ ha => ?_) h
  have hgrows : b.Grows (Granted ca.lib o ceiling) b' :=
    copyExtension_grows (issuingCa_eq_false hceiling)
      (fun oids kept hkept => (filterCsrEkus_spec hceiling hsensitive hkept).2) ha
  exact hgrows.has oid

theorem addBasicConstraints_has {b₁ b₂ : Builder} (hgrows : b.Grows (fun _ => True) b₁)
    (hcopy : csr.extensions.foldlM (copyExtension ca o subject sans imposed) [] = .ok b)
    (h : addBasicConstraints ca csr o b₁ = .ok b₂) : b₂.has .basicConstraints = true := by
  have hleaf := issuingCa_eq_false hceiling
  by_cases hcsr : (csr.extension? .basicConstraints).isSome = true
  · have hb : b.has .basicConstraints = true := copyLoop_has hceiling hsensitive
      (fun _ _ _ hoid he => copyExtension_basicConstraints hleaf hoid he) hcopy hcsr
    have hadd : b₁.Grows (fun _ => True) b₂ := addBasicConstraints_grows hleaf h
    exact (hgrows.trans hadd).has _ hb
  · simp only [addBasicConstraints, if_neg hcsr, hleaf] at h
    exact Builder.has_add h

theorem signCsr_isLeaf {cert : Certificate} (h : signCsr ca csr o = .ok cert) :
    cert.IsLeaf (Granted ca.lib o ceiling) := by
  have hleaf := issuingCa_eq_false hceiling
  obtain ⟨⟨related, subject, sans⟩, -, h⟩ := bind_eq_ok.mp h
  obtain ⟨imposed, himposed, h⟩ := bind_eq_ok.mp h
  obtain ⟨b₁, h₁, h⟩ := bind_eq_ok.mp h
  obtain ⟨b₂, h₂, h⟩ := bind_eq_ok.mp h
  obtain ⟨b₃, h₃, h⟩ := bind_eq_ok.mp h
  obtain ⟨b₄, h₄, h⟩ := bind_eq_ok.mp h
  obtain ⟨extra, hextra, h⟩ := bind_eq_ok.mp h
  obtain ⟨b₅, h₅, h⟩ := bind_eq_ok.mp h
  obtain ⟨b₆, h₆, h⟩ := bind_eq_ok.mp h
  obtain ⟨b₇, h₇, h⟩ := bind_eq_ok.mp h
  obtain ⟨-, -, h⟩ := bind_eq_ok.mp h
  obtain ⟨b₈, h₈, h⟩ := bind_eq_ok.mp h
  obtain rfl := pure_eq_ok.mp h
  rw [imposedPurposes, hleaf] at himposed
  have hnarrow : imposed.Narrow (Granted ca.lib o ceiling) :=
    templateKeyPurposes_narrow hsensitive himposed
  have hcopied : Builder.Grows (Granted ca.lib o ceiling) [] b₁ :=
    copyLoop_grows hceiling hsensitive h₁
  have hnamed : b₁.Grows (Granted ca.lib o ceiling) b₂ := addNames_grows h₂
  have hconstrained : b₂.Grows (Granted ca.lib o ceiling) b₃ := addBasicConstraints_grows hleaf h₃
  have hused : b₃.Grows (Granted ca.lib o ceiling) b₄ := addKeyUsage_grows hleaf hnarrow.usage h₄
  have hpurposes : b₄.Grows (Granted ca.lib o ceiling) b₅ :=
    addExtendedKeyUsage_grows hceiling hsensitive hnarrow hextra h₅
  have hfinished : b₅.Grows (Granted ca.lib o ceiling) b₈ :=
    (((constrainKeyUsage_grows csr.key).trans (addIssuerExtensions_grows h₆)).trans
      (addLinks_grows h₇)).trans (embedScts_grows h₈)
  refine ⟨?_, ?_, ?_⟩
  · have hall := ((((hcopied.trans hnamed).trans hconstrained).trans hused).trans hpurposes).trans
      hfinished
    exact hall.narrow fun e he => (not_mem_nil he).elim
  · have hb₃ := addBasicConstraints_has hceiling hsensitive (addNames_grows h₂) h₁ h₃
    exact ((hused.trans hpurposes).trans hfinished).has _ hb₃
  · refine hfinished.has _ (addExtendedKeyUsage_has hceiling hsensitive hnarrow hextra ?_ h₅)
    intro hnone hcsr
    have hb₁ : b₁.has .extendedKeyUsage = true := copyLoop_has hceiling hsensitive
      (fun _ _ _ hoid he => copyExtension_extendedKeyUsage hleaf
        (fun _ _ hkept => (@filterCsrEkus_spec ca.lib _ _ _ hceiling hsensitive _ hkept).1)
        hnone hoid he) h₁ hcsr
    exact ((hnamed.trans hconstrained).trans hused).has _ hb₁

end Leaf

/-- A CSR cannot widen a leaf: whatever its extensions say, the certificate is no CA and signs
neither certificates nor CRLs, it has purposes and each of them was granted, a sensitive one by the
operator, and the extensions outside the allow-list change nothing. -/
theorem csr_does_not_widen_leaf {ca : Issuer} {csr : Csr} {o : Options} {ceiling : List String}
    {cert : Certificate} (hceiling : allowedEkus? o.certType = some ceiling)
    (hsensitive : o.allowSensitiveEkus = false) (h : signCsr ca csr o = .ok cert) :
    (∃ pathLength critical, ⟨.basicConstraints false pathLength, critical⟩ ∈ cert.extensions) ∧
    (∀ isCa pathLength critical,
      ⟨.basicConstraints isCa pathLength, critical⟩ ∈ cert.extensions → isCa = false) ∧
    (∀ usage critical, ⟨.keyUsage usage, critical⟩ ∈ cert.extensions →
      usage.keyCertSign = false ∧ usage.crlSign = false) ∧
    signCsr ca csr.leafPart o = .ok cert ∧
    (∃ oids critical, ⟨.extendedKeyUsage oids, critical⟩ ∈ cert.extensions) ∧
    ∀ oids critical, ⟨.extendedKeyUsage oids, critical⟩ ∈ cert.extensions → ∀ oid ∈ oids,
      (oid ∈ ceiling ∨ oid ∈ defaultEkus o.certType ∨ o.TemplateLists ca.lib oid ∨
        oid ∈ priorEkus o.renewalOf ∨ o.extraEkus.Lists ca.lib oid) ∧
      (oid ∈ [ocspSigning, timeStamping, anyExtendedKeyUsage, smartcardLogon] →
        o.extraEkus.Lists ca.lib oid) := by
  have hcert := signCsr_isLeaf hceiling hsensitive h
  refine ⟨?_, ?_, ?_, ?_, ?_, ?_⟩
  · obtain ⟨⟨value, critical⟩, he, hoid⟩ := Builder.has_iff.mp hcert.constraints
    cases value with
    | basicConstraints isCa pathLength =>
      obtain rfl : isCa = false := hcert.narrow _ he
      exact ⟨pathLength, critical, he⟩
    | _ => cases hoid
  · exact fun isCa pathLength critical he => hcert.narrow _ he
  · exact fun usage critical he => hcert.narrow _ he
  · rw [signCsr_leafPart (issuingCa_eq_false hceiling)]
    exact h
  · obtain ⟨⟨value, critical⟩, he, hoid⟩ := Builder.has_iff.mp hcert.purposes
    cases value with
    | extendedKeyUsage oids => exact ⟨oids, critical, he⟩
    | _ => cases hoid
  · intro oids critical he oid hoid
    have hgranted : Granted ca.lib o ceiling oid := hcert.narrow _ he oid hoid
    exact ⟨hgranted.origin, hgranted.sensitive⟩

/-- Texts as they stand, each of them fit for a name. -/
def asciiLibrary : Library :=
  { plainLibrary with
    strip := id, isObjectIdentifier := fun _ => true, acceptsDnsName := fun _ => true
    ipAddress := fun _ => none, cnLooksLikeHostname := fun _ => true }

def openIssuer : Issuer where
  lib := asciiLibrary
  certificate := issuingCa
  rows := []
  constraints := fun _ => none
  refusal := fun _ => "refused"
  pathLength := none
  authorityKeyIdentifier := [("", "a1")]
  checkIssuerWindow := .ok ()
  checkPolicies := fun _ _ _ _ => .ok ()
  tsaSignerViolations := none
  applyCtPolicy := .ok none

/-- A request for everything: a CA, its key usage, the purposes of a responder and a revocation
address of its own. -/
def greedyCsr : Csr where
  subject := Subject.ofCommonName "a.example".toList
  key := .rsa
  keyLabel := "RSA-2048"
  keyIdentifier := "b2"
  keyError := none
  signatureValid := true
  related := .ok none
  extensions :=
    [⟨.basicConstraints true none, true⟩,
      ⟨.keyUsage { KeyUsage.none with keyCertSign := true, crlSign := true }, true⟩,
      ⟨.extendedKeyUsage [serverAuth, ocspSigning, codeSigning], false⟩,
      ⟨.other .crlDistributionPoints [("", "http://a.example/crl")], false⟩]
  nodup := by decide

/-- A server certificate for time stamping too, as the operator wants it. -/
def serverOptions : Options where
  certType := .serverCert
  cdpUrl := some "http://ca.example/crl"
  cdpUrls := []
  ocspUrl := none
  ocspUrls := []
  aiaCaIssuersUrl := none
  aiaCaIssuersUrls := []
  cpsUri := none
  cpsOid := none
  ocspMustStaple := false
  extraEkus := .entries [some "1.3.6.1.5.5.7.3.8"]
  renewalOf := none
  allowSensitiveEkus := false
  requirePop := true
  msCertificateTemplateOid := none
  overrideSubject := none
  overrideSan := none
  requesterSid := none
  templateExt := none
  extraSan := []
  sanTemplate := none
  policyOids := []
  qcStatements := none

def greedyCertificate : Certificate where
  subject := Subject.ofCommonName "a.example".toList
  extensions :=
    [⟨.basicConstraints false none, true⟩, ⟨.keyUsage KeyUsage.none, true⟩,
      ⟨.subjectAlternativeName [.dns "a.example".toList], false⟩,
      ⟨.extendedKeyUsage [serverAuth, timeStamping], false⟩,
      ⟨.other .crlDistributionPoints [("", "http://ca.example/crl")], false⟩,
      ⟨.other .subjectKeyIdentifier [("", "b2")], false⟩,
      ⟨.other .authorityKeyIdentifier [("", "a1")], false⟩]

theorem greedy_request_signed_as_leaf :
    signCsr openIssuer greedyCsr serverOptions = .ok greedyCertificate ∧
    signCsr openIssuer greedyCsr.leafPart serverOptions = .ok greedyCertificate ∧
    (∃ pathLength critical,
      ⟨.basicConstraints false pathLength, critical⟩ ∈ greedyCertificate.extensions) ∧
    serverOptions.extraEkus.Lists asciiLibrary timeStamping := by
  have hsigned : signCsr openIssuer greedyCsr serverOptions = .ok greedyCertificate := rfl
  obtain ⟨hconstraints, -, -, hleaf, -, hpurposes⟩ :=
    csr_does_not_widen_leaf (by rfl) (by rfl) hsigned
  have hstamping := hpurposes [serverAuth, timeStamping] false (by decide) timeStamping (by decide)
  exact ⟨hsigned, hleaf, hconstraints, hstamping.2 (by decide)⟩

end UltimateCaManager.Signing
