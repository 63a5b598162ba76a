import UltimateCaManager.WstepRenewal

/-!
# What the signature of a WSTEP renewal covers

The holder of a certificate signs the digests of parts of a document. A renewal that is accepted
should act on a CSR from such a part, wherever elements were added, moved or wrapped since. The CSR
has to be inside the target of a Reference; but the octets that are digested are those of the target
after its transforms, and a CSR inside the Signature element is in the target and not in the octets
once the enveloped-signature transform is listed.
-/
namespace UltimateCaManager.Wstep

open List Guards Xml

variable {Key : Type} {lib : Library Key} {svc : Service} {now : ℤ} {doc : Element}

/-- The signature that a renewal verifies. -/
def signatureOf (doc : Element) : Option Located :=
  (findSecurityHeader doc).bind fun header => header.child? ⟨dsNs, "Signature"⟩

def signedInfo? (signature : Located) : Option Element :=
  (signatureParts signature.element).map Prod.fst

/-- The digests in a SignedInfo are those of the document. -/
structure Digested (lib : Library Key) (doc : Element) (signature : Located) (info : Element) :
    Prop where
  signature_eq : signatureOf doc = some signature
  info_eq : signedInfo? signature = some info
  digests : ∀ reference ∈ referencesOf info, ∃ target method value,
    resolveReference lib doc reference = .ok target ∧ digestOf reference = some (method, value) ∧
      lib.digestMatches method (referenceOctets lib doc signature reference target) value = true

/-- Whoever makes a signature that verifies with a key is its holder, who computed the digests from
a document of their own. -/
def Unforgeable (lib : Library Key) (signed : Key → Element → Prop) : Prop :=
  ∀ key info value, lib.verifySignature key info value = true →
    ∃ doc signature, signed key doc ∧ Digested lib doc signature info

def CollisionFree (lib : Library Key) : Prop :=
  ∀ method value octets octets', lib.digestMatches method octets value = true →
    lib.digestMatches method octets' value = true → octets = octets'

/-- The element is one of those that a Reference digests. -/
def InOctets (lib : Library Key) (doc : Element) (signature : Located) (reference : Element)
    (element : Located) : Prop :=
  ∃ target, resolveReference lib doc reference = .ok target ∧ element ∈ target.all ∧
    (transformsOf reference).all (transformKeeps lib doc signature · element.path) = true

/-- The element is in octets of the document that are those of a document the holder of the key
signed, and its tag and text are in them there. -/
def PartOfSigned (lib : Library Key) (signed : Key → Element → Prop) (key : Key) (doc : Element)
    (element : Located) : Prop :=
  ∃ signature info, signatureOf doc = some signature ∧ signedInfo? signature = some info ∧
    ∃ reference ∈ referencesOf info, InOctets lib doc signature reference element ∧
      ∃ doc₀ signature₀ target target₀, signed key doc₀ ∧ Digested lib doc₀ signature₀ info ∧
        resolveReference lib doc reference = .ok target ∧
        resolveReference lib doc₀ reference = .ok target₀ ∧
        referenceOctets lib doc₀ signature₀ reference target₀ =
          referenceOctets lib doc signature reference target ∧
        element.element.opening <:+: referenceOctets lib doc₀ signature₀ reference target₀

/-- A Reference covers the element, and none of the transforms it lists takes it out: neither the
enveloped-signature transform, from inside the Signature, nor another one. -/
def Retained (lib : Library Key) (doc : Element) (signature : Located) (element : Located)
    (reference : Element) : Prop :=
  ∃ target, resolveReference lib doc reference = .ok target ∧ target.path <+: element.path ∧
    (envelopedSignature ∈ transformsOf reference → ¬ signature.path <+: element.path) ∧
    ∀ algorithm ∈ transformsOf reference, algorithm ≠ envelopedSignature →
      lib.keeps algorithm doc element.path = true

/-! ## Targets and transforms -/

variable {reference : Element} {target signature element : Located}

theorem resolveReference_mem
    (h : resolveReference lib doc reference = .ok target) : target ∈ (Located.root doc).all := by
  unfold resolveReference at h
  split at h
  · simp only [bind_eq_ok, pure_eq_ok] at h
    obtain ⟨-, -, rfl⟩ := h
    exact mem_cons_self
  · exact mem_of_find?_eq_some (expect_eq_ok.mp h)
  · cases h

theorem isPrefixOf_eq_false {p q : Path} : p.isPrefixOf q = false ↔ ¬ p <+: q := by
  rw [← isPrefixOf_iff_prefix, Bool.not_eq_true]

theorem all_transformKeeps_iff :
    (transformsOf reference).all (transformKeeps lib doc signature · element.path) = true ↔
      (envelopedSignature ∈ transformsOf reference → ¬ signature.path <+: element.path) ∧
        ∀ algorithm ∈ transformsOf reference, algorithm ≠ envelopedSignature →
          lib.keeps algorithm doc element.path = true := by
  rw [all_eq_true]
  constructor
  · intro h
    refine ⟨fun hmem => ?_, fun algorithm hmem hne => ?_⟩
    · rw [← isPrefixOf_eq_false]
      simpa [transformKeeps] using h _ hmem
    · simpa [transformKeeps, hne] using h _ hmem
  · intro ⟨henveloped, hother⟩ algorithm hmem
    unfold transformKeeps
    split
    next heq =>
      rw [isPrefixOf_eq_false.mpr (henveloped (heq ▸ hmem))]
      rfl
    next hne => exact hother algorithm hmem hne

/-- To be digested is to be covered and not taken out. -/
theorem inOctets_iff (hmem : element ∈ (Located.root doc).all) :
    InOctets lib doc signature reference element ↔
      Retained lib doc signature element reference := by
  refine exists_congr fun target => and_congr_right fun htarget => ?_
  rw [Located.mem_all_iff_prefix (resolveReference_mem htarget) hmem, all_transformKeeps_iff]

/-! ## What a verified signature establishes -/

theorem resolveReference_unique {r r' : Element} {t t' : Located} {id : List Char}
    (h : resolveReference lib doc r = .ok t) (h' : resolveReference lib doc r' = .ok t')
    (hr : (uriOf r).toList = '#' :: id) (hr' : (uriOf r').toList = '#' :: id) : t = t' := by
  unfold resolveReference at h h'
  rw [hr] at h
  rw [hr'] at h'
  cases id with
  | nil => cases h
  | cons c cs => exact Option.some.inj ((expect_eq_ok.mp h).symm.trans (expect_eq_ok.mp h'))

/-- The ids that are registered lead the signature library to the elements that were recorded. -/
theorem targetOf_registered {references : List Element} {targets : List Located}
    (h : references.mapM (resolveReference lib doc) = .ok targets) (hmem : reference ∈ references)
    (ht : resolveReference lib doc reference = .ok target) :
    targetOf doc (registeredIds references targets) reference = some target := by
  obtain ⟨hzip, hall⟩ := mapM_eq_ok h
  unfold targetOf
  split
  next huri =>
    unfold resolveReference at ht
    rw [huri] at ht
    simp only [bind_eq_ok, pure_eq_ok] at ht
    obtain ⟨-, -, rfl⟩ := ht
    rfl
  next id huri =>
    -- this Reference was registered itself, so the id is found
    obtain ⟨t, ht'⟩ := hzip reference hmem
    have hentry : (String.ofList id, t) ∈ registeredIds references targets :=
      mem_filterMap.mpr ⟨(reference, t), ht', by simp [huri]⟩
    obtain ⟨entry, hfind⟩ : ∃ e, (registeredIds references targets).find?
        (fun e => e.1 = String.ofList id) = some e := by
      refine Option.isSome_iff_exists.mp (find?_isSome.mpr ⟨_, hentry, ?_⟩)
      simp
    have hid : entry.1 = String.ofList id := by simpa using find?_some hfind
    obtain ⟨⟨r', t'⟩, hmem', hmap⟩ := mem_filterMap.mp (mem_of_find?_eq_some hfind)
    rw [hfind]
    split at hmap
    next id' huri' =>
      cases hmap
      have hsame : id' = id := String.ofList_injective hid
      rw [hsame] at huri'
      exact congrArg some (resolveReference_unique ht (hall _ hmem') huri huri').symm
    next => cases hmap
  next huri hbare =>
    unfold resolveReference at ht
    split at ht
    next h => exact absurd h huri
    next c cs h => exact absurd h (hbare _)
    next => cases ht

/-- By the schema a Signature has one SignedInfo. -/
theorem signedInfos_eq {info : Element}
    (h : signedInfo? signature = some info) : signedInfos signature.element = [info] := by
  obtain ⟨⟨i, value⟩, hparts, rfl⟩ := Option.map_eq_some_iff.mp h
  unfold signatureParts at hparts
  split at hparts
  next i' v rest helements =>
    split at hparts
    next hnames =>
      cases hparts
      obtain ⟨hinfo, hvalue, hrest⟩ := hnames
      unfold signedInfos Element.childrenNamed
      rw [helements, filter_cons_of_pos (by simpa using hinfo),
        filter_cons_of_neg (by rw [hvalue]; decide), filter_eq_nil_iff.mpr]
      intro e he hname
      have hother := all_eq_true.mp hrest e he
      rw [decide_eq_true_eq] at hother hname
      rw [hname] at hother
      exact absurd hother (by decide)
    next => cases hparts
  next => cases hparts

/-- What a request that verifies establishes: its signature is in the document, the SignedInfo
verifies with the key of the signing certificate, and its digests are those of the document. -/
theorem verifySignedRequest_spec {der : Bytes} {elements : List Located}
    (h : verifySignedRequest lib doc (findSecurityHeader doc) = .ok (der, elements)) :
    ∃ key signature info value, lib.loadKey der = .ok key ∧
      lib.verifySignature key info value = true ∧ Digested lib doc signature info ∧
      ∀ element ∈ elements, ∃ reference ∈ referencesOf info,
        resolveReference lib doc reference = .ok element := by
  unfold verifySignedRequest at h
  simp only [bind_eq_ok, require_eq_ok, expect_eq_ok, mapError_eq_ok] at h
  obtain ⟨header, hheader, token, -, -, -, der', -, signature, hsignature, -, -, -, -, key, hkey, -,
    -, targets, htargets, -, hverify, hresult⟩ := h
  cases hresult
  unfold verify at hverify
  split at hverify
  next info value hparts =>
    obtain ⟨hvalue, hreferences⟩ := Bool.and_eq_true_iff.mp hverify
    have hinfo : signedInfo? signature = some info := by rw [signedInfo?, hparts]; rfl
    rw [signedInfos_eq hinfo, flatMap_singleton] at htargets hreferences
    have hof : signatureOf doc = some signature := by rw [signatureOf, hheader]; exact hsignature
    refine ⟨key, signature, info, value, hkey, hvalue, ⟨hof, hinfo, fun reference hmem => ?_⟩,
      fun element hmem => exists_of_mapM_ok htargets hmem⟩
    obtain ⟨target, hzip⟩ := (mapM_eq_ok htargets).1 reference hmem
    have htarget := (mapM_eq_ok htargets).2 _ hzip
    have hdigest := all_eq_true.mp hreferences reference hmem
    unfold verifyReference at hdigest
    rw [targetOf_registered htargets hmem htarget] at hdigest
    cases hd : digestOf reference with
    | none =>
      rw [hd] at hdigest
      cases hdigest
    | some digest =>
      rw [hd] at hdigest
      exact ⟨target, digest.1, digest.2, htarget, rfl, hdigest⟩
  next => cases hverify

theorem parseRst_spec {rst : ParsedRst} (h : parseRst lib doc = .ok rst) :
    rst.securityHeader = findSecurityHeader doc ∧ rst.csrElement ∈ (Located.root doc).all := by
  unfold parseRst at h
  simp only [bind_eq_ok, expect_eq_ok] at h
  obtain ⟨el, hel, bst, hbst, -, -, der, -, h⟩ := h
  have hmem : bst ∈ (Located.root doc).all := by
    have hdescendant := mem_of_find?_eq_some hel
    exact Located.mem_all_trans (mem_cons_of_mem _ hdescendant)
      (Xml.siblings_subset_located (mem_of_find?_eq_some hbst))
  split at h
  · obtain ⟨⟨csr, bodyPartId, outer⟩, -, h⟩ := bind_eq_ok.mp h
    cases h
    exact ⟨rfl, hmem⟩
  · cases h
    exact ⟨rfl, hmem⟩

theorem renew_spec {s : Scep.Store} {rst : ParsedRst} {signing : Scep.Certificate} {csr : Scep.Csr}
    {issued : Bytes} (h : renew lib svc now s doc rst = .ok (signing, csr, issued)) :
    ∃ der elements, verifySignedRequest lib doc rst.securityHeader = .ok (der, elements) ∧
      covers elements rst.csrElement = true ∧ lib.loadCertificate der = some signing := by
  unfold renew at h
  simp only [bind_eq_ok, require_eq_ok, expect_eq_ok] at h
  obtain ⟨⟨der, elements⟩, hverify, -, hcovers, cert, hcert, -, -, csr', -, h⟩ := h
  have hsame : cert = signing := by
    split at h
    · obtain ⟨-, -, h⟩ := bind_eq_ok.mp h
      obtain ⟨issued', -, hresult⟩ := bind_eq_ok.mp h
      exact (Prod.ext_iff.mp (pure_eq_ok.mp hresult)).1
    · obtain ⟨issued', -, hresult⟩ := bind_eq_ok.mp h
      exact (Prod.ext_iff.mp (pure_eq_ok.mp hresult)).1
  exact ⟨der, elements, hverify, hcovers, hsame ▸ hcert⟩

/-- The holder digested some document into the SignedInfo, and the digests are those of both. -/
theorem partOfSigned_iff {signed : Key → Element → Prop} (hunforgeable : Unforgeable lib signed)
    (hcollision : CollisionFree lib) {key : Key} {info : Element}
    {value : String} (hvalue : lib.verifySignature key info value = true)
    (hdigested : Digested lib doc signature info) (hmem : element ∈ (Located.root doc).all) :
    PartOfSigned lib signed key doc element ↔
      ∃ reference ∈ referencesOf info, Retained lib doc signature element reference := by
  constructor
  · rintro ⟨sig, inf, hsig, hinf, reference, href, hin, -⟩
    obtain rfl : signature = sig := Option.mem_unique hdigested.signature_eq hsig
    obtain rfl : info = inf := Option.mem_unique hdigested.info_eq hinf
    exact ⟨reference, href, (inOctets_iff hmem).mp hin⟩
  · rintro ⟨reference, href, hretained⟩
    obtain ⟨target, htarget, hinside, hkept⟩ := (inOctets_iff hmem).mpr hretained
    obtain ⟨doc₀, signature₀, hsigned, hdigested₀⟩ := hunforgeable key info value hvalue
    obtain ⟨t, method, v, ht, hd, hmatch⟩ := hdigested.digests reference href
    obtain ⟨t₀, method₀, v₀, ht₀, hd₀, hmatch₀⟩ := hdigested₀.digests reference href
    obtain rfl : target = t := Except.ok.inj (htarget.symm.trans ht)
    obtain ⟨rfl, rfl⟩ : method = method₀ ∧ v = v₀ :=
      Prod.mk.inj (Option.mem_unique hd hd₀)
    have hoctets := hcollision method v _ _ hmatch₀ hmatch
    refine ⟨signature, info, hdigested.signature_eq, hdigested.info_eq, reference, href,
      ⟨target, htarget, hinside, hkept⟩, doc₀, signature₀, target, t₀, hsigned, hdigested₀, htarget,
      ht₀, hoctets, ?_⟩
    rw [hoctets]
    exact Located.opening_infix hkept hinside

section Renewed

variable {signed : Key → Element → Prop} {s : Scep.Store} {rst : ParsedRst}
  {signing : Scep.Certificate} {csr : Scep.Csr} {issued : Bytes}

/-- What the checks of a renewal establish of its signature: it verifies with the key of the renewed
certificate, and the target of a Reference covers the CSR. -/
theorem renewed_signature (hparse : parseRst lib doc = .ok rst)
    (hrenew : renew lib svc now s doc rst = .ok (signing, csr, issued)) :
    ∃ der key signature info value, lib.loadCertificate der = some signing ∧
      lib.loadKey der = .ok key ∧ lib.verifySignature key info value = true ∧
      Digested lib doc signature info ∧ ∃ reference ∈ referencesOf info, ∃ target,
        resolveReference lib doc reference = .ok target ∧ target.path <+: rst.csrElement.path := by
  obtain ⟨der, elements, hverify, hcovers, hcert⟩ := renew_spec hrenew
  rw [(parseRst_spec hparse).1] at hverify
  obtain ⟨key, signature, info, value, hkey, hvalue, hdigested, htargets⟩ :=
    verifySignedRequest_spec hverify
  obtain ⟨target, hmem, hcovered⟩ := any_eq_true.mp hcovers
  obtain ⟨reference, href, htarget⟩ := htargets target hmem
  exact ⟨der, key, signature, info, value, hcert, hkey, hvalue, hdigested, reference, href, target,
    htarget, isPrefixOf_iff_prefix.mp hcovered⟩

/-- A CSR that a renewal acts on is part of the octets whose digest the holder of the renewed
certificate signed exactly when a Reference that covers it does not take it out again. -/
theorem renewed_csr_signed_iff (hunforgeable : Unforgeable lib signed)
    (hcollision : CollisionFree lib) (hparse : parseRst lib doc = .ok rst)
    (hrenew : renew lib svc now s doc rst = .ok (signing, csr, issued)) :
    ∃ der key signature info, lib.loadCertificate der = some signing ∧ lib.loadKey der = .ok key ∧
      signatureOf doc = some signature ∧ signedInfo? signature = some info ∧
      (PartOfSigned lib signed key doc rst.csrElement ↔
        ∃ reference ∈ referencesOf info, Retained lib doc signature rst.csrElement reference) := by
  obtain ⟨der, key, signature, info, value, hcert, hkey, hvalue, hdigested, -⟩ :=
    renewed_signature hparse hrenew
  exact ⟨der, key, signature, info, hcert, hkey, hdigested.signature_eq, hdigested.info_eq,
    partOfSigned_iff hunforgeable hcollision hvalue hdigested (parseRst_spec hparse).2⟩

/-- The check of what the signature covers is enough for a CSR outside the Signature, where the
transforms other than the enveloped-signature one keep it. -/
theorem csr_outside_signature_signed (hunforgeable : Unforgeable lib signed)
    (hcollision : CollisionFree lib) (hparse : parseRst lib doc = .ok rst)
    (hrenew : renew lib svc now s doc rst = .ok (signing, csr, issued))
    (houtside : ∀ signature ∈ signatureOf doc, ¬ signature.path <+: rst.csrElement.path)
    (hkeeps : ∀ algorithm ≠ envelopedSignature,
      lib.keeps algorithm doc rst.csrElement.path = true) :
    ∃ der key, lib.loadCertificate der = some signing ∧ lib.loadKey der = .ok key ∧
      PartOfSigned lib signed key doc rst.csrElement := by
  obtain ⟨der, key, signature, info, value, hcert, hkey, hvalue, hdigested, reference, href, target,
    htarget, hcovered⟩ := renewed_signature hparse hrenew
  refine ⟨der, key, hcert, hkey, ?_⟩
  rw [partOfSigned_iff hunforgeable hcollision hvalue hdigested (parseRst_spec hparse).2]
  exact ⟨reference, href, target, htarget, hcovered,
    fun _ => houtside signature hdigested.signature_eq, fun algorithm _ => hkeeps algorithm⟩

end Renewed

/-! ## A CSR inside the Signature -/

def leaf (name : QName) (attributes : List (QName × String)) (text : String) (rest : Forest) :
    Forest :=
  .element name attributes (.text text .nil) rest

/-- A Reference to the whole document, with the enveloped-signature transform. -/
def envelopedInfo : Element :=
  ⟨⟨dsNs, "SignedInfo"⟩, [],
    .element ⟨dsNs, "SignatureMethod"⟩
      [(plain "Algorithm", "http://www.w3.org/2001/04/xmldsig-more#rsa-sha256")] .nil <|
    .element ⟨dsNs, "Reference"⟩ [(plain "URI", "")]
      (.element ⟨dsNs, "Transforms"⟩ []
          (.element ⟨dsNs, "Transform"⟩ [(plain "Algorithm", envelopedSignature)] .nil .nil) <|
        .element ⟨dsNs, "DigestMethod"⟩
          [(plain "Algorithm", "http://www.w3.org/2001/04/xmlenc#sha256")] .nil <|
        leaf ⟨dsNs, "DigestValue"⟩ [] "digest" .nil)
      .nil⟩

def requestToken (csr : String) : Forest :=
  .element ⟨wstNs, "RequestSecurityToken"⟩ [] (leaf binarySecurityToken [] csr .nil) .nil

/-- A signed renewal request for the CSR `k`, with more elements at the end of its Signature. -/
def renewalDocument (objects : Forest) : Element :=
  ⟨⟨soapNs, "Envelope"⟩, [],
    .element ⟨soapNs, "Header"⟩ []
      (.element ⟨wsseNs, "Security"⟩ []
        (leaf binarySecurityToken [] "c" <|
          .element ⟨dsNs, "Signature"⟩ []
            (.element envelopedInfo.name [] envelopedInfo.children <|
              leaf ⟨dsNs, "SignatureValue"⟩ [] "signature" objects) .nil)
        .nil) <|
    .element ⟨soapNs, "Body"⟩ [] (requestToken "k") .nil⟩

/-- The same with a request for the CSR `x` in an Object of the Signature. -/
def decoyDocument : Element :=
  renewalDocument (.element ⟨dsNs, "Object"⟩ [] (requestToken "x") .nil)

def holder : Scep.Certificate :=
  { der := [99], issuer := [1], serialNumber := 5, keyIdentifier := none,
    subject := [[("CN", "device")]], notValidBefore := 0, notValidAfter := 100, rsaKey := true,
    san := none }

/-- Base64 and the encodings are the identity. The only signature is the one of the holder, over
the request without additions, and the only digest is that of its octets. -/
def holderLibrary : Library Unit :=
  { b64decode := fun text => .ok (text.map fun c => UInt8.ofNat c.toNat), repr := id
    loadContentInfo := fun _ => .error "", loadPkiData := fun _ => .error ""
    loadCertificate := fun der => if der = holder.der then some holder else none
    loadCsr := fun der => some ⟨holder.subject, der, none, none⟩
    mlDsaLabel := fun _ => none, certificateKey := fun _ => none
    isSignatureValid := fun _ => true, weakHashAlgorithm := fun _ => none
    subjectKeyIdentifier := id, verifyCms := fun _ _ _ => .ok (), loadKey := fun _ => .ok ()
    verifySignature := fun _ info value => info = envelopedInfo && value = "signature"
    digestMatches := fun _ octets value => value = "digest" &&
      octets = (Located.root (renewalDocument .nil)).canonical fun path =>
        !List.isPrefixOf [0, 0, 1] path
    keeps := fun _ _ _ => true }

def renewalService : Service :=
  { ca := ⟨1, "ca", "CN=CA", some [1]⟩, validateEnrollmentCsr := fun _ => none
    signCsr := fun _ csr _ => .ok csr.publicKey }

def holderStore : Scep.Store :=
  { cas := [renewalService.ca], revokedSerials := [], requests := []
    certificates := [⟨1, "old", "ca", some [99], ['5'], false, false, some 100⟩] }

theorem holderLibrary_unforgeable :
    Unforgeable holderLibrary fun _ doc => doc = renewalDocument .nil := by
  intro key info value h
  obtain ⟨rfl, -⟩ : info = envelopedInfo ∧ value = "signature" := by
    simpa [holderLibrary] using h
  refine ⟨renewalDocument .nil, ⟨[0, 0, 1], _⟩, rfl, rfl, rfl, fun reference hmem => ?_⟩
  obtain rfl := mem_singleton.mp hmem
  exact ⟨.root (renewalDocument .nil), _, _, rfl, rfl, by decide⟩

theorem holderLibrary_collisionFree : CollisionFree holderLibrary := by
  intro method value octets octets' h h'
  simp only [holderLibrary, Bool.and_eq_true, decide_eq_true_eq] at h h'
  exact h.2.trans h'.2.symm

/-- The holder renews with the request as it was signed, and its CSR is part of what they signed. -/
theorem signed_request_renewed :
    ∃ rst, parseRst holderLibrary (renewalDocument .nil) = .ok rst ∧
      renew holderLibrary renewalService 50 holderStore (renewalDocument .nil) rst =
        .ok (holder, ⟨holder.subject, [107], none, none⟩, [107]) ∧
      PartOfSigned holderLibrary (fun _ doc => doc = renewalDocument .nil) () (renewalDocument .nil)
        rst.csrElement := by
  obtain ⟨rst, hparse, hrenew⟩ : ∃ rst, parseRst holderLibrary (renewalDocument .nil) = .ok rst ∧
      renew holderLibrary renewalService 50 holderStore (renewalDocument .nil) rst =
        .ok (holder, ⟨holder.subject, [107], none, none⟩, [107]) := ⟨_, rfl, rfl⟩
  refine ⟨rst, hparse, hrenew, ?_⟩
  obtain ⟨der, key, signature, info, -, -, hsignature, hinfo, hiff⟩ :=
    renewed_csr_signed_iff holderLibrary_unforgeable holderLibrary_collisionFree hparse hrenew
  cases hparse
  cases hsignature
  cases hinfo
  refine hiff.mpr ⟨_, mem_singleton.mpr rfl, .root (renewalDocument .nil), rfl, ?_⟩
  exact ⟨by decide, fun _ => by decide, fun _ _ _ => rfl⟩

/-- The decoy is the first request in the document and inside the target of the Reference, so it is
the CSR that is signed; the holder has signed no octets that it is part of. -/
theorem decoy_in_signature_renewed :
    Unforgeable holderLibrary (fun _ doc => doc = renewalDocument .nil) ∧
      CollisionFree holderLibrary ∧
      ∃ rst, parseRst holderLibrary decoyDocument = .ok rst ∧
        renew holderLibrary renewalService 50 holderStore decoyDocument rst =
          .ok (holder, ⟨holder.subject, [120], none, none⟩, [120]) ∧
        ¬ PartOfSigned holderLibrary (fun _ doc => doc = renewalDocument .nil) () decoyDocument
          rst.csrElement := by
  refine ⟨holderLibrary_unforgeable, holderLibrary_collisionFree, _, rfl, rfl, ?_⟩
  rintro ⟨signature, info, hsignature, hinfo, reference, hmem, ⟨target, -, -, hkept⟩, -⟩
  cases hsignature
  cases hinfo
  obtain rfl := mem_singleton.mp hmem
  exact absurd hkept (by decide)

end UltimateCaManager.Wstep
