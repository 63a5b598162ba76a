import UltimateCaManager.ScepEnrolment

/-!
# SCEP enrolment is authenticated

What a certificate issued by `process_pkcs_req` on its own rests on: the signature of the message
over the envelope that was decrypted, the proof of possession of the CSR, and a challenge or the
certificate that is renewed. A renewal is also to keep its names. They are compared as printed,
without the type ids of other names, so a renewal that no challenge vouches for keeps them just
when its other names keep their type ids.
-/
namespace UltimateCaManager.Scep

open List Guards Tables Revocation

variable (lib : Library) (svc : Service) (now : ℤ)

def Issues (s : Store) (m : Message) : Prop :=
  s.certificates.length < (processPkcsReq lib svc now s m).1.certificates.length
  deriving Decidable

/-- The message or its CSR carries the configured challenge, which is neither empty nor
expired. -/
def CarriesChallenge (m : Message) (csr : Csr) : Prop :=
  ∃ secret, svc.challengePassword = some secret ∧ secret ≠ [] ∧ svc.challengeExpired = false ∧
    ((extractScepAttributes lib m).challengePassword.bind Native.octets? = some secret ∨
      csr.challengePassword = some secret)

def IntuneValidated (m : Message) (data : Bytes) : Prop :=
  ∃ client transactionId, svc.intuneClient = some client ∧
    (extractScepAttributes lib m).transactionId = some transactionId ∧
      client.validateRequest transactionId data = true

/-- The operator configured no challenge, with auto-approval, and opted in to it. -/
def OpenByChoice : Prop :=
  svc.challenge? = none ∧ svc.autoApprove = true ∧ svc.allowNoChallenge = true

def Vouched (m : Message) (data : Bytes) (csr : Csr) : Prop :=
  CarriesChallenge lib svc m csr ∨ IntuneValidated lib svc m data ∨ OpenByChoice svc

/-- A renewal by a certificate that the CA issued and holds, with the same names. -/
structure Renews (s : Store) (m : Message) (signer : Certificate) (csr : Csr) : Prop where
  type : MessageType.ofCode? (extractScepAttributes lib m).messageType = some .renewalReq
  issued : svc.verifyDirectlyIssued signer = true
  held : ∃ row ∈ s.certificates, row.caref ∈ s.sameKeyRefids svc.ca ∧
    row.crt = some signer.der ∧ row.archived = false
  unrevoked : ∀ row ∈ s.certificates, row.caref ∈ s.sameKeyRefids svc.ca → row.holds signer →
    row.revoked = false
  unlisted : ∀ r ∈ s.revokedSerials, r.caref ∈ s.sameKeyRefids svc.ca →
    r.serialNumber ∉ serialVariants signer.serialNumber
  valid : signer.notValidBefore ≤ now ∧ now ≤ signer.notValidAfter
  subject : signer.subject = csr.subject
  san : ∀ names, csr.san = some names → names.toFinset = (signer.san.getD []).toFinset

def Authenticated (s : Store) (m : Message) : Prop :=
  ∃ signer content data csr, SignedBy lib m signer content ∧
    decryptScepEnvelope lib svc.fips content = .ok data ∧ lib.loadCsr data = some csr ∧
      lib.isSignatureValid data = true ∧
        (Vouched lib svc m data csr ∨ Renews lib svc now s m signer csr)

def otherNames (names : List GeneralName) : Finset GeneralName :=
  names.toFinset.filter fun n => n.typeName = "OtherName"

/-- A renewal that nothing else vouches for asks for the other names of its signer. -/
def KeepsOtherNames (m : Message) : Prop :=
  ∀ signer content data csr, extractSignerCertificate m = some signer →
    m.content = some content → decryptScepEnvelope lib svc.fips content = .ok data →
      lib.loadCsr data = some csr →
        MessageType.ofCode? (extractScepAttributes lib m).messageType = some .renewalReq →
          Vouched lib svc m data csr ∨
            ∀ names, csr.san = some names → otherNames names = otherNames (signer.san.getD [])

/-! ## What the checks establish -/

variable {lib svc now} {s : Store} {m : Message} {o : Opened} {csr : Csr}

theorem openMessage_eq_ok (h : openMessage lib svc now m = .ok o) :
    extractSignerCertificate m = some o.signer ∧
      (extractScepAttributes lib m).transactionId = some o.transactionId ∧
        MessageType.ofCode? (extractScepAttributes lib m).messageType = some o.messageType ∧
          (extractScepAttributes lib m).challengePassword = o.challengePassword ∧
            ∃ content, SignedBy lib m o.signer content ∧
              decryptScepEnvelope lib svc.fips content = .ok o.data := by
  simp only [openMessage, bind_eq_ok, require_eq_ok, expect_eq_ok, mapError_eq_ok,
    pure_eq_ok] at h
  obtain ⟨-, -, -, -, signer, hsigner, ⟨⟩, hverify, -, htransaction, -, -, type, htype, content,
    hcontent, data, hdata, rfl⟩ := h
  refine ⟨hsigner, ?_, htype, rfl, content, signedBy_of_verified lib hsigner hverify hcontent hdata,
    hdata⟩
  -- an absent transaction id is taken for the empty text, which is refused
  cases hid : (extractScepAttributes lib m).transactionId with
  | none => simp [hid, Native.falsy] at htransaction
  | some id => rfl

theorem admitCsr_eq_ok {data : Bytes} (h : admitCsr lib svc data = .ok csr) :
    lib.loadCsr data = some csr ∧ lib.isSignatureValid data = true := by
  simp only [admitCsr, bind_eq_ok, require_eq_ok, expect_eq_ok, pure_eq_ok] at h
  obtain ⟨csr', hcsr, -, -, -, hvalid, -, -, rfl⟩ := h
  exact ⟨hcsr, hvalid⟩

theorem octets_challengeOf {secret : Bytes}
    (h : (challengeOf o csr).bind Native.octets? = some secret) :
    o.challengePassword.bind Native.octets? = some secret ∨
      csr.challengePassword = some secret := by
  unfold challengeOf at h
  split at h
  · exact .inl h
  · cases hcsr : csr.challengePassword with
    | none => exact .inl (by simpa [hcsr] using h)
    | some value => exact .inr (by simpa [hcsr, Native.octets?] using h)

/-- A challenge that passes vouches for the message, unless it is a renewal or waits for an
approval. -/
theorem vouched_of_checkChallenge (hopen : openMessage lib svc now m = .ok o)
    (htype : o.messageType ≠ .renewalReq) (hauto : svc.autoApprove = true)
    (h : checkChallenge svc o (challengeOf o csr) = .ok ()) : Vouched lib svc m o.data csr := by
  obtain ⟨-, htransaction, -, hchallenge, -⟩ := openMessage_eq_ok hopen
  cases hclient : svc.intuneClient with
  | some client =>
    simp only [checkChallenge, hclient, require_eq_ok] at h
    exact .inr (.inl ⟨client, o.transactionId, hclient, htransaction, h⟩)
  | none =>
    simp only [checkChallenge, hclient, bind_eq_ok, require_eq_ok] at h
    obtain ⟨-, hexpired, hsecret⟩ := h
    have hexpired' : svc.challengeExpired = false := by simpa [htype] using hexpired
    cases hconfigured : svc.challenge? with
    | some secret =>
      simp only [hconfigured, require_eq_ok, Bool.and_eq_true, decide_eq_true_eq] at hsecret
      obtain ⟨hpassword, hne⟩ := Option.filter_eq_some_iff.mp hconfigured
      refine .inl ⟨secret, hpassword, by simpa using hne, hexpired', ?_⟩
      rw [hchallenge]
      exact octets_challengeOf hsecret.2
    | none =>
      simp only [hconfigured, require_eq_ok] at hsecret
      refine .inr (.inr ⟨hconfigured, hauto, ?_⟩)
      simpa [htype, hauto] using hsecret

/-! ## Renewals -/

theorem issuedCertificateStatus_eq_ok {ca : CaRow} {cert : Certificate}
    (h : issuedCertificateStatus now s ca cert = .ok) :
    (∃ row ∈ s.certificates, row.caref ∈ s.sameKeyRefids ca ∧ row.crt = some cert.der ∧
        row.archived = false) ∧
      (∀ row ∈ s.certificates, row.caref ∈ s.sameKeyRefids ca → row.holds cert →
        row.revoked = false) ∧
      ∀ r ∈ s.revokedSerials, r.caref ∈ s.sameKeyRefids ca →
        r.serialNumber ∉ serialVariants cert.serialNumber := by
  simp only [issuedCertificateStatus] at h
  split at h
  · split at h <;> cases h
  split at h
  · cases h
  rename_i hclean
  simp only [Bool.or_eq_true, any_eq_true, not_or, not_exists, not_and] at hclean
  split at h
  · cases h
  rename_i row hrow
  have hmem := mem_of_find?_eq_some hrow
  have hlive := find?_some hrow
  simp only [findIssuedRows, mem_filter, CertRow.holds, Bool.and_eq_true,
    decide_eq_true_eq] at hmem
  obtain ⟨hstored, hca, -, hcrt⟩ := hmem
  refine ⟨⟨row, hstored, hca, hcrt, by simpa using hlive⟩, ?_, ?_⟩
  · intro other hother hgroup hholds
    have hfound : other ∈ findIssuedRows s.certificates (s.sameKeyRefids ca) cert :=
      mem_filter.mpr ⟨hother, by simp [hgroup, hholds]⟩
    simpa using hclean.1 other hfound
  · intro r hr hgroup hserial
    exact hclean.2 r hr (by simpa using ⟨hgroup, hserial⟩)

theorem GeneralName.eq_of_printed {n n' : GeneralName} (hn : n.typeName ≠ "OtherName")
    (htype : n.typeName = n'.typeName) (hprinted : n.printed = n'.printed) : n = n' := by
  cases n <;> cases n' <;> simp_all [typeName, printed]

theorem mem_of_sanIdentity {a b : List GeneralName} (hid : sanIdentity a = sanIdentity b)
    (hother : otherNames a = otherNames b) {n : GeneralName} (hn : n ∈ a) : n ∈ b := by
  by_cases htype : n.typeName = "OtherName"
  · have hkept : n ∈ otherNames b := hother ▸ Finset.mem_filter.mpr ⟨mem_toFinset.mpr hn, htype⟩
    exact mem_toFinset.mp (Finset.mem_filter.mp hkept).1
  · have hprinted : (n.typeName, n.printed) ∈ sanIdentity b :=
      hid ▸ mem_toFinset.mpr (mem_map.mpr ⟨n, hn, rfl⟩)
    obtain ⟨n', hn', heq⟩ := mem_map.mp (mem_toFinset.mp hprinted)
    obtain ⟨htype', hprinted'⟩ := Prod.mk.inj heq
    rwa [GeneralName.eq_of_printed htype htype'.symm hprinted'.symm]

/-- Names that print alike are the same if their other names are. -/
theorem toFinset_eq_of_sanIdentity {a b : List GeneralName} (hid : sanIdentity a = sanIdentity b)
    (hother : otherNames a = otherNames b) : a.toFinset = b.toFinset := by
  ext n
  simp only [mem_toFinset]
  exact ⟨mem_of_sanIdentity hid hother, mem_of_sanIdentity hid.symm hother.symm⟩

/-- An accepted renewal is one, as far as its other names keep their type ids. -/
theorem renews_of_validateRenewal {signer : Certificate}
    (htype : MessageType.ofCode? (extractScepAttributes lib m).messageType = some .renewalReq)
    (h : validateRenewal svc now s signer csr = .ok ())
    (hother : ∀ names, csr.san = some names →
      otherNames names = otherNames (signer.san.getD [])) :
    Renews lib svc now s m signer csr := by
  simp only [validateRenewal, bind_eq_ok, require_eq_ok, decide_eq_true_eq] at h
  obtain ⟨-, hissued, -, hsubject, -, hvalid, -, hstatus, hsan⟩ := h
  obtain ⟨hheld, hunrevoked, hunlisted⟩ := issuedCertificateStatus_eq_ok hstatus
  refine ⟨htype, hissued, hheld, hunrevoked, hunlisted, by simpa using hvalid, hsubject, ?_⟩
  intro names hnames
  have hid : sanIdentity names = sanIdentity (signer.san.getD []) := by
    simpa [sanIdentityMatches, hnames] using hsan
  exact toFinset_eq_of_sanIdentity hid (hother names hnames)

/-! ## Issued certificates -/

theorem issues_enroll (h : s.certificates.length < (enroll svc now s o csr).1.certificates.length) :
    svc.autoApprove = true := by
  by_contra hauto
  unfold enroll at h
  split at h
  · exact absurd h (lt_irrefl _)
  · simp [hauto] at h

theorem issues_inv (h : Issues lib svc now s m) :
    ∃ o csr, openMessage lib svc now m = .ok o ∧ admitEnrolment lib svc now s o = .ok csr ∧
      svc.autoApprove = true := by
  unfold Issues processPkcsReq at h
  split at h
  · exact absurd h (lt_irrefl _)
  rename_i o hopen
  have hquery : ∀ answer, (handleQuery s o answer).1 = s := by
    intro answer
    unfold handleQuery
    split <;> rfl
  have henrol : s.certificates.length <
      (handleEnrolment lib svc now s o).1.certificates.length := by
    split at h
    · simp [hquery] at h
    · simp [hquery] at h
    · simp [hquery] at h
    · exact h
    · exact h
  unfold handleEnrolment at henrol
  split at henrol
  · exact absurd henrol (lt_irrefl _)
  · rename_i csr hadmit
    exact ⟨o, csr, hopen, hadmit, issues_enroll henrol⟩

theorem admitEnrolment_eq_ok (h : admitEnrolment lib svc now s o = .ok csr) :
    lib.loadCsr o.data = some csr ∧ lib.isSignatureValid o.data = true ∧
      checkChallenge svc o (challengeOf o csr) = .ok () ∧
        (o.messageType = .renewalReq → validateRenewal svc now s o.signer csr = .ok ()) := by
  simp only [admitEnrolment, bind_eq_ok, pure_eq_ok] at h
  obtain ⟨csr', hcsr, ⟨⟩, -, ⟨⟩, hchallenge, ⟨⟩, hrenewal, rfl⟩ := h
  obtain ⟨hload, hvalid⟩ := admitCsr_eq_ok hcsr
  exact ⟨hload, hvalid, hchallenge, fun htype => by simpa [checkRenewal, htype] using hrenewal⟩

theorem keepsOtherNames_of_authenticated (h : Authenticated lib svc now s m) :
    KeepsOtherNames lib svc m := by
  obtain ⟨signer, content, data, csr, hsigned, hdata, hcsr, -, hcase⟩ := h
  intro signer' content' data' csr' hsigner' hcontent' hdata' hcsr' _
  obtain rfl := Option.mem_unique hsigned.enclosed hsigner'
  obtain rfl := Option.mem_unique hsigned.carried hcontent'
  obtain rfl := Except.ok.inj (hdata.symm.trans hdata')
  obtain rfl := Option.mem_unique hcsr hcsr'
  refine hcase.imp id fun hrenews names hnames => ?_
  rw [otherNames, otherNames, hrenews.san names hnames]

/-- A certificate that is issued on its own is authenticated just when a renewal that no
challenge vouches for keeps the type ids of its other names. -/
theorem issued_authenticated_iff (h : Issues lib svc now s m) :
    Authenticated lib svc now s m ↔ KeepsOtherNames lib svc m := by
  refine ⟨keepsOtherNames_of_authenticated, fun hkeeps => ?_⟩
  obtain ⟨o, csr, hopen, hadmit, hauto⟩ := issues_inv h
  obtain ⟨hsigner, -, htype, -, content, hsigned, hdata⟩ := openMessage_eq_ok hopen
  obtain ⟨hcsr, hvalid, hchallenge, hrenewal⟩ := admitEnrolment_eq_ok hadmit
  refine ⟨o.signer, content, o.data, csr, hsigned, hdata, hcsr, hvalid, ?_⟩
  by_cases hrenew : o.messageType = .renewalReq
  · rw [hrenew] at htype
    refine (hkeeps _ _ _ _ hsigner hsigned.carried hdata hcsr htype).imp id fun hother => ?_
    exact renews_of_validateRenewal htype (hrenewal hrenew) hother
  · exact .inl (vouched_of_checkChallenge hopen hrenew hauto hchallenge)

/-! ## A renewal whose challenge has expired -/

def device : Certificate :=
  { der := [7], issuer := [1], serialNumber := 5, keyIdentifier := some [5],
    subject := [[("CN", "device")]], notValidBefore := 0, notValidAfter := 100, rsaKey := true,
    san := some [.otherName "1.3.6.1.4.1.311.20.2.3" "b'device'"] }

/-- The CSR of its renewal, with one other name of this type. -/
def renewalCsr (typeId : String) : Csr :=
  { subject := device.subject, publicKey := [5], challengePassword := none,
    san := some [.otherName typeId "b'device'"] }

def renewalMessage : Message :=
  { contentType := .signedData, encapContentType := .data, content := some [1],
    certificates := [device],
    signerInfos := [{ sid := .subjectKeyIdentifier [5], digestAlgorithm := .sha256,
                      signatureAlgorithm := .other "sha256_rsa", signature := [9],
                      signedAttrs := [⟨.transactionId, [.text ['t']]⟩, ⟨.messageType, [.int 17]⟩,
                        ⟨.challengePassword, [.text ['s']]⟩, ⟨.messageDigest, [.bytes [1]]⟩] }] }

/-- Envelopes and digests are the identity, and every signature verifies. -/
def plainLibrary (csr : Csr) : Library :=
  { dump := fun _ => [0xA0], verify := fun _ _ _ _ _ => .ok (), digest := fun _ content => content,
    decrypt := fun _ => .ok, loadCsr := fun _ => some csr, isSignatureValid := fun _ => true,
    utf8Decode := fun _ => none, int := fun _ => none }

/-- An auto-approving endpoint whose challenge has expired. -/
def expiredEndpoint : Service :=
  { ca := ⟨1, "ca", "CN=CA", some [1]⟩, challengePassword := some [115], autoApprove := true,
    challengeExpired := true, intuneClient := none, allowNoChallengeEnv := none,
    enforceSigningTime := none, timeSkewMinutes := none, fips := false,
    validateEnrollmentCsr := fun _ => none, policyViolations := fun _ => [],
    verifyDirectlyIssued := fun _ => true, sign := fun _ _ _ => some ⟨"new", [8], 6, 90⟩,
    handleGetCert := fun _ => .pending, handleGetCrl := fun _ => .pending }

def enrolledStore : Store :=
  { cas := [expiredEndpoint.ca], revokedSerials := [], requests := [],
    certificates := [⟨1, "old", "ca", some [7], ['5'], false, false, some 100⟩] }

theorem expiredEndpoint_not_vouched (csr : Csr) (data : Bytes) :
    ¬ Vouched (plainLibrary csr) expiredEndpoint renewalMessage data csr := by
  rintro (⟨secret, -, -, hexpired, -⟩ | ⟨client, -, hclient, -⟩ | ⟨hopen, -⟩)
  · exact absurd hexpired (by decide)
  · cases hclient
  · exact absurd hopen (by decide)

/-- The device renews its certificate with its name as it was. -/
theorem same_name_renewal_authenticated :
    Issues (plainLibrary (renewalCsr "1.3.6.1.4.1.311.20.2.3")) expiredEndpoint 50 enrolledStore
        renewalMessage ∧
      Authenticated (plainLibrary (renewalCsr "1.3.6.1.4.1.311.20.2.3")) expiredEndpoint 50
        enrolledStore renewalMessage := by
  have hissues : Issues (plainLibrary (renewalCsr "1.3.6.1.4.1.311.20.2.3")) expiredEndpoint 50
      enrolledStore renewalMessage := by decide +kernel
  refine ⟨hissues, (issued_authenticated_iff hissues).mpr ?_⟩
  intro signer content data csr hsigner hcontent hdata hcsr _
  obtain rfl : device = signer := Option.some.inj hsigner
  obtain rfl : renewalCsr "1.3.6.1.4.1.311.20.2.3" = csr := Option.some.inj hcsr
  exact .inr fun names hnames => congrArg otherNames (Option.some.inj hnames).symm

/-- The device renews its certificate with the value of its name under another type. -/
theorem other_type_renewal_issued :
    Issues (plainLibrary (renewalCsr "1.2.3.4")) expiredEndpoint 50 enrolledStore
        renewalMessage ∧
      ¬ Authenticated (plainLibrary (renewalCsr "1.2.3.4")) expiredEndpoint 50 enrolledStore
        renewalMessage := by
  refine ⟨by decide +kernel, fun h => ?_⟩
  rcases keepsOtherNames_of_authenticated h device [1] [1] (renewalCsr "1.2.3.4") rfl rfl rfl rfl
    (by decide) with hvouched | hother
  · exact expiredEndpoint_not_vouched _ _ hvouched
  · exact absurd (hother _ rfl) (by decide +kernel)

end UltimateCaManager.Scep
