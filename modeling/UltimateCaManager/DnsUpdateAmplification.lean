import UltimateCaManager.DnsUpdateSoundness

/-!
# Responses over UDP are no longer than their requests

A peer that has no key gets no more octets than it sent, whatever the request and whatever fails
inside. A peer whose MAC verified gets a response of the usual size, also when the time or the
length of the MAC is not accepted: the server time in such a response makes it longer than a short
request.
-/
namespace UltimateCaManager.DnsUpdate

open Dns

/-- Nothing is sent, or a response of at most that length. -/
def Bounded (n : ℕ) (out : Option Bytes) : Prop := ∀ bytes, out = some bytes → bytes.length ≤ n

section Rendering

variable {d : Delivery} {msg : Message} {faults : List Fault} {out : Option Bytes} {n m : ℕ}

theorem Bounded.mono (h : Bounded n out) (hnm : n ≤ m) : Bounded m out :=
  fun bytes hbytes => Nat.le_trans (h bytes hbytes) hnm

theorem bounded_header (wire : Bytes) (rcode : ℕ) (h : 12 ≤ n) :
    Bounded n (some (headerOnly wire rcode)) := by
  rintro bytes ⟨⟩
  rwa [length_headerOnly]

theorem bounded_servfail (wire : Bytes) (h : 12 ≤ n) : Bounded n (servfail wire) := by
  unfold servfail
  split
  · exact bounded_header wire _ h
  · exact nofun

theorem bounded_fitted {render : Response → Except Raised Bytes} {r : Response}
    (h : fitted render r (some n) = .ok out) : Bounded n out := by
  unfold fitted at h
  cases hout : render r with
  | error e => simp [hout, bind, Except.bind] at h
  | ok long =>
    by_cases hlong : fits long (some n) = true
    · obtain rfl : some long = out := by
        simpa [hout, hlong, bind, Except.bind, pure, Except.pure] using h
      rintro bytes ⟨⟩
      simpa [fits] using hlong
    · cases hshort : render (truncated r) with
      | error e => simp [hout, hlong, hshort, bind, Except.bind] at h
      | ok short =>
        have hresult : (if fits short (some n) = true then some short else none) = out := by
          simpa [hout, hlong, hshort, bind, Except.bind, pure, Except.pure] using h
        rintro bytes rfl
        by_cases hfits : fits short (some n) = true
        · obtain rfl : short = bytes := by simpa [hfits] using hresult
          simpa [fits] using hfits
        · simp [hfits] at hresult

theorem bounded_tsigError {keyname : Name} {reason : Rejection}
    {render : Response → Except Raised Bytes} {audits : List AuditRecord} (hn : 12 ≤ n)
    (h : tsigError d msg keyname faults reason render (some n) = (.reply out, audits)) :
    Bounded n out := by
  unfold tsigError at h
  split at h
  · cases h
    exact bounded_servfail _ hn
  · split at h
    · next hfitted =>
      cases h
      exact bounded_fitted hfitted
    · cases h
      exact bounded_servfail _ hn

theorem le_ednsSize (msg : Message) : 512 ≤ ednsSize msg := Nat.le_max_left ..

/-- The limit of a response to a request that was not accepted. -/
def TsigResult.limit (result : TsigResult) (d : Delivery) (msg : Message) : ℕ :=
  if result.macVerified then ednsSize msg else min d.wire.length (ednsSize msg)

theorem le_limit (result : TsigResult) (hlength : 12 ≤ d.wire.length) : 12 ≤ result.limit d msg := by
  have hedns := le_ednsSize msg
  unfold TsigResult.limit
  split <;> omega

theorem bounded_settle {lib : Library} {result : TsigResult} {audits : List AuditRecord}
    (hudp : d.transport = .udp) (hlength : 12 ≤ d.wire.length)
    (h : settle lib d msg faults result = (.reply out, audits)) :
    Bounded (result.limit d msg) out := by
  have hlimit : 12 ≤ result.limit d msg := le_limit result hlength
  have hsigned : signedLimit d msg = some (ednsSize msg) := by rw [signedLimit, hudp]
  have hunsigned : unsignedLimit d msg = some (min d.wire.length (ednsSize msg)) := by
    rw [unsignedLimit, hudp]
  cases result with
  | formerr =>
    cases h
    exact bounded_header _ _ hlimit
  | unsigned | ok =>
    simp only [settle] at h
    split at h
    · cases h
      exact bounded_servfail _ hlimit
    · cases h
  | badkey keyname rdata | badsig keyname rdata =>
    simp only [settle, hunsigned] at h
    exact bounded_tsigError hlimit h
  | badtime keyname key rdata | badtrunc keyname key rdata =>
    simp only [settle, hsigned] at h
    exact bounded_tsigError hlimit h

theorem bounded_process (lib : Library) (s : Listener) (hudp : d.transport = .udp)
    (hlength : 12 ≤ d.wire.length) :
    Bounded (min d.wire.length (ednsSize msg)) (s.process lib d msg none faults).2.2 := by
  have hedns := le_ednsSize msg
  have hlimit : 12 ≤ min d.wire.length (ednsSize msg) := by omega
  unfold Listener.process
  simp only
  split
  · exact bounded_servfail _ hlimit
  · split
    · exact bounded_servfail _ hlimit
    next out hrender =>
    unfold Listener.render at hrender
    split at hrender
    · cases hrender
    · simp only [unsignedLimit, hudp] at hrender
      exact bounded_fitted hrender

end Rendering

/-! ## The outcome of the signature check -/

section Verdict

variable {lib : Library} {wire : Bytes} {msg : Message} {lookupKey : Name → Option TsigKeyMaterial}
  {now : ℕ} {watermark : TimeWatermark} {isReplay : Bool}

/-- The signature of the message was made with a key of the store. -/
def Authenticates (lib : Library) (wire : Bytes) (lookupKey : Name → Option TsigKeyMaterial)
    (msg : Message) (owner : Name) (key : TsigKeyMaterial) (rdata : Tsig) : Prop :=
  lib.fromWire wire = some msg ∧ msg.tsig = some (owner, rdata) ∧
    lookupKey owner = some key ∧ Authentic lib wire key rdata

theorem authenticates_of_macVerified (hmsg : lib.fromWire wire = some msg)
    (h : (verifyRequest lib wire msg lookupKey now watermark isReplay).1.macVerified = true) :
    ∃ owner key rdata, Authenticates lib wire lookupKey msg owner key rdata := by
  unfold verifyRequest at h
  split at h
  · cases h
  next owner rdata htsig =>
  split at h
  · cases h
  · cases h
  · cases h
  next key hmac => exact ⟨owner, key, rdata, hmsg, htsig, authentic_of_verifyMac hmac⟩

/-- The request is signed for the time of its arrival, and not before one that was accepted. -/
def IsTimely (lib : Library) (wire : Bytes) (now : ℕ) (watermark : TimeWatermark)
    (key : TsigKeyMaterial) (rdata : Tsig) : Prop :=
  Verifies lib wire now key rdata ∧ watermark.isOlder key.keyId rdata.timeSigned = false

theorem isTimely_of_ok {owner : Name} {key : TsigKeyMaterial} {rdata : Tsig} {replayed : Bool}
    (h : (verifyRequest lib wire msg lookupKey now watermark false).1 =
      .ok owner key rdata replayed) : IsTimely lib wire now watermark key rdata := by
  obtain ⟨htsig, hlookup, hauth, rfl, hverifies⟩ := verifies_of_ok h
  refine ⟨hverifies rfl, ?_⟩
  unfold verifyRequest at h
  simp only [htsig] at h
  split at h
  · cases h
  · cases h
  · cases h
  · simp only [Bool.false_eq_true, if_false] at h
    split at h
    · cases h
    next hnew =>
    split at h
    · cases h
    · cases h
      simpa using (not_or.mp hnew).2

end Verdict

/-! ## A whole request -/

section Handle

variable {lib : Library} {s : Listener} {wire : Bytes} {faults : List Fault} {msg : Message}

theorem readRequest_eq_error {out : Option Bytes} (h : readRequest lib wire = .error out) :
    out = none ∨ 12 ≤ wire.length ∧ ∃ rcode, out = some (headerOnly wire rcode) := by
  unfold readRequest at h
  simp only at h
  split at h
  · exact .inl (Except.error.inj h).symm
  next hlength =>
  rw [Nat.not_lt] at hlength
  split at h
  · exact .inl (Except.error.inj h).symm
  split at h
  · exact .inl (Except.error.inj h).symm
  split at h
  · exact .inl (Except.error.inj h).symm
  split at h
  · exact .inl (Except.error.inj h).symm
  split at h
  · exact .inr ⟨hlength, _, (Except.error.inj h).symm⟩
  split at h
  · exact .inr ⟨hlength, _, (Except.error.inj h).symm⟩
  · split at h
    · cases h
    · exact .inr ⟨hlength, _, (Except.error.inj h).symm⟩

theorem length_of_readRequest (h : readRequest lib wire = .ok msg) : 12 ≤ wire.length := by
  unfold readRequest at h
  split at h
  · cases h
  next hlength => exact Nat.not_lt.mp hlength

def Listener.verdict (lib : Library) (s : Listener) (wire : Bytes) (faults : List Fault)
    (msg : Message) : TsigResult :=
  (verifyRequest lib wire msg (s.readKeys faults).lookup (s.now / second) s.watermark
    ((replayKey? msg).any (s.replay.seen s.now))).1

theorem bounded_handle (hread : readRequest lib wire = .ok msg)
    (hverdict : ∀ owner key rdata replayed,
      s.verdict lib wire faults msg ≠ .ok owner key rdata replayed) :
    Bounded ((s.verdict lib wire faults msg).limit ⟨wire, .udp, s.now⟩ msg)
      (s.handle lib wire .udp faults).2 := by
  have hlength := length_of_readRequest hread
  have hlimit : 12 ≤ (s.verdict lib wire faults msg).limit ⟨wire, .udp, s.now⟩ msg :=
    le_limit _ hlength
  have hverified : s.verdict lib wire faults msg = (verifyRequest lib wire msg
    (s.readKeys faults).lookup (Delivery.seconds ⟨wire, .udp, s.now⟩) s.watermark
    ((replayKey? msg).any (s.replay.seen s.now))).1 := rfl
  unfold Listener.handle Listener.receive
  simp only [hread]
  by_cases hlookup : msg.tsig.isSome ∧ .lookup ∈ faults
  · rw [if_pos hlookup]
    exact bounded_servfail _ hlimit
  rw [if_neg hlookup]
  simp only [← hverified]
  generalize hsettle : settle lib ⟨wire, .udp, s.now⟩ msg faults (s.verdict lib wire faults msg) =
    settled
  have hfollows : settled.1.Follows msg (s.verdict lib wire faults msg) :=
    hsettle ▸ settle_follows
  obtain ⟨received, audits⟩ := settled
  cases received with
  | reply out => exact bounded_settle rfl hlength hsettle
  | unsigned msg' =>
    obtain ⟨rfl, hunsigned⟩ := hfollows
    rw [hunsigned]
    exact bounded_process lib _ rfl hlength
  | signed msg' signer replayed =>
    obtain ⟨-, owner, hok, -⟩ := hfollows
    exact absurd hok (hverdict owner signer.key signer.rdata replayed)

/-- For every octet string over UDP, state and faults: without an authentic signature the response
is no longer than what was received; with one that is not accepted, it has the size that a signed
response may have. -/
theorem unaccepted_reply_bounded (lib : Library) (s : Listener) (wire : Bytes)
    (faults : List Fault) :
    ((¬ ∃ msg owner key rdata,
        Authenticates lib wire (s.readKeys faults).lookup msg owner key rdata) →
      ∀ out, (s.handle lib wire .udp faults).2 = some out → out.length ≤ wire.length) ∧
    ∀ msg owner key rdata, Authenticates lib wire (s.readKeys faults).lookup msg owner key rdata →
      ¬ IsTimely lib wire (s.now / second) s.watermark key rdata →
      s.replay.seen s.now (replayKey owner rdata) = false →
        ∀ out, (s.handle lib wire .udp faults).2 = some out → out.length ≤ ednsSize msg := by
  cases hread : readRequest lib wire with
  | error out =>
    simp only [Listener.handle, Listener.receive, hread]
    rcases readRequest_eq_error hread with rfl | ⟨hlength, rcode, rfl⟩
    · exact ⟨fun _ => nofun, fun _ _ _ _ _ _ _ => nofun⟩
    · refine ⟨fun _ => bounded_header wire rcode hlength, ?_⟩
      intro msg owner key rdata _ _ _
      exact bounded_header wire rcode (Nat.le_trans (by decide) (le_ednsSize msg))
  | ok msg =>
    obtain ⟨hmsg, -⟩ := readRequest_eq_ok hread
    constructor
    · intro hnone
      have hmac : (s.verdict lib wire faults msg).macVerified = false := by
        rw [← Bool.not_eq_true]
        exact fun hmac => hnone ⟨msg, authenticates_of_macVerified hmsg hmac⟩
      refine (bounded_handle hread ?_).mono ?_
      · intro owner key rdata replayed hok
        rw [hok] at hmac
        cases hmac
      · rw [TsigResult.limit, hmac]
        exact Nat.min_le_left ..
    · rintro msg' owner key rdata ⟨hmsg', htsig, hlookup, -⟩ huntimely hseen
      obtain rfl := Option.mem_unique hmsg hmsg'
      have hreplay : (replayKey? msg).any (s.replay.seen s.now) = false := by
        rw [replayKey?, htsig]
        exact hseen
      refine (bounded_handle hread ?_).mono ?_
      · intro owner' key' rdata' replayed hok
        rw [Listener.verdict, hreplay] at hok
        obtain ⟨htsig', hlookup', -⟩ := verifies_of_ok hok
        obtain ⟨rfl, rfl⟩ := Prod.mk.inj (Option.mem_unique htsig htsig')
        obtain rfl := Option.mem_unique hlookup hlookup'
        exact huntimely (isTimely_of_ok hok)
      · unfold TsigResult.limit
        split
        · exact Nat.le_refl _
        · exact Nat.min_le_right ..

end Handle

/-! ## An example -/

def bareQuery : Bytes := uint 2 7 ++ uint 10 0

theorem bareQuery_late {msg : Message} {owner : Name} {key : TsigKeyMaterial} {rdata : Tsig}
    (h : Authenticates checksumLibrary (signedAt 1 bareQuery) (exampleListener.readKeys []).lookup msg
      owner key rdata) :
    ¬ Verifies checksumLibrary (signedAt 1 bareQuery) (exampleListener.now / second) key rdata := by
  rintro ⟨-, -, hlate, -⟩
  obtain ⟨hmsg, htsig, -⟩ := h
  have hsigned : ((checksumLibrary.fromWire (signedAt 1 bareQuery)).bind Message.tsig).map
      (fun x => x.2.timeSigned + window x.2) = some 301 := by decide +kernel
  have hend : rdata.timeSigned + window rdata = 301 := by
    rw [hmsg, Option.bind_some, htsig] at hsigned
    exact Option.some.inj hsigned
  rw [hend] at hlate
  exact absurd hlate (by decide)

/-- It was signed long before its arrival: the response carries the time of the server. -/
theorem badtime_reply_longer :
    (∀ msg owner key rdata,
      Authenticates checksumLibrary (signedAt 1 bareQuery) (exampleListener.readKeys []).lookup msg
        owner key rdata →
      ¬ Verifies checksumLibrary (signedAt 1 bareQuery) (exampleListener.now / second) key rdata) ∧
    ∃ out, (exampleListener.handle checksumLibrary (signedAt 1 bareQuery) .udp []).2 = some out ∧
      (signedAt 1 bareQuery).length < out.length := by
  exact ⟨fun _ _ _ _ h => bareQuery_late h, by decide +kernel⟩

/-- Without a signature the same request gets its header back, and with one that is too old a
response within the size of a signed one. -/
theorem bareQuery_reply_bounded :
    (∃ out, (exampleListener.handle checksumLibrary bareQuery .udp []).2 = some out ∧
      out.length ≤ bareQuery.length) ∧
    ∃ msg out, checksumLibrary.fromWire (signedAt 1 bareQuery) = some msg ∧
      (exampleListener.handle checksumLibrary (signedAt 1 bareQuery) .udp []).2 = some out ∧
      out.length ≤ ednsSize msg := by
  constructor
  · obtain ⟨out, hout⟩ : ∃ out, (exampleListener.handle checksumLibrary bareQuery .udp []).2 =
        some out := Option.isSome_iff_exists.mp (by decide +kernel)
    refine ⟨out, hout, (unaccepted_reply_bounded checksumLibrary exampleListener bareQuery []).1 ?_
      out hout⟩
    rintro ⟨msg, owner, key, rdata, hmsg, htsig, -⟩
    have hunsigned : (checksumLibrary.fromWire bareQuery).bind Message.tsig = none := by
      decide +kernel
    rw [hmsg, Option.bind_some, htsig] at hunsigned
    cases hunsigned
  · obtain ⟨msg, hmsg, hmac⟩ : ∃ msg ∈ checksumLibrary.fromWire (signedAt 1 bareQuery),
        (exampleListener.verdict checksumLibrary (signedAt 1 bareQuery) [] msg).macVerified =
          true := by decide +kernel
    obtain ⟨out, hout⟩ : ∃ out, (exampleListener.handle checksumLibrary (signedAt 1 bareQuery) .udp
        []).2 = some out := Option.isSome_iff_exists.mp (by decide +kernel)
    obtain ⟨owner, key, rdata, hauth⟩ := authenticates_of_macVerified hmsg hmac
    exact ⟨msg, out, hmsg, hout, (unaccepted_reply_bounded checksumLibrary exampleListener
      (signedAt 1 bareQuery) []).2 msg owner key rdata hauth (fun h => bareQuery_late hauth h.1) rfl
      out hout⟩

end UltimateCaManager.DnsUpdate
