import UltimateCaManager.Concurrency
import UltimateCaManager.Tables
import Mathlib.Data.Nat.Digits.Defs

/-!
# Related-certificate requests

A CSR may carry a relatedCertRequest (RFC 9763), which the holder of another certificate signed
over its name and a time. A signing checks the request, looks for the key that the request was
honoured for, signs, and binds the request to its own key in the commit that stores the
certificate; requests past their age are dropped from the bindings on the way. Each read of the
clock, each lookup and each commit is a step of its own. Times are in microseconds.
-/
namespace UltimateCaManager.RelatedRequests

open List Concurrency Runs Tables

inductive PublicKey
  | ec (point order : ℕ)
  | rsa (modulus : ℕ)
  | other (id : ℕ)

structure NamedCert where
  id : ℕ
  key : PublicKey

/-- An IssuerAndSerialNumber, the name as encoded. -/
structure CertId where
  issuer : List UInt8
  serial : ℤ

/-- A RequesterCertificate; its time in seconds. -/
structure Request where
  certId : CertId
  time : ℤ
  signature : List UInt8

/-- The key of a CSR, and the values of each of its relatedCertRequest attributes. -/
structure Csr where
  spki : List UInt8
  attributes : List (List Request)

/-- The ASN.1 and cryptographic libraries, and the certificate that an issuer and serial stand
for. -/
structure Library where
  find : CertId → NamedCert
  dumpCertId : CertId → List UInt8
  dumpTime : ℤ → List UInt8
  verify : PublicKey → List UInt8 → List UInt8 → Bool
  decodeDss : List UInt8 → Option (ℕ × ℕ)
  sha256 : List UInt8 → List UInt8

def second : ℤ := 1000000

/-- `REQUEST_MAX_AGE`, seven days. -/
def requestMaxAge : ℤ := 7 * 24 * 3600 * second

/-- `REQUEST_CLOCK_SKEW`, five minutes. -/
def requestClockSkew : ℤ := 300 * second

def Request.moment (req : Request) : ℤ := req.time * second

/-- `request_from_csr_der`: one attribute with one value, or none. -/
def Csr.request? (csr : Csr) : Option Request :=
  match csr.attributes with
  | [[req]] => some req
  | _ => none

def integerBytes (value : ℕ) : List UInt8 :=
  if value = 0 then [0] else (Nat.digits 256 value).reverse.map UInt8.ofNat

def fromBytes (bytes : List UInt8) : ℕ := bytes.foldl (fun value b => value * 256 + b.toNat) 0

namespace Library

variable (lib : Library)

/-- The signature in a form that only the key can vary. -/
def canonical (key : PublicKey) (signature : List UInt8) : Option (List UInt8) :=
  match key with
  | .ec _ _ => (lib.decodeDss signature).map fun rs => integerBytes rs.1
  | .rsa _ => some (integerBytes (fromBytes signature))
  | .other _ => some signature

def signedContent (certId : CertId) (time : ℤ) : List UInt8 :=
  lib.dumpCertId certId ++ lib.dumpTime time

def content (req : Request) : List UInt8 := lib.signedContent req.certId req.time

def requestDigest (req : Request) : Option (List UInt8) :=
  (lib.canonical (lib.find req.certId).key req.signature).map fun signature =>
    lib.sha256 (lib.content req ++ signature)

def keyDigest (csr : Csr) : List UInt8 := lib.sha256 csr.spki

def isSigned (req : Request) : Bool :=
  lib.verify (lib.find req.certId).key req.signature (lib.content req)

end Library

/-- A row of `related_cert_requests`; its digest is unique. -/
structure Binding where
  digest : List UInt8
  key : List UInt8
  time : ℤ

structure Issued where
  request : Request
  spki : List UInt8

/-- `issued` is a history variable. -/
structure Server where
  now : ℤ
  bindings : List Binding
  issued : List Issued

/-- A signing in flight, named after what it does next. -/
inductive Task
  | verify (csr : Csr) (req : Request)
  | check (csr : Csr) (req : Request)
  | record (csr : Csr) (req : Request)
  | bind (csr : Csr) (req : Request) (cutoff : ℤ)

/-- Whether the other checks of a step pass, the state of the named certificate and its chain among
them, or the database accepts the commit. -/
abbrev Input := Bool

/-- The clock is set, forwards or backwards. -/
inductive Event
  | setClock (now : ℤ)

namespace Server

variable (lib : Library) (s : Server)

def event : Event → Server
  | .setClock now => { s with now := now }

def start (csr : Csr) : Option Task := csr.request?.map (.verify csr)

/-- `verify_request` at the time of the clock. -/
def accepts (req : Request) : Bool :=
  req.moment ≤ s.now + requestClockSkew && s.now - req.moment ≤ requestMaxAge && lib.isSigned req

def boundKey (digest : List UInt8) : Option (List UInt8) :=
  (s.bindings.find? fun b => b.digest = digest).map Binding.key

def purge (cutoff : ℤ) : Server := { s with bindings := s.bindings.filter fun b => cutoff ≤ b.time }

def addBinding (digest : List UInt8) (csr : Csr) (req : Request) : Server :=
  { s with bindings := s.bindings ++ [⟨digest, lib.keyDigest csr, req.moment⟩] }

def issue (csr : Csr) (req : Request) : Server :=
  { s with issued := s.issued ++ [⟨req, csr.spki⟩] }

/-- `record_request_key` and the commit that stores the certificate. The unique digest makes a
concurrent insertion wait for the commit of the other. -/
def bindRequest (csr : Csr) (req : Request) (cutoff : ℤ) : Option Server := do
  let digest ← lib.requestDigest req
  let s := s.purge cutoff
  match s.boundKey digest with
  | none => some ((s.addBinding lib digest csr req).issue csr req)
  | some key => if key = lib.keyDigest csr then some (s.issue csr req) else none

def advance : Task → Input → Option (Server × Option Task)
  | .verify csr req, pass =>
    some (s, if s.accepts lib req && pass then some (.check csr req) else none)
  | .check csr req, pass =>
    some (s, match lib.requestDigest req with
      | none => none
      | some digest =>
        if (s.boundKey digest).all (· = lib.keyDigest csr) && pass then some (.record csr req)
        else none)
  | .record csr req, pass =>
    some (s, if pass then some (.bind csr req (s.now - requestMaxAge)) else none)
  | .bind csr req cutoff, pass =>
    match s.bindRequest lib csr req cutoff with
    | some s' => some (if pass then s' else s, none)
    | none => some (s, none)

def system : System Server Task Csr Input Event :=
  ⟨event, fun _ csr => start csr, fun s => s.advance lib⟩

def init (now : ℤ) : Server := ⟨now, [], []⟩

end Server

/-! ## Requests that are the same -/

/-- Equal signatures, or ECDSA signatures with `s` and `n - s`. -/
def Library.SameSignature (lib : Library) : PublicKey → List UInt8 → List UInt8 → Prop
  | .ec _ order, x, y => x = y ∨ ∃ r s, lib.decodeDss x = some (r, s) ∧
      lib.decodeDss y = some (r, order - s)
  | _, x, y => x = y

/-- The same named certificate, time and signature. -/
structure Library.SameRequest (lib : Library) (p q : Request) : Prop where
  named : lib.find p.certId = lib.find q.certId
  time : p.time = q.time
  signature : lib.SameSignature (lib.find p.certId).key p.signature q.signature

/-- A key signs one content with one signature. -/
def Library.SignsOnce (lib : Library) : Prop :=
  ∀ key x y c d, lib.SameSignature key x y → lib.verify key x c = true →
    lib.verify key y d = true → c = d

/-- DER ends where its lengths say. -/
def Library.SelfDelimiting (lib : Library) : Prop :=
  ∀ i i' t t' x y, lib.signedContent i t ++ x = lib.signedContent i' t' ++ y → t = t'

section Digests

variable {lib : Library} {p q : Request}

theorem canonical_eq {key : PublicKey} {x y : List UInt8} (h : lib.SameSignature key x y) :
    lib.canonical key x = lib.canonical key y := by
  cases key with
  | ec point order =>
    rcases h with rfl | ⟨r, s, hx, hy⟩
    · rfl
    · simp [Library.canonical, hx, hy]
  | rsa | other =>
    cases h
    rfl

theorem requestDigest_eq (hsigns : lib.SignsOnce) (h : lib.SameRequest p q)
    (hp : lib.isSigned p = true) (hq : lib.isSigned q = true) :
    lib.requestDigest p = lib.requestDigest q := by
  have hcontent : lib.content p = lib.content q := by
    refine hsigns _ p.signature q.signature _ _ h.signature hp ?_
    rw [h.named]
    exact hq
  rw [Library.requestDigest, Library.requestDigest, canonical_eq h.signature, h.named, hcontent]

theorem moment_eq_of_digest (hhash : Function.Injective lib.sha256) (hder : lib.SelfDelimiting)
    {digest : List UInt8} (hp : lib.requestDigest p = some digest)
    (hq : lib.requestDigest q = some digest) : p.moment = q.moment := by
  obtain ⟨x, -, hx⟩ := Option.map_eq_some_iff.mp hp
  obtain ⟨y, -, hy⟩ := Option.map_eq_some_iff.mp hq
  have htime : p.time = q.time := hder _ _ _ _ x y (hhash (hx.trans hy.symm))
  rw [Request.moment, Request.moment, htime]

end Digests

/-! ## The invariant -/

section Invariant

variable {lib : Library} {s : Server}

/-- The request is bound to the key of the certificate, or it is past its age. -/
def IsBound (lib : Library) (s : Server) (e : Issued) : Prop :=
  (∃ digest, lib.requestDigest e.request = some digest ∧
    ⟨digest, lib.sha256 e.spki, e.request.moment⟩ ∈ s.bindings) ∨
    e.request.moment + requestMaxAge < s.now

structure Sound (lib : Library) (s : Server) : Prop where
  unique : (s.bindings.map Binding.digest).Nodup
  dated : ∀ b ∈ s.bindings, ∃ req, lib.requestDigest req = some b.digest ∧ b.time = req.moment
  signed : ∀ e ∈ s.issued, lib.isSigned e.request = true
  bound : ∀ e ∈ s.issued, IsBound lib s e
  oneKey : ∀ e ∈ s.issued, ∀ e' ∈ s.issued, lib.SameRequest e.request e'.request → e.spki = e'.spki

/-- A request that was verified is signed; a purge takes what is past its age at its clock. -/
def TaskSound (lib : Library) (s : Server) : Task → Prop
  | .verify _ _ => True
  | .check _ req => lib.isSigned req = true
  | .record _ req => lib.isSigned req = true
  | .bind _ req cutoff => lib.isSigned req = true ∧ cutoff ≤ s.now - requestMaxAge

/-- A request is not past its age when it is bound. -/
def Task.Timely (s : Server) : Task → Prop
  | .bind _ req _ => s.now - req.moment ≤ requestMaxAge
  | _ => True

instance (s : Server) (t : Task) : Decidable (t.Timely s) := by
  unfold Task.Timely
  split <;> infer_instance

/-- Nor does the clock run backwards. -/
def Timely (w : World Server Task) : Label Csr Input Event → Prop
  | .event (.setClock now) => w.shared.now ≤ now
  | .request _ _ => True
  | .advance i _ => ∀ t ∈ w.tasks i, t.Timely w.shared

instance (w : World Server Task) (l : Label Csr Input Event) : Decidable (Timely w l) := by
  unfold Timely
  split <;> infer_instance

variable {csr : Csr} {req : Request} {e : Issued} {digest : List UInt8} {cutoff : ℤ} {s' : Server}

@[simp] theorem mem_issue : e ∈ (s.issue csr req).issued ↔ e ∈ s.issued ∨ e = ⟨req, csr.spki⟩ := by
  simp [Server.issue]

theorem mem_of_boundKey {key : List UInt8} (h : s.boundKey digest = some key) :
    ∃ b ∈ s.bindings, b.digest = digest ∧ b.key = key := by
  obtain ⟨b, hb, rfl⟩ := Option.map_eq_some_iff.mp h
  exact ⟨b, (find?_key hb).1, (find?_key hb).2, rfl⟩

theorem boundKey_ne (h : s.boundKey digest = none) : ∀ b ∈ s.bindings, b.digest ≠ digest := by
  intro b hb hd
  have hnone : s.bindings.find? (fun c => c.digest = digest) = none := by
    simpa [Server.boundKey] using h
  have := find?_eq_none.mp hnone b hb
  simp [hd] at this

/-- A purge at the clock or before it leaves every request that is not past its age bound. -/
theorem IsBound.purge (h : IsBound lib s e)
    (hcut : cutoff ≤ s.now - requestMaxAge) : IsBound lib (s.purge cutoff) e := by
  rcases h with ⟨digest, hdigest, hmem⟩ | hold
  · by_cases hage : e.request.moment + requestMaxAge < s.now
    · exact .inr hage
    · refine .inl ⟨digest, hdigest, mem_filter.mpr ⟨hmem, ?_⟩⟩
      have : cutoff ≤ e.request.moment := by omega
      simpa using this
  · exact .inr hold

/-- The key that a request in time is bound to is that of every certificate issued on it. -/
theorem spki_eq_of_bound (hhash : Function.Injective lib.sha256)
    (hu : (s.bindings.map Binding.digest).Nodup) (he : IsBound lib s e)
    (hdigest : lib.requestDigest e.request = some digest)
    (hage : s.now - e.request.moment ≤ requestMaxAge) {spki : List UInt8}
    (hkey : (s.boundKey digest).all (· = lib.sha256 spki) = true) : e.spki = spki := by
  rcases he with ⟨digest', hdigest', hmem⟩ | hold
  · obtain rfl : digest' = digest := Option.mem_unique hdigest' hdigest
    rw [Server.boundKey, find?_of_mem hu hmem] at hkey
    exact hhash (by simpa using hkey)
  · omega

/-- What a binding that succeeds did: it issued on a request whose key, after the purge, was its own
or not yet bound. -/
theorem bindRequest_cases (h : s.bindRequest lib csr req cutoff = some s') :
    ∃ digest, lib.requestDigest req = some digest ∧
      ((s.purge cutoff).boundKey digest = none ∧
          s' = ((s.purge cutoff).addBinding lib digest csr req).issue csr req ∨
        (s.purge cutoff).boundKey digest = some (lib.keyDigest csr) ∧
          s' = (s.purge cutoff).issue csr req) := by
  obtain ⟨digest, hdigest, h⟩ := Option.bind_eq_some_iff.mp h
  refine ⟨digest, hdigest, ?_⟩
  cases hkey : (s.purge cutoff).boundKey digest with
  | none =>
    simp only [hkey, Option.some.injEq] at h
    exact .inl ⟨rfl, h.symm⟩
  | some key =>
    simp only [hkey] at h
    by_cases hk : key = lib.keyDigest csr
    · rw [if_pos hk, Option.some.injEq] at h
      exact .inr ⟨by rw [hk], h.symm⟩
    · simp [hk] at h

theorem Sound.purge (h : Sound lib s) (hcut : cutoff ≤ s.now - requestMaxAge) :
    Sound lib (s.purge cutoff) where
  unique := h.unique.sublist (filter_sublist.map _)
  dated := fun b hb => h.dated b (mem_filter.mp hb).1
  signed := h.signed
  bound := fun e he => (h.bound e he).purge hcut
  oneKey := h.oneKey

theorem Sound.addBinding (h : Sound lib s) (csr : Csr)
    (hdigest : lib.requestDigest req = some digest) (hfree : s.boundKey digest = none) :
    Sound lib (s.addBinding lib digest csr req) where
  unique := nodup_concat h.unique (boundKey_ne hfree)
  dated := forall_mem_concat.mpr ⟨h.dated, req, hdigest, rfl⟩
  signed := h.signed
  bound := by
    intro e he
    rcases h.bound e he with ⟨digest', hdigest', hmem⟩ | hold
    · exact .inl ⟨digest', hdigest', mem_append_left _ hmem⟩
    · exact .inr hold
  oneKey := h.oneKey

/-- The certificate joins those issued when its request is bound to its key and no certificate was
issued on it for another. -/
theorem Sound.issue (h : Sound lib s) (hsigned : lib.isSigned req = true)
    (hbound : IsBound lib s ⟨req, csr.spki⟩)
    (hone : ∀ e ∈ s.issued, lib.SameRequest e.request req ∨ lib.SameRequest req e.request →
      e.spki = csr.spki) : Sound lib (s.issue csr req) where
  unique := h.unique
  dated := h.dated
  signed := by
    intro e he
    rcases mem_issue.mp he with he | rfl
    · exact h.signed e he
    · exact hsigned
  bound := by
    intro e he
    rcases mem_issue.mp he with he | rfl
    · exact h.bound e he
    · exact hbound
  oneKey := by
    intro e he e' he' hsame
    rcases mem_issue.mp he with he | rfl <;> rcases mem_issue.mp he' with he' | rfl
    · exact h.oneKey e he e' he' hsame
    · exact hone e he (.inl hsame)
    · exact (hone e' he' (.inr hsame)).symm
    · rfl

theorem same_digest (hsigns : lib.SignsOnce) {p q : Request} (hp : lib.isSigned p = true)
    (hq : lib.isSigned q = true) (h : lib.SameRequest p q ∨ lib.SameRequest q p) :
    lib.requestDigest p = lib.requestDigest q ∧ p.moment = q.moment := by
  rcases h with h | h
  · exact ⟨requestDigest_eq hsigns h hp hq, congrArg (· * second) h.time⟩
  · exact ⟨(requestDigest_eq hsigns h hq hp).symm, congrArg (· * second) h.time.symm⟩

theorem Sound.setClock (h : Sound lib s) {now : ℤ} (hnow : s.now ≤ now) :
    Sound lib (s.event (.setClock now)) where
  unique := h.unique
  dated := h.dated
  signed := h.signed
  bound := by
    intro e he
    rcases h.bound e he with hbound | hold
    · exact .inl hbound
    · exact .inr (lt_of_lt_of_le hold hnow)
  oneKey := h.oneKey

theorem TaskSound.of_now_le (h : s.now ≤ s'.now) :
    ∀ {t : Task}, TaskSound lib s t → TaskSound lib s' t
  | .verify _ _, _ => trivial
  | .check _ _, ht => ht
  | .record _ _, ht => ht
  | .bind _ _ _, ht => ⟨ht.1, by have := ht.2; omega⟩

theorem sound_init (now : ℤ) : Sound lib (Server.init now) where
  unique := nodup_nil
  dated := by simp [Server.init]
  signed := by simp [Server.init]
  bound := by simp [Server.init]
  oneKey := by simp [Server.init]

section Sound

variable (hhash : Function.Injective lib.sha256) (hder : lib.SelfDelimiting)
  (hsigns : lib.SignsOnce)
include hhash hder hsigns

theorem Sound.bindRequest (h : Sound lib s) (hsigned : lib.isSigned req = true)
    (hcut : cutoff ≤ s.now - requestMaxAge) (hage : s.now - req.moment ≤ requestMaxAge)
    (hs : s.bindRequest lib csr req cutoff = some s') : Sound lib s' := by
  obtain ⟨digest, hdigest, hcase⟩ := bindRequest_cases hs
  have hp : Sound lib (s.purge cutoff) := h.purge hcut
  have hkey : ((s.purge cutoff).boundKey digest).all (· = lib.sha256 csr.spki) = true := by
    rcases hcase with ⟨hnone, -⟩ | ⟨hsome, -⟩
    · simp [hnone]
    · simp [hsome, Library.keyDigest]
  have hone : ∀ e ∈ s.issued, lib.SameRequest e.request req ∨ lib.SameRequest req e.request →
      e.spki = csr.spki := by
    intro e he hsame
    obtain ⟨hd, ht⟩ := same_digest hsigns (h.signed e he) hsigned hsame
    exact spki_eq_of_bound hhash hp.unique (hp.bound e he) (hd.trans hdigest) (by rw [ht]; exact hage)
      hkey
  rcases hcase with ⟨hnone, rfl⟩ | ⟨hsome, rfl⟩
  · exact (hp.addBinding csr hdigest hnone).issue hsigned
      (.inl ⟨digest, hdigest, mem_concat_self⟩) hone
  · refine hp.issue hsigned (.inl ⟨digest, hdigest, ?_⟩) hone
    obtain ⟨b, hb, rfl, hk⟩ := mem_of_boundKey hsome
    obtain ⟨origin, horigin, htime⟩ := hp.dated b hb
    have hmoment : b.time = req.moment :=
      htime.trans (moment_eq_of_digest hhash hder horigin hdigest)
    rw [← hmoment, ← Library.keyDigest, ← hk]
    exact hb

theorem advance_sound (h : Sound lib s) {t : Task} (ht : TaskSound lib s t)
    (htimely : t.Timely s) {pass : Input} {t' : Option Task}
    (hadv : s.advance lib t pass = some (s', t')) :
    Sound lib s' ∧ s'.now = s.now ∧ ∀ {v}, t' = some v → TaskSound lib s' v := by
  cases t with
  | verify csr req =>
    cases hadv
    refine ⟨h, rfl, ?_⟩
    intro v hv
    split at hv
    · next hpass =>
      cases hv
      simp only [Server.accepts, Bool.and_eq_true] at hpass
      exact hpass.1.2
    · cases hv
  | check csr req =>
    cases hadv
    refine ⟨h, rfl, ?_⟩
    intro v hv
    split at hv
    · cases hv
    · split at hv
      · cases hv
        exact ht
      · cases hv
  | record csr req =>
    cases hadv
    refine ⟨h, rfl, ?_⟩
    intro v hv
    split at hv
    · cases hv
      exact ⟨ht, le_refl _⟩
    · cases hv
  | bind csr req cutoff =>
    simp only [Server.advance] at hadv
    split at hadv
    · next s₁ hbind =>
      cases hadv
      refine ⟨?_, ?_, by simp⟩
      · split
        · exact h.bindRequest hhash hder hsigns ht.1 ht.2 htimely hbind
        · exact h
      · split
        · obtain ⟨digest, -, ⟨-, rfl⟩ | ⟨-, rfl⟩⟩ := bindRequest_cases hbind
          · rfl
          · rfl
        · rfl
    · cases hadv
      exact ⟨h, rfl, by simp⟩

theorem sound_inductive :
    System.Inductive (Server.system lib) Timely (Sound lib) (TaskSound lib) (fun _ _ => True) where
  symm := fun h => h
  event := by
    rintro w ⟨now⟩ hguard hs
    have hnow : w.shared.now ≤ now := hguard
    exact ⟨hs.setClock hnow, fun ht => ht.of_now_le hnow⟩
  start := by
    intro w i csr t _ _ hstart
    obtain ⟨req, -, rfl⟩ := Option.map_eq_some_iff.mp hstart
    exact ⟨trivial, fun _ => trivial⟩
  advance := by
    intro w i pass t s' t' hguard hs ht hsound hadv
    obtain ⟨hs', hnow, hself⟩ := advance_sound hhash hder hsigns hs hsound (hguard t ht) hadv
    exact ⟨hs', fun hv => ⟨hself hv, fun _ _ => trivial⟩, fun hu _ => hu.of_now_le hnow.ge⟩

end Sound

/-- In every run where the clock does not run backwards and no request passes its age between the
check of a signing and its binding, all certificates issued on one request are for one key. -/
theorem request_serves_one_key (hhash : Function.Injective lib.sha256) (hder : lib.SelfDelimiting)
    (hsigns : lib.SignsOnce) {now : ℤ} {w : World Server Task}
    (h : Reach (Server.system lib).step Timely (World.initial (Server.init now)) w) :
    ∀ e ∈ w.shared.issued, ∀ e' ∈ w.shared.issued, lib.SameRequest e.request e'.request →
      e.spki = e'.spki :=
  ((sound_inductive hhash hder hsigns).reach (sound_init now) h).shared.oneKey

end Invariant

/-! ## A library that can be run -/

/-- A sign, the value in unary, and an end. -/
def unary (t : ℤ) : List UInt8 := (if t < 0 then 1 else 0) :: (List.replicate t.natAbs 1 ++ [0])

/-- A signature is what it signs, and a hash what it hashes. -/
def Library.transparent : Library where
  find i := ⟨i.serial.toNat, .other i.serial.toNat⟩
  dumpCertId _ := []
  dumpTime := unary
  verify _ signature content := signature = content
  decodeDss _ := none
  sha256 := id

theorem replicate_append_inj {n m : ℕ} {x y : List UInt8}
    (h : List.replicate n 1 ++ 0 :: x = List.replicate m 1 ++ 0 :: y) : n = m := by
  induction n generalizing m with
  | zero =>
    cases m with
    | zero => rfl
    | succ m => simp [replicate_succ] at h
  | succ n ih =>
    cases m with
    | zero => simp [replicate_succ] at h
    | succ m =>
      simp only [replicate_succ, cons_append, cons.injEq, true_and] at h
      rw [ih h]

theorem transparent_selfDelimiting : Library.transparent.SelfDelimiting := by
  intro i i' t t' x y h
  have h' : unary t ++ x = unary t' ++ y := h
  simp only [unary, cons_append, append_assoc, cons.injEq] at h'
  obtain ⟨hsign, hrest⟩ := h'
  have habs : t.natAbs = t'.natAbs := replicate_append_inj hrest
  by_cases ht : t < 0 <;> by_cases ht' : t' < 0 <;> simp [ht] at hsign <;> omega

theorem transparent_signsOnce : Library.transparent.SignsOnce := by
  intro key x y c d hsame hx hy
  have hxy : x = y := by
    cases key with
    | ec point order =>
      rcases hsame with hxy | ⟨r, s, hdecode, -⟩
      · exact hxy
      · cases hdecode
    | rsa | other => exact hsame
  have hxc : x = c := by simpa [Library.transparent] using hx
  have hyd : y = d := by simpa [Library.transparent] using hy
  rw [← hxc, ← hyd, hxy]

/-- A request of the time 0 in a CSR for the key `k`. -/
def replayed (k : UInt8) : Csr := ⟨[k], [[⟨⟨[], 1⟩, 0, unary 0⟩]]⟩

def ran (ls : List (Label Csr Input Event)) : World Server Task :=
  exec (Server.system .transparent).step (World.initial (Server.init 0)) ls

/-- Two signings of one request, one after the other; the second key is refused. -/
def honestRun : List (Label Csr Input Event) :=
  [.request 0 (replayed 7), .advance 0 true, .advance 0 true, .request 1 (replayed 8),
    .advance 1 true, .advance 1 true, .advance 0 true, .advance 0 true, .event (.setClock 5),
    .advance 1 true, .advance 1 true]

theorem replayed_request_refused :
    (∀ e ∈ (ran honestRun).shared.issued, ∀ e' ∈ (ran honestRun).shared.issued,
      Library.transparent.SameRequest e.request e'.request → e.spki = e'.spki) ∧
      (ran honestRun).shared.issued.map Issued.spki = [[7]] :=
  ⟨request_serves_one_key Function.injective_id transparent_selfDelimiting transparent_signsOnce
    (Reach.start.exec (by decide)), by decide⟩

/-- Both signings check the request in time; the second binds it once it is past its age, and drops
the binding of the first itself. -/
def lateRun : List (Label Csr Input Event) :=
  [.request 0 (replayed 7), .advance 0 true, .advance 0 true, .request 1 (replayed 8),
    .advance 1 true, .advance 1 true, .advance 0 true, .advance 0 true,
    .event (.setClock (requestMaxAge + 1)), .advance 1 true, .advance 1 true]

theorem late_binding_serves_two_keys :
    ∃ e ∈ (ran lateRun).shared.issued, ∃ e' ∈ (ran lateRun).shared.issued,
      Library.transparent.SameRequest e.request e'.request ∧ e.spki ≠ e'.spki := by
  refine ⟨_, mem_cons_self, _, mem_cons_of_mem _ mem_cons_self, ⟨rfl, rfl, rfl⟩, ?_⟩
  decide

end UltimateCaManager.RelatedRequests
