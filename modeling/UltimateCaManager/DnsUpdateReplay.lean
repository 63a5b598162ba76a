import UltimateCaManager.DnsUpdateSoundness

/-!
# A copy of a signed request has no side effect

Copies of one signed request, delivered over either transport, with their stages interleaved with
each other and with other requests. The replay entry lives for as long as the time check accepts
the request, but the check counts whole seconds and includes both ends, so the entry can be gone
while the last copy still passes.
-/
namespace UltimateCaManager.DnsUpdate

open Dns Concurrency Runs

/-- The signature that the copies of a request share. -/
structure Signature where
  owner : Name
  rdata : Tsig

namespace Signature

def key (c : Signature) : ReplayKey := replayKey c.owner c.rdata

/-- The first moment at which no copy passes the time check, in microseconds. -/
def lapse (c : Signature) : ℕ := (c.rdata.timeSigned + window c.rdata + 1) * second

end Signature

/-! ## One key of the replay cache -/

/-- The entry of the key is as before, or has expired and is gone. -/
def Kept (k : ReplayKey) (now : ℕ) (c c' : ReplayCache) : Prop :=
  OrderedDict.get? c'.items k = OrderedDict.get? c.items k ∨
    (∃ e, OrderedDict.get? c.items k = some e ∧ e.isExpired now = true) ∧
      OrderedDict.get? c'.items k = none

namespace ReplayCache

variable {c : ReplayCache} {k k' : ReplayKey} {now : ℕ} {t : Transport} {value : Bytes}

theorem kept_dropExpired : Kept k now c (c.dropExpired now k') := by
  unfold dropExpired
  split
  next hexpired =>
    by_cases hk : k = k'
    · subst hk
      cases hget : OrderedDict.get? c.items k with
      | none => simp [hget] at hexpired
      | some e =>
        rw [hget] at hexpired
        exact .inr ⟨⟨e, hget, hexpired⟩, OrderedDict.get?_delete_self⟩
    · exact .inl (OrderedDict.get?_delete_of_ne hk)
  · exact .inl rfl

@[simp] theorem inFlight_dropExpired : (c.dropExpired now k).inFlight = c.inFlight := by
  unfold dropExpired
  split <;> rfl

theorem kept_afterGet : Kept k now c (c.afterGet now k' t) := by
  unfold afterGet
  split
  · exact .inl OrderedDict.get?_moveToEnd
  · exact kept_dropExpired

@[simp] theorem inFlight_afterGet : (c.afterGet now k t).inFlight = c.inFlight := by
  unfold afterGet
  split
  · rfl
  · exact inFlight_dropExpired

@[simp] theorem inFlight_put : (c.put now k value t).inFlight = c.inFlight := by
  rw [put]

theorem evicted_stored (value' : Bytes) :
    OrderedDict.evicted replayCacheSize (c.stored now k value t) =
      OrderedDict.evicted replayCacheSize (c.stored now k value' t) := by
  simp [OrderedDict.evicted, stored, OrderedDict.put]

theorem get?_put_self (h : k ∉ OrderedDict.evicted replayCacheSize (c.stored now k [] t)) :
    ∃ e, OrderedDict.get? (c.put now k value t).items k = some e ∧
      (e.storedAt = now ∨ ∃ e', OrderedDict.get? c.items k = some e' ∧ e'.storedAt = e.storedAt) := by
  rw [evicted_stored value] at h
  rw [put, OrderedDict.get?_bound h, stored, OrderedDict.get?_put_self]
  refine ⟨_, rfl, ?_⟩
  unfold live?
  cases hget : OrderedDict.get? c.items k with
  | none => exact .inl rfl
  | some e =>
    by_cases hexpired : e.isExpired now = true
    · simp [Option.filter, hexpired]
    · simp [Option.filter, hexpired]

theorem get?_put_of_ne (hk : k ≠ k')
    (h : k ∉ OrderedDict.evicted replayCacheSize (c.stored now k' [] t)) :
    OrderedDict.get? (c.put now k' value t).items k = OrderedDict.get? c.items k := by
  rw [evicted_stored value] at h
  rw [put, OrderedDict.get?_bound h, stored, OrderedDict.get?_put_of_ne hk]

end ReplayCache

/-! ## What a stage does to the replay cache -/

section Stages

variable {lib : Library} {s s' : Listener} {d : Delivery} {faults : List Fault} {msg : Message}
  {signer : Signer} {replayed suppress : Bool} {event : Event} {k : ReplayKey}

/-- The clock and the keys in flight are as before, and the entry of the key is kept. -/
structure Undisturbed (k : ReplayKey) (s s' : Listener) : Prop where
  now : s'.now = s.now
  inFlight : s'.replay.inFlight = s.replay.inFlight
  kept : Kept k s.now s.replay s'.replay

theorem undisturbed_of_replay (hnow : s'.now = s.now) (hreplay : s'.replay = s.replay) :
    Undisturbed k s s' := ⟨hnow, by rw [hreplay], .inl (by rw [hreplay])⟩

theorem receive_undisturbed (lib : Library) (s : Listener) (d : Delivery) (faults : List Fault)
    (k : ReplayKey) : Undisturbed k s (s.receive lib d faults).1 := by
  unfold Listener.receive
  split
  · exact undisturbed_of_replay rfl rfl
  next msg hmsg =>
  split
  · exact undisturbed_of_replay rfl rfl
  cases hkey : replayKey? msg with
  | none => exact undisturbed_of_replay rfl rfl
  | some k' =>
    simp only
    split
    · exact ⟨rfl, ReplayCache.inFlight_dropExpired, ReplayCache.kept_dropExpired⟩
    · exact undisturbed_of_replay rfl rfl

theorem claim_reply {out : Option Bytes} (h : s.claim d signer replayed = (s', .reply out)) :
    Undisturbed k s s' := by
  unfold Listener.claim at h
  simp only at h
  split at h
  · cases h
    exact undisturbed_of_replay rfl rfl
  · split at h
    · cases h
      exact ⟨rfl, ReplayCache.inFlight_afterGet, ReplayCache.kept_afterGet⟩
    · cases h

theorem claim_go (h : s.claim d signer replayed = (s', .go suppress)) :
    signer.replayKey ∉ s.replay.inFlight ∧ s'.now = s.now ∧
      s'.replay.inFlight = signer.replayKey :: s.replay.inFlight ∧
      Kept k s.now s.replay s'.replay ∧
      suppress = (replayed || s.replay.seen s.now signer.replayKey) := by
  unfold Listener.claim at h
  simp only at h
  split at h
  · cases h
  next hfree =>
  split at h
  · cases h
  · obtain ⟨rfl, hgo⟩ := Prod.mk.inj h
    obtain rfl := Listener.Claim.go.inj hgo
    refine ⟨hfree, rfl, ?_, ReplayCache.kept_dropExpired, rfl⟩
    exact congrArg (signer.replayKey :: ·) ReplayCache.inFlight_dropExpired

/-- The processing of a request stores its response or leaves the cache alone. -/
theorem process_frame (lib : Library) (s : Listener) (d : Delivery) (msg : Message)
    (signer : Option Signer) (faults : List Fault) :
    (s.process lib d msg signer faults).1.now = s.now ∧
    (s.process lib d msg signer faults).1.lastUsedAt = s.lastUsedAt ∧
    (s.process lib d msg signer faults).1.audits = s.audits ∧
    ((s.process lib d msg signer faults).1.replay = s.replay ∨
      ∃ signer' out, signer = some signer' ∧ (s.process lib d msg signer faults).1.replay =
        s.replay.put s.now signer'.replayKey out d.transport) := by
  unfold Listener.process
  simp only
  split
  · exact ⟨rfl, rfl, rfl, .inl rfl⟩
  · split
    · exact ⟨rfl, rfl, rfl, .inl rfl⟩
    · unfold Listener.store
      split
      · exact ⟨rfl, rfl, rfl, .inr ⟨_, _, rfl, rfl⟩⟩
      · exact ⟨rfl, rfl, rfl, .inl rfl⟩

theorem process_stored {a : Algorithm} {out : Option Bytes}
    (hkey : Algorithm.ofName? signer.key.algorithm = some a)
    (hopcode : msg.opcode = Opcode.query ∨ msg.opcode = Opcode.update)
    (h : s.process lib d msg (some signer) faults = (s', event, out)) (hevent : event ≠ .none) :
    ∃ value, s'.replay = s.replay.put s.now signer.replayKey value d.transport := by
  obtain ⟨r, hrespond, hrender, hstore⟩ := process_event h hevent
  obtain ⟨hquery, hupdate⟩ := respond_event hrespond hevent
  obtain ⟨rcode, hr⟩ := response_of_update hupdate
  obtain ⟨body, t, -, ht⟩ : ∃ body t, _ ∧ renderSigned lib r signer.key signer.rdata d.seconds
      (signedLimit d msg) = .ok (some (appendTsig body signer.key.name t)) :=
    renderSigned_of_update (hopcode.resolve_left hquery) hkey hr
  obtain rfl := Except.ok.inj (hrender.symm.trans ht)
  exact ⟨_, by rw [hstore]; rfl⟩

end Stages

/-! ## Deliveries of copies -/

def signatureOf (lib : Library) (wire : Bytes) : Option (Name × Tsig) :=
  (lib.fromWire wire).bind Message.tsig

def IsCopy (lib : Library) (c : Signature) (wire : Bytes) : Prop :=
  ∃ x ∈ signatureOf lib wire, replayKey x.1 x.2 = c.key
  deriving Decidable

/-- No other request has the MAC: what has it was signed at the same time. -/
def IsFaithful (lib : Library) (c : Signature) (wire : Bytes) : Prop :=
  ∀ x ∈ signatureOf lib wire, replayKey x.1 x.2 = c.key →
    x.2.timeSigned = c.rdata.timeSigned ∧ x.2.fudge = c.rdata.fudge
  deriving Decidable

/-- The step does not evict the key of the request from the replay cache. -/
def Task.Retains (c : Signature) (s : Listener) : Task → Prop
  | .process d _ (some signer) _ => c.key ∉ OrderedDict.evicted replayCacheSize
      (s.replay.stored s.now signer.replayKey [] d.transport)
  | _ => True

/-- A copy is taken up within the delay after its arrival. -/
def Task.Prompt (c : Signature) (delay : ℕ) (s : Listener) : Task → Prop
  | .claim d _ signer _ => signer.replayKey = c.key → s.now ≤ d.now + delay
  | _ => True

abbrev Step := Label Request (List Fault) Outside

/-- The deliveries are of copies whose entry is not evicted. -/
def Delivers (lib : Library) (c : Signature) (w : World Listener Task) : Step → Prop
  | .event _ => True
  | .request _ r => IsFaithful lib c r.wire
  | .advance i _ => ∀ t ∈ w.tasks i, t.Retains c w.shared

/-- In addition, an entry that is stored from now on outlives the time check of the request, with
room for the delay. -/
def Outlives (lib : Library) (c : Signature) (delay : ℕ) (w : World Listener Task) (l : Step) :
    Prop :=
  Delivers lib c w l ∧ match l with
    | .event _ => True
    | .request _ r => IsCopy lib c r.wire → c.lapse + delay ≤ w.shared.now + replayTtl
    | .advance i _ => ∀ t ∈ w.tasks i, t.Prompt c delay w.shared

section Invariant

variable (lib : Library) (c : Signature) (delay : ℕ) (spent : Prop)

/-- The entry is there, or no copy passes the time check any more. -/
def Covered (s : Listener) : Prop :=
  (OrderedDict.get? s.replay.items c.key).isSome = true ∨ c.lapse + delay ≤ s.now

/-- Every entry outlives the time check; once the request has had its effect there is one. -/
def Guarded (s : Listener) : Prop :=
  (∀ e, OrderedDict.get? s.replay.items c.key = some e → c.lapse + delay ≤ e.storedAt + replayTtl) ∧
    (spent → Covered c delay s)

def Task.Holds (c : Signature) : Task → Prop
  | .process _ _ (some signer) _ => signer.replayKey = c.key
  | .close _ signer _ _ => signer.replayKey = c.key
  | _ => False

structure Arrived (s : Listener) (d : Delivery) : Prop where
  past : d.now ≤ s.now
  early : c.lapse + delay ≤ d.now + replayTtl

/-- What makes sure that a request with an event has a response. -/
def Answerable (msg : Message) (signer : Signer) : Prop :=
  (∃ a, Algorithm.ofName? signer.key.algorithm = some a) ∧
    (msg.opcode = Opcode.query ∨ msg.opcode = Opcode.update)

/-- A request before it is taken up: a copy that was not seen in the cache passed the check. -/
def Waits (s : Listener) (d : Delivery) (msg : Message) (signer : Signer) (replayed : Bool) : Prop :=
  Answerable msg signer ∧ (signer.replayKey = c.key →
    Arrived c delay s d ∧ (replayed = false → d.now < c.lapse))

def Tracked (s : Listener) : Task → Prop
  | .receive d => d.now ≤ s.now ∧ IsFaithful lib c d.wire ∧
      (IsCopy lib c d.wire → c.lapse + delay ≤ d.now + replayTtl)
  | .lookUp d msg signer replayed => Waits c delay s d msg signer replayed
  | .claim d msg signer replayed => Waits c delay s d msg signer replayed
  | .process _ _ none _ => True
  | .process d msg (some signer) suppress => Answerable msg signer ∧ (signer.replayKey = c.key →
      Arrived c delay s d ∧ c.key ∈ s.replay.inFlight ∧ (spent → suppress = true))
  | .close _ signer suppress event => signer.replayKey = c.key →
      c.key ∈ s.replay.inFlight ∧ (event ≠ .none → Covered c delay s) ∧ (spent → suppress = true)

def Apart (t u : Task) : Prop := ¬ (t.Holds c ∧ u.Holds c)

variable {lib c delay spent} {s s' : Listener} {t : Task}

theorem Arrived.mono {d : Delivery} (h : Arrived c delay s d) (hnow : s.now ≤ s'.now) :
    Arrived c delay s' d := ⟨Nat.le_trans h.past hnow, h.early⟩

theorem Tracked.mono (h : Tracked lib c delay spent s t) (hnow : s.now ≤ s'.now)
    (hflight : t.Holds c → c.key ∈ s.replay.inFlight → c.key ∈ s'.replay.inFlight)
    (hcovered : Covered c delay s → Covered c delay s') : Tracked lib c delay spent s' t := by
  match t, h with
  | .receive d, ⟨hpast, h⟩ => exact ⟨Nat.le_trans hpast hnow, h⟩
  | .lookUp d msg signer replayed, ⟨hready, h⟩ | .claim d msg signer replayed, ⟨hready, h⟩ =>
    exact ⟨hready, fun hk => ⟨(h hk).1.mono hnow, (h hk).2⟩⟩
  | .process _ _ none _, _ => trivial
  | .process d msg (some signer) suppress, ⟨hready, h⟩ =>
    refine ⟨hready, fun hk => ?_⟩
    obtain ⟨harrived, hheld, hsuppress⟩ := h hk
    exact ⟨harrived.mono hnow, hflight hk hheld, hsuppress⟩
  | .close d signer suppress event, h =>
    intro hk
    obtain ⟨hheld, hevent, hsuppress⟩ := h hk
    exact ⟨hflight hk hheld, fun he => hcovered (hevent he), hsuppress⟩

theorem storedAt_of_isExpired {e : ReplayEntry} {now : ℕ} (h : e.isExpired now = true) :
    e.storedAt + replayTtl ≤ now := by
  have hpos : 0 < replayTtl := by decide
  have hle : replayTtl ≤ now - e.storedAt := of_decide_eq_true h
  omega

theorem guarded_of_kept (h : Guarded c delay spent s) (hnow : s'.now = s.now)
    (hkept : Kept c.key s.now s.replay s'.replay) :
    Guarded c delay spent s' ∧ (Covered c delay s → Covered c delay s') := by
  have hcovered : Covered c delay s → Covered c delay s' := by
    intro hc
    unfold Covered
    rw [hnow]
    rcases hkept with hsame | ⟨⟨e, he, hexpired⟩, -⟩
    · rw [hsame]
      exact hc
    · exact .inr (Nat.le_trans (h.1 e he) (storedAt_of_isExpired hexpired))
  refine ⟨⟨?_, fun hs => hcovered (h.2 hs)⟩, hcovered⟩
  intro e he
  rcases hkept with hsame | ⟨-, hnone⟩
  · exact h.1 e (hsame ▸ he)
  · rw [hnone] at he
    cases he

theorem guarded_undisturbed (h : Guarded c delay spent s) (hs : Undisturbed c.key s s') :
    Guarded c delay spent s' ∧ ∀ {u}, Tracked lib c delay spent s u →
      Tracked lib c delay spent s' u := by
  obtain ⟨hguarded, hcovered⟩ := guarded_of_kept h hs.now hs.kept
  refine ⟨hguarded, fun hu => hu.mono (by rw [hs.now]) ?_ hcovered⟩
  rw [hs.inFlight]
  exact fun _ hk => hk

theorem guarded_of_put {signer : Signer} {d : Delivery} {value : Bytes}
    (h : Guarded c delay spent s) (hnow : s'.now = s.now)
    (hreplay : s'.replay = s.replay.put s.now signer.replayKey value d.transport)
    (hretains : c.key ∉ OrderedDict.evicted replayCacheSize
      (s.replay.stored s.now signer.replayKey [] d.transport))
    (harrived : signer.replayKey = c.key → Arrived c delay s d) :
    Guarded c delay spent s' ∧ (Covered c delay s → Covered c delay s') ∧
      (signer.replayKey = c.key → Covered c delay s') := by
  by_cases hk : signer.replayKey = c.key
  · rw [hk] at hreplay hretains
    obtain ⟨e, he, hstored⟩ := ReplayCache.get?_put_self hretains
    rw [← hreplay] at he
    have hcovered : Covered c delay s' := .inl (by rw [he]; rfl)
    refine ⟨⟨?_, fun _ => hcovered⟩, fun _ => hcovered, fun _ => hcovered⟩
    intro e' he'
    obtain rfl := Option.mem_unique he he'
    rcases hstored with hfresh | ⟨old, hold, hsame⟩
    · have harrived := harrived hk
      have hpast := harrived.past
      have hearly := harrived.early
      omega
    · rw [← hsame]
      exact h.1 old hold
  · have hkept : Kept c.key s.now s.replay s'.replay := by
      rw [hreplay]
      exact .inl (ReplayCache.get?_put_of_ne (fun h => hk h.symm) hretains)
    obtain ⟨hguarded, hcovered⟩ := guarded_of_kept h hnow hkept
    exact ⟨hguarded, hcovered, fun h => absurd h hk⟩

theorem inFlight_of_holds (h : Tracked lib c delay spent s t) (ht : t.Holds c) :
    c.key ∈ s.replay.inFlight := by
  match t, h, ht with
  | .process d msg (some signer) suppress, h, ht => exact (h.2 ht).2.1
  | .close d signer suppress event, h, ht => exact (h ht).1

/-! ### The stages -/

variable {d : Delivery} {faults : List Fault} {msg : Message} {signer : Signer}
  {replayed suppress : Bool} {event : Event}

/-- A request that verified waits for the cache; the window of the check is that of the copies. -/
theorem waits_of_receive (ht : Tracked lib c delay spent s (.receive d))
    (h : s.receive lib d faults = (s', .signed msg signer replayed)) :
    Waits c delay s' d msg signer replayed := by
  obtain ⟨hpast, hfaithful, hearly⟩ := ht
  obtain ⟨⟨owner, hsigned⟩, -⟩ := receive_eq_signed h
  obtain ⟨a, last, hkey, -⟩ := hsigned.authentic
  have hnow : s'.now = s.now := by
    have hreceive := (receive_undisturbed lib s d faults c.key).now
    rwa [h] at hreceive
  refine ⟨⟨⟨a, hkey⟩, hsigned.opcode⟩, fun hk => ?_⟩
  have hsignature : signatureOf lib d.wire = some (owner, signer.rdata) := by
    rw [signatureOf, hsigned.message]
    exact hsigned.tsig
  have hcopy : replayKey owner signer.rdata = c.key := hsigned.replayKey ▸ hk
  obtain ⟨htime, hfudge⟩ := hfaithful _ hsignature hcopy
  refine ⟨⟨by rw [hnow]; exact hpast, hearly ⟨_, hsignature, hcopy⟩⟩, fun hnew => ?_⟩
  have hwindow : d.now / second ≤ c.rdata.timeSigned + window c.rdata := by
    have hlate := (hsigned.verifies hnew).2.2.1
    rwa [window, htime, hfudge] at hlate
  exact Nat.lt_mul_of_div_lt (Nat.lt_succ_of_le hwindow) (by decide)

/-- Once the request has had its effect, a copy that passed the check finds the entry. -/
theorem suppress_of_claim (hs : Guarded c delay spent s) (ht : Waits c delay s d msg signer replayed)
    (hprompt : signer.replayKey = c.key → s.now ≤ d.now + delay)
    (h : s.claim d signer replayed = (s', .go suppress)) (hk : signer.replayKey = c.key)
    (hspent : spent) : suppress = true := by
  obtain ⟨-, -, -, -, hsuppress⟩ := claim_go (k := c.key) h
  by_contra hgo
  rw [hsuppress, Bool.not_eq_true, Bool.or_eq_false_iff] at hgo
  have hcheck := (ht.2 hk).2 hgo.1
  have hprompt := hprompt hk
  rcases hs.2 hspent with hentry | hlate
  · obtain ⟨e, he⟩ := Option.isSome_iff_exists.mp hentry
    have hlife := hs.1 e he
    have hlive : e.isExpired s.now = false := by
      by_contra hexpired
      rw [Bool.not_eq_false] at hexpired
      have hstored := storedAt_of_isExpired hexpired
      omega
    have hseen : s.replay.seen s.now signer.replayKey = true := by
      simp [ReplayCache.seen, ReplayCache.live?, hk, he, hlive]
    rw [hseen] at hgo
    exact absurd hgo.2 (by decide)
  · omega

/-- The conclusion of one step of a task that the rule for concurrent requests asks for. -/
def Advances (lib : Library) (c : Signature) (delay : ℕ) (spent : Prop) (s : Listener) (t : Task)
    (s' : Listener) (t' : Option Task) : Prop :=
  Guarded c delay spent s' ∧
    (∀ {v}, t' = some v → Tracked lib c delay spent s' v ∧
      ∀ {u}, Tracked lib c delay spent s u → Apart c t u → Apart c v u) ∧
    ∀ {u}, Tracked lib c delay spent s u → Apart c t u → Tracked lib c delay spent s' u

variable {t' : Option Task}

section Guarded

variable (hs : Guarded c delay spent s)

include hs

/-- A step that leaves the cache alone, to a task that holds nothing. -/
theorem advances_undisturbed (hu : Undisturbed c.key s s')
    (hnext : ∀ {v}, t' = some v → Tracked lib c delay spent s' v ∧ ¬ v.Holds c) :
    Advances lib c delay spent s t s' t' := by
  obtain ⟨hguarded, hother⟩ := guarded_undisturbed hs hu
  refine ⟨hguarded, ?_, fun hu _ => hother hu⟩
  intro v hv
  exact ⟨(hnext hv).1, fun _ _ hboth => (hnext hv).2 hboth.1⟩

theorem advances_receive (ht : Tracked lib c delay spent s (.receive d))
    (h : s.advance lib (.receive d) faults = some (s', t')) :
    Advances lib c delay spent s (.receive d) s' t' := by
  have hreceive := receive_undisturbed lib s d faults c.key
  simp only [Listener.advance] at h
  split at h
  next s₁ out hreceived =>
    cases h
    rw [hreceived] at hreceive
    exact advances_undisturbed hs hreceive nofun
  next s₁ msg hreceived =>
    cases h
    rw [hreceived] at hreceive
    refine advances_undisturbed hs hreceive ?_
    rintro v ⟨⟩
    exact ⟨trivial, id⟩
  next s₁ msg signer replayed hreceived =>
    cases h
    rw [hreceived] at hreceive
    refine advances_undisturbed hs hreceive ?_
    rintro v ⟨⟩
    exact ⟨waits_of_receive ht hreceived, id⟩

theorem advances_lookUp (ht : Tracked lib c delay spent s (.lookUp d msg signer replayed))
    (h : s.advance lib (.lookUp d msg signer replayed) faults = some (s', t')) :
    Advances lib c delay spent s (.lookUp d msg signer replayed) s' t' := by
  have hlookUp : Undisturbed c.key s (s.lookUp d signer).1 :=
    ⟨rfl, ReplayCache.inFlight_afterGet, ReplayCache.kept_afterGet⟩
  simp only [Listener.advance] at h
  split at h
  next s₁ out hlooked =>
    cases h
    rw [hlooked] at hlookUp
    exact advances_undisturbed hs hlookUp nofun
  next s₁ hlooked =>
    cases h
    rw [hlooked] at hlookUp
    refine advances_undisturbed hs hlookUp ?_
    rintro v ⟨⟩
    exact ⟨(guarded_undisturbed hs hlookUp).2 ht, id⟩

theorem advances_claim (ht : Tracked lib c delay spent s (.claim d msg signer replayed))
    (hprompt : signer.replayKey = c.key → s.now ≤ d.now + delay)
    (h : s.advance lib (.claim d msg signer replayed) faults = some (s', t')) :
    Advances lib c delay spent s (.claim d msg signer replayed) s' t' := by
  simp only [Listener.advance] at h
  split at h
  next s₁ out hclaim =>
    cases h
    exact advances_undisturbed hs (claim_reply hclaim) nofun
  next s₁ suppress hclaim =>
    cases h
    obtain ⟨hfree, hnow, hflight, hkept, -⟩ := claim_go hclaim
    obtain ⟨hguarded, hcovered⟩ := guarded_of_kept hs hnow hkept
    have hlater : ∀ {u}, Tracked lib c delay spent s u → Tracked lib c delay spent s' u := by
      intro u hu
      refine hu.mono (by rw [hnow]) ?_ hcovered
      rw [hflight]
      exact fun _ hk => List.mem_cons_of_mem _ hk
    refine ⟨hguarded, ?_, fun hu _ => hlater hu⟩
    rintro v ⟨⟩
    refine ⟨⟨ht.1, fun hk => ⟨((ht.2 hk).1).mono (by rw [hnow]), ?_, ?_⟩⟩, ?_⟩
    · rw [hflight, hk]
      exact List.mem_cons_self
    · exact suppress_of_claim hs ht hprompt hclaim hk
    · -- another task in flight with the key would have kept this one from being taken up
      rintro u hu - ⟨hk, hholds⟩
      have hmem := inFlight_of_holds hu hholds
      rw [← show signer.replayKey = c.key from hk] at hmem
      exact hfree hmem

theorem advances_process (ht : Tracked lib c delay spent s (.process d msg (some signer) suppress))
    (hretains : Task.Retains c s (.process d msg (some signer) suppress))
    (h : s.advance lib (.process d msg (some signer) suppress) faults = some (s', t')) :
    Advances lib c delay spent s (.process d msg (some signer) suppress) s' t' := by
  obtain ⟨hnow, -, -, hreplay⟩ := process_frame lib s d msg (some signer) faults
  obtain ⟨⟨⟨a, hkey⟩, hopcode⟩, hcopy⟩ := ht
  simp only [Listener.advance] at h
  generalize hprocess : s.process lib d msg (some signer) faults = result at h hnow hreplay
  obtain ⟨s₁, event, out⟩ := result
  cases h
  have hput {value : Bytes} : s₁.replay = s.replay.put s.now signer.replayKey value d.transport →
      Guarded c delay spent s₁ ∧ (Covered c delay s → Covered c delay s₁) ∧
        (signer.replayKey = c.key → Covered c delay s₁) :=
    fun heq => guarded_of_put hs hnow heq hretains fun hk => (hcopy hk).1
  obtain ⟨hguarded, hcovered, hflight⟩ : Guarded c delay spent s₁ ∧
      (Covered c delay s → Covered c delay s₁) ∧ s₁.replay.inFlight = s.replay.inFlight := by
    rcases hreplay with hsame | ⟨signer', value, hsigner, heq⟩
    · obtain ⟨hguarded, hcovered⟩ := guarded_of_kept hs hnow (.inl (by rw [hsame]))
      exact ⟨hguarded, hcovered, by rw [hsame]⟩
    · obtain rfl := Option.some.inj hsigner
      exact ⟨(hput heq).1, (hput heq).2.1, by rw [heq, ReplayCache.inFlight_put]⟩
  refine ⟨hguarded, ?_, fun hu _ => hu.mono (by rw [hnow]) (by rw [hflight]; exact fun _ => id)
    hcovered⟩
  rintro v ⟨⟩
  refine ⟨fun hk => ⟨?_, fun hevent => ?_, (hcopy hk).2.2⟩, fun _ hapart hboth => hapart hboth⟩
  · rw [hflight]
    exact (hcopy hk).2.1
  · obtain ⟨value, heq⟩ := process_stored hkey hopcode hprocess hevent
    exact (hput heq).2.2 hk

theorem advances_unsigned
    (h : s.advance lib (.process d msg none suppress) faults = some (s', t')) :
    Advances lib c delay spent s (.process d msg none suppress) s' t' := by
  obtain ⟨hnow, -, -, hreplay⟩ := process_frame lib s d msg none faults
  cases h
  rcases hreplay with hsame | ⟨signer, value, hsigner, -⟩
  · exact advances_undisturbed hs (undisturbed_of_replay hnow hsame) nofun
  · cases hsigner

end Guarded

theorem close_replay (s : Listener) (d : Delivery) (signer : Signer) (suppress : Bool)
    (event : Event) (faults : List Fault) :
    (s.close d signer suppress event faults).now = s.now ∧
      (s.close d signer suppress event faults).replay = s.replay.finish signer.replayKey := by
  cases suppress with
  | true => exact ⟨rfl, rfl⟩
  | false =>
    cases event with
    | none | refused => exact ⟨rfl, rfl⟩
    | accepted =>
      simp only [Listener.close, Bool.false_eq_true, if_false, Listener.sideEffects,
        Listener.touch, Listener.confirm]
      split <;> split <;> exact ⟨rfl, rfl⟩

theorem advances_close (hs : Guarded c delay spent s)
    (h : s.advance lib (.close d signer suppress event) faults = some (s', t')) :
    Advances lib c delay spent s (.close d signer suppress event) s' t' := by
  obtain ⟨hnow, hreplay⟩ := close_replay s d signer suppress event faults
  cases h
  obtain ⟨hguarded, hcovered⟩ := guarded_of_kept hs hnow (.inl (by rw [hreplay]; rfl))
  refine ⟨hguarded, nofun, fun hu hapart => hu.mono (by rw [hnow]) ?_ hcovered⟩
  intro hholds hmem
  rw [hreplay]
  refine List.mem_filter.mpr ⟨hmem, ?_⟩
  -- the task that ends is the only one with its key
  have hother : c.key ≠ signer.replayKey := fun hk => hapart ⟨hk.symm, hholds⟩
  simpa using hother

theorem outside_replay (s : Listener) (e : Outside) :
    (s.outside e).replay = s.replay ∧ s.now ≤ (s.outside e).now := by
  cases e with
  | tick microseconds => exact ⟨rfl, Nat.le_add_right ..⟩
  | _ => exact ⟨rfl, Nat.le_refl _⟩

theorem copies_inductive : (Listener.system lib).Inductive (Outlives lib c delay)
    (Guarded c delay spent) (Tracked lib c delay spent) (Apart c) where
  symm h := fun hboth => h hboth.symm
  event {w e} _ hs := by
    obtain ⟨hreplay, hnow⟩ := outside_replay w.shared e
    have hcovered : Covered c delay w.shared → Covered c delay (w.shared.outside e) := by
      unfold Covered
      rw [hreplay]
      exact Or.imp_right fun hlate => Nat.le_trans hlate hnow
    refine ⟨⟨?_, fun hspent => hcovered (hs.2 hspent)⟩, fun ht => ?_⟩
    · simp only [Listener.system, hreplay]
      exact hs.1
    · exact ht.mono hnow (by simp only [Listener.system, hreplay]; exact fun _ => id) hcovered
  start {w i r t} hl hs h := by
    cases h
    exact ⟨⟨Nat.le_refl _, hl.1, hl.2⟩, fun _ hboth => hboth.1⟩
  advance {w i faults t s' t'} hl hs hi ht h := by
    have hretains : t.Retains c w.shared := hl.1 t hi
    have hprompt : t.Prompt c delay w.shared := hl.2 t hi
    have h : w.shared.advance lib t faults = some (s', t') := h
    match t, ht, hretains, hprompt, h with
    | .receive d, ht, _, _, h => exact advances_receive hs ht h
    | .lookUp d msg signer replayed, ht, _, _, h => exact advances_lookUp hs ht h
    | .claim d msg signer replayed, ht, _, hprompt, h => exact advances_claim hs ht hprompt h
    | .process d msg none suppress, _, _, _, h => exact advances_unsigned hs h
    | .process d msg (some signer) suppress, ht, hretains, _, h =>
      exact advances_process hs ht hretains h
    | .close d signer suppress event, _, _, _, h => exact advances_close hs h

end Invariant

/-! ## After the effect -/

section Spent

variable {lib : Library} {c : Signature} {delay : ℕ} {s : Listener} {t : Task} {faults : List Fault}

theorem Tracked.of_not_holds (h : Tracked lib c delay False s t) (ht : ¬ t.Holds c) :
    Tracked lib c delay True s t := by
  match t, h, ht with
  | .receive _, h, _ | .lookUp .., h, _ | .claim .., h, _ => exact h
  | .process _ _ none _, _, _ => trivial
  | .process d msg (some signer) suppress, h, ht => exact ⟨h.1, fun hk => absurd hk ht⟩
  | .close d signer suppress event, _, ht => exact fun hk => absurd hk ht

/-- The task is the end of a copy that is taken for the request itself, with an event. -/
def Task.HasEffects (c : Signature) : Task → Prop
  | .close _ signer suppress event =>
    suppress = false ∧ signer.replayKey = c.key ∧ event ≠ .none
  | _ => False

/-- The end of a request with an event leaves no other copy in flight, and the entry in place. -/
theorem holds_of_effect {w : World Listener Task} {i : ℕ} (h : System.Holds (Guarded c delay False)
      (Tracked lib c delay False) (Apart c) w) (hi : w.tasks i = some t) (ht : t.HasEffects c) :
    System.Holds (Guarded c delay True) (Tracked lib c delay True) (Apart c)
      ((Listener.system lib).step w (.advance i faults)) := by
  obtain ⟨d, signer, suppress, event, rfl⟩ :
      ∃ d signer suppress event, t = .close d signer suppress event := by
    cases t with
    | close d signer suppress event => exact ⟨d, signer, suppress, event, rfl⟩
    | _ => cases ht
  obtain ⟨-, hk, hevent⟩ := ht
  have hstep : (Listener.system lib).step w (.advance i faults) =
      ⟨w.shared.close d signer suppress event faults, Function.update w.tasks i none⟩ := by
    simp only [System.step, hi]
    rfl
  have hmeets : Outlives lib c delay w (.advance i faults) := by
    constructor <;> intro t ht <;> obtain rfl := Option.mem_unique hi ht <;> trivial
  have hnext := copies_inductive.steps hmeets h ((Listener.system lib).step_steps w _)
  have hcovered := (h.task hi hk).2.1 hevent
  obtain ⟨hnow, hreplay⟩ := close_replay w.shared d signer suppress event faults
  rw [hstep] at hnext ⊢
  refine ⟨⟨hnext.shared.1, fun _ => ?_⟩, ?_, hnext.apart⟩
  · unfold Covered
    rw [hreplay, hnow]
    exact hcovered
  · intro j u hu
    refine (hnext.task hu).of_not_holds fun hholds => ?_
    rcases System.update_eq_some hu with ⟨-, hnone⟩ | ⟨hj, hu⟩
    · cases hnone
    · exact h.apart hj hu hi ⟨hholds, hk⟩

end Spent

/-! ## Deliveries one after the other -/

def deliver (i : ℕ) (r : Request) (faults : List Fault) : List Step :=
  .request i r :: List.replicate 5 (.advance i faults)

/-- The tasks of the system run the stages of `handle`. -/
theorem exec_deliver (lib : Library) (s : Listener) (tasks : ℕ → Option Task) (i : ℕ)
    (r : Request) (faults : List Fault) :
    exec (Listener.system lib).step ⟨s, Function.update tasks i none⟩ (deliver i r faults) =
      ⟨(s.handle lib r.wire r.transport faults).1, Function.update tasks i none⟩ := by
  have hstart : (Listener.system lib).step ⟨s, Function.update tasks i none⟩ (.request i r) =
      ⟨s, Function.update tasks i (some (.receive ⟨r.wire, r.transport, s.now⟩))⟩ := by
    simp [System.step, Listener.system, Listener.start]
  have hstep (s : Listener) (t : Task) :
      (Listener.system lib).step ⟨s, Function.update tasks i (some t)⟩ (.advance i faults) =
        (s.advance lib t faults).elim ⟨s, Function.update tasks i (some t)⟩
          fun next => ⟨next.1, Function.update tasks i next.2⟩ := by
    cases h : s.advance lib t faults <;> simp [System.step, Listener.system, h]
  have hended (s : Listener) :
      (Listener.system lib).step ⟨s, Function.update tasks i none⟩ (.advance i faults) =
        ⟨s, Function.update tasks i none⟩ := by simp [System.step]
  rw [deliver, exec_cons, hstart]
  unfold Listener.handle
  generalize (⟨r.wire, r.transport, s.now⟩ : Delivery) = d
  simp only [List.replicate, exec_cons, exec_nil]
  split
  next s₁ out hreceive => simp [hstep, hended, Listener.advance, hreceive]
  next s₁ msg hreceive => simp [hstep, hended, Listener.advance, hreceive]
  next s₁ msg signer replayed hreceive =>
  split
  next s₂ out hlookUp => simp [hstep, hended, Listener.advance, hreceive, hlookUp]
  next s₂ hlookUp =>
  split
  next s₃ out hclaim => simp [hstep, hended, Listener.advance, hreceive, hlookUp, hclaim]
  next s₃ suppress hclaim =>
    simp [hstep, Listener.advance, hreceive, hlookUp, hclaim, Listener.complete]

/-! ## Side effects -/

def AuditRecord.isRejection : AuditRecord → Bool
  | .rejected .. => true
  | _ => false

/-- What step 11 writes: the rows, the use of the keys, and the records of the updates. -/
def Listener.effects (s : Listener) : List ChallengeRow × List (ℕ × ℕ) × List AuditRecord :=
  (s.challenges.rows, s.lastUsedAt, s.audits.filter fun a => !a.isRejection)

section Effects

variable {lib : Library} {s s' : Listener} {d : Delivery} {faults : List Fault} {msg : Message}
  {signer : Signer} {replayed : Bool}

theorem settle_audits (lib : Library) (d : Delivery) (msg : Message) (faults : List Fault)
    (result : TsigResult) :
    (settle lib d msg faults result).2.filter (fun a => !a.isRejection) = [] := by
  have hreject : ∀ {keyname reason render limit},
      (tsigError d msg keyname faults reason render limit).2.filter (fun a => !a.isRejection) =
        [] := by
    intro keyname reason render limit
    unfold tsigError
    split
    · rfl
    · split <;> rfl
  cases result with
  | formerr | unsigned | ok => rfl
  | badkey | badsig | badtime | badtrunc => exact hreject

theorem receive_effects (lib : Library) (s : Listener) (d : Delivery) (faults : List Fault) :
    (s.receive lib d faults).1.effects = s.effects := by
  unfold Listener.receive
  split
  · rfl
  next msg hmsg =>
  split
  · rfl
  · simp [Listener.effects, settle_audits]

theorem claim_effects (s : Listener) (d : Delivery) (signer : Signer) (replayed : Bool) :
    (s.claim d signer replayed).1.effects = s.effects := by
  unfold Listener.claim
  simp only
  split
  · rfl
  · split <;> rfl

theorem process_effects (lib : Library) (s : Listener) (d : Delivery) (msg : Message)
    (signer : Option Signer) (faults : List Fault) :
    (s.process lib d msg signer faults).1.effects = s.effects := by
  have hrows := process_rows lib s d msg signer faults
  obtain ⟨-, hused, haudits, -⟩ := process_frame lib s d msg signer faults
  rw [Listener.effects, hrows, hused, haudits, Listener.effects]

/-- Only the end of a request that is no copy has effects. -/
theorem effects_of_advance {t : Task} {t' : Option Task}
    (h : s.advance lib t faults = some (s', t'))
    (ht : ∀ d signer event, t ≠ .close d signer false event) : s'.effects = s.effects := by
  cases t with
  | receive d =>
    have heffects := receive_effects lib s d faults
    simp only [Listener.advance] at h
    split at h <;> (next hr => cases h; rwa [hr] at heffects)
  | lookUp d msg signer replayed =>
    have heffects : (s.lookUp d signer).1.effects = s.effects := rfl
    simp only [Listener.advance] at h
    split at h <;> (next hr => cases h; rwa [hr] at heffects)
  | claim d msg signer replayed =>
    have heffects := claim_effects s d signer replayed
    simp only [Listener.advance] at h
    split at h <;> (next hr => cases h; rwa [hr] at heffects)
  | process d msg signer suppress =>
    cases h
    exact process_effects ..
  | close d signer suppress event =>
    cases h
    cases suppress with
    | true => rfl
    | false => exact absurd rfl (ht d signer event)

def Task.Serves (lib : Library) (c : Signature) : Task → Prop
  | .receive d => IsCopy lib c d.wire
  | .lookUp _ _ signer _ => signer.replayKey = c.key
  | .claim _ _ signer _ => signer.replayKey = c.key
  | .process _ _ signer _ => ∃ x ∈ signer, x.replayKey = c.key
  | .close _ signer _ _ => signer.replayKey = c.key

/-- Copies of one signed request, over either transport and interleaved with anything else, whose
entry is not evicted: once a copy has ended with its effects, no step of a copy has any, if every
entry outlives the time check of the request. -/
theorem copies_have_no_effect (lib : Library) (c : Signature) (delay : ℕ) {s₀ : Listener}
    (h₀ : s₀.replay = .empty) {w w' : World Listener Task}
    (hw : Reach (Listener.system lib).step (Outlives lib c delay) (World.initial s₀) w) {i : ℕ}
    {first : Task} (hi : w.tasks i = some first) (hfirst : first.HasEffects c) {faults : List Fault}
    (hw' : Reach (Listener.system lib).step (Outlives lib c delay)
      ((Listener.system lib).step w (.advance i faults)) w') {j : ℕ} {t : Task}
    (hj : w'.tasks j = some t) (ht : t.Serves lib c) (faults' : List Fault) :
    ((Listener.system lib).step w' (.advance j faults')).shared.effects = w'.shared.effects := by
  have hguarded : Guarded c delay False s₀ := by
    refine ⟨?_, False.elim⟩
    rw [h₀]
    exact nofun
  have hbefore := copies_inductive.reach hguarded hw
  have hafter := copies_inductive.reach_from (holds_of_effect hbefore hi hfirst) hw'
  have htracked := hafter.task hj
  generalize hstep : (Listener.system lib).step w' (.advance j faults') = w''
  have hsteps := (Listener.system lib).step_steps w' (.advance j faults')
  rw [hstep] at hsteps
  cases hsteps with
  | idle => rfl
  | advance hj' h =>
    obtain rfl := Option.mem_unique hj hj'
    refine effects_of_advance h ?_
    rintro d signer event rfl
    exact absurd ((htracked ht).2.2 trivial) (by decide)

end Effects

/-! ## Two copies -/

instance (c : Signature) (s : Listener) (t : Task) : Decidable (t.Retains c s) := by
  unfold Task.Retains
  split <;> infer_instance

instance (c : Signature) (delay : ℕ) (s : Listener) (t : Task) : Decidable (t.Prompt c delay s) := by
  unfold Task.Prompt
  split <;> infer_instance

instance (lib : Library) (c : Signature) (w : World Listener Task) (l : Step) :
    Decidable (Delivers lib c w l) := by
  cases l <;> unfold Delivers <;> infer_instance

instance (lib : Library) (c : Signature) (delay : ℕ) (w : World Listener Task) (l : Step) :
    Decidable (Outlives lib c delay w l) := by
  cases l <;> unfold Outlives <;> infer_instance

instance (c : Signature) (t : Task) : Decidable (t.HasEffects c) := by
  cases t <;> unfold Task.HasEffects <;> infer_instance

instance (lib : Library) (c : Signature) (t : Task) : Decidable (t.Serves lib c) := by
  cases t <;> unfold Task.Serves <;> infer_instance

/-- An UPDATE that is signed at the given time, and its signature. -/
def exampleUpdate (timeSigned : ℕ) : Bytes := signedAt timeSigned (updateAdding (ascii "v"))

def exampleSignature (timeSigned : ℕ) : Signature :=
  match signatureOf checksumLibrary (exampleUpdate timeSigned) with
  | some (owner, rdata) => ⟨owner, rdata⟩
  | none => ⟨keyName, ⟨keyName, 0, 0, [], 0, 0, []⟩⟩

/-- The first copy up to its last stage. -/
def firstCopy (timeSigned : ℕ) : List Step :=
  .request 0 ⟨exampleUpdate timeSigned, .udp⟩ :: List.replicate 4 (.advance 0 [])

/-- Another copy after a while, up to its last stage. -/
def secondCopy (timeSigned seconds : ℕ) (transport : Transport) : List Step :=
  [.event (.tick (seconds * second)), .request 1 ⟨exampleUpdate timeSigned, transport⟩] ++
    List.replicate 4 (.advance 1 [])

abbrev exampleStep := (Listener.system checksumLibrary).step

def closing (timeSigned : ℕ) : World Listener Task :=
  exec exampleStep (World.initial exampleListener) (firstCopy timeSigned)

def closingAgain (timeSigned seconds : ℕ) (transport : Transport) : World Listener Task :=
  exec exampleStep (exampleStep (closing timeSigned) (.advance 0 []))
    (secondCopy timeSigned seconds transport)

/-- The entry of a request that was signed 300 s ahead expires 600 s after the first copy; at that
second a copy still passes the time check, and confirms the row again. -/
theorem later_copy_has_effects :
    Reach exampleStep (Delivers checksumLibrary (exampleSignature 1300))
      (World.initial exampleListener) (closing 1300) ∧
    (∃ first ∈ (closing 1300).tasks 0, first.HasEffects (exampleSignature 1300)) ∧
    Reach exampleStep (Delivers checksumLibrary (exampleSignature 1300))
      (exampleStep (closing 1300) (.advance 0 [])) (closingAgain 1300 600 .udp) ∧
    (∃ t ∈ (closingAgain 1300 600 .udp).tasks 1,
      t.Serves checksumLibrary (exampleSignature 1300)) ∧
    (exampleStep (closingAgain 1300 600 .udp) (.advance 1 [])).shared.effects ≠
      (closingAgain 1300 600 .udp).shared.effects := by
  exact ⟨Reach.start.exec (by decide +kernel), by decide +kernel,
    Reach.start.exec (by decide +kernel), by decide +kernel, by decide +kernel⟩

/-- A copy over TCP within the life of the entry runs all stages without an effect. -/
theorem later_copy_suppressed :
    (∃ t ∈ (closingAgain 1000 100 .tcp).tasks 1,
      t.Serves checksumLibrary (exampleSignature 1000)) ∧
    (exampleStep (closingAgain 1000 100 .tcp) (.advance 1 [])).shared.effects =
      (closingAgain 1000 100 .tcp).shared.effects := by
  obtain ⟨first, hi, heffects⟩ :
      ∃ first ∈ (closing 1000).tasks 0, first.HasEffects (exampleSignature 1000) := by
    decide +kernel
  obtain ⟨t, hj, hserves⟩ : ∃ t ∈ (closingAgain 1000 100 .tcp).tasks 1,
      t.Serves checksumLibrary (exampleSignature 1000) := by decide +kernel
  have hw : Reach exampleStep (Outlives checksumLibrary (exampleSignature 1000) second)
      (World.initial exampleListener) (closing 1000) :=
    Reach.start.exec (by decide +kernel)
  have hw' : Reach exampleStep (Outlives checksumLibrary (exampleSignature 1000) second)
      (exampleStep (closing 1000) (.advance 0 [])) (closingAgain 1000 100 .tcp) :=
    Reach.start.exec (by decide +kernel)
  exact ⟨⟨t, hj, hserves⟩, copies_have_no_effect checksumLibrary (exampleSignature 1000) second rfl
    hw hi heffects hw' hj hserves []⟩

end UltimateCaManager.DnsUpdate
