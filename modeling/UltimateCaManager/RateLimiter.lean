import UltimateCaManager.Runs
import Mathlib.Algebra.Order.Field.Rat
import Mathlib.Tactic.Linarith

/-!
# The rate limiter

A bucket of tokens that fill up with time, and a log of the requests allowed within the last
minute. The log bounds every minute, the tokens every interval.
-/
namespace UltimateCaManager.RateLimits

open List Runs

structure Limit where
  rpm : ℤ
  burst : ℤ

structure Config where
  enabled : Bool
  isWhitelisted : String → Bool
  customLimits : List (String × Limit)
  defaultLimits : List (String × Limit)

def protocolExactPaths : List String := ["/ocsp", "/tsa"]

def patternFor (c : Config) (path : String) : String :=
  if path ∈ protocolExactPaths ∧
      path ∈ c.defaultLimits.map Prod.fst ++ c.customLimits.map Prod.fst then path
  else
    (((c.customLimits ++ c.defaultLimits).map Prod.fst).find? fun pattern =>
      pattern ∉ protocolExactPaths ∧ pattern ≠ "_default" ∧ path.startsWith pattern).getD "_default"

/-- The entry `_default` is always there. -/
def getLimit (c : Config) (path : String) : Limit :=
  ((c.customLimits.lookup (patternFor c path)).or ((c.defaultLimits.lookup (patternFor c path)).or
    (c.defaultLimits.lookup "_default"))).getD ⟨0, 0⟩

def getKey (c : Config) (ip path : String) : String := ip ++ ":" ++ patternFor c path

structure Bucket where
  tokens : ℚ
  lastUpdate : ℚ
  requests : List ℚ

inductive Info
  | disabled
  | whitelisted
  | allowed (remaining limit reset : ℤ)
  | refused (limit retryAfter : ℤ) (message : String)

def Bucket.refresh (limit : Limit) (now : ℚ) (b : Bucket) : Bucket where
  tokens := min limit.burst (b.tokens + (now - b.lastUpdate) / 60 * limit.rpm)
  lastUpdate := now
  requests := b.requests.filter (now - · < 60)

def Bucket.check (limit : Limit) (now : ℚ) (b : Bucket) : Bool × Info × Bucket :=
  if 1 ≤ b.tokens ∧ (b.requests.length : ℤ) < limit.rpm then
    let spent := { b with tokens := b.tokens - 1, requests := b.requests ++ [now] }
    (true, .allowed spent.tokens.floor limit.rpm (now + 60 - spent.requests.headD now).floor, spent)
  else
    let retryAfter := match b.requests with
      | [] => 60
      | oldest :: _ => (60 - (now - oldest)).floor + 1
    (false, .refused limit.rpm retryAfter s!"Rate limit exceeded. Try again in {retryAfter}s", b)

structure Request where
  now : ℚ
  ip : String
  path : String

def checkRateLimit (c : Config) (buckets : String → Option Bucket) (r : Request) :
    Bool × Info × (String → Option Bucket) :=
  if !c.enabled then (true, .disabled, buckets)
  else if c.isWhitelisted r.ip then (true, .whitelisted, buckets)
  else
    let limit := getLimit c r.path
    let key := getKey c r.ip r.path
    let b := (buckets key).getD ⟨limit.burst, r.now, []⟩
    let (ok, info, b) := (b.refresh limit r.now).check limit r.now
    (ok, info, Function.update buckets key (some b))

/-! ## Runs -/

/-- The buckets, and the times of the requests that were allowed. -/
structure Log where
  buckets : String → Option Bucket
  allowed : List ℚ

def serve (c : Config) (s : Log) (r : Request) : Log :=
  let (ok, _, buckets) := checkRateLimit c s.buckets r
  ⟨buckets, if ok then s.allowed ++ [r.now] else s.allowed⟩

/-- A request to the bucket, not before the one before it. -/
structure Reaches (c : Config) (key : String) (limit : Limit) (s : Log) (r : Request) : Prop where
  enabled : c.enabled = true
  counted : c.isWhitelisted r.ip = false
  key_eq : getKey c r.ip r.path = key
  limit_eq : getLimit c r.path = limit
  later : ∀ b ∈ s.buckets key, b.lastUpdate ≤ r.now

section Bounds

variable {c : Config} {key : String} {limit : Limit} {p q : ℚ → Bool} {T now : ℚ} {b : Bucket}
  {allowed : List ℚ} {s : Log}

/-- What the bucket knows of the requests allowed so far: `p` is true of times less than a minute
apart, `q` of times at most `T` apart. -/
structure Within (limit : Limit) (p q : ℚ → Bool) (T : ℚ) (b : Bucket) (allowed : List ℚ) :
    Prop where
  logged : b.requests = allowed.filter (b.lastUpdate - · < 60)
  full : b.tokens ≤ limit.burst
  minute : (allowed.countP p : ℤ) ≤ max 0 limit.rpm
  /-- Since the first of the times, the bucket gave what it held and what it got. -/
  spent : allowed.countP q = 0 ∨ ∃ t, q t = true ∧
    b.tokens + allowed.countP q ≤ limit.burst + (b.lastUpdate - t) / 60 * limit.rpm
  total : (allowed.countP q : ℚ) ≤ max 0 (limit.burst + T * limit.rpm / 60)

theorem Within.refresh (h : Within limit p q T b allowed) (hle : b.lastUpdate ≤ now) :
    Within limit p q T (b.refresh limit now) allowed := by
  refine ⟨?_, min_le_left _ _, h.minute, h.spent.imp_right ?_, h.total⟩
  · simp only [Bucket.refresh, h.logged, filter_filter]
    refine filter_congr fun t _ => ?_
    have hlt : now - t < 60 → b.lastUpdate - t < 60 := fun hlt => by linarith
    simpa using hlt
  · rintro ⟨t, ht, hspent⟩
    have htokens :=
      min_le_right (limit.burst : ℚ) (b.tokens + (now - b.lastUpdate) / 60 * limit.rpm)
    refine ⟨t, ht, ?_⟩
    simp only [Bucket.refresh]
    linarith

variable (hp : ∀ t t', p t = true → p t' = true → t' - t < 60)
  (hq : ∀ t t', q t = true → q t' = true → t' - t ≤ T)

include hp hq

theorem Within.check (h : Within limit p q T b allowed) (hnow : b.lastUpdate = now) :
    Within limit p q T (b.check limit now).2.2
      (if (b.check limit now).1 then allowed ++ [now] else allowed) := by
  unfold Bucket.check
  split
  case isFalse => exact h
  next hok =>
    obtain ⟨htoken, hlength⟩ := hok
    have hrpm : (0 : ℚ) ≤ limit.rpm := by exact_mod_cast (by omega : 0 ≤ limit.rpm)
    have hfull := h.full
    have hspent : q now = true → ∃ t, q t = true ∧
        b.tokens + allowed.countP q ≤ limit.burst + (now - t) / 60 * limit.rpm := by
      intro hqnow
      rcases h.spent with hzero | hspent
      · exact ⟨now, hqnow, by simpa [hzero] using hfull⟩
      · exact hnow ▸ hspent
    rw [h.logged, hnow] at hlength
    simp only [if_true]
    refine ⟨by simp [h.logged, hnow], by simp only; linarith, ?_, ?_, ?_⟩ <;>
      rw [countP_append, countP_singleton]
    · split
      · next hpnow =>
        have hmono : allowed.countP p ≤ (allowed.filter (now - · < 60)).length := by
          rw [← countP_eq_length_filter]
          exact countP_mono_left fun t _ ht => by simpa using hp t now ht hpnow
        omega
      · exact h.minute
    · split
      · next hqnow =>
        obtain ⟨t, ht, hle⟩ := hspent hqnow
        refine .inr ⟨t, ht, ?_⟩
        push_cast
        rw [hnow]
        linarith
      · refine h.spent.imp_right fun ⟨t, ht, hle⟩ => ⟨t, ht, ?_⟩
        push_cast
        linarith
    · split
      · next hqnow =>
        obtain ⟨t, ht, hle⟩ := hspent hqnow
        have hgain := mul_le_mul_of_nonneg_right (hq t now ht hqnow) hrpm
        refine le_max_of_le_right ?_
        push_cast
        linarith
      · exact h.total

/-- Nothing was allowed yet, or the bucket knows of it. -/
def Log.Within (s : Log) (key : String) (limit : Limit) (p q : ℚ → Bool) (T : ℚ) : Prop :=
  s.buckets key = none ∧ s.allowed = [] ∨
    ∃ b, s.buckets key = some b ∧ RateLimits.Within limit p q T b s.allowed

theorem Log.Within.serve {r : Request} (hr : Reaches c key limit s r)
    (h : s.Within key limit p q T) : (serve c s r).Within key limit p q T := by
  obtain ⟨henabled, hcounted, rfl, rfl, hlater⟩ := hr
  simp only [RateLimits.serve, checkRateLimit, henabled, hcounted, Bool.not_true,
    Bool.false_eq_true, if_false]
  refine .inr ⟨_, Function.update_self .., Within.check hp hq ?_ rfl⟩
  rcases h with ⟨hnone, hnil⟩ | ⟨b, hb, h⟩
  · rw [hnone, hnil]
    exact .refresh ⟨rfl, le_rfl, by simp, .inl rfl, by simp⟩ le_rfl
  · rw [hb]
    exact h.refresh (hlater b hb)

omit hp hq

/-- Of the requests to one bucket, those allowed at times less than a minute apart are no more than
`rpm`, and those at times at most `T` apart no more than `burst + T * rpm / 60`; a bound below zero
allows none. -/
theorem allowed_bounded (c : Config) (key : String) (limit : Limit)
    (buckets : String → Option Bucket) (hnew : buckets key = none) (s : Log)
    (hs : Reach (serve c) (Reaches c key limit) ⟨buckets, []⟩ s) (p q : ℚ → Bool) (T : ℚ)
    (hp : ∀ t t', p t = true → p t' = true → t' - t < 60)
    (hq : ∀ t t', q t = true → q t' = true → t' - t ≤ T) :
    (s.allowed.countP p : ℤ) ≤ max 0 limit.rpm ∧
      (s.allowed.countP q : ℚ) ≤ max 0 (limit.burst + T * limit.rpm / 60) := by
  have hwithin := hs.invariant (P := (Log.Within · key limit p q T)) (.inl ⟨hnew, rfl⟩)
    fun s r _ h hr => h.serve hp hq hr
  rcases hwithin with ⟨-, hnil⟩ | ⟨b, -, h⟩
  · simp [hnil]
  · exact ⟨h.minute, h.total⟩

end Bounds

def oneEachMinute : Config := ⟨true, fun _ => false, [], [("_default", ⟨1, 1⟩)]⟩

/-- The request half a minute later is refused, the one a minute later is not. -/
theorem allowed_bounded_thrice :
    let s := exec (serve oneEachMinute) ⟨fun _ => none, []⟩
      [⟨0, "", ""⟩, ⟨30, "", ""⟩, ⟨60, "", ""⟩]
    s.allowed = [0, 60] ∧ (s.allowed.countP fun t => 0 ≤ t ∧ t < 60) ≤ max (0 : ℤ) 1 ∧
      (s.allowed.countP fun t => 0 ≤ t ∧ t ≤ 60) ≤ max (0 : ℚ) (1 + 60 * 1 / 60) := by
  refine ⟨by decide +kernel, ?_⟩
  have hmeets : Meets (serve oneEachMinute) (Reaches oneEachMinute ":_default" ⟨1, 1⟩)
      ⟨fun _ => none, []⟩ [⟨0, "", ""⟩, ⟨30, "", ""⟩, ⟨60, "", ""⟩] := by
    refine ⟨?_, ?_, ?_, trivial⟩ <;>
      exact ⟨rfl, rfl, by decide +kernel, by rfl, by decide +kernel⟩
  have hbounds := allowed_bounded _ _ _ _ rfl _ (Reach.start.exec hmeets)
    (fun t => 0 ≤ t ∧ t < 60) (fun t => 0 ≤ t ∧ t ≤ 60) 60
    (by simp only [decide_eq_true_eq]; intros; linarith)
    (by simp only [decide_eq_true_eq]; intros; linarith)
  simpa using hbounds

end UltimateCaManager.RateLimits
