import Mathlib.Algebra.Group.Nat.Defs
import Mathlib.Data.List.Basic

/-!
# Addresses of outbound requests

Which addresses UCM refuses to connect to: the metadata services of clouds, loopback and the
unspecified address, also when an IPv6 address carries one of them. Addresses are numbers; an IPv6
address may have a scope.
-/
namespace UltimateCaManager.Outbound

inductive Ip
  | v4 (value : ℕ)
  | v6 (value : ℕ) (scope : Option (List Char))
  deriving DecidableEq

namespace Ip

def isLoopback : Ip → Bool
  | .v4 value => value / 2 ^ 24 = 127
  | .v6 value _ => value = 1

def isUnspecified : Ip → Bool
  | .v4 value => value = 0
  | .v6 value _ => value = 0

end Ip

def ipv4 (a b c d : ℕ) : Ip := .v4 (((a * 256 + b) * 256 + c) * 256 + d)

def ipv6 (groups : List ℕ) : Ip := .v6 (groups.foldl (fun value g => value * 65536 + g) 0) none

def cloudMetadataIps : List Ip := [
  ipv4 169 254 169 254, ipv4 169 254 170 2, ipv4 100 100 100 200, ipv4 192 0 0 192,
  ipv4 169 254 42 42, ipv6 [0xfd00, 0xec2, 0, 0, 0, 0, 0, 0x254], ipv6 [0xfd00, 0x42, 0, 0, 0, 0, 0, 0x42]]

/-! ## IPv4 addresses inside IPv6 addresses -/

/-- `_bits`: the bits from the first to the last, counted from the most significant. -/
def bits (value first last : ℕ) : ℕ := value / 2 ^ (127 - last) % 2 ^ (last - first + 1)

/-- `_RFC6052_LAYOUT`: for each prefix length, where the high part and the low part stand. -/
def rfc6052Layout : List (ℕ × (ℕ × ℕ) × Option (ℕ × ℕ)) := [
  (32, (32, 63), none), (40, (40, 63), some (72, 79)), (48, (48, 63), some (72, 87)),
  (56, (56, 63), some (72, 95)), (64, (72, 103), none), (96, (96, 127), none)]

def rfc6052Ipv4 (value prefixLength : ℕ) : Option Ip :=
  match rfc6052Layout.lookup prefixLength with
  | none => none
  | some (high, none) => some (.v4 (bits value high.1 high.2))
  | some (high, some low) =>
    some (.v4 (bits value high.1 high.2 * 2 ^ (low.2 - low.1 + 1) + bits value low.1 low.2))

/-- The address is in the network of the given prefix: its high bits are those. -/
def inNetwork (value network length : ℕ) : Bool := value / 2 ^ (128 - length) = network

def nat64WellKnown (value : ℕ) : Bool := inNetwork value 0x0064ff9b0000000000000000 96
def nat64LocalUse (value : ℕ) : Bool := inNetwork value 0x0064ff9b0001 48
def localUseCandidates : List ℕ := [48, 56, 64, 96]

/-- `_nat64_readings`: what the address carries for certain, and what it may carry. -/
def nat64Readings (value : ℕ) : List Ip × List Ip :=
  if nat64WellKnown value then ((rfc6052Ipv4 value 96).toList, [])
  else if nat64LocalUse value then ([], localUseCandidates.filterMap (rfc6052Ipv4 value))
  else ([], [])

def ipv4Mapped (value : ℕ) : Option Ip :=
  if value / 2 ^ 32 = 0xFFFF then some (.v4 (value % 2 ^ 32)) else none

def sixtofour (value : ℕ) : Option Ip :=
  if value / 2 ^ 112 = 0x2002 then some (.v4 (value / 2 ^ 80 % 2 ^ 32)) else none

/-- The server, and the client in ones complement. -/
def teredo (value : ℕ) : List Ip :=
  if value / 2 ^ 96 = 0x20010000 then
    [.v4 (value / 2 ^ 64 % 2 ^ 32), .v4 (2 ^ 32 - 1 - value % 2 ^ 32)]
  else []

def isatapIdentifiers : List ℕ := [0x00005EFE, 0x02005EFE]

def ipv4Forms : Ip → List Ip
  | .v4 _ => []
  | .v6 value _ =>
    (nat64Readings value).1 ++ (ipv4Mapped value).toList ++ (sixtofour value).toList ++
      teredo value ++
      (if bits value 64 95 ∈ isatapIdentifiers then [.v4 (value % 2 ^ 32)] else []) ++
      (if inNetwork value 0 96 then [.v4 (value % 2 ^ 32)] else [])

def speculativeIpv4Forms : Ip → List Ip
  | .v4 _ => []
  | .v6 value _ => (nat64Readings value).2

/-! ## Forbidden addresses -/

inductive Reason
  | cloudMetadata | loopback
  deriving DecidableEq

/-- One address, without what it carries. -/
def reasonOf (allowLoopback : Bool) (ip : Ip) : Option Reason :=
  if ip ∈ cloudMetadataIps then some .cloudMetadata
  else if (ip.isLoopback || ip.isUnspecified) && !allowLoopback then some .loopback
  else none

/-- The readings of a prefix whose layout is not known: loopback counts only if all of them agree. -/
def speculativeReason (allowLoopback : Bool) (readings : List Ip) : Option Reason :=
  if readings = [] then none
  else if readings.any (· ∈ cloudMetadataIps) then some .cloudMetadata
  else if readings.all Ip.isUnspecified && !allowLoopback then some .loopback
  else none

/-- `_forbidden_ip_reason`: the addresses that it carries first, then the address itself. -/
def forbiddenIpReason (allowLoopback : Bool) (ip : Ip) : Option Reason :=
  ((ipv4Forms ip).findSome? (reasonOf allowLoopback)).or
    ((speculativeReason allowLoopback (speculativeIpv4Forms ip)).or (reasonOf allowLoopback ip))

/-- An address that is accepted is no metadata service, and carries none, for certain or in one of
the layouts that fit. -/
theorem not_cloudMetadata_of_accepted {allowLoopback : Bool} {ip : Ip}
    (h : forbiddenIpReason allowLoopback ip = none) :
    ip ∉ cloudMetadataIps ∧
      ∀ carried ∈ ipv4Forms ip ++ speculativeIpv4Forms ip, carried ∉ cloudMetadataIps := by
  have hreason : ∀ {a}, reasonOf allowLoopback a = none → a ∉ cloudMetadataIps := by
    intro a ha hmem
    rw [reasonOf, if_pos hmem] at ha
    cases ha
  obtain ⟨hforms, hrest⟩ := Option.or_eq_none_iff.mp h
  obtain ⟨hspeculative, hself⟩ := Option.or_eq_none_iff.mp hrest
  refine ⟨hreason hself, List.forall_mem_append.mpr ⟨fun carried hc =>
    hreason (List.findSome?_eq_none_iff.mp hforms carried hc), fun carried hc hmem => ?_⟩⟩
  have hany : (speculativeIpv4Forms ip).any (· ∈ cloudMetadataIps) = true :=
    List.any_eq_true.mpr ⟨carried, hc, decide_eq_true hmem⟩
  rw [speculativeReason, if_neg (List.ne_nil_of_mem hc), if_pos hany] at hspeculative
  cases hspeculative

/-- The ways to write an IPv4 address as an IPv6 address. The last four are those of RFC 6052 under
a prefix out of `64:ff9b:1::/48`, around the reserved octet `u`. -/
inductive Carries (a : ℕ) : ℕ → Prop
  | mapped : Carries a (0xFFFF * 2 ^ 32 + a)
  | compatible : Carries a a
  | sixtofour (rest : ℕ) (h : rest < 2 ^ 80) : Carries a ((0x2002 * 2 ^ 32 + a) * 2 ^ 80 + rest)
  | teredoServer (rest : ℕ) (h : rest < 2 ^ 64) :
      Carries a ((0x20010000 * 2 ^ 32 + a) * 2 ^ 64 + rest)
  | teredoClient (rest : ℕ) (h : rest < 2 ^ 64) :
      Carries a ((0x20010000 * 2 ^ 64 + rest) * 2 ^ 32 + (2 ^ 32 - 1 - a))
  | isatap (network : ℕ) {identifier : ℕ} (h : identifier ∈ isatapIdentifiers) :
      Carries a ((network * 2 ^ 32 + identifier) * 2 ^ 32 + a)
  | wellKnown : Carries a (0x0064ff9b0000000000000000 * 2 ^ 32 + a)
  | prefix48 (u suffix : ℕ) (hu : u < 2 ^ 8) (hsuffix : suffix < 2 ^ 40) :
      Carries a ((((0x0064ff9b0001 * 2 ^ 16 + a / 2 ^ 16) * 2 ^ 8 + u) * 2 ^ 16 +
        a % 2 ^ 16) * 2 ^ 40 + suffix)
  | prefix56 (subnet u suffix : ℕ) (hsubnet : subnet < 2 ^ 8) (hu : u < 2 ^ 8)
      (hsuffix : suffix < 2 ^ 32) :
      Carries a (((((0x0064ff9b0001 * 2 ^ 8 + subnet) * 2 ^ 8 + a / 2 ^ 24) * 2 ^ 8 + u) * 2 ^ 24 +
        a % 2 ^ 24) * 2 ^ 32 + suffix)
  | prefix64 (subnet u suffix : ℕ) (hsubnet : subnet < 2 ^ 16) (hu : u < 2 ^ 8)
      (hsuffix : suffix < 2 ^ 24) :
      Carries a ((((0x0064ff9b0001 * 2 ^ 16 + subnet) * 2 ^ 8 + u) * 2 ^ 32 + a) * 2 ^ 24 + suffix)
  | prefix96 (subnet : ℕ) (hsubnet : subnet < 2 ^ 48) :
      Carries a ((0x0064ff9b0001 * 2 ^ 48 + subnet) * 2 ^ 32 + a)

theorem mem_forms_of_carries {a value : ℕ} (scope : Option (List Char)) (ha : a < 2 ^ 32)
    (h : Carries a value) :
    .v4 a ∈ ipv4Forms (.v6 value scope) ++ speculativeIpv4Forms (.v6 value scope) := by
  have hread : ∀ {p : Prop} [Decidable p] {n : ℕ}, p → n = a →
      .v4 a ∈ (if p then some (Ip.v4 n) else none).toList ∧
        .v4 a ∈ (if p then [Ip.v4 n] else []) := by
    rintro p _ n hp rfl
    simp [hp]
  have hlocal : ∀ value, value / 2 ^ 80 = 0x0064ff9b0001 → ∀ length ∈ localUseCandidates, ∀ n,
      rfc6052Ipv4 value length = some (.v4 n) → n = a → .v4 a ∈ (nat64Readings value).2 := by
    rintro value hlow length hlength n hreading rfl
    have hwell : nat64WellKnown value = false := decide_eq_false (by omega)
    have huse : nat64LocalUse value = true := decide_eq_true hlow
    rw [nat64Readings, if_neg (by simp [hwell]), if_pos huse]
    exact List.mem_filterMap.mpr ⟨length, hlength, hreading⟩
  simp only [ipv4Forms, speculativeIpv4Forms, List.mem_append]
  cases h with
  | mapped =>
    have hmem : .v4 a ∈ (ipv4Mapped (0xFFFF * 2 ^ 32 + a)).toList :=
      (hread (by omega) (by omega)).1
    simp only [hmem, or_true, true_or]
  | compatible => exact .inl (.inr (hread (decide_eq_true (by omega)) (by omega)).2)
  | sixtofour rest h =>
    have hmem : .v4 a ∈ (sixtofour ((0x2002 * 2 ^ 32 + a) * 2 ^ 80 + rest)).toList :=
      (hread (by omega) (by omega)).1
    simp only [hmem, or_true, true_or]
  | teredoServer rest h =>
    have hmem : .v4 a ∈ teredo ((0x20010000 * 2 ^ 32 + a) * 2 ^ 64 + rest) := by
      rw [teredo, if_pos (by omega), List.mem_cons, Ip.v4.injEq]
      omega
    simp only [hmem, or_true, true_or]
  | teredoClient rest h =>
    have hmem : .v4 a ∈ teredo ((0x20010000 * 2 ^ 64 + rest) * 2 ^ 32 + (2 ^ 32 - 1 - a)) := by
      rw [teredo, if_pos (by omega), List.mem_cons, List.mem_singleton, Ip.v4.injEq, Ip.v4.injEq]
      omega
    simp only [hmem, or_true, true_or]
  | isatap network h =>
    refine .inl (.inl (.inr (hread ?_ (by omega)).2))
    simp only [isatapIdentifiers, List.mem_cons, List.not_mem_nil, or_false, bits] at h ⊢
    omega
  | wellKnown =>
    have hwell : nat64WellKnown (0x0064ff9b0000000000000000 * 2 ^ 32 + a) = true :=
      decide_eq_true (by omega)
    have hbits : bits (0x0064ff9b0000000000000000 * 2 ^ 32 + a) 96 127 = a := by
      simp only [bits]
      omega
    have hmem : .v4 a ∈ (nat64Readings (0x0064ff9b0000000000000000 * 2 ^ 32 + a)).1 := by
      rw [nat64Readings, if_pos hwell]
      exact Option.mem_toList.mpr (congrArg (some ∘ Ip.v4) hbits)
    simp only [hmem, true_or]
  | prefix48 u suffix hu hsuffix =>
    refine .inr (hlocal _ (by omega) 48 (by decide) _ rfl ?_)
    simp only [bits]
    omega
  | prefix56 subnet u suffix hsubnet hu hsuffix =>
    refine .inr (hlocal _ (by omega) 56 (by decide) _ rfl ?_)
    simp only [bits]
    omega
  | prefix64 subnet u suffix hsubnet hu hsuffix =>
    refine .inr (hlocal _ (by omega) 64 (by decide) _ rfl ?_)
    simp only [bits]
    omega
  | prefix96 subnet hsubnet =>
    refine .inr (hlocal _ (by omega) 96 (by decide) _ rfl ?_)
    simp only [bits]
    omega

/-- No way to write a metadata address as an IPv6 address is let through. -/
theorem forbidden_of_carries {a value : ℕ} (ha : .v4 a ∈ cloudMetadataIps) (h : Carries a value)
    (scope : Option (List Char)) (allowLoopback : Bool) :
    (forbiddenIpReason allowLoopback (.v6 value scope)).isSome = true := by
  have hsmall : a < 2 ^ 32 := by
    simp only [cloudMetadataIps, ipv4, ipv6, List.mem_cons, List.not_mem_nil, reduceCtorEq,
      Ip.v4.injEq, or_false] at ha
    omega
  by_contra hnone
  rw [Option.not_isSome_iff_eq_none] at hnone
  exact (not_cloudMetadata_of_accepted hnone).2 _ (mem_forms_of_carries scope hsmall h) ha

theorem mapped_metadata_forbidden :
    (forbiddenIpReason true (.v6 (0xFFFF * 2 ^ 32 + 0xa9fea9fe) none)).isSome = true :=
  forbidden_of_carries (by decide) .mapped none true

-- the metadata service behind a translator, as a mapped address and as an ISATAP address
example : forbiddenIpReason true (ipv6 [0x64, 0xff9b, 0, 0, 0, 0, 0xa9fe, 0xa9fe]) =
    some .cloudMetadata := by decide
example : forbiddenIpReason true (ipv6 [0x64, 0xff9b, 1, 1, 0xffa9, 0xfea9, 0xfe00, 0]) =
    some .cloudMetadata := by decide
example : forbiddenIpReason true (ipv6 [0xfe80, 0, 0, 0, 0, 0x5efe, 0xa9fe, 0xa9fe]) =
    some .cloudMetadata := by decide

end UltimateCaManager.Outbound
