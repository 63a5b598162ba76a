import UltimateCaManager.TrustedProxy

/-!
# TLS probes of the discovery

A probe checks its target and then hands it to `create_connection`, which looks it up anew and tries
every address of the answer. Only a target written as an address is dialled as it was checked.
-/
namespace UltimateCaManager.Discovery

open Outbound Proxies

/-- `_BLOCKED_NETWORKS`: link-local, multicast and reserved addresses. -/
def inBlockedNetworks : Ip → Bool
  | .v4 value => value / 2 ^ 16 = 0xA9FE || value / 2 ^ 28 = 0xE || value / 2 ^ 28 = 0xF
  | .v6 value _ => value / 2 ^ 118 = 0x3FA || value / 2 ^ 120 = 0xFF

/-- The module `ipaddress`. -/
structure Library where
  ipAddress : String → Option Ip
  isLinkLocal : Ip → Bool
  isMulticast : Ip → Bool
  isReserved : Ip → Bool
  /-- A mapped address is judged like the one it carries, or is reserved itself. -/
  mapped : ∀ ip, (mappedOf ip).any inBlockedNetworks = true →
    (isLinkLocal ip || isMulticast ip || isReserved ip) = true

/-- What a probe meets. -/
structure Net where
  /-- The answers of the resolver for the target, one for each lookup; `none` is an error. -/
  lookup : ℕ → Option (Ip × List Ip)
  /-- The type of the error when an address does not accept the connection. -/
  refusal : ℕ → Ip → Option String
  /-- How a handshake ends: `none` when the server does not know the name that was sent, else the
  type of the error, if any. -/
  handshake : ℕ → Option String → Option (Option String)
  gethostbyaddr : String → Option String
  /-- The first address of a name, as text. -/
  forward : String → Option String

inductive Sni
  | plain (name : Option String)
  | ptrFallback

variable (lib : Library) (net : Net) (host : String)

def Library.blocks (ip : Ip) : Bool :=
  lib.isLinkLocal ip || lib.isMulticast ip || lib.isReserved ip || inBlockedNetworks ip

def isBlockedIp : Bool := (lib.ipAddress host).any lib.blocks

def resolvePtrSni : Option String :=
  (net.gethostbyaddr host).filter fun name =>
    name ≠ "" ∧ name ≠ host ∧ net.forward name = some host

def Sni.resolve : Sni → Option (Option String)
  | .plain name => some name
  | .ptrFallback => (resolvePtrSni net host).map some

/-- An address needs no resolver. -/
def getaddrinfo (n : ℕ) : Option (List Ip) :=
  match lib.ipAddress host with
  | some ip => some [ip]
  | none => (net.lookup n).map fun (first, rest) => first :: rest

/-- The addresses that `create_connection` tries, up to the first that accepts. -/
def dialled (refusal : Ip → Option String) : List Ip → List Ip
  | [] => []
  | ip :: rest => ip :: if refusal ip = none then [] else dialled refusal rest

/-- The addresses that were dialled, and the type of the error. -/
def connectEach : ℕ → List Sni → List Ip × Option String
  | _, [] => ([], some "sni_rejected")
  | n, sni :: rest =>
    match sni.resolve net host with
    | none => ([], some "sni_rejected")
    | some name =>
      match getaddrinfo lib net host n with
      | none => ([], some "dns")
      | some ips =>
        let tried := dialled (net.refusal n) ips
        if ips.all fun ip => (net.refusal n ip).isSome then
          (tried, ips.getLast?.bind (net.refusal n))
        else match net.handshake n name with
          | some error => (tried, error)
          | none =>
            let (more, error) := connectEach (n + 1) rest
            (tried ++ more, error)

def probeTls (sniHostname : Option String) : List Ip × Option String :=
  let isIp := (lib.ipAddress host).isSome
  if isIp && isBlockedIp lib host then ([], some "blocked")
  else match sniHostname.filter (· ≠ "") with
    | some sni => connectEach lib net host 0 [.plain (some sni)]
    | none =>
      if isIp then connectEach lib net host 0 [.plain none, .ptrFallback]
      -- a lookup that fails is left to the connection
      else if (net.lookup 0).any fun answer => lib.blocks answer.1 then ([], some "blocked")
      else connectEach lib net host 1 [.plain (some host)]

/-- In a blocked range, also when an IPv6 address carries it. -/
def Restricted (ip : Ip) : Prop :=
  inBlockedNetworks ip = true ∨ (mappedOf ip).any inBlockedNetworks = true

instance (ip : Ip) : Decidable (Restricted ip) := inferInstanceAs (Decidable (_ ∨ _))

variable {lib net host}

theorem mem_of_mem_dialled {refusal : Ip → Option String} {ip : Ip}
    {ips : List Ip} (h : ip ∈ dialled refusal ips) : ip ∈ ips := by
  induction ips with
  | nil => exact h
  | cons first rest ih =>
    rcases List.mem_cons.mp h with rfl | h
    · exact List.mem_cons_self
    · split at h
      · cases h
      · exact List.mem_cons_of_mem _ (ih h)

theorem connectEach_literal {ip : Ip} (hlib : lib.ipAddress host = some ip) {attempts : List Sni}
    {n : ℕ} {x : Ip} (h : x ∈ (connectEach lib net host n attempts).1) : x = ip := by
  induction attempts generalizing n with
  | nil => cases h
  | cons sni rest ih =>
    have htried : ∀ {refusal}, x ∈ dialled refusal [ip] → x = ip := fun hx =>
      List.mem_singleton.mp (mem_of_mem_dialled hx)
    simp only [connectEach, getaddrinfo, hlib] at h
    split at h
    · cases h
    · split at h
      · exact htried h
      · split at h
        · exact htried h
        · exact (List.mem_append.mp h).elim htried ih

theorem not_restricted_of_not_blocks {ip : Ip} (h : lib.blocks ip = false) : ¬Restricted ip := by
  simp only [Library.blocks, Bool.or_eq_false_iff] at h
  rintro (hnet | hmapped)
  · simp [hnet] at h
  · simpa [h] using lib.mapped ip hmapped

/-- A target keeps the probe off the blocked ranges, whatever the resolver answers, exactly when it
is written as an address. -/
theorem probe_unrestricted_iff (lib : Library) (host : String) (sniHostname : Option String) :
    (∀ net, ∀ ip ∈ (probeTls lib net host sniHostname).1, ¬Restricted ip) ↔
      (lib.ipAddress host).isSome := by
  constructor
  · intro h
    by_contra hname
    -- the first lookup fails, and so checks nothing
    have hip := h ⟨fun n => if n = 0 ∧ sniHostname.filter (· ≠ "") = none then none
      else some (ipv4 169 254 169 254, []), fun _ _ => none, fun _ _ => some none, fun _ => none,
      fun _ => none⟩ (ipv4 169 254 169 254)
    refine hip ?_ (by decide)
    rw [Bool.not_eq_true, Option.isSome_eq_false_iff, Option.isNone_iff_eq_none] at hname
    cases hsni : sniHostname.filter (· ≠ "") <;> simp only [probeTls, hname, hsni] <;>
      simp [connectEach, Sni.resolve, getaddrinfo, hname, dialled]
  · intro hsome net x hx
    obtain ⟨ip, hip⟩ := Option.isSome_iff_exists.mp hsome
    simp only [probeTls, isBlockedIp, hip, Option.isSome_some, Option.any_some, Bool.true_and,
      if_true] at hx
    split at hx
    · cases hx
    · next hblocks =>
      rw [Bool.not_eq_true] at hblocks
      split at hx <;> exact connectEach_literal hip hx ▸ not_restricted_of_not_blocks hblocks

/-- A name with two addresses, of which the first is checked and does not accept. -/
theorem second_address_dialled :
    let lib : Library := ⟨fun _ => none, fun _ => false, fun _ => false,
      fun ip => (mappedOf ip).isSome, fun ip h => by cases hm : mappedOf ip <;> simp_all⟩
    let net : Net := ⟨fun _ => some (ipv4 10 0 0 1, [ipv4 169 254 169 254]),
      fun _ ip => if ip = ipv4 10 0 0 1 then some "refused" else none, fun _ _ => some none,
      fun _ => none, fun _ => none⟩
    (probeTls lib net "host" none).1 = [ipv4 10 0 0 1, ipv4 169 254 169 254] ∧
      Restricted (ipv4 169 254 169 254) := by
  decide +kernel

end UltimateCaManager.Discovery
