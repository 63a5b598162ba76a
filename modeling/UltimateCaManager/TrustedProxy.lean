import UltimateCaManager.Numerals
import UltimateCaManager.OutboundAddresses

/-!
# The address of a client behind proxies

A gate drops the forwarded headers of peers that are not trusted, `ProxyFix` puts an entry of
`X-Forwarded-For` in the place of the peer, and `client_ip` concludes that it did when the address
is no longer the peer's. An entry that is the address of the peer itself defeats that conclusion.
-/
namespace UltimateCaManager.Proxies

open Outbound Numerals

/-- The text `ipaddress` reads, and the list parser of `ProxyFix`. -/
structure Library where
  Network : Type
  ipAddress : List Char → Option Ip
  ipNetwork : List Char → Option Network
  contains : Network → Ip → Bool
  parseListHeader : List Char → List (List Char)

/-! ## Trusted peers -/

/-- The attribute `ipv4_mapped`, which addresses of version 4 do not have. -/
def mappedOf : Ip → Option Ip
  | .v4 _ => none
  | .v6 value _ => ipv4Mapped value

variable (lib : Library)

inductive Trusted
  | all
  | listed (exact : List Ip) (networks : List lib.Network)

/-- An entry that is neither an address nor a network is passed over. -/
def compileTrustedProxies (proxies : List Char) : Trusted lib :=
  let text := strip proxies
  if text = [] then .listed [ipv4 127 0 0 1, ipv6 [0, 0, 0, 0, 0, 0, 0, 1]] []
  else if text = ['*'] then .all
  else
    let entries := ((text.splitOn ',').map strip).filter (· ≠ [])
    let ips := (entries.filter ('/' ∉ ·)).filterMap lib.ipAddress
    .listed (ips ++ ips.filterMap mappedOf) ((entries.filter ('/' ∈ ·)).filterMap lib.ipNetwork)

def isTrustedPeer (proxies peer : List Char) : Bool :=
  match compileTrustedProxies lib proxies with
  | .all => true
  | .listed exact networks =>
    if peer = [] then false
    else match lib.ipAddress peer with
      | none => false
      | some ip => (ip :: (mappedOf ip).toList).any fun cand =>
          decide (cand ∈ exact) || networks.any (lib.contains · cand)

/-! ## The gate, `ProxyFix` and the address -/

inductive ForwardedKey
  | xForwardedFor | xForwardedProto | xForwardedHost | xForwardedPort | xForwardedPrefix | xRealIp

structure Environ where
  remoteAddr : Option (List Char)
  forwarded : ForwardedKey → Option (List Char)
  /-- The `REMOTE_ADDR` that `ProxyFix` recorded. -/
  orig : Option (Option (List Char)) := none

def forwardedHeadersGate (proxies : List Char) (environ : Environ) : Environ :=
  if isTrustedPeer lib proxies (environ.remoteAddr.getD []) then environ
  else { environ with forwarded := fun _ => none }

/-- The entry of `X-Forwarded-For` that `ProxyFix` uses, counted from the right. -/
def hopEntry (hops : ℕ) (environ : Environ) : Option (List Char) :=
  (environ.forwarded .xForwardedFor).bind fun value =>
    (lib.parseListHeader value).reverse[hops - 1]?

/-- `ProxyFix`. It is taken to set the entry it uses whatever the entry is, also an empty one. -/
def proxyFix (hops : ℕ) (environ : Environ) : Environ :=
  { environ with
    remoteAddr := (hopEntry lib hops environ).or environ.remoteAddr
    orig := some environ.remoteAddr }

/-- What the application is called with; the two are installed together. -/
def wsgiApp (proxies : List Char) (hops : ℕ) (environ : Environ) : Environ :=
  if 0 < hops then proxyFix lib hops (forwardedHeadersGate lib proxies environ) else environ

def immediatePeerAddr (environ : Environ) : List Char :=
  match environ.orig with
  | some addr => addr.getD []
  | none => environ.remoteAddr.getD []

def orUnknown (addr : Option (List Char)) : List Char :=
  if addr.getD [] = [] then "unknown".toList else addr.getD []

/-- The left-most entry of `X-Forwarded-For`. -/
def firstForwarded (environ : Environ) : List Char :=
  strip (((environ.forwarded .xForwardedFor).getD []).takeWhile (· ≠ ','))

def clientIp (proxies : List Char) (environ : Environ) : List Char :=
  if environ.orig.any (· ≠ environ.remoteAddr) then orUnknown environ.remoteAddr
  else if isTrustedPeer lib proxies (immediatePeerAddr environ) then
    if firstForwarded environ ≠ [] then firstForwarded environ
    else if (environ.forwarded .xRealIp).getD [] ≠ [] then
      strip ((environ.forwarded .xRealIp).getD [])
    else orUnknown environ.remoteAddr
  else orUnknown environ.remoteAddr

/-! ## Which entry is returned -/

section Requests

variable {lib} {proxies : List Char} {hops : ℕ} {environ : Environ} {entry : List Char}

@[simp] theorem orUnknown_eq_self : orUnknown (some entry) = entry ↔ entry ≠ [] := by
  by_cases h : entry = []
  · subst h
    exact iff_of_false (by decide) (not_not_intro rfl)
  · exact iff_of_true (if_neg h) h

/-- Without trust neither the gate nor `client_ip` lets a header through. -/
theorem clientIp_untrusted
    (h : isTrustedPeer lib proxies (environ.remoteAddr.getD []) = false)
    (horig : environ.orig = none) :
    clientIp lib proxies (wsgiApp lib proxies hops environ) = orUnknown environ.remoteAddr := by
  by_cases hhops : 0 < hops
  · simp [wsgiApp, hhops, forwardedHeadersGate, h, proxyFix, hopEntry, clientIp, immediatePeerAddr]
  · simp [wsgiApp, hhops, clientIp, immediatePeerAddr, horig, h]

theorem wsgiApp_trusted (h : isTrustedPeer lib proxies (environ.remoteAddr.getD []) = true)
    (hhops : 0 < hops) (hentry : hopEntry lib hops environ = some entry) :
    wsgiApp lib proxies hops environ =
      { environ with remoteAddr := some entry, orig := some environ.remoteAddr } := by
  rw [wsgiApp, if_pos hhops, forwardedHeadersGate, if_pos h, proxyFix, hentry, Option.some_or]

/-- The entry comes out as it is, apart from two cases: it is empty, or it is the address of the
peer and the headers, read from the left, name another. -/
def KeepsEntry (environ : Environ) (entry : List Char) : Prop :=
  if environ.remoteAddr ≠ some entry then entry ≠ []
  else if firstForwarded environ ≠ [] then firstForwarded environ = entry
  else if (environ.forwarded .xRealIp).getD [] ≠ [] then
    strip ((environ.forwarded .xRealIp).getD []) = entry
  else entry ≠ []

theorem clientIp_eq_entry_iff (h : isTrustedPeer lib proxies (environ.remoteAddr.getD []) = true)
    (hhops : 0 < hops) (hentry : hopEntry lib hops environ = some entry) :
    clientIp lib proxies (wsgiApp lib proxies hops environ) = entry ↔ KeepsEntry environ entry := by
  rw [wsgiApp_trusted h hhops hentry, clientIp, KeepsEntry]
  by_cases hpeer : environ.remoteAddr = some entry
  · -- `client_ip` sees the address it started from and reads the headers again
    have hnot : ¬ (some environ.remoteAddr).any (· ≠ some entry) = true := by simp [hpeer]
    have htrusted : isTrustedPeer lib proxies (immediatePeerAddr
        { environ with remoteAddr := some entry, orig := some environ.remoteAddr }) = true := h
    rw [if_neg hnot, if_pos htrusted, if_neg (not_not_intro hpeer)]
    change (if firstForwarded environ ≠ [] then firstForwarded environ else _) = entry ↔ _
    split_ifs with hfirst hreal
    · rfl
    · rfl
    · exact orUnknown_eq_self
  · have hany : (some environ.remoteAddr).any (· ≠ some entry) = true := by simpa using hpeer
    rw [if_pos hany, if_pos hpeer]
    exact orUnknown_eq_self

end Requests

/-- The address of an untrusted peer is its own, and that of a trusted one is the entry that
`hops` selects. -/
structure Attributed (proxies : List Char) (hops : ℕ) (environ : Environ) : Prop where
  direct : isTrustedPeer lib proxies (environ.remoteAddr.getD []) = false →
    clientIp lib proxies (wsgiApp lib proxies hops environ) = orUnknown environ.remoteAddr
  forwarded : isTrustedPeer lib proxies (environ.remoteAddr.getD []) = true → 0 < hops →
    ∀ entry ∈ hopEntry lib hops environ,
      clientIp lib proxies (wsgiApp lib proxies hops environ) = entry

/-- The client is named correctly exactly when no entry that is used is the address of the peer
while the headers start with another one. -/
theorem attributed_iff (proxies : List Char) (hops : ℕ) (peer : Option (List Char))
    (forwarded : ForwardedKey → Option (List Char)) :
    Attributed lib proxies hops ⟨peer, forwarded, none⟩ ↔
      (isTrustedPeer lib proxies (peer.getD []) = true → 0 < hops →
        ∀ entry ∈ hopEntry lib hops ⟨peer, forwarded, none⟩,
          KeepsEntry ⟨peer, forwarded, none⟩ entry) := by
  constructor
  · intro h htrusted hhops entry hentry
    exact (clientIp_eq_entry_iff htrusted hhops hentry).mp (h.forwarded htrusted hhops entry hentry)
  · intro h
    refine ⟨fun huntrusted => clientIp_untrusted huntrusted rfl, ?_⟩
    intro htrusted hhops entry hentry
    exact (clientIp_eq_entry_iff htrusted hhops hentry).mpr (h htrusted hhops entry hentry)

/-- A library that reads one address, and the entries between commas. -/
def loopbackLibrary : Library where
  Network := Empty
  ipAddress text := if text = "127.0.0.1".toList then some (ipv4 127 0 0 1) else none
  ipNetwork _ := none
  contains network := nomatch network
  parseListHeader text := (text.splitOn ',').map strip

/-- A client on the host of the proxy, which sent `X-Forwarded-For: 6.6.6.6` itself. -/
def localClient : Environ where
  remoteAddr := some "127.0.0.1".toList
  forwarded
    | .xForwardedFor => some "6.6.6.6, 127.0.0.1".toList
    | _ => none

theorem local_client_chooses_address :
    isTrustedPeer loopbackLibrary [] "127.0.0.1".toList = true ∧
      hopEntry loopbackLibrary 1 localClient = some "127.0.0.1".toList ∧
      clientIp loopbackLibrary [] (wsgiApp loopbackLibrary [] 1 localClient) =
        "6.6.6.6".toList := by
  decide +kernel

end UltimateCaManager.Proxies
