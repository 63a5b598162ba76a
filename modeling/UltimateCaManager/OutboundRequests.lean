import UltimateCaManager.OutboundAddresses
import UltimateCaManager.Tables
import Mathlib.Data.List.TakeWhile

/-!
# Outbound requests with pinned addresses

`safe_request` resolves and checks the host of every hop of a redirect chain and pins the addresses
that it accepted for the connection of that hop. The HTTP client looks the pin up under the name
that it connects to, which for a host that is not ASCII is its IDNA encoding and not the name that
was pinned. It also reads a URL its own way, so that an origin that is new to it may be the old one
to `urlparse`.
-/
namespace UltimateCaManager.Outbound

open List

def IsAscii (text : List Char) : Prop := ∀ c ∈ text, c.toNat < 128

instance (text : List Char) : Decidable (IsAscii text) :=
  List.decidableBAll (fun c : Char => c.toNat < 128) text

/-- Where the HTTP client sends a request. -/
structure Origin where
  scheme : List Char
  host : List Char
  port : Option ℕ
  deriving DecidableEq

/-- The libraries: `urlparse` and `urljoin` over some type of URLs, `ipaddress.ip_address`,
`str.lower`, the IDNA encoding, and what the HTTP client makes of a URL. A host or URL that cannot
be encoded or sent to has none. -/
structure Library (Url : Type) where
  scheme : Url → List Char
  hostname : Url → Option (List Char)
  port : Url → Option ℕ
  join : Url → List Char → Url
  ipAddress : List Char → Option Ip
  lower : List Char → List Char
  idna : List Char → Option (List Char)
  client : Url → Option Origin
  lower_ascii : ∀ text, IsAscii text → IsAscii (lower text) ∧ lower (lower text) = lower text
  /-- A host is in lower case but for the zone of an address, which is not encoded. -/
  lower_hostname : ∀ {url host encoded}, hostname url = some host → idna host = some encoded →
    ¬ IsAscii host → ¬ IsAscii (lower host)
  idna_ascii : ∀ {text encoded}, idna text = some encoded → IsAscii encoded
  idna_literal : ∀ {text ip}, ipAddress text = some ip → ¬ IsAscii text → idna text = none

/-- The resolver may answer differently at each lookup, and a connection may fail; the responses of
the hops make the redirect chain. -/
structure Response where
  status : ℕ
  location : Option (List Char)

structure Network where
  getaddrinfo : ℕ → List Char → Option (List Ip)
  connects : ℕ → Ip → Bool

variable {Url : Type}

/-! ## Resolving and checking -/

inductive Refusal
  | noHostname
  | literal (host : List Char) (reason : Reason)
  | unresolved (host : List Char)
  | resolved (host : List Char) (reason : Reason) (ip : Ip)
  | noAddresses (host : List Char)

def checkAll (allowLoopback : Bool) (host : List Char) :
    List Ip → List Ip → Except Refusal (List Ip)
  | chosen, [] => .ok chosen
  | chosen, ip :: rest =>
    match forbiddenIpReason allowLoopback ip with
    | some reason => .error (.resolved host reason ip)
    | none => checkAll allowLoopback host (if ip ∈ chosen then chosen else chosen ++ [ip]) rest

/-- `_resolve_and_validate`, with the number of lookups made. -/
def resolveAndValidate (lib : Library Url) (net : Network) (lookups : ℕ) (url : Url)
    (allowLoopback : Bool) : Except Refusal (List Char × List Ip) × ℕ :=
  match lib.hostname url with
  | none => (.error .noHostname, lookups)
  | some host =>
    match lib.ipAddress host with
    | some ip =>
      match forbiddenIpReason allowLoopback ip with
      | some reason => (.error (.literal host reason), lookups)
      | none => (.ok (host, [ip]), lookups)
    | none =>
      match net.getaddrinfo lookups host with
      | none => (.error (.unresolved host), lookups + 1)
      | some addrs =>
        match checkAll allowLoopback host [] addrs with
        | .error e => (.error e, lookups + 1)
        | .ok [] => (.error (.noAddresses host), lookups + 1)
        | .ok chosen => (.ok (host, chosen), lookups + 1)

/-! ## Connections -/

abbrev Pins := List (List Char × List Ip)

/-- The key of a pin: `host.lower().rstrip('.')`. -/
def pinKey (lib : Library Url) (host : List Char) : List Char :=
  ((lib.lower host).reverse.dropWhile (· = '.')).reverse

/-- `pin_host`; the block ends with the pins it began with. -/
def pinHost (lib : Library Url) (pins : Pins) (host : List Char) (ips : List Ip) : Pins :=
  (pinKey lib host, ips) :: pins

/-- The addresses that are tried, up to the first that connects. -/
def dial (net : Network) : ℕ → List Ip → List Ip × Bool
  | _, [] => ([], false)
  | attempts, ip :: rest =>
    if net.connects attempts ip then ([ip], true)
    else ((ip :: (dial net (attempts + 1) rest).1), (dial net (attempts + 1) rest).2)

/-- `_patched_create_connection`: with a pin only the pinned addresses are tried; without one the
name is resolved again. -/
def createConnection (lib : Library Url) (net : Network) (pins : Pins) (lookups attempts : ℕ)
    (host : List Char) : List Ip × Bool × ℕ :=
  match pins.lookup (pinKey lib host) with
  | some (ip :: ips) =>
    ((dial net attempts (ip :: ips)).1, (dial net attempts (ip :: ips)).2, lookups)
  | _ =>
    match net.getaddrinfo lookups host with
    | none => ([], false, lookups + 1)
    | some ips => ((dial net attempts ips).1, (dial net attempts ips).2, lookups + 1)

/-- The name that a client connects to that reads the host as `urlparse` does. -/
def clientHost (lib : Library Url) (host : List Char) : Option (List Char) :=
  if IsAscii host then some (lib.lower host) else lib.idna host

/-! ## Requests -/

structure Kwargs where
  auth : Option (List Char)
  cookies : Option (List Char)
  params : Option (List Char)
  data : Option (List Char)
  json : Option (List Char)
  files : Option (List Char)
  headers : List (List Char × List Char)

def redirectStatuses : List ℕ := [301, 302, 303, 307, 308]

def portableHeaders : List (List Char) :=
  ["accept", "accept-encoding", "accept-language", "user-agent", "cache-control",
    "pragma"].map String.toList

def bodyHeaders : List (List Char) :=
  ["content-type", "content-length", "transfer-encoding"].map String.toList

def sameOrigin (lib : Library Url) (first second : Url) : Bool :=
  lib.scheme first = lib.scheme second ∧ lib.hostname first = lib.hostname second ∧
    lib.port first = lib.port second

def dropBody (kwargs : Kwargs) : Kwargs := { kwargs with data := none, json := none, files := none }

def stripCredentials (lib : Library Url) (kwargs : Kwargs) : Kwargs :=
  { dropBody kwargs with
    auth := none
    cookies := none
    params := none
    headers := kwargs.headers.filter fun h => lib.lower h.1 ∈ portableHeaders }

/-- The method and the arguments of the hop after a redirect. -/
def nextRequest (lib : Library Url) (status : ℕ) (method : List Char) (kwargs : Kwargs)
    (crossed : Bool) : List Char × Kwargs :=
  let kwargs := if crossed then stripCredentials lib kwargs else kwargs
  if crossed ∨ status = 303 ∨ (status = 301 ∨ status = 302) ∧ method = "POST".toList then
    ("GET".toList, { dropBody kwargs with
      headers := kwargs.headers.filter fun h => lib.lower h.1 ∉ bodyHeaders })
  else (method, kwargs)

def redirect? (lib : Library Url) (follow : Bool) (url : Url) (r : Response) : Option Url :=
  match r.location with
  | some (c :: location) =>
    if follow ∧ r.status ∈ redirectStatuses then some (lib.join url (c :: location)) else none
  | _ => none

/-- A request that was sent, with the addresses that were accepted for it and those that a
connection was opened to. -/
structure Hop (Url : Type) where
  url : Url
  method : List Char
  kwargs : Kwargs
  accepted : List Ip
  attempts : List Ip

inductive Outcome
  | response (r : Response)
  | refused (e : Refusal)
  | invalidUrl
  | connectionError
  | tooManyRedirects

/-- The loop of `safe_request`, over the hops that are left. -/
def sendHops (lib : Library Url) (net : Network) (pins : Pins) (allowLoopback follow : Bool)
    (responses : ℕ → Response) :
    ℕ → ℕ → ℕ → ℕ → Url → List Char → Kwargs → List (Hop Url) × Outcome
  | 0, _, _, _, _, _, _ => ([], .tooManyRedirects)
  | hops + 1, hop, lookups, attempts, url, method, kwargs =>
    match resolveAndValidate lib net lookups url allowLoopback with
    | (.error e, _) => ([], .refused e)
    | (.ok (host, addresses), lookups) =>
      match lib.client url with
      | none => ([], .invalidUrl)
      | some origin =>
        let (tried, connected, lookups) :=
          createConnection lib net (pinHost lib pins host addresses) lookups attempts origin.host
        let sent : Hop Url := ⟨url, method, kwargs, addresses, tried⟩
        if !connected then ([sent], .connectionError)
        else match redirect? lib follow url (responses hop) with
          | none => ([sent], .response (responses hop))
          | some next =>
            let (method, kwargs) := nextRequest lib (responses hop).status method kwargs
              (!sameOrigin lib url next)
            let (sents, outcome) := sendHops lib net pins allowLoopback follow responses hops
              (hop + 1) lookups (attempts + tried.length) next method kwargs
            (sent :: sents, outcome)

/-- `safe_request`, outside any other pin. -/
def safeRequest (lib : Library Url) (net : Network) (responses : ℕ → Response)
    (method : List Char) (url : Url) (allowLoopback follow : Bool) (maxRedirects : ℕ)
    (kwargs : Kwargs) : List (Hop Url) × Outcome :=
  sendHops lib net [] allowLoopback follow responses (maxRedirects + 1) 0 0 0 url
    (method.map Char.toUpper) kwargs

/-! ## What a hop connects to -/

section Hop

variable {lib : Library Url} {net : Network} {url : Url} {allowLoopback : Bool} {host : List Char}
  {addresses : List Ip} {lookups lookups' attempts : ℕ} {pins : Pins}

theorem mem_of_mem_dial {ips : List Ip} {ip : Ip} (h : ip ∈ (dial net attempts ips).1) :
    ip ∈ ips := by
  induction ips generalizing attempts with
  | nil => exact h
  | cons first rest ih =>
    unfold dial at h
    split at h
    · rw [mem_singleton.mp h]
      exact mem_cons_self
    · rcases mem_cons.mp h with rfl | h
      · exact mem_cons_self
      · exact mem_cons_of_mem _ (ih h)

theorem resolveAndValidate_ok
    (h : resolveAndValidate lib net lookups url allowLoopback = (.ok (host, addresses), lookups')) :
    lib.hostname url = some host ∧ addresses ≠ [] ∧
      (lib.ipAddress host).bind (forbiddenIpReason allowLoopback) = none := by
  unfold resolveAndValidate at h
  split at h
  · cases h
  next host' hhost =>
  split at h
  next ip hip =>
    split at h
    · cases h
    next hallowed =>
      cases h
      exact ⟨hhost, cons_ne_nil _ _, by rw [hip]; exact hallowed⟩
  next hname =>
    split at h
    · cases h
    · split at h
      · cases h
      · cases h
      next chosen hne _ =>
        cases h
        exact ⟨hhost, hne, by rw [hname]; rfl⟩

theorem not_isAscii_pinKey (hascii : ¬ IsAscii (lib.lower host)) : ¬ IsAscii (pinKey lib host) := by
  simp only [IsAscii, not_forall] at hascii ⊢
  obtain ⟨c, hc, hbig⟩ := hascii
  refine ⟨c, ?_, hbig⟩
  rw [pinKey, mem_reverse]
  have hsplit : c ∈ (lib.lower host).reverse.takeWhile (· = '.') ++
      (lib.lower host).reverse.dropWhile (· = '.') := by
    rw [takeWhile_append_dropWhile]
    exact mem_reverse.mpr hc
  rcases mem_append.mp hsplit with hdot | hkept
  · obtain rfl : c = '.' := by simpa using mem_takeWhile_imp hdot
    exact absurd hbig (by decide)
  · exact hkept

theorem isAscii_pinKey (h : IsAscii host) : IsAscii (pinKey lib host) := by
  intro c hc
  have hmem := (dropWhile_sublist _).mem (mem_reverse.mp hc)
  exact (lib.lower_ascii host h).1 c (mem_reverse.mp hmem)

theorem createConnection_ascii (hascii : IsAscii host) (hne : addresses ≠ []) :
    createConnection lib net (pinHost lib pins host addresses) lookups attempts (lib.lower host) =
      ((dial net attempts addresses).1, (dial net attempts addresses).2, lookups) := by
  have hkey : pinKey lib (lib.lower host) = pinKey lib host := by
    rw [pinKey, (lib.lower_ascii host hascii).2, pinKey]
  unfold createConnection pinHost
  rw [hkey, lookup_cons_self]
  cases addresses with
  | nil => exact absurd rfl hne
  | cons ip ips => rfl

/-- The pin of any other name is not found: it is resolved again, under its encoding. -/
theorem createConnection_idna {encoded : List Char} (hhost : lib.hostname url = some host)
    (hascii : ¬ IsAscii host) (hencoded : lib.idna host = some encoded) :
    createConnection lib net (pinHost lib [] host addresses) lookups attempts encoded =
      match net.getaddrinfo lookups encoded with
      | none => ([], false, lookups + 1)
      | some ips => ((dial net attempts ips).1, (dial net attempts ips).2, lookups + 1) := by
  have hkey : (pinKey lib encoded == pinKey lib host) = false := by
    rw [beq_eq_false_iff_ne]
    intro heq
    exact not_isAscii_pinKey (lib.lower_hostname hhost hencoded hascii)
      (heq ▸ isAscii_pinKey (lib.idna_ascii hencoded))
  unfold createConnection pinHost
  simp [lookup_cons, hkey]

end Hop

/-! ## The whole chain -/

/-- Every connection of the hop goes to an address that was accepted for it. -/
def Hop.Vetted (h : Hop Url) : Prop := ∀ ip ∈ h.attempts, ip ∈ h.accepted

/-- The URLs of a redirect chain, up to one without a host, with the literal of a forbidden address
or that the client does not send to. -/
def chain (lib : Library Url) (allowLoopback follow : Bool) (responses : ℕ → Response) :
    ℕ → ℕ → Url → List Url
  | 0, _, _ => []
  | hops + 1, hop, url =>
    match lib.hostname url, lib.client url with
    | some host, some _ =>
      if ((lib.ipAddress host).bind (forbiddenIpReason allowLoopback)).isSome then []
      else url :: match redirect? lib follow url (responses hop) with
        | none => []
        | some next => chain lib allowLoopback follow responses hops (hop + 1) next
    | _, _ => []

def HasAsciiHost (lib : Library Url) (url : Url) : Prop :=
  ∀ host, lib.hostname url = some host → IsAscii host

/-- The client takes the host of a URL from where `urlparse` does. -/
def ReadsAlike (lib : Library Url) : Prop :=
  ∀ url host, lib.hostname url = some host → (lib.client url).map Origin.host = clientHost lib host

/-- The addresses that a hop accepts and tries. -/
structure Connects (lib : Library Url) (net : Network) (pins : Pins) (allowLoopback : Bool)
    (lookups attempts : ℕ) (url : Url) (accepted tried : List Ip) (ok : Bool) (n : ℕ) : Prop where
  origin : ∃ host origin lookups',
    resolveAndValidate lib net lookups url allowLoopback = (.ok (host, accepted), lookups') ∧
    lib.client url = some origin ∧
    createConnection lib net (pinHost lib pins host accepted) lookups' attempts origin.host =
      (tried, ok, n)

section Chain

variable {lib : Library Url} {net : Network} {allowLoopback follow : Bool}
  {responses : ℕ → Response} {pins : Pins} {hops hop lookups attempts : ℕ} {url : Url}
  {method : List Char} {kwargs : Kwargs}

/-- Nothing is sent, or one request and perhaps those after a redirect. -/
theorem sendHops_succ (lib : Library Url) (net : Network) (pins : Pins)
    (allowLoopback follow : Bool)
    (responses : ℕ → Response) (hops hop lookups attempts : ℕ) (url : Url) (method : List Char)
    (kwargs : Kwargs) :
    (sendHops lib net pins allowLoopback follow responses (hops + 1) hop lookups
      attempts url method kwargs).1 = [] ∨
    ∃ accepted tried ok n rest,
      Connects lib net pins allowLoopback lookups attempts url accepted tried ok n ∧
      (sendHops lib net pins allowLoopback follow responses (hops + 1) hop lookups attempts url
        method kwargs).1 = ⟨url, method, kwargs, accepted, tried⟩ :: rest ∧
      (rest = [] ∨ ∃ next, redirect? lib follow url (responses hop) = some next ∧
        rest = (sendHops lib net pins allowLoopback follow responses hops (hop + 1) n
          (attempts + tried.length) next
          (nextRequest lib (responses hop).status method kwargs (!sameOrigin lib url next)).1
          (nextRequest lib (responses hop).status method kwargs
            (!sameOrigin lib url next)).2).1) := by
  rw [sendHops]
  split
  · exact .inl rfl
  next host accepted lookups' hresolve =>
  cases hclient : lib.client url with
  | none => exact .inl rfl
  | some origin =>
    generalize hconnection : createConnection lib net (pinHost lib pins host accepted) lookups'
      attempts origin.host = connection
    obtain ⟨tried, ok, n⟩ := connection
    have hconnects : Connects lib net pins allowLoopback lookups attempts url accepted tried ok n :=
      ⟨host, origin, lookups', hresolve, hclient, hconnection⟩
    simp only [hconnection]
    split
    · exact .inr ⟨accepted, tried, ok, n, [], hconnects, rfl, .inl rfl⟩
    · split
      · exact .inr ⟨accepted, tried, ok, n, [], hconnects, rfl, .inl rfl⟩
      next next hnext =>
        exact .inr ⟨accepted, tried, ok, n, _, hconnects, rfl, .inr ⟨next, hnext, rfl⟩⟩

theorem Connects.chain_eq {accepted tried : List Ip} {ok : Bool} {n : ℕ}
    (h : Connects lib net pins allowLoopback lookups attempts url accepted tried ok n) :
    chain lib allowLoopback follow responses (hops + 1) hop url =
      url :: match redirect? lib follow url (responses hop) with
        | none => []
        | some next => chain lib allowLoopback follow responses hops (hop + 1) next := by
  obtain ⟨host, origin, lookups', hresolve, hclient, -⟩ := h
  obtain ⟨hhost, -, hallowed⟩ := resolveAndValidate_ok hresolve
  simp [chain, hhost, hclient, hallowed]

theorem urls_initial :
    (sendHops lib net pins allowLoopback follow responses hops hop lookups attempts
    url method kwargs).1.map Hop.url <+: chain lib allowLoopback follow responses hops hop url := by
  induction hops generalizing hop lookups attempts url method kwargs with
  | zero => exact prefix_rfl
  | succ hops ih =>
    rcases sendHops_succ lib net pins allowLoopback follow responses hops hop lookups attempts url
      method kwargs with hnone | ⟨accepted, tried, ok, n, rest, hsent, hsents, hrest⟩
    · rw [hnone]
      exact nil_prefix
    · rw [hsents, hsent.chain_eq, map_cons, cons_prefix_cons]
      refine ⟨rfl, ?_⟩
      rcases hrest with rfl | ⟨next, hnext, rfl⟩
      · exact nil_prefix
      · rw [hnext]
        exact ih

theorem sent_connects {h : Hop Url}
    (hmem : h ∈ (sendHops lib net pins allowLoopback follow responses
      hops hop lookups attempts url method kwargs).1) :
    ∃ lookups attempts ok n, Connects lib net pins allowLoopback lookups attempts h.url h.accepted
      h.attempts ok n := by
  induction hops generalizing hop lookups attempts url method kwargs with
  | zero => cases hmem
  | succ hops ih =>
    rcases sendHops_succ lib net pins allowLoopback follow responses hops hop lookups attempts url
      method kwargs with hnone | ⟨accepted, tried, ok, n, rest, hsent, hsents, hrest⟩
    · rw [hnone] at hmem
      cases hmem
    · rw [hsents] at hmem
      rcases mem_cons.mp hmem with rfl | hmem
      · exact ⟨lookups, attempts, ok, n, hsent⟩
      · rcases hrest with rfl | ⟨next, -, rfl⟩
        · cases hmem
        · exact ih hmem

/-- A client that reads URLs as `urlparse` connects to what was accepted for an ASCII host. -/
theorem Connects.vetted {accepted tried : List Ip} {ok : Bool} {n : ℕ} (hreads : ReadsAlike lib)
    (hascii : HasAsciiHost lib url)
    (h : Connects lib net pins allowLoopback lookups attempts url accepted tried ok n) :
    ∀ ip ∈ tried, ip ∈ accepted := by
  obtain ⟨host, origin, lookups', hresolve, hclient, hconnection⟩ := h
  obtain ⟨hhost, hne, -⟩ := resolveAndValidate_ok hresolve
  have htarget := hreads url host hhost
  rw [hclient, clientHost, if_pos (hascii host hhost), Option.map_some,
    Option.some.injEq] at htarget
  rw [htarget, createConnection_ascii (hascii host hhost) hne] at hconnection
  obtain rfl := congrArg Prod.fst hconnection
  exact fun _ => mem_of_mem_dial

/-- A resolver that knows two addresses, one of them for the names that are not ASCII. -/
def splitNetwork : Network where
  getaddrinfo _ host := some [if IsAscii host then ipv4 9 9 9 9 else ipv4 8 8 8 8]
  connects _ _ := true

theorem resolveAndValidate_split {host : List Char} (lookups : ℕ)
    (hhost : lib.hostname url = some host)
    (hallowed : (lib.ipAddress host).bind (forbiddenIpReason allowLoopback) = none) :
    ∃ ip lookups', resolveAndValidate lib splitNetwork lookups url allowLoopback =
        (.ok (host, [ip]), lookups') ∧
      (¬ IsAscii host → lib.ipAddress host = none → ip = ipv4 8 8 8 8) := by
  unfold resolveAndValidate
  simp only [hhost]
  cases hip : lib.ipAddress host with
  | some ip =>
    rw [hip, Option.bind_some] at hallowed
    simp only [hallowed]
    exact ⟨ip, lookups, rfl, fun _ => nofun⟩
  | none =>
    have hfine : forbiddenIpReason allowLoopback (ipv4 9 9 9 9) = none ∧
        forbiddenIpReason allowLoopback (ipv4 8 8 8 8) = none := by
      cases allowLoopback <;> decide
    by_cases hascii : IsAscii host
    · simp [splitNetwork, hascii, checkAll, hfine]
    · simp [splitNetwork, hascii, checkAll, hfine]

theorem createConnection_split (lib : Library Url) (pins : Pins) (lookups attempts : ℕ)
    (host : List Char) :
    (createConnection lib splitNetwork pins lookups attempts host).2.1 = true := by
  unfold createConnection
  split
  · rfl
  · rfl

/-- With that resolver the whole chain is followed. -/
theorem urls_split : (sendHops lib splitNetwork pins allowLoopback follow responses hops hop lookups
      attempts url method kwargs).1.map Hop.url =
    chain lib allowLoopback follow responses hops hop url := by
  induction hops generalizing hop lookups attempts url method kwargs with
  | zero => rfl
  | succ hops ih =>
    unfold chain
    split
    next host origin hhost hclient =>
      cases hallowed : (lib.ipAddress host).bind (forbiddenIpReason allowLoopback) with
      | some reason =>
        cases hip : lib.ipAddress host with
        | none => simp [hip] at hallowed
        | some ip =>
          rw [hip, Option.bind_some] at hallowed
          simp [sendHops, resolveAndValidate, hhost, hip, hallowed]
      | none =>
        obtain ⟨ip, lookups', hresolve, -⟩ := resolveAndValidate_split lookups hhost hallowed
        have hconnected := createConnection_split lib (pinHost lib pins host [ip]) lookups' attempts
          origin.host
        cases hnext : redirect? lib follow url (responses hop) with
        | none => simp [sendHops, hresolve, hclient, hconnected, hnext]
        | some next => simp [sendHops, hresolve, hclient, hconnected, hnext, ih]
    next hnone =>
      cases hhost : lib.hostname url with
      | none => simp [sendHops, resolveAndValidate, hhost]
      | some host =>
        cases hclient : lib.client url with
        | some origin => exact absurd hclient (hnone host origin hhost)
        | none =>
          rw [sendHops]
          split
          · rfl
          · simp [hclient]

theorem Connects.ascii {accepted tried : List Ip} {ok : Bool} {n : ℕ} (hreads : ReadsAlike lib)
    (h : Connects lib splitNetwork [] allowLoopback lookups attempts url accepted tried ok n)
    (hvetted : ∀ ip ∈ tried, ip ∈ accepted) : HasAsciiHost lib url := by
  intro host hhost
  by_contra hascii
  obtain ⟨host', origin, lookups', hresolve, hclient, hconnection⟩ := h
  obtain ⟨hhost', -, hallowed⟩ := resolveAndValidate_ok hresolve
  obtain rfl := Option.mem_unique hhost hhost'
  have hencoded := hreads url host hhost
  rw [hclient, clientHost, if_neg hascii, Option.map_some] at hencoded
  have hname : lib.ipAddress host = none := by
    cases hip : lib.ipAddress host with
    | none => rfl
    | some ip => cases (lib.idna_literal hip hascii).symm.trans hencoded.symm
  obtain ⟨ip, n', hsplit, hip⟩ := resolveAndValidate_split lookups hhost hallowed
  rw [hip hascii hname, hresolve] at hsplit
  cases hsplit
  -- the second lookup is for the encoded name, and has the other answer
  rw [createConnection_idna hhost hascii hencoded.symm] at hconnection
  simp only [splitNetwork, if_pos (lib.idna_ascii hencoded.symm)] at hconnection
  obtain rfl := congrArg Prod.fst hconnection
  exact absurd (hvetted (ipv4 9 9 9 9) (mem_singleton.mpr rfl)) (by decide)

end Chain

/-- For every URL, redirect chain and request: whatever the resolver answers at each lookup, every
connection goes to an address that was accepted for its hop, exactly if the host of every URL of
the chain is ASCII. -/
theorem connections_vetted_iff (lib : Library Url) (hreads : ReadsAlike lib)
    (responses : ℕ → Response) (method : List Char) (url : Url) (allowLoopback follow : Bool)
    (maxRedirects : ℕ) (kwargs : Kwargs) :
    (∀ net : Network, ∀ h ∈ (safeRequest lib net responses method url allowLoopback follow
      maxRedirects kwargs).1, h.Vetted) ↔
    ∀ u ∈ chain lib allowLoopback follow responses (maxRedirects + 1) 0 url,
      HasAsciiHost lib u := by
  constructor
  · intro hvetted u hu
    have hchain :
      (safeRequest lib splitNetwork responses method url allowLoopback follow maxRedirects
        kwargs).1.map Hop.url = chain lib allowLoopback follow responses (maxRedirects + 1) 0 url :=
      urls_split
    rw [← hchain] at hu
    obtain ⟨h, hh, rfl⟩ := mem_map.mp hu
    obtain ⟨_, _, _, _, hconnects⟩ := sent_connects hh
    exact hconnects.ascii hreads (hvetted splitNetwork h hh)
  · intro hascii net h hh
    obtain ⟨_, _, _, _, hconnects⟩ := sent_connects hh
    exact hconnects.vetted hreads (hascii h.url (urls_initial.subset (mem_map_of_mem hh)))

/-- URLs without their scheme. The IDNA encoding is that of one name; the client finds the host
where `target` says. -/
def exampleLibrary (host target : List Char → List Char) : Library (List Char) where
  scheme _ := "https".toList
  hostname url := some (host url)
  port _ := none
  join _ location := location
  ipAddress _ := none
  lower text := text
  idna _ := some "xn--bcher-kva.example".toList
  client url := some ⟨"https".toList,
    if IsAscii (target url) then target url else "xn--bcher-kva.example".toList, none⟩
  lower_ascii _ h := ⟨h, rfl⟩
  lower_hostname _ _ h := h
  idna_ascii h := by
    obtain rfl := Option.some.inj h
    decide
  idna_literal := nofun

theorem readsAlike_exampleLibrary (host : List Char → List Char) :
    ReadsAlike (exampleLibrary host host) := by
  rintro url _ ⟨⟩
  show some (if IsAscii (host url) then host url else _) =
    if IsAscii (host url) then some (host url) else some _
  split <;> rfl

/-- A chain of two ASCII hosts: every connection is vetted. -/
theorem ascii_chain_vetted :
    chain (exampleLibrary id id) false true
        (fun hop => if hop = 0 then ⟨302, some "b.example".toList⟩ else ⟨200, none⟩) 6 0
          "a.example".toList = ["a.example".toList, "b.example".toList] ∧
      ∀ net : Network, ∀ h ∈ (safeRequest (exampleLibrary id id) net
        (fun hop => if hop = 0 then ⟨302, some "b.example".toList⟩ else ⟨200, none⟩) "get".toList
        "a.example".toList false true 5 ⟨none, none, none, none, none, none, []⟩).1, h.Vetted := by
  have hchain : chain (exampleLibrary id id) false true
      (fun hop => if hop = 0 then ⟨302, some "b.example".toList⟩ else ⟨200, none⟩) 6 0
        "a.example".toList = ["a.example".toList, "b.example".toList] := by decide
  refine ⟨hchain, (connections_vetted_iff (exampleLibrary id id) (readsAlike_exampleLibrary id) _ _
    _ _ _ _ _).mpr ?_⟩
  rw [hchain]
  rintro u hu _ ⟨⟩
  revert u
  decide

/-- A resolver that answers the second lookup with the metadata service. -/
def rebindingNetwork : Network where
  getaddrinfo lookups _ := some [if lookups = 0 then ipv4 8 8 8 8 else ipv4 169 254 169 254]
  connects _ _ := true

/-- The host is checked under its own name, and connected to under its encoding. -/
theorem idn_host_resolved_again :
    ∃ h ∈ (safeRequest (exampleLibrary id id) rebindingNetwork (fun _ => ⟨200, none⟩) "get".toList
        "bücher.example".toList false true 5 ⟨none, none, none, none, none, none, []⟩).1,
      h.accepted = [ipv4 8 8 8 8] ∧ h.attempts = [ipv4 169 254 169 254] ∧
        ¬ ∀ ip ∈ h.attempts, ip ∈ h.accepted := by
  decide +kernel

/-! ## What the hops carry -/

/-- The requests of at most so many hops from a URL with its arguments. -/
inductive Sends (lib : Library Url) : ℕ → Url → Kwargs → List (Hop Url) → Prop
  | refused (n url kwargs) : Sends lib n url kwargs []
  | last (n url method kwargs accepted attempts) :
      Sends lib (n + 1) url kwargs [⟨url, method, kwargs, accepted, attempts⟩]
  | redirect {n url method kwargs next sents} (accepted attempts) (status : ℕ)
      (rest : Sends lib n next
        (nextRequest lib status method kwargs (!sameOrigin lib url next)).2 sents) :
      Sends lib (n + 1) url kwargs (⟨url, method, kwargs, accepted, attempts⟩ :: sents)

/-- No body, no query, no cookies or credentials, and only portable headers. -/
structure Kwargs.IsBare (lib : Library Url) (kwargs : Kwargs) : Prop where
  auth : kwargs.auth = none
  cookies : kwargs.cookies = none
  params : kwargs.params = none
  body : kwargs.data = none ∧ kwargs.json = none ∧ kwargs.files = none
  headers : ∀ h ∈ kwargs.headers, lib.lower h.1 ∈ portableHeaders

section Credentials

variable {lib : Library Url} {n : ℕ} {url : Url} {kwargs : Kwargs} {sents : List (Hop Url)}

theorem sends_sendHops (net : Network) (pins : Pins) (allowLoopback follow : Bool)
    (responses : ℕ → Response) (hop lookups attempts : ℕ) (method : List Char) :
    Sends lib n url kwargs (sendHops lib net pins allowLoopback follow responses n hop lookups
      attempts url method kwargs).1 := by
  induction n generalizing hop lookups attempts url method kwargs with
  | zero => exact .refused ..
  | succ n ih =>
    rcases sendHops_succ lib net pins allowLoopback follow responses n hop lookups attempts url
      method kwargs with hnone | ⟨accepted, tried, ok, _, rest, -, hsents, hrest⟩
    · rw [hnone]
      exact .refused ..
    · rw [hsents]
      rcases hrest with rfl | ⟨next, -, rfl⟩
      · exact .last ..
      · exact .redirect _ _ (responses hop).status (ih ..)

theorem Sends.length_le (h : Sends lib n url kwargs sents) : sents.length ≤ n := by
  induction h with
  | refused => exact Nat.zero_le _
  | last => exact Nat.le_add_left 1 _
  | redirect _ _ _ _ ih => exact Nat.succ_le_succ ih

theorem Sends.head (h : Sends lib n url kwargs sents) {first : Hop Url}
    (hfirst : sents.head? = some first) : first.url = url ∧ first.kwargs = kwargs := by
  cases h with
  | refused => cases hfirst
  | last | redirect => cases hfirst; exact ⟨rfl, rfl⟩

/-- A redirect adds nothing to a request, and one to another origin leaves a bare one. -/
theorem isBare_nextRequest {crossed : Bool} {status : ℕ} {method : List Char}
    (h : crossed = false → kwargs.IsBare lib) :
    (nextRequest lib status method kwargs crossed).2.IsBare lib := by
  have hkept : (if crossed then stripCredentials lib kwargs else kwargs).IsBare lib := by
    cases crossed with
    | true =>
      exact ⟨rfl, rfl, rfl, ⟨rfl, rfl, rfl⟩, fun _ h => of_decide_eq_true (mem_filter.mp h).2⟩
    | false => exact h rfl
  unfold nextRequest
  dsimp only
  split
  · exact ⟨hkept.auth, hkept.cookies, hkept.params, ⟨rfl, rfl, rfl⟩,
      fun header hmem => hkept.headers header (mem_filter.mp hmem).1⟩
  · exact hkept

theorem Sends.isBare (h : Sends lib n url kwargs sents) (hbare : kwargs.IsBare lib) :
    ∀ sent ∈ sents, sent.kwargs.IsBare lib := by
  induction h with
  | refused => exact nofun
  | last => exact forall_mem_singleton.mpr hbare
  | redirect _ _ _ _ ih =>
    exact forall_mem_cons.mpr ⟨hbare, ih (isBare_nextRequest fun _ => hbare)⟩

/-- The client does not move to another origin before `urlparse` sees a move to another origin. -/
def Noticed (lib : Library Url) : List Url → Prop
  | a :: b :: rest =>
    sameOrigin lib a b = false ∨ (lib.client a = lib.client b ∧ Noticed lib (b :: rest))
  | _ => True

theorem Noticed.of_initial {urls : List Url} (h : Noticed lib urls) {part : List Url}
    (hpart : part <+: urls) : Noticed lib part := by
  induction part generalizing urls with
  | nil => trivial
  | cons a part ih =>
    obtain ⟨rest, rfl⟩ := hpart
    cases part with
    | nil => trivial
    | cons b part =>
      rcases h with hseen | ⟨hsame, h⟩
      · exact .inl hseen
      · exact .inr ⟨hsame, ih h (prefix_append _ _)⟩

/-- No request after a change of the client's origin has more than a bare one. -/
def BareAfterMove (lib : Library Url) (sents : List (Hop Url)) : Prop :=
  ∀ before a b after, sents = before ++ a :: b :: after → lib.client a.url ≠ lib.client b.url →
    ∀ sent ∈ b :: after, sent.kwargs.IsBare lib

theorem Sends.bareAfterMove (h : Sends lib n url kwargs sents)
    (hnoticed : Noticed lib (sents.map Hop.url)) : BareAfterMove lib sents := by
  intro before a b after hsents hmoved
  induction h generalizing before with
  | refused => simp at hsents
  | last => cases before <;> simp at hsents
  | @redirect n url method kwargs next sents accepted attempts status rest ih =>
    have hstripped : sameOrigin lib url next = false → ∀ sent ∈ sents, sent.kwargs.IsBare lib :=
      fun hseen => rest.isBare (isBare_nextRequest fun hsame => by simp [hseen] at hsame)
    cases before with
    | nil =>
      obtain ⟨rfl, rfl⟩ := cons.inj hsents
      obtain rfl := (rest.head rfl).1
      rcases hnoticed with hseen | ⟨hsame, -⟩
      · exact hstripped hseen
      · exact absurd hsame hmoved
    | cons first before =>
      obtain ⟨-, hrest⟩ := cons.inj hsents
      obtain ⟨second, tail, rfl⟩ := exists_cons_of_ne_nil (by rw [hrest]; simp : sents ≠ [])
      obtain rfl := (rest.head rfl).1
      rcases hnoticed with hseen | ⟨-, hnoticed⟩
      · intro sent hsent
        exact hstripped hseen sent
          (by rw [hrest]; exact mem_append_right _ (mem_cons_of_mem _ hsent))
      · exact ih hnoticed before hrest

/-- Credentials are kept as long as `urlparse` sees one origin, so that a move it does not see
carries them. -/
theorem Sends.noticed (h : Sends lib n url kwargs sents) (hauth : kwargs.auth ≠ none)
    (hbare : BareAfterMove lib sents) : Noticed lib (sents.map Hop.url) := by
  induction h with
  | refused | last => trivial
  | @redirect n url method kwargs next sents accepted attempts status rest ih =>
    cases sents with
    | nil => trivial
    | cons second tail =>
      obtain ⟨rfl, hkwargs⟩ := rest.head rfl
      cases hsame : sameOrigin lib url second.url with
      | false => exact .inl hsame
      | true =>
        have hkept : second.kwargs.auth = kwargs.auth := by
          rw [hkwargs, hsame]
          unfold nextRequest
          dsimp only
          split <;> rfl
        refine .inr ⟨?_, ih (hkwargs ▸ hkept ▸ hauth) ?_⟩
        · by_contra hmoved
          exact hauth (hkept ▸ (hbare [] _ _ _ rfl hmoved second mem_cons_self).auth)
        · intro before a b after hsents
          exact hbare (_ :: before) a b after (by rw [hsents]; rfl)

end Credentials

/-- For every chain of responses: at most so many redirects are followed, and after a hop to another
origin of the client no request carries a body, a query, cookies, credentials or a header that is
not portable, also back at the first origin, whatever the request was, exactly if `urlparse` sees a
change of origin no later than the client makes one. -/
theorem redirects_bare_iff (lib : Library Url) (responses : ℕ → Response) (url : Url)
    (allowLoopback follow : Bool) (maxRedirects : ℕ) :
    (∀ net method kwargs,
      let sents := (safeRequest lib net responses method url allowLoopback follow maxRedirects
        kwargs).1
      sents.length ≤ maxRedirects + 1 ∧ BareAfterMove lib sents) ↔
    Noticed lib (chain lib allowLoopback follow responses (maxRedirects + 1) 0 url) := by
  have hsends : ∀ net method kwargs, Sends lib (maxRedirects + 1) url kwargs
      (safeRequest lib net responses method url allowLoopback follow maxRedirects kwargs).1 :=
    fun _ _ _ => sends_sendHops ..
  constructor
  · intro h
    have hbare := (h splitNetwork [] ⟨some [], none, none, none, none, none, []⟩).2
    have hnoticed := (hsends splitNetwork [] _).noticed (by simp) hbare
    rwa [safeRequest, urls_split] at hnoticed
  · intro hnoticed net method kwargs
    exact ⟨(hsends ..).length_le, (hsends ..).bareAfterMove (hnoticed.of_initial urls_initial)⟩

/-- The host of `urlparse` follows the last `@`, that of the client ends before a backslash. -/
def backslashLibrary : Library (List Char) :=
  exampleLibrary (fun url => (url.reverse.takeWhile (· ≠ '@')).reverse) (·.takeWhile (· ≠ '\\'))

/-- The redirect is within one origin to `urlparse`, and the client sends the credentials to
another host. -/
theorem credentials_cross_backslash :
    (safeRequest backslashLibrary splitNetwork
      (fun hop => if hop = 0 then ⟨302, some "evil.com\\@api.good.com".toList⟩ else ⟨200, none⟩)
      "get".toList "api.good.com".toList false true 5
      ⟨some "secret".toList, none, none, none, none, none, []⟩).1.map
        (fun h => ((backslashLibrary.client h.url).map Origin.host, h.kwargs.auth)) =
      [(some "api.good.com".toList, some "secret".toList),
        (some "evil.com".toList, some "secret".toList)] := by
  decide +kernel

end UltimateCaManager.Outbound
