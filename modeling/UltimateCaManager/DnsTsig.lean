import UltimateCaManager.DnsMessage
import UltimateCaManager.OrderedDict

/-!
# Transaction signatures

The checks of a signed request, in their order: key, size of the MAC, MAC, replay, time, full MAC;
and the responses that carry a signature record. The DNS library, which reads and writes messages
and computes MACs, is a parameter of which a few facts are known.
-/
namespace UltimateCaManager.DnsUpdate

open Dns

/-! ## Keys and algorithms -/

inductive Algorithm
  | hmacSha256 | hmacSha384 | hmacSha512

namespace Algorithm

def all : List Algorithm := [.hmacSha256, .hmacSha384, .hmacSha512]

def digestSize : Algorithm → ℕ
  | .hmacSha256 => 32
  | .hmacSha384 => 48
  | .hmacSha512 => 64

end Algorithm

def ascii (text : String) : Bytes := text.toList.map fun c => UInt8.ofNat c.toNat

def Algorithm.name : Algorithm → Name
  | .hmacSha256 => ⟨[ascii "hmac-sha256"], by decide⟩
  | .hmacSha384 => ⟨[ascii "hmac-sha384"], by decide⟩
  | .hmacSha512 => ⟨[ascii "hmac-sha512"], by decide⟩

def Algorithm.ofName? (n : Name) : Option Algorithm :=
  Algorithm.all.find? fun a => a.name.key = n.key

structure TsigKeyMaterial where
  keyId : ℕ
  name : Name
  algorithm : Name
  secret : Bytes

/-- The DNS library: the reader of messages and of names, the name of a text, the writer of
responses (none when the response is too big) and the MAC of a message, with the facts that are
used of them. -/
structure Library where
  fromWire : Bytes → Option Message
  nameAt : Bytes → Reader Name
  fromText : List Char → Option Name
  toWire : Response → (maxSize : ℕ) → Option Bytes
  /-- With the payload size of the request for its limit. -/
  toWireForRequest : Response → Option Bytes
  mac : TsigKeyMaterial → (wire : Bytes) → Tsig → (time : ℕ) → (requestMac : Bytes) → Bytes
  /-- The flags of a message are those of its header. -/
  flags_fromWire : ∀ {wire msg}, fromWire wire = some msg → msg.flags = flagsOf wire
  /-- A record that adds is kept under its class on the wire, which is none of those that delete. -/
  authority_fromWire : ∀ {wire msg}, fromWire wire = some msg → isUpdate msg.flags = true →
    ∃ rrs, updateRrs nameAt wire = some rrs ∧ ∀ r ∈ msg.authority, r.deleting = none →
      ∃ rr ∈ rrs, rr.rdclass = r.rdclass ∧ rr.rdclass ≠ RdataClass.any ∧
        rr.rdclass ≠ RdataClass.none
  /-- A response without sections is a header, perhaps with an OPT record. -/
  toWire_bare : ∀ {r : Response} {maxSize}, r.IsBare → 512 ≤ maxSize →
    ∃ body, toWire r maxSize = some body ∧ 12 ≤ body.length ∧ body.length ≤ 23
  length_mac : ∀ {key a} (wire rdata time requestMac),
    Algorithm.ofName? key.algorithm = some a →
      (mac key wire rdata time requestMac).length = a.digestSize

def maxFudge : ℕ := 300

def responseFudge : ℕ := 300

/-- At least ten octets of a MAC. -/
def minMac : ℕ := 10

def tsigReserve : ℕ := 400

def wireLimit : ℕ := 65535

/-! ## The most recent Time Signed of each key -/

abbrev TimeWatermark := List (ℕ × ℕ)

namespace TimeWatermark

def maxKeys : ℕ := 4096

def isOlder (w : TimeWatermark) (keyId timeSigned : ℕ) : Bool :=
  (OrderedDict.get? w keyId).any (timeSigned < ·)

def record (w : TimeWatermark) (keyId timeSigned : ℕ) : TimeWatermark :=
  let latest := max timeSigned ((OrderedDict.get? w keyId).getD 0)
  OrderedDict.bound maxKeys (OrderedDict.put w keyId latest)

end TimeWatermark

/-- `_last_rr_header`: the library does not keep the TTL of a TSIG record. -/
def lastRrHeader (nameAt : Bytes → Reader Name) (wire : Bytes) : Option RawRecord := do
  let (h, pos) ← headerAt wire 0
  let (_, pos) ← repeatAt (questionAt nameAt wire) h.qd pos
  let (records, _) ← repeatAt (rawRecordAt nameAt wire) (h.an + h.ns + h.ar) pos
  records.getLast?

/-! ## Signing -/

def withoutTsig (wire : Bytes) (start : ℕ) : Bytes :=
  wire.take 10 ++ uint 2 (toNat ((wire.drop 10).take 2) - 1) ++ (wire.take start).drop 12

/-- An exception that the caller does not expect. -/
inductive Raised
  | raised

/-! ## Verification -/

inductive MacError
  | formerr | badkey | badsig

/-- `verify_request` up to the MAC: the key that made it. -/
def verifyMac (lib : Library) (wire : Bytes) (lookupKey : Name → Option TsigKeyMaterial)
    (owner : Name) (rdata : Tsig) : Except MacError TsigKeyMaterial :=
  match lastRrHeader lib.nameAt wire with
  | none => .error .formerr
  | some last =>
    if rdata.error ≠ 0 ∨ last.ttl ≠ 0 then .error .formerr
    else match lookupKey owner with
    | none => .error .badkey
    | some key => match Algorithm.ofName? key.algorithm with
      | none => .error .badkey
      | some a =>
        let full := a.digestSize
        let m := rdata.mac.length
        if rdata.algorithm.key ≠ key.algorithm.key ∨ key.secret = [] then .error .badkey
        else if full < m ∨ m < max minMac (full / 2) then .error .formerr
        else if last.rdtype ≠ RdataType.tsig ∨ toNat ((wire.drop 10).take 2) = 0 then
          .error .formerr
        -- the library compares the name of the key when the MAC has its full size
        else if m = full ∧ key.name.key ≠ owner.key then .error .badkey
        else if (lib.mac key (withoutTsig wire last.offset) rdata rdata.timeSigned []).take m ≠
            rdata.mac then .error .badsig
        else .ok key

/-- `TsigResult`: each outcome with the data that its response needs. -/
inductive TsigResult
  | unsigned
  | formerr
  | badkey (keyname : Name) (rdata : Tsig)
  | badsig (keyname : Name) (rdata : Tsig)
  | badtime (keyname : Name) (key : TsigKeyMaterial) (rdata : Tsig)
  | badtrunc (keyname : Name) (key : TsigKeyMaterial) (rdata : Tsig)
  | ok (keyname : Name) (key : TsigKeyMaterial) (rdata : Tsig) (replayed : Bool)

def window (rdata : Tsig) : ℕ := min rdata.fudge maxFudge

def inWindow (now : ℕ) (rdata : Tsig) : Prop :=
  now ≤ rdata.timeSigned + window rdata ∧ rdata.timeSigned ≤ now + window rdata
  deriving Decidable

def fullMac (key : TsigKeyMaterial) (rdata : Tsig) : Bool :=
  (Algorithm.ofName? key.algorithm).any (·.digestSize ≤ rdata.mac.length)

/-- `verify_request`; `isReplay` is asked for only after the MAC verified. -/
def verifyRequest (lib : Library) (wire : Bytes) (msg : Message)
    (lookupKey : Name → Option TsigKeyMaterial) (now : ℕ) (watermark : TimeWatermark)
    (isReplay : Bool) : TsigResult × TimeWatermark :=
  match msg.tsig with
  | none => (.unsigned, watermark)
  | some (owner, rdata) =>
    match verifyMac lib wire lookupKey owner rdata with
    | .error .formerr => (.formerr, watermark)
    | .error .badkey => (.badkey owner rdata, watermark)
    | .error .badsig => (.badsig owner rdata, watermark)
    | .ok key =>
      if isReplay then (.ok owner key rdata true, watermark)
      else if ¬ inWindow now rdata ∨ watermark.isOlder key.keyId rdata.timeSigned then
        (.badtime owner key rdata, watermark)
      else if !fullMac key rdata then (.badtrunc owner key rdata, watermark)
      else (.ok owner key rdata false, watermark.record key.keyId rdata.timeSigned)

/-! ## Rendering -/

def Tsig.wire (t : Tsig) : Bytes :=
  t.algorithm.wire ++ uint 6 t.timeSigned ++ uint 2 t.fudge ++ uint 2 t.mac.length ++ t.mac ++
    uint 2 t.originalId ++ uint 2 t.error ++ uint 2 t.other.length ++ t.other

def tsigRecord (owner : Name) (t : Tsig) : Bytes :=
  owner.wire ++ uint 2 RdataType.tsig ++ uint 2 RdataClass.any ++ uint 4 0 ++
    uint 2 (Tsig.wire t).length ++ Tsig.wire t

def appendTsig (body : Bytes) (owner : Name) (t : Tsig) : Bytes :=
  body.take 10 ++ uint 2 (toNat ((body.drop 10).take 2) + 1) ++ body.drop 12 ++ tsigRecord owner t

def signAndAppend (lib : Library) (body : Bytes) (key : TsigKeyMaterial) (template : Tsig)
    (time : ℕ) (requestMac : Bytes) : Except Raised Bytes :=
  match Algorithm.ofName? key.algorithm with
  | none => .error .raised
  | some _ =>
    let mac := lib.mac key body template time requestMac
    .ok (appendTsig body key.name { template with timeSigned := time, mac := mac })

/-- A response that is too big raises. -/
def written : Option Bytes → Except Raised Bytes
  | some out => .ok out
  | none => .error .raised

/-- Question and OPT only, without an error. -/
def truncatedForm (r : Response) : Response :=
  { r with answer := [], authority := [], truncated := true, rcode := Rcode.noerror }

def fits (out : Bytes) (maxSize : Option ℕ) : Bool := maxSize.all (out.length ≤ ·)

/-- `render_signed`; none when even the truncated form does not fit. -/
def renderSigned (lib : Library) (r : Response) (key : TsigKeyMaterial) (rdata : Tsig) (now : ℕ)
    (maxSize : Option ℕ) : Except Raised (Option Bytes) := do
  let template : Tsig := ⟨key.algorithm, now, responseFudge, [], r.id, 0, []⟩
  let out ← match lib.toWire r (wireLimit - tsigReserve) with
    | some body => (signAndAppend lib body key template now rdata.mac).map some
    | none => .ok none
  if out.any (fits · maxSize) then return out
  let body ← written (lib.toWire (truncatedForm r) wireLimit)
  let short ← signAndAppend lib body key template now rdata.mac
  return if fits short maxSize then some short else none

def renderUnsignedTsigError (lib : Library) (r : Response) (keyname : Name) (rdata : Tsig)
    (error : ℕ) : Except Raised Bytes := do
  let body ← written (lib.toWireForRequest { r with rcode := Rcode.notauth })
  return appendTsig body keyname
    ⟨rdata.algorithm, rdata.timeSigned, rdata.fudge, [], r.id, error, []⟩

/-- `render_badtime`: the time of the client, and the time of the server as other data. -/
def renderBadtime (lib : Library) (r : Response) (key : TsigKeyMaterial) (rdata : Tsig) (now : ℕ) :
    Except Raised Bytes := do
  let body ← written (lib.toWireForRequest { r with rcode := Rcode.notauth })
  signAndAppend lib body key
    ⟨key.algorithm, rdata.timeSigned, rdata.fudge, [], r.id, Rcode.badtime, uint 6 now⟩
    rdata.timeSigned rdata.mac

def renderBadtrunc (lib : Library) (r : Response) (key : TsigKeyMaterial) (rdata : Tsig)
    (now : ℕ) : Except Raised Bytes := do
  let body ← written (lib.toWireForRequest { r with rcode := Rcode.notauth })
  signAndAppend lib body key ⟨key.algorithm, now, responseFudge, [], r.id, Rcode.badtrunc, []⟩
    now rdata.mac

/-! ## What a verified MAC says -/

/-- The MAC of the request, or as much of it as the request has, was made with the key over the
message in its signed form. -/
def Authentic (lib : Library) (wire : Bytes) (key : TsigKeyMaterial) (rdata : Tsig) : Prop :=
  ∃ a last, Algorithm.ofName? key.algorithm = some a ∧
    rdata.algorithm.key = key.algorithm.key ∧ key.secret ≠ [] ∧
    lastRrHeader lib.nameAt wire = some last ∧ last.rdtype = RdataType.tsig ∧
    minMac ≤ rdata.mac.length ∧
    rdata.mac = (lib.mac key (withoutTsig wire last.offset) rdata rdata.timeSigned []).take
      rdata.mac.length

/-- The MAC is whole, and the request was signed at about the given time. -/
def Verifies (lib : Library) (wire : Bytes) (now : ℕ) (key : TsigKeyMaterial) (rdata : Tsig) :
    Prop :=
  Authentic lib wire key rdata ∧ fullMac key rdata = true ∧ inWindow now rdata

section

variable {lib : Library} {wire : Bytes} {lookupKey : Name → Option TsigKeyMaterial} {owner : Name}
  {rdata : Tsig} {key : TsigKeyMaterial} {msg : Message} {now : ℕ} {watermark : TimeWatermark}

theorem authentic_of_verifyMac (h : verifyMac lib wire lookupKey owner rdata = .ok key) :
    lookupKey owner = some key ∧ Authentic lib wire key rdata := by
  unfold verifyMac at h
  split at h
  · cases h
  next last hlast =>
  split at h
  · cases h
  split at h
  · cases h
  next key' hkey =>
  split at h
  · cases h
  next a ha =>
  simp only at h
  split at h
  · cases h
  next halg =>
  split at h
  · cases h
  next hsize =>
  split at h
  · cases h
  next htype =>
  split at h
  · cases h
  split at h
  · cases h
  next hmac =>
  obtain rfl : key' = key := by simpa using h
  simp only [not_or, not_not, Nat.not_lt] at halg hsize htype hmac
  refine ⟨hkey, a, last, ha, halg.1, halg.2, hlast, htype.1, ?_, hmac.symm⟩
  exact Nat.le_trans (Nat.le_max_left _ _) hsize.2

/-- What an accepted signature says; only a copy of an answered request skips the time. -/
theorem verifies_of_ok {isReplay : Bool} {replayed : Bool}
    (h : (verifyRequest lib wire msg lookupKey now watermark isReplay).1 =
      .ok owner key rdata replayed) :
    msg.tsig = some (owner, rdata) ∧ lookupKey owner = some key ∧ Authentic lib wire key rdata ∧
      replayed = isReplay ∧ (replayed = false → Verifies lib wire now key rdata) := by
  unfold verifyRequest at h
  split at h
  · cases h
  next owner' rdata' htsig =>
  split at h
  · cases h
  · cases h
  · cases h
  next key' hmac =>
  obtain ⟨hlookup, hauth⟩ := authentic_of_verifyMac hmac
  split at h
  · next hreplay =>
    obtain ⟨rfl, rfl, rfl, rfl⟩ := h
    exact ⟨htsig, hlookup, hauth, hreplay.symm, by simp⟩
  next hreplay =>
  split at h
  · cases h
  next htime =>
  split at h
  · cases h
  next hfull =>
  obtain ⟨rfl, rfl, rfl, rfl⟩ := h
  simp only [not_or, not_not] at htime
  refine ⟨htsig, hlookup, hauth, by simpa using hreplay, fun _ => ⟨hauth, ?_, htime.1⟩⟩
  simpa using hfull

end

/-! ## Sizes -/

theorem wireSize_of_ofName? {n : Name} {a : Algorithm} (h : Algorithm.ofName? n = some a) :
    wireSize n.labels = 13 := by
  have hkey : a.name.key = n.key := by simpa using List.find?_some h
  rw [← n.wireSize_key, ← hkey]
  cases a <;> decide

theorem length_tsigRecord (owner : Name) (t : Tsig) :
    (tsigRecord owner t).length =
      wireSize owner.labels + wireSize t.algorithm.labels + t.mac.length + t.other.length + 26 := by
  simp only [tsigRecord, Tsig.wire, List.length_append, Name.length_wire, length_uint]
  omega

theorem length_appendTsig {body : Bytes} (h : 12 ≤ body.length) (owner : Name) (t : Tsig) :
    (appendTsig body owner t).length = body.length + (tsigRecord owner t).length := by
  simp only [appendTsig, List.length_append, List.length_take, List.length_drop, length_uint]
  omega

/-- A response without sections always fits, with its signature, into the smallest limit. -/
theorem renderSigned_of_bare (lib : Library) {r : Response} {key : TsigKeyMaterial} {rdata : Tsig}
    {a : Algorithm} {maxSize : Option ℕ} (now : ℕ) (hr : r.IsBare)
    (hkey : Algorithm.ofName? key.algorithm = some a) (hlimit : ∀ n ∈ maxSize, 512 ≤ n) :
    ∃ body t, lib.toWire r (wireLimit - tsigReserve) = some body ∧
      renderSigned lib r key rdata now maxSize = .ok (some (appendTsig body key.name t)) := by
  have hroom : 512 ≤ wireLimit - tsigReserve := by decide
  obtain ⟨body, hwire, hhead, hbody⟩ := lib.toWire_bare hr hroom
  generalize htemplate : (⟨key.algorithm, now, responseFudge, [], r.id, 0, []⟩ : Tsig) = template
  generalize hmac : lib.mac key body template now rdata.mac = mac
  have hsign : signAndAppend lib body key template now rdata.mac =
      .ok (appendTsig body key.name { template with timeSigned := now, mac := mac }) := by
    simp [signAndAppend, hkey, hmac]
  have hfits : fits (appendTsig body key.name { template with timeSigned := now, mac := mac })
      maxSize = true := by
    have hlen : mac.length = a.digestSize := by rw [← hmac, lib.length_mac _ _ _ _ hkey]
    have halg : wireSize template.algorithm.labels = 13 := by
      rw [← htemplate]
      exact wireSize_of_ofName? hkey
    have hother : template.other = [] := by rw [← htemplate]
    have hname := key.name.valid.2
    have hsize : a.digestSize ≤ 64 := by cases a <;> decide
    cases maxSize with
    | none => rfl
    | some n =>
      have hn := hlimit n rfl
      simp only [fits, Option.all_some, decide_eq_true_eq, length_appendTsig hhead,
        length_tsigRecord, hother, List.length_nil]
      omega
  refine ⟨body, { template with timeSigned := now, mac := mac }, hwire, ?_⟩
  simp [renderSigned, htemplate, hwire, hsign, Except.map, hfits, bind, Except.bind, pure,
    Except.pure]

end UltimateCaManager.DnsUpdate
