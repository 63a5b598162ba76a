import Mathlib.Algebra.GroupWithZero.Nat
import Mathlib.Data.List.Basic

/-!
# DNS messages

Names, messages and responses as the DNS library hands them over, and the octets that are read
beside it. A name is the list of its labels, without the empty one of the root, and carries its
size limits. A read that fails anywhere fails as a whole. How the library reads a name is a
parameter.
-/
namespace UltimateCaManager.Dns

open List

abbrev Bytes := List UInt8

/-! ## Integers -/

/-- The last `size` octets of a number, big-endian. -/
def uint : ℕ → ℕ → Bytes
  | 0, _ => []
  | size + 1, n => UInt8.ofNat (n / 256 ^ size) :: uint size n

@[simp] theorem length_uint (size n : ℕ) : (uint size n).length = size := by
  induction size with
  | zero => rfl
  | succ size ih => rw [uint, length_cons, ih]

def toNat (b : Bytes) : ℕ := b.foldl (fun n x => n * 256 + x.toNat) 0

/-! ## Names -/

/-- The length of a name on the wire, with the octet of the root. -/
def wireSize (labels : List Bytes) : ℕ := (labels.map fun l => l.length + 1).sum + 1

structure Name where
  labels : List Bytes
  valid : (∀ l ∈ labels, l ≠ [] ∧ l.length ≤ 63) ∧ wireSize labels ≤ 255
  deriving DecidableEq

def lowerByte (b : UInt8) : UInt8 := if 65 ≤ b ∧ b ≤ 90 then b + 32 else b

namespace Name

def ofLabels? (labels : List Bytes) : Option Name :=
  if h : (∀ l ∈ labels, l ≠ [] ∧ l.length ≤ 63) ∧ wireSize labels ≤ 255 then some ⟨labels, h⟩
  else none

/-- Names are compared without case. -/
def key (n : Name) : List Bytes := n.labels.map fun l => l.map lowerByte

def isSubdomain (n zone : Name) : Bool := zone.key.isSuffixOf n.key

theorem wireSize_key (n : Name) : wireSize n.key = wireSize n.labels := by
  simp [wireSize, key, Function.comp_def]

/-- A name that is not compressed. -/
def wire (n : Name) : Bytes :=
  (n.labels.flatMap fun l => UInt8.ofNat l.length :: l) ++ [0]

@[simp] theorem length_wire (n : Name) : n.wire.length = wireSize n.labels := by
  simp [wire, wireSize]

/-! ### The text of a name -/

def escapeByte (b : UInt8) : List Char :=
  let c := Char.ofNat b.toNat
  if c ∈ "\"().;\\@$".toList then "\\".toList ++ [c]
  else if 0x20 < b ∧ b < 0x7F then [c]
  else
    let digits := Nat.toDigits 10 b.toNat
    "\\".toList ++ List.replicate (3 - digits.length) '0' ++ digits

def textOf (labels : List Bytes) : List Char :=
  if labels = [] then ['.'] else labels.flatMap fun l => l.flatMap escapeByte ++ ['.']

def toText (n : Name) : List Char := textOf n.labels

/-- The text that names are looked up by. -/
def lowerText (n : Name) : List Char := n.toText.map Char.toLower

end Name

/-! ## Reading -/

/-- A read from a position, which it moves on. -/
abbrev Reader := StateT ℕ Option

def bytesAt (wire : Bytes) (n : ℕ) : Reader Bytes := fun pos =>
  if pos + n ≤ wire.length then some ((wire.drop pos).take n, pos + n) else none

def uintAt (wire : Bytes) (n : ℕ) : Reader ℕ := do return toNat (← bytesAt wire n)

variable (nameAt : Bytes → Reader Name)

/-! ### Records -/

namespace RdataType
def soa : ℕ := 6
def txt : ℕ := 16
def opt : ℕ := 41
def tsig : ℕ := 250
def any : ℕ := 255
end RdataType

namespace RdataClass
def internet : ℕ := 1
def none : ℕ := 254
def any : ℕ := 255
end RdataClass

namespace Rcode
def noerror : ℕ := 0
def formerr : ℕ := 1
def servfail : ℕ := 2
def notimp : ℕ := 4
def refused : ℕ := 5
def notauth : ℕ := 9
def notzone : ℕ := 10
/-- Also the TSIG error BADSIG. -/
def badvers : ℕ := 16
def badkey : ℕ := 17
def badtime : ℕ := 18
def badtrunc : ℕ := 22
end Rcode

namespace Opcode
def query : ℕ := 0
def update : ℕ := 5
end Opcode

structure Tsig where
  algorithm : Name
  timeSigned : ℕ
  fudge : ℕ
  mac : Bytes
  originalId : ℕ
  error : ℕ
  other : Bytes
  deriving DecidableEq

inductive Rdata
  | txt (strings : List Bytes)
  | other (canonical : Bytes)
  deriving DecidableEq

structure Question where
  name : Name
  rdtype : ℕ
  rdclass : ℕ

/-- A set of records of one name, class and type; `deleting` is the class of a record of an UPDATE
that deletes. -/
structure RRset where
  name : Name
  rdclass : ℕ
  rdtype : ℕ
  deleting : Option ℕ
  rdatas : List Rdata

structure Opt where
  payload : ℕ
  ttl : ℕ

def Opt.version (o : Opt) : ℕ := o.ttl / 65536 % 256

/-- A question; the listener itself only moves past it. -/
def questionAt (wire : Bytes) : Reader Question := do
  let name ← nameAt wire
  let rdtype ← uintAt wire 2
  let rdclass ← uintAt wire 2
  return ⟨name, rdtype, rdclass⟩

/-- A record as it stands on the wire: where it starts, its header and where its data starts. -/
structure RawRecord where
  offset : ℕ
  name : Name
  rdtype : ℕ
  rdclass : ℕ
  ttl : ℕ
  rdlen : ℕ
  start : ℕ

def rawRecordAt (wire : Bytes) : Reader RawRecord := do
  let offset ← get
  let name ← nameAt wire
  let rdtype ← uintAt wire 2
  let rdclass ← uintAt wire 2
  let ttl ← uintAt wire 4
  let rdlen ← uintAt wire 2
  let start ← get
  let _ ← bytesAt wire rdlen
  return ⟨offset, name, rdtype, rdclass, ttl, rdlen, start⟩

def repeatAt {α : Type} (read : Reader α) : ℕ → Reader (List α)
  | 0 => return []
  | n + 1 => do
    let first ← read
    let rest ← repeatAt read n
    return first :: rest

/-! ### Messages -/

/-- In an UPDATE the sections are the zone, the prerequisites, the updates and the additional
records. -/
structure Message where
  id : ℕ
  flags : ℕ
  question : List Question
  answer : List RRset
  authority : List RRset
  additional : List RRset
  opt : Option Opt
  tsig : Option (Name × Tsig)

def opcodeOf (flags : ℕ) : ℕ := flags / 2048 % 16

def Message.opcode (m : Message) : ℕ := opcodeOf m.flags

def Message.edns (m : Message) : Option ℕ := m.opt.map Opt.version

def Message.payload (m : Message) : ℕ := (m.opt.map Opt.payload).getD 0

structure Header where
  id : ℕ
  flags : ℕ
  qd : ℕ
  an : ℕ
  ns : ℕ
  ar : ℕ

def headerAt (wire : Bytes) : Reader Header := do
  let id ← uintAt wire 2
  let flags ← uintAt wire 2
  let qd ← uintAt wire 2
  let an ← uintAt wire 2
  let ns ← uintAt wire 2
  let ar ← uintAt wire 2
  return ⟨id, flags, qd, an, ns, ar⟩

def isUpdate (flags : ℕ) : Bool := opcodeOf flags = Opcode.update

def flagsOf (wire : Bytes) : ℕ := toNat ((wire.drop 2).take 2)

/-- The records of the update section as they stand on the wire. -/
def updateRrs (wire : Bytes) : Option (List RawRecord) := do
  let (h, pos) ← headerAt wire 0
  let (_, pos) ← repeatAt (questionAt nameAt wire) h.qd pos
  let (_, pos) ← repeatAt (rawRecordAt nameAt wire) h.an pos
  let (rrs, _) ← repeatAt (rawRecordAt nameAt wire) h.ns pos
  some rrs

/-! ## Responses -/

/-- An SOA record of TTL 0. -/
structure Soa where
  zone : Name
  rname : Name
  timers : List ℕ

/-- A response; `opt` is the payload size that it announces, `requestPayload` the one of the
request. -/
structure Response where
  id : ℕ
  opcode : ℕ
  recursionDesired : Bool
  authoritative : Bool
  truncated : Bool
  rcode : ℕ
  question : List Question
  answer : List Soa
  authority : List Soa
  opt : Option ℕ
  requestPayload : ℕ

def Response.IsBare (r : Response) : Prop := r.question = [] ∧ r.answer = [] ∧ r.authority = []

end UltimateCaManager.Dns
