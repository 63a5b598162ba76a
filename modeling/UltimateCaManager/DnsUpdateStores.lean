import UltimateCaManager.DnsTsig
import UltimateCaManager.Tables

/-!
# What the DNS UPDATE listener reads

The TSIG keys with their scopes, the zones and the challenge rows, each behind a cache that is
loaded again when it is too old or was invalidated. All times are in microseconds, on one clock.
-/
namespace UltimateCaManager.DnsUpdate

open Dns Tables

def second : ℕ := 1000000

/-! ## Keys -/

/-- What a key may change: the rows of its proxy account and, when it is bound, of its EAB
account. -/
structure KeyScope where
  acmeClientAccountId : ℕ
  eabBound : Bool
  eabAccountId : Option (List Char)

def KeyScope.allows (scope : KeyScope) (rowAcmeClientAccountId : Option ℕ)
    (rowAccountId : Option (List Char)) : Bool :=
  match rowAcmeClientAccountId with
  | none => false
  | some account =>
    if account ≠ scope.acmeClientAccountId then false
    else if scope.eabBound then
      -- an empty text counts as none
      match scope.eabAccountId, rowAccountId with
      | some bound, some row => bound ≠ [] && row ≠ [] && row = bound
      | _, _ => false
    else true

/-- A row of `acme_dns_update_keys`. A name or an algorithm that is not a DNS name, and a secret
that does not decrypt to base64 text, are none. -/
structure KeyRow where
  id : ℕ
  acmeClientAccountId : ℕ
  eabCredentialId : Option ℕ
  eabBound : Bool
  name : Option Name
  algorithm : Option Name
  secret : Option Bytes
  active : Bool

structure Credential where
  id : ℕ
  used : Bool
  usedByAccountId : Option (List Char)

structure KeyTables where
  keys : List KeyRow
  proxyEnabled : List ℕ
  credentials : List Credential

def KeyTables.eabAccountId (t : KeyTables) (row : KeyRow) : Option (List Char) := do
  let id ← row.eabCredentialId
  let cred ← t.credentials.find? (·.id = id)
  if cred.used then cred.usedByAccountId.filter (· ≠ []) else none

/-- The key of a row with its scope, none when the row is not usable. -/
def KeyTables.usable (t : KeyTables) (row : KeyRow) : Option (TsigKeyMaterial × KeyScope) := do
  let name ← row.name
  let algorithm ← row.algorithm
  let secret ← row.secret
  if row.active ∧ row.acmeClientAccountId ∈ t.proxyEnabled ∧
      (Algorithm.ofName? algorithm).isSome ∧ secret ≠ [] then
    let eabBound := row.eabBound || row.eabCredentialId.isSome
    some (⟨row.id, name, algorithm, secret⟩,
      ⟨row.acmeClientAccountId, eabBound, if eabBound then t.eabAccountId row else none⟩)
  else none

structure KeyStore where
  materials : List (List Char × TsigKeyMaterial)
  scopes : List (ℕ × KeyScope)
  loadedAt : Option ℕ
  dirty : Bool
  retryAt : Option ℕ
  touched : List (ℕ × ℕ)

namespace KeyStore

def maxAge : ℕ := 30 * second

def retryAfter : ℕ := 2 * second

def touchInterval : ℕ := 60 * second

def empty : KeyStore := ⟨[], [], none, false, none, []⟩

/-- The last row of a name or an id is the one that is found. -/
def load (store : KeyStore) (t : KeyTables) (now : ℕ) : KeyStore :=
  let found := (t.keys.filterMap t.usable).reverse
  { store with
    materials := found.map fun (key, _) => (key.name.lowerText, key)
    scopes := found.map fun (key, scope) => (key.keyId, scope)
    loadedAt := some now, dirty := false, retryAt := none }

def emptied (store : KeyStore) : KeyStore :=
  if store.dirty then { store with materials := [], scopes := [] } else store

def isFresh (store : KeyStore) (now : ℕ) : Bool :=
  !store.dirty && store.loadedAt.any fun t => now - t < maxAge

/-- `_ensure`; the tables are none when they cannot be read. -/
def ensure (store : KeyStore) (tables : Option KeyTables) (now : ℕ) : KeyStore :=
  if store.isFresh now then store
  else if store.retryAt.any (now < ·) then store.emptied
  else match tables with
    | none => { store.emptied with retryAt := some (now + retryAfter) }
    | some t => store.load t now

/-- A store that waits for its next load is emptied, if at all, only once. -/
theorem ensure_waiting {store : KeyStore} {tables : Option KeyTables} {now retry : ℕ}
    (hretry : now < retry) : { store.emptied with retryAt := some retry }.ensure tables now =
      { store.emptied with retryAt := some retry } := by
  by_cases hdirty : store.dirty = true
  · simp [ensure, emptied, hdirty, hretry]
  · simp_all [ensure, emptied]

theorem ensure_ensure (store : KeyStore) (tables : Option KeyTables) (now : ℕ) :
    (store.ensure tables now).ensure tables now = store.ensure tables now := by
  by_cases hfresh : store.isFresh now = true
  · simp [ensure, hfresh]
  cases hretry : store.retryAt.any (now < ·) with
  | true =>
    have hemptied : { store.emptied with retryAt := store.retryAt } = store.emptied := by
      unfold emptied
      split <;> rfl
    have hensure : store.ensure tables now = { store.emptied with retryAt := store.retryAt } := by
      simp [ensure, hfresh, hretry, hemptied]
    obtain ⟨retry, hat, hlt⟩ : ∃ retry, store.retryAt = some retry ∧ now < retry := by
      cases hat : store.retryAt with
      | none => simp [hat] at hretry
      | some retry => exact ⟨retry, rfl, by simpa [hat] using hretry⟩
    rw [hensure, hat]
    exact ensure_waiting hlt
  | false =>
    cases tables with
    | none =>
      have hensure : store.ensure none now =
          { store.emptied with retryAt := some (now + retryAfter) } := by
        simp [ensure, hfresh, hretry]
      rw [hensure]
      exact ensure_waiting (Nat.lt_add_of_pos_right (by decide))
    | some t =>
      have hensure : store.ensure (some t) now = store.load t now := by
        simp [ensure, hfresh, hretry]
      have hloaded : (store.load t now).isFresh now = true := by
        simp [isFresh, load,
          show 0 < maxAge by decide]
      rw [hensure, ensure, if_pos hloaded]

def lookup (store : KeyStore) (name : Name) : Option TsigKeyMaterial :=
  store.materials.lookup name.lowerText

def scope (store : KeyStore) (keyId : ℕ) : Option KeyScope := store.scopes.lookup keyId

/-- The use of a key is written at most once per interval. -/
def isTouched (store : KeyStore) (keyId now : ℕ) : Bool :=
  (store.touched.lookup keyId).any fun t => now - t < touchInterval

/-! ### Queries after an invalidation -/

def invalidate (store : KeyStore) : KeyStore :=
  { store with dirty := true, loadedAt := none, retryAt := none }

/-- What changes the keys, each under the lock. A query brings the store up to date, and reads it
later. -/
inductive Event
  | invalidate
  | ensure (tables : Option KeyTables) (now : ℕ)

def step (store : KeyStore) : Event → KeyStore
  | .invalidate => store.invalidate
  | .ensure tables now => store.ensure tables now

def run (store : KeyStore) (events : List Event) : KeyStore := events.foldl step store

/-- Each key and each scope was found by a load among the events. -/
def LoadedIn (events : List Event) (store : KeyStore) : Prop :=
  store.materials = [] ∧ store.scopes = [] ∨ ∃ t now, .ensure (some t) now ∈ events ∧
    store.materials = (empty.load t now).materials ∧ store.scopes = (empty.load t now).scopes

section Queries

variable {store : KeyStore} {events : List Event} {e : Event} {tables : Option KeyTables} {now : ℕ}

/-- Unless the tables are loaded, a store that was invalidated is emptied and any other keeps its
keys. -/
theorem ensure_cases (store : KeyStore) (tables : Option KeyTables) (now : ℕ) :
    ((store.ensure tables now).materials = (if store.dirty then [] else store.materials) ∧
      (store.ensure tables now).scopes = if store.dirty then [] else store.scopes) ∨
    ∃ t, tables = some t ∧ store.ensure tables now = store.load t now := by
  have hemptied : store.emptied.materials = (if store.dirty then [] else store.materials) ∧
      store.emptied.scopes = if store.dirty then [] else store.scopes := by
    unfold emptied
    split <;> exact ⟨rfl, rfl⟩
  by_cases hfresh : store.isFresh now = true
  · have hclean : store.dirty = false := by simp_all [isFresh]
    have hkept : store.ensure tables now = store := if_pos hfresh
    rw [hkept, hclean]
    exact .inl ⟨rfl, rfl⟩
  by_cases hretry : store.retryAt.any (now < ·) = true
  · have hwaiting : store.ensure tables now = store.emptied := by
      rw [ensure.eq_def, if_neg hfresh, if_pos hretry]
    exact .inl (hwaiting ▸ hemptied)
  · rw [ensure.eq_def, if_neg hfresh, if_neg hretry]
    cases tables with
    | none => exact .inl hemptied
    | some t => exact .inr ⟨t, rfl, rfl⟩

theorem LoadedIn.ensure (h : store.dirty = true ∨ LoadedIn events store)
    (he : .ensure tables now ∈ events) : LoadedIn events (store.ensure tables now) := by
  rcases ensure_cases store tables now with hkeys | ⟨t, rfl, hload⟩
  · rw [LoadedIn, hkeys.1, hkeys.2]
    cases hdirty : store.dirty with
    | true => exact .inl ⟨rfl, rfl⟩
    | false => exact h.resolve_left (by simp [hdirty])
  · rw [hload]
    exact .inr ⟨t, now, he, rfl, rfl⟩

theorem LoadedIn.step (h : LoadedIn events store) (he : e ∈ events) :
    LoadedIn events (store.step e) := by
  cases e with
  | invalidate => exact h
  | ensure tables now => exact LoadedIn.ensure (.inr h) he

/-- Whatever happens between an invalidation, the begin of a query and its read. -/
theorem loadedIn_of_query (store : KeyStore) (before after : List Event)
    (h : before ++ .ensure tables now :: after = events) :
    LoadedIn events (store.invalidate.run events) := by
  have hbefore : (store.invalidate.run before).dirty = true ∨
      LoadedIn events (store.invalidate.run before) := by
    refine List.foldlRecOn (motive := fun s => s.dirty = true ∨ LoadedIn events s) before step
      (.inl (rfl : store.invalidate.dirty = true)) fun s hs e he => ?_
    cases e with
    | invalidate => exact .inl rfl
    | ensure tables now =>
      exact .inr (LoadedIn.ensure hs (h ▸ List.mem_append_left _ he))
  rw [← h, run, List.foldl_append, h]
  refine List.foldlRecOn after step (LoadedIn.ensure hbefore (h ▸ by simp)) fun s hs e he => ?_
  exact hs.step (h ▸ List.mem_append_right _ (List.mem_cons_of_mem _ he))

end Queries

/-- For every store and every sequence of events: a query that begins after an invalidation finds
only keys and scopes of loads after it. A failed load leaves no key and no scope if the store was
invalidated since it was loaded, and else those it had. -/
theorem queries_after_invalidate (store : KeyStore) :
    (∀ before tables now after, ∃ loaded,
      (loaded = empty ∨ ∃ t instant, loaded = empty.load t instant ∧
        .ensure (some t) instant ∈ before ++ .ensure tables now :: after) ∧
      (∀ name, (store.invalidate.run (before ++ .ensure tables now :: after)).lookup name =
        loaded.lookup name) ∧
      ∀ id, (store.invalidate.run (before ++ .ensure tables now :: after)).scope id =
        loaded.scope id) ∧
    ∀ now, (∀ name, (store.ensure none now).lookup name =
        if store.dirty then none else store.lookup name) ∧
      ∀ id, (store.ensure none now).scope id = if store.dirty then none else store.scope id := by
  constructor
  · intro before tables now after
    rcases loadedIn_of_query store before after rfl with
      ⟨hm, hs⟩ | ⟨t, instant, hmem, hm, hs⟩
    · exact ⟨empty, .inl rfl, fun name => by rw [lookup, hm]; rfl, fun id => by rw [scope, hs]; rfl⟩
    · exact ⟨empty.load t instant, .inr ⟨t, instant, rfl, hmem⟩,
        fun name => by rw [lookup, hm]; rfl, fun id => by rw [scope, hs]; rfl⟩
  · intro now
    obtain ⟨hm, hs⟩ := (ensure_cases store none now).resolve_right nofun
    refine ⟨fun name => ?_, fun id => ?_⟩
    · rw [lookup, hm]
      cases store.dirty <;> rfl
    · rw [scope, hs]
      cases store.dirty <;> rfl

def oneKey : KeyTables :=
  ⟨[⟨1, 3, none, false, some Algorithm.hmacSha256.name, some Algorithm.hmacSha256.name, some [1],
    true⟩], [3], []⟩

/-- A load that fails after the keys have become too old leaves them usable. -/
theorem key_kept_after_failed_load :
    ((empty.run [.ensure (some oneKey) 0, .ensure none (31 * second)]).lookup
      Algorithm.hmacSha256.name).isSome = true ∧ maxAge < 31 * second := by
  decide

end KeyStore

/-! ## Zones -/

structure ZoneIndex where
  zones : List Name
  loadedAt : Option ℕ
  retryAt : Option ℕ

namespace ZoneIndex

def maxAge : ℕ := 10 * second

def empty : ZoneIndex := ⟨[], none, none⟩

/-- A single label is a top level domain. -/
def ensure (index : ZoneIndex) (domains : Option (List Name)) (now : ℕ) : ZoneIndex :=
  if index.loadedAt.any fun t => now - t < maxAge then index
  else if index.retryAt.any (now < ·) then index
  else match domains with
    | none => { index with retryAt := some (now + KeyStore.retryAfter) }
    | some names => ⟨names.filter fun n => 2 ≤ n.labels.length, some now, none⟩

def parents (key : List Bytes) : List (List Bytes) :=
  (key.tails.drop 1).filter fun parent => 2 ≤ parent.length

/-- A zone, a name above one that is no top level domain, or a name below one. -/
def isAuthoritative (index : ZoneIndex) (zname : Name) : Bool :=
  2 ≤ zname.labels.length &&
    (index.zones.any (fun zone => zone.key = zname.key || zname.key ∈ parents zone.key) ||
      (parents zname.key).any fun parent => index.zones.any (·.key = parent))

end ZoneIndex

/-! ## Challenge rows -/

/-- A row of `acme_proxy_dns_challenges`. -/
structure ChallengeRow where
  id : ℕ
  orderId : ℕ
  acmeClientAccountId : Option ℕ
  accountId : Option (List Char)
  recordName : List Char
  txtValue : List Char
  zoneName : List Char
  pending : Bool
  expiresAt : ℕ
  clientConfirmedAt : Option ℕ
  deriving DecidableEq

structure ActiveRecord where
  rowId : ℕ
  orderId : ℕ
  recordName : List Char
  txtValue : List Char
  zoneName : List Char
  acmeClientAccountId : Option ℕ
  accountId : Option (List Char)

def ChallengeRow.toRecord (r : ChallengeRow) : ActiveRecord :=
  ⟨r.id, r.orderId, r.recordName, r.txtValue, r.zoneName, r.acmeClientAccountId, r.accountId⟩

structure ActiveSnapshot where
  active : List ActiveRecord
  soaRows : List ActiveRecord

def ActiveSnapshot.byName (s : ActiveSnapshot) (text : List Char) : List ActiveRecord :=
  s.active.filter (·.recordName = text)

def ActiveSnapshot.byZone (s : ActiveSnapshot) (text : List Char) : List ActiveRecord :=
  s.soaRows.filter (·.zoneName = text)

def cacheMaxAge : ℕ := 5 * second

def soaGrace : ℕ := 24 * 3600 * second

/-- The rows, and the snapshot of them that the listener reads. An id is never given out again,
and no column that the snapshot holds is ever rewritten, so that a record of the snapshot and the
row of its id agree for as long as the row exists. -/
structure ChallengeStore where
  rows : List ChallengeRow
  nextId : ℕ
  snapshot : ActiveSnapshot
  loadedAt : Option ℕ
  invalidated : Bool
  retryAt : Option ℕ
  unique : (rows.map ChallengeRow.id).Nodup
  counted : ∀ r ∈ rows, r.id < nextId
  active_counted : ∀ a ∈ snapshot.active, a.rowId < nextId
  agrees : ∀ a ∈ snapshot.active, ∀ r ∈ rows, r.id = a.rowId → r.toRecord = a

namespace ChallengeStore

def empty : ChallengeStore :=
  ⟨[], 0, ⟨[], []⟩, none, false, none, by simp, by simp, by simp, by simp⟩

def insert (s : ChallengeStore) (row : ChallengeRow) : ChallengeStore where
  rows := s.rows ++ [{ row with id := s.nextId }]
  nextId := s.nextId + 1
  snapshot := s.snapshot
  loadedAt := s.loadedAt
  invalidated := true
  retryAt := none
  unique := nodup_concat s.unique fun r hr => Nat.ne_of_lt (s.counted r hr)
  counted := by
    intro r hr
    rcases mem_concat.mp hr with hold | rfl
    · exact Nat.lt_succ_of_lt (s.counted r hold)
    · exact Nat.lt_succ_self _
  active_counted := fun a ha => Nat.lt_succ_of_lt (s.active_counted a ha)
  agrees := by
    intro a ha r hr hid
    rcases mem_concat.mp hr with hold | rfl
    · exact s.agrees a ha r hold hid
    · exact absurd (s.active_counted a ha) (by simp [← hid])

theorem map_id (rows : List ChallengeRow) :
    rows.map ChallengeRow.id = (rows.map ChallengeRow.toRecord).map ActiveRecord.rowId := by
  rw [List.map_map]
  rfl

/-- The table after rows were deleted, closed or marked: what is left has the columns of the
records of the table. -/
def rewrite (s : ChallengeStore) (rows : List ChallengeRow) (invalidates : Bool)
    (h : (rows.map ChallengeRow.toRecord).Sublist (s.rows.map ChallengeRow.toRecord)) :
    ChallengeStore where
  rows := rows
  nextId := s.nextId
  snapshot := s.snapshot
  loadedAt := s.loadedAt
  invalidated := s.invalidated || invalidates
  retryAt := if invalidates then none else s.retryAt
  unique := by
    have hold := s.unique
    rw [map_id] at hold ⊢
    exact hold.sublist (h.map _)
  counted := by
    intro r hr
    obtain ⟨q, hq, heq⟩ := List.mem_map.mp (h.subset (List.mem_map_of_mem hr))
    have hid : q.id = r.id := congrArg ActiveRecord.rowId heq
    rw [← hid]
    exact s.counted q hq
  active_counted := s.active_counted
  agrees := by
    intro a ha r hr hid
    obtain ⟨q, hq, heq⟩ := List.mem_map.mp (h.subset (List.mem_map_of_mem hr))
    have hsame : q.id = r.id := congrArg ActiveRecord.rowId heq
    rw [← heq]
    exact s.agrees a ha q hq (hsame.trans hid)

/-- Rows are deleted with their account, or when they are old; only the first invalidates the
snapshot. -/
def deleteWhere (s : ChallengeStore) (p : ChallengeRow → Bool) (invalidates : Bool) :
    ChallengeStore :=
  s.rewrite (s.rows.filter fun r => !p r) invalidates (List.filter_sublist.map _)

theorem sublist_of_toRecord {f : ChallengeRow → ChallengeRow}
    (hf : ∀ r, (f r).toRecord = r.toRecord) (rows : List ChallengeRow) :
    ((rows.map f).map ChallengeRow.toRecord).Sublist (rows.map ChallengeRow.toRecord) := by
  have hsame : (rows.map f).map ChallengeRow.toRecord = rows.map ChallengeRow.toRecord := by
    rw [List.map_map]
    exact List.map_congr_left fun r _ => hf r
  rw [hsame]

def close (p : ChallengeRow → Bool) (r : ChallengeRow) : ChallengeRow :=
  if r.pending && p r then { r with pending := false } else r

theorem toRecord_close (p : ChallengeRow → Bool) (r : ChallengeRow) :
    (close p r).toRecord = r.toRecord := by
  unfold close
  split <;> rfl

def closeWhere (s : ChallengeStore) (p : ChallengeRow → Bool) : ChallengeStore :=
  s.rewrite (s.rows.map (close p)) true (sublist_of_toRecord (toRecord_close p) s.rows)

def confirm (rowIds : List ℕ) (now : ℕ) (r : ChallengeRow) : ChallengeRow :=
  if r.id ∈ rowIds then { r with clientConfirmedAt := some now } else r

theorem toRecord_confirm (rowIds : List ℕ) (now : ℕ) (r : ChallengeRow) :
    (confirm rowIds now r).toRecord = r.toRecord := by
  unfold confirm
  split <;> rfl

def markConfirmed (s : ChallengeStore) (rowIds : List ℕ) (now : ℕ) : ChallengeStore :=
  s.rewrite (s.rows.map (confirm rowIds now)) false
    (sublist_of_toRecord (toRecord_confirm rowIds now) s.rows)

@[simp] theorem rows_markConfirmed (s : ChallengeStore) (rowIds : List ℕ) (now : ℕ) :
    (s.markConfirmed rowIds now).rows = s.rows.map (confirm rowIds now) := rfl

/-- The rows that SOA discovery sees: those of an order, until some time after they expire.
`orders` gives the orders with whether they are pending. -/
def recent (s : ChallengeStore) (orders : List (ℕ × Bool)) (now : ℕ) : List ChallengeRow :=
  s.rows.filter fun r => (orders.lookup r.orderId).isSome && now < r.expiresAt + soaGrace

/-- The rows that an UPDATE may confirm. -/
def isActive (orders : List (ℕ × Bool)) (now : ℕ) (r : ChallengeRow) : Bool :=
  r.pending && now < r.expiresAt && orders.lookup r.orderId = some true

def load (s : ChallengeStore) (orders : List (ℕ × Bool)) (now : ℕ) : ChallengeStore where
  rows := s.rows
  nextId := s.nextId
  snapshot :=
    ⟨((s.recent orders now).filter (isActive orders now)).map ChallengeRow.toRecord,
      (s.recent orders now).map ChallengeRow.toRecord⟩
  loadedAt := some now
  invalidated := false
  retryAt := none
  unique := s.unique
  counted := s.counted
  active_counted := by
    intro a ha
    obtain ⟨r, hr, rfl⟩ := List.mem_map.mp ha
    exact s.counted r (List.mem_filter.mp (List.mem_filter.mp hr).1).1
  agrees := by
    intro a ha r hr hid
    obtain ⟨q, hq, rfl⟩ := List.mem_map.mp ha
    have hmem : q ∈ s.rows := (List.mem_filter.mp (List.mem_filter.mp hq).1).1
    rw [eq_of_key s.unique hr hmem hid]

def isFresh (s : ChallengeStore) (now : ℕ) : Bool :=
  !s.invalidated && s.loadedAt.any fun t => now - t < cacheMaxAge

def backOff (s : ChallengeStore) (now : ℕ) : ChallengeStore :=
  { s with retryAt := some (now + KeyStore.retryAfter) }

/-- The store with the snapshot that `snapshot()` returns; the orders are none when the tables
cannot be read. -/
def ensure (s : ChallengeStore) (orders : Option (List (ℕ × Bool))) (now : ℕ) : ChallengeStore :=
  if s.isFresh now || s.retryAt.any (now < ·) then s
  else match orders with
    | none => s.backOff now
    | some orders => s.load orders now

@[simp] theorem rows_ensure (s : ChallengeStore) (orders : Option (List (ℕ × Bool))) (now : ℕ) :
    (s.ensure orders now).rows = s.rows := by
  unfold ensure
  split
  · rfl
  · cases orders <;> rfl

end ChallengeStore

end UltimateCaManager.DnsUpdate
