import UltimateCaManager.AuditAcceptance
import UltimateCaManager.AuditLedger
import UltimateCaManager.Ascending

/-!
# Ledgers written by the server

What holds of every table that the server writes, the purged entries before it included: ids
ascend, each entry names the one before it and is sealed, and the entries under the current key
come last.
-/
namespace UltimateCaManager.Audit

open List Tables

variable {S : Sealing} {key : Option ℕ} {keys : List ℕ} {log : AuditLog}
  {records purged rows : List AuditLog}

/-- The entry carries the id of the key; without a key none does. -/
def underKey (S : Sealing) (key : Option ℕ) (log : AuditLog) : Bool :=
  key.any fun k => isUnder (S.keyId k) log

/-- The entry is sealed by the key, or recomputably without one. -/
structure AuditLog.SealedBy (S : Sealing) (key : Option ℕ) (log : AuditLog) : Prop where
  hashVersion : log.hashVersion = some (if key.isSome then keyedChain else sha256Chain)
  hashKeyId : log.hashKeyId = key.map S.keyId
  entryHash : log.entryHash = some (log.computeHash S log.prevHash key)
  prevHash : ∃ p, log.prevHash = some p ∧ p ≠ []

namespace AuditLog.SealedBy

theorem given_entryHash (h : log.SealedBy S key) :
    given log.entryHash = some (log.computeHash S log.prevHash key) := by
  rw [h.entryHash, given_some (log.computeHash_ne_nil S _ _)]

theorem given_prevHash (h : log.SealedBy S key) : given log.prevHash = log.prevHash := by
  obtain ⟨p, hp, hne⟩ := h.prevHash
  rw [hp, given_some hne]

theorem tip (h : log.SealedBy S key) : log.entryHash = some log.tip := by
  rw [AuditLog.tip, h.given_entryHash, h.entryHash, Option.getD_some]

theorem classify_none (h : log.SealedBy S none) (key : Option ℕ) :
    log.classify S key = some .recomputable := by
  have hv : log.version = sha256Chain := by simp [version, h.hashVersion]
  simp [classify, h.given_entryHash, hv]

theorem version_keyed {k : ℕ} (h : log.SealedBy S (some k)) : log.version = keyedChain := by
  simp [version, h.hashVersion, keyedChain]

theorem classify_self {k : ℕ} (h : log.SealedBy S (some k)) :
    log.classify S (some k) = some .keyed := by
  have hne : keyedChain ≠ sha256Chain := by decide
  simp [classify, h.given_entryHash, h.version_keyed, hne, h.hashKeyId]

theorem classify_foreign {k : ℕ} (h : log.SealedBy S (some k)) (hne : key ≠ some k) :
    log.classify S key = some .foreign := by
  have hchain : keyedChain ≠ sha256Chain := by decide
  cases key with
  | none => simp [classify, h.given_entryHash, h.version_keyed, hchain]
  | some k' =>
    have hid : S.keyId k ≠ S.keyId k' := fun e => hne (by rw [S.keyId_injective e])
    simp [classify, h.given_entryHash, h.version_keyed, hchain, h.hashKeyId, hid]

theorem underKey_iff {key' : Option ℕ} (h : log.SealedBy S key') :
    underKey S key log ↔ key.isSome ∧ key' = key := by
  cases key with
  | none => simp [underKey]
  | some k =>
    cases key' with
    | none => simp [underKey, isUnder, h.hashVersion, sha256Chain, keyedChain]
    | some k' =>
      simp [underKey, isUnder, h.hashVersion, h.hashKeyId, S.keyId_injective.eq_iff]

theorem keyed_iff {key' : Option ℕ} (h : log.SealedBy S key') :
    log.keyed S key = underKey S key log := by
  rw [Bool.eq_iff_iff, h.underKey_iff, AuditLog.keyed]
  cases key' with
  | none =>
    cases key <;> simp [h.classify_none]
  | some k =>
    by_cases he : key = some k
    · simp [he, h.classify_self]
    · simp [h.classify_foreign he, Ne.symm he]

end AuditLog.SealedBy

/-! ## Tables of the server -/

/-- A table that the server wrote, after the rows that were purged from it. -/
structure HonestTable (S : Sealing) (key : Option ℕ) (keys : List ℕ)
    (records purged rows : List AuditLog) : Prop where
  ascending : (purged ++ rows).Pairwise fun a b => a.id < b.id
  positive : ∀ log ∈ purged ++ rows, 0 < log.id ∧ ∀ start, log.chainStart = some start → 0 < start
  sealed : ∀ log ∈ purged ++ rows, ∃ key', (∀ k, key' = some k → k ∈ keys) ∧ log.SealedBy S key'
  linked : (purged ++ rows).IsChain fun a b => b.prevHash = a.entryHash
  lasting : (purged ++ rows).Pairwise fun a b => underKey S key a → underKey S key b
  plain : (purged ++ rows).Pairwise fun a b => underKey S key a →
    b.retiredKeys = none ∧ (b.chainStart ≠ none → b ∈ records)
  rest : rows = [] → purged = []

/-- The row is what an append to the rows adds. -/
structure Appends (S : Sealing) (key : Option ℕ) (records rows : List AuditLog) (log : AuditLog) :
    Prop where
  above : ∀ other ∈ rows, other.id < log.id
  positive : 0 < log.id ∧ ∀ start, log.chainStart = some start → 0 < start
  sealedBy : log.SealedBy S key
  linked : ∀ last, rows.getLast? = some last → log.prevHash = last.entryHash
  plain : ∀ last, rows.getLast? = some last → underKey S key last →
    log.retiredKeys = none ∧ (log.chainStart ≠ none → log ∈ records)

namespace HonestTable

variable (h : HonestTable S key keys records purged rows)

include h

theorem getLast?_append :
    (purged ++ rows).getLast? = rows.getLast? := by
  cases hr : rows with
  | nil => simp [h.rest hr]
  | cons r rs => simp [getLast?_cons]

theorem last_under {a : AuditLog} (ha : a ∈ purged ++ rows) (hunder : underKey S key a) :
    ∃ last, rows.getLast? = some last ∧ underKey S key last := by
  have hne : purged ++ rows ≠ [] := ne_nil_of_mem ha
  refine ⟨(purged ++ rows).getLast hne, by rw [← h.getLast?_append, getLast?_eq_some_getLast hne], ?_⟩
  rw [← dropLast_append_getLast hne, mem_append, mem_singleton] at ha
  rcases ha with ha | rfl
  · have hlasting := h.lasting
    rw [← dropLast_append_getLast hne, pairwise_append] at hlasting
    exact hlasting.2.2 a ha _ (mem_singleton_self _) hunder
  · exact hunder

theorem concat (hlog : Appends S key records rows log)
    (hkey : ∀ k, key = some k → k ∈ keys) :
    HonestTable S key keys records purged (rows ++ [log]) := by
  have hassoc : purged ++ (rows ++ [log]) = (purged ++ rows) ++ [log] := (append_assoc ..).symm
  have habove : ∀ other ∈ purged ++ rows, other.id < log.id := by
    intro other hother
    rcases mem_append.mp hother with hp | hr
    · have hne : rows ≠ [] := fun e => by simp [h.rest e] at hp
      obtain ⟨r, hr⟩ := exists_mem_of_ne_nil rows hne
      have hlt := (pairwise_append.mp h.ascending).2.2 other hp r hr
      have := hlog.above r hr
      omega
    · exact hlog.above other hr
  constructor
  case rest => simp
  all_goals rw [hassoc]
  · exact Ascending.pairwise_concat h.ascending habove
  · exact forall_mem_concat.mpr ⟨h.positive, hlog.positive⟩
  · exact forall_mem_concat.mpr ⟨h.sealed, key, hkey, hlog.sealedBy⟩
  · rw [isChain_append]
    refine ⟨h.linked, .singleton _, fun a ha b hb => ?_⟩
    rw [head?_cons, Option.mem_def, Option.some.injEq] at hb
    rw [h.getLast?_append] at ha
    exact hb ▸ hlog.linked a ha
  · refine Ascending.pairwise_concat h.lasting fun a _ hunder => ?_
    rw [hlog.sealedBy.underKey_iff]
    exact ⟨by cases key <;> simp_all [underKey], rfl⟩
  · refine Ascending.pairwise_concat h.plain fun a ha hunder => ?_
    obtain ⟨last, hlast, hlastUnder⟩ := h.last_under ha hunder
    exact hlog.plain last hlast hlastUnder

theorem not_under {k : ℕ} (hk : k ∉ keys) {a : AuditLog} (ha : a ∈ purged ++ rows) :
    underKey S (some k) a = false := by
  obtain ⟨key', hkeys, hsealed⟩ := h.sealed a ha
  rw [Bool.eq_false_iff]
  intro hunder
  exact hk (hkeys k (hsealed.underKey_iff.mp hunder).2)

theorem switchKey {k : ℕ} (hk : k ∉ keys) :
    HonestTable S (some k) (k :: keys) records purged rows :=
  { h with
    sealed := fun log hlog => by
      obtain ⟨key', hkeys, hsealed⟩ := h.sealed log hlog
      exact ⟨key', fun k' hk' => mem_cons_of_mem _ (hkeys k' hk'), hsealed⟩
    lasting := pairwise_of_forall_mem_list fun a ha _ _ hunder => by
      simp [h.not_under hk ha] at hunder
    plain := pairwise_of_forall_mem_list fun a ha _ _ hunder => by
      simp [h.not_under hk ha] at hunder }

theorem records_mono {records' : List AuditLog} (hsub : records ⊆ records') :
    HonestTable S key keys records' purged rows :=
  { h with plain := h.plain.imp fun hp hunder => ⟨(hp hunder).1, fun hs => hsub ((hp hunder).2 hs)⟩ }

/-- Rows from the front of the table are purged, not all of them. -/
theorem drop {n : ℕ} (hn : n < rows.length) :
    HonestTable S key keys records (purged ++ rows.take n) (rows.drop n) := by
  have heq : (purged ++ rows.take n) ++ rows.drop n = purged ++ rows := by
    rw [append_assoc, take_append_drop]
  constructor
  case rest =>
    intro hnil
    rw [drop_eq_nil_iff] at hnil
    omega
  all_goals rw [heq]
  exacts [h.ascending, h.positive, h.sealed, h.linked, h.lasting, h.plain]

end HonestTable

/-! ## The row of an append -/

section SealedRow

variable {ring : Option Keyring} {e : Entry} {id : ℤ} {purgeFrom : Option ℤ}

@[simp] theorem sealedRow_id : (sealedRow S key ring rows e id purgeFrom).id = id := by
  cases key <;> rfl

theorem given_getD_ne_nil (column : Option (List Char)) : (given column).getD genesis ≠ [] := by
  cases h : given column with
  | none => simp [genesis]
  | some text => simpa using (given_eq_some.mp h).2

def idsWith (rows : List AuditLog) (id : ℤ) : List ℤ := rows.map AuditLog.id ++ [id]

/-- Where a record says that the ledger starts. -/
def startFrom (rows : List AuditLog) (id bound : ℤ) : Option ℤ :=
  ((idsWith rows id).filter (bound ≤ ·)).min?

theorem minIdFrom_concat : minIdFrom (rows ++ [log]) = startFrom rows log.id := by
  funext bound
  simp [minIdFrom, startFrom, idsWith]

theorem underKey_some (k : ℕ) : underKey S (some k) = isUnder (S.keyId k) := rfl

variable (h : ∀ other ∈ rows, other.id < id)

include h

theorem filter_below : rows.filter (·.id < id) = rows :=
  filter_eq_self.mpr fun other hother => by simpa using h other hother

theorem sealedRow_prevHash :
    (sealedRow S key ring rows e id purgeFrom).prevHash =
      some ((rows.getLast?.bind fun log => given log.entryHash).getD genesis) := by
  cases key <;> simp [sealedRow, filter_below h]

theorem sealedRow_sealedBy :
    (sealedRow S key ring rows e id purgeFrom).SealedBy S key where
  hashVersion := by cases key <;> rfl
  hashKeyId := by cases key <;> rfl
  entryHash := by cases key <;> rfl
  prevHash := by
    refine ⟨_, sealedRow_prevHash h, ?_⟩
    cases rows.getLast? with
    | none => simp [genesis]
    | some last => exact given_getD_ne_nil last.entryHash

theorem sealedRow_chainStart :
    (sealedRow S key ring rows e id purgeFrom).chainStart =
      if key.isSome ∧ rows.getLast?.any (underKey S key) = false then
        (purgeFrom.bind (startFrom rows id)).or (idsWith rows id).min?
      else purgeFrom.bind (startFrom rows id) := by
  cases key with
  | none => simp [sealedRow, minIdFrom_concat, Entry.row]
  | some k =>
    simp only [sealedRow, filter_below h, minIdFrom_concat, idsWith, underKey_some]
    by_cases hlast : rows.getLast?.any (isUnder (S.keyId k)) = true <;> simp [Entry.row]

theorem sealedRow_retiredKeys :
    (sealedRow S key ring rows e id purgeFrom).retiredKeys =
      key.bind fun k => if rows.getLast?.any (underKey S key) then none
        else rotation ring rows (S.keyId k) := by
  cases key with
  | none => rfl
  | some k =>
    simp only [sealedRow, filter_below h, underKey_some]
    by_cases hlast : rows.getLast?.any (isUnder (S.keyId k)) = true <;> simp [hlast]

end SealedRow

/-! ## Batches -/

section Batches

open Ascending

variable {boundary : ℤ} {cutoff : ℕ}

/-- A batch takes the ids of a front part of the table, all below the boundary. -/
theorem batch_eq (h : Ascends AuditLog.id rows) (boundary : ℤ) :
    ∃ n ≤ rows.length, batch rows boundary = (rows.take n).map AuditLog.id ∧
      ∀ log ∈ rows.take n, log.id < boundary := by
  obtain ⟨m, hm, heq⟩ := h.filter_lt boundary
  have hids : (rows.map AuditLog.id).filter (· < boundary) = (rows.take m).map AuditLog.id := by
    rw [filter_map, ← heq]
    rfl
  refine ⟨min cleanupBatchSize m, by omega, ?_, fun log hlog => ?_⟩
  · rw [batch, hids, ← map_take, take_take]
  · have hmem : log ∈ rows.take m :=
      (take_sublist_take_left (Nat.min_le_right _ _)).subset hlog
    rw [← heq] at hmem
    simpa using (mem_filter.mp hmem).2

/-- The loop removes a front part of the table below the boundary. -/
theorem deleteBatches_eq (h : Ascends AuditLog.id rows) (boundary : ℤ) (limit : ℕ) :
    ∃ n, deleteBatches boundary limit rows = rows.drop n ∧
      ∀ log ∈ rows.take n, log.id < boundary := by
  induction limit generalizing rows with
  | zero => exact ⟨0, rfl, by simp⟩
  | succ limit ih =>
    obtain ⟨n, -, hbatch, hbelow⟩ := batch_eq h boundary
    rw [deleteBatches, hbatch, h.filter_notMem_take n]
    split
    · exact ⟨0, rfl, by simp⟩
    · split
      · exact ⟨n, rfl, hbelow⟩
      · obtain ⟨m, hm, hlater⟩ := ih (h.sublist (drop_sublist n rows))
        refine ⟨n + m, by rw [hm, drop_drop], fun log hlog => ?_⟩
        rw [take_add, mem_append] at hlog
        exact hlog.elim (hbelow log) (hlater log)

theorem deleteBatches_complete (h : Ascends AuditLog.id rows) {limit : ℕ}
    (hlimit : rows.length ≤ limit) : ∀ log ∈ deleteBatches boundary limit rows, boundary ≤ log.id := by
  induction limit generalizing rows with
  | zero =>
    have hnil : rows = [] := eq_nil_of_length_eq_zero (by omega)
    simp [hnil, deleteBatches]
  | succ limit ih =>
    obtain ⟨n, hn, hbatch, -⟩ := batch_eq h boundary
    intro log hlog
    rw [deleteBatches] at hlog
    split at hlog
    · next hnil =>
      by_contra hlt
      have hmem : log.id ∈ (rows.map AuditLog.id).filter (· < boundary) := by
        simpa using ⟨⟨log, hlog, rfl⟩, by omega⟩
      rw [batch, take_eq_nil_iff] at hnil
      rcases hnil with hsize | hnil
      · simp [cleanupBatchSize] at hsize
      · simp [hnil] at hmem
    · next hne =>
      split at hlog
      · next hlast =>
        -- a short batch is the last one
        by_contra hlt
        obtain ⟨hlog, hnot⟩ := mem_filter.mp hlog
        rw [batch, take_of_length_le] at hnot
        · simp only [mem_filter, mem_map, decide_eq_true_eq, not_and] at hnot
          exact hnot ⟨log, hlog, rfl⟩ (by omega)
        · rw [batch, length_take] at hlast
          omega
      · rw [hbatch, h.filter_notMem_take n] at hlog
        have hpos : n ≠ 0 := by
          rintro rfl
          simp [hbatch] at hne
        refine ih (h.sublist (drop_sublist n rows)) ?_ log hlog
        rw [length_drop]
        omega

end Batches

/-! ## Runs -/

section Append

variable {s : Ledger}

theorem lt_nextId (gap : ℕ) : ∀ log ∈ s.rows, log.id < s.nextId gap := by
  intro log hlog
  have hid : log.id ∈ s.rows.map AuditLog.id := mem_map_of_mem hlog
  cases hmax : (s.rows.map AuditLog.id).max? with
  | none =>
    rw [max?_eq_none_iff.mp hmax] at hid
    cases hid
  | some m =>
    have hle := (max?_eq_some_iff.mp hmax).2 _ hid
    rw [Ledger.nextId, hmax, Option.getD_some]
    omega

theorem nextId_pos (h : ∀ log ∈ s.rows, 0 < log.id) (gap : ℕ) : 0 < s.nextId gap := by
  cases hrows : s.rows with
  | nil =>
    simp only [Ledger.nextId, hrows, map_nil, max?_nil, Option.getD_none]
    omega
  | cons log rest =>
    have hmem : log ∈ s.rows := by simp [hrows]
    have hlt := lt_nextId gap log hmem
    have hpos := h log hmem
    omega

theorem purgeBoundary_le_nextId (cutoff gap : ℕ) : purgeBoundary s.rows cutoff ≤ s.nextId gap := by
  unfold purgeBoundary
  split
  · next firstKept hmin =>
    obtain ⟨log, hlog, hid⟩ := mem_map.mp (min?_mem hmin)
    have hlt := lt_nextId gap log (mem_filter.mp hlog).1
    omega
  · unfold Ledger.nextId
    omega

theorem idsWith_pos {id : ℤ} (h : ∀ log ∈ rows, 0 < log.id) (hid : 0 < id) :
    ∀ n ∈ idsWith rows id, 0 < n :=
  forall_mem_concat.mpr ⟨forall_mem_map.mpr h, hid⟩

/-- Every start that a row records is the id of a row. -/
theorem sealedRow_chainStart_mem {ring : Option Keyring} {e : Entry} {id start : ℤ}
    {purgeFrom : Option ℤ} (h : ∀ other ∈ rows, other.id < id)
    (hs : (sealedRow S key ring rows e id purgeFrom).chainStart = some start) :
    start ∈ idsWith rows id := by
  have hfrom : purgeFrom.bind (startFrom rows id) = some start → start ∈ idsWith rows id := by
    intro hbind
    obtain ⟨bound, -, hmin⟩ := Option.bind_eq_some_iff.mp hbind
    exact (mem_filter.mp (min?_mem hmin)).1
  rw [sealedRow_chainStart h] at hs
  split at hs
  · rcases Option.or_eq_some_iff.mp hs with hs | ⟨-, hs⟩
    · exact hfrom hs
    · exact min?_mem hs
  · exact hfrom hs

theorem appends_sealedRow {e : Entry} {gap : ℕ} {purgeFrom : Option ℤ} {records' : List AuditLog}
    (h : HonestTable S s.key keys records purged s.rows)
    (hrecord : purgeFrom = none ∨
      sealedRow S s.key s.ring s.rows e (s.nextId gap) purgeFrom ∈ records') :
    Appends S s.key records' s.rows
      (sealedRow S s.key s.ring s.rows e (s.nextId gap) purgeFrom) where
  above := by simpa using lt_nextId gap
  positive := by
    have hpos : ∀ log ∈ s.rows, 0 < log.id := fun log hlog =>
      (h.positive log (mem_append_right _ hlog)).1
    have hid := nextId_pos hpos gap
    refine ⟨by simpa using hid, fun start hs => ?_⟩
    exact idsWith_pos hpos hid start (sealedRow_chainStart_mem (lt_nextId gap) hs)
  sealedBy := sealedRow_sealedBy (lt_nextId gap)
  linked := by
    intro last hlast
    have hmem : last ∈ purged ++ s.rows := mem_append_right _ (mem_of_getLast? hlast)
    obtain ⟨key', -, hsealed⟩ := h.sealed last hmem
    rw [sealedRow_prevHash (lt_nextId gap), hlast]
    exact hsealed.tip.symm
  plain := by
    intro last hlast hunder
    have hany : s.rows.getLast?.any (underKey S s.key) = true := by simp [hlast, hunder]
    rw [sealedRow_retiredKeys (lt_nextId gap), sealedRow_chainStart (lt_nextId gap), hany]
    refine ⟨by cases s.key <;> simp, fun hstart => ?_⟩
    rcases hrecord with hnone | hmem
    · simp [hnone] at hstart
    · exact hmem

end Append

/-- The tables that the session sees, has committed or can go back to. -/
def Ledger.layers (s : Ledger) : List (List AuditLog) := s.rows :: s.committed :: s.savepoints

theorem Ledger.rows_mem (s : Ledger) : s.rows ∈ s.layers := by simp [layers]

theorem Ledger.committed_mem (s : Ledger) : s.committed ∈ s.layers := by simp [layers]

/-- The ledger was written by the server alone. -/
structure Honest (S : Sealing) (s : Ledger) : Prop where
  key : ∀ k, s.key = some k → k ∈ s.usedKeys
  tables : ∀ rows ∈ s.layers, HonestTable S s.key s.usedKeys s.records s.purged rows

namespace Ledger

def purgeRecord (S : Sealing) (s : Ledger) (p : Purge) : AuditLog :=
  let boundary := purgeBoundary s.rows p.cutoff
  sealedRow S s.key s.ring s.rows (p.record (s.rows.filter (·.id < boundary)).length)
    (s.nextId p.gap) (some boundary)

/-- The ledger after a purge that committed the removal of the first rows. -/
def afterPurge (S : Sealing) (s : Ledger) (p : Purge) (n : ℕ) : Ledger :=
  { s with
    rows := (s.rows ++ [s.purgeRecord S p]).drop n
    pending := match s.key with
      | none => s.pending
      | some k => reconcileKeyring s.ring (S.keyId k) s.pending
    purged := s.purged ++ (s.rows ++ [s.purgeRecord S p]).take n
    records := s.records ++ [s.purgeRecord S p] }.commit

/-- What a purge does: nothing, a rollback, or the removal of a front part below the boundary, which
is all of it unless the purge is interrupted. -/
theorem purge_cases {s : Ledger} (p : Purge) (hasc : Ascending.Ascends AuditLog.id s.rows) :
    s.purge S p = s ∨ s.purge S p = s.rollback ∨
      ∃ n < (s.rows ++ [s.purgeRecord S p]).length, s.purge S p = s.afterPurge S p n ∧
        (∀ log ∈ (s.rows ++ [s.purgeRecord S p]).take n, log.id < purgeBoundary s.rows p.cutoff) ∧
        (p.stopAfter = none → ∀ log ∈ (s.rows ++ [s.purgeRecord S p]).drop n,
          purgeBoundary s.rows p.cutoff ≤ log.id) := by
  by_cases hcount : (s.rows.filter (·.id < purgeBoundary s.rows p.cutoff)).length = 0
  · exact .inl (by simp only [purge, if_pos hcount])
  by_cases hstop : p.stopAfter = some 0
  · refine .inr (.inl ?_)
    simp only [purge, if_neg hcount, if_pos hstop]
    rfl
  refine .inr (.inr ?_)
  set record := s.purgeRecord S p with hrecord
  have hid : record.id = s.nextId p.gap := sealedRow_id
  have hstaged : Ascending.Ascends AuditLog.id (s.rows ++ [record]) :=
    Ascending.pairwise_concat hasc (hid ▸ lt_nextId p.gap)
  have hreach : purgeBoundary s.rows p.cutoff ≤ record.id := hid ▸ purgeBoundary_le_nextId ..
  obtain ⟨n, hkept, hbelow⟩ := deleteBatches_eq hstaged (purgeBoundary s.rows p.cutoff)
    (p.stopAfter.getD (s.rows ++ [record]).length)
  refine ⟨n, Ascending.lt_length_of_take (a := record) (by simp) hreach hbelow, ?_, hbelow, ?_⟩
  · have hstagedRows : (s.append S (p.record _) p.gap _).rows = s.rows ++ [record] := rfl
    simp only [purge, if_neg hcount, if_neg hstop, hstagedRows, hkept,
      hstaged.filter_notMem_drop n, getLast?_append]
    rfl
  · intro hnone
    rw [← hkept, hnone]
    exact deleteBatches_complete hstaged le_rfl

end Ledger

theorem Honest.ascending {s : Ledger} (h : Honest S s) : Ascending.Ascends AuditLog.id s.rows :=
  (pairwise_append.mp (h.tables _ s.rows_mem).ascending).2.1

theorem layers_commit {s : Ledger} (h : rows ∈ s.commit.layers) : rows = s.rows := by
  simpa [Ledger.commit, Ledger.afterCommit, Ledger.layers] using h

theorem layers_rollback {s : Ledger} (h : rows ∈ s.rollback.layers) : rows = s.committed := by
  simpa [Ledger.rollback, Ledger.afterRollback, Ledger.layers] using h

theorem honest_step {s : Ledger} (h : Honest S s) (ev : Event) : Honest S (s.step S ev) := by
  have hrows := h.tables _ s.rows_mem
  have hcommitted := h.tables _ s.committed_mem
  cases ev with
  | append e gap =>
    exact ⟨h.key, forall_mem_cons.mpr ⟨hrows.concat (appends_sealedRow hrows (.inl rfl)) h.key,
      (forall_mem_cons.mp h.tables).2⟩⟩
  | beginNested =>
    refine ⟨h.key, fun rows hmem => h.tables rows ?_⟩
    simp only [Ledger.step, Ledger.layers, mem_cons] at hmem ⊢
    tauto
  | release | rollbackTo =>
    simp only [Ledger.step]
    split
    · exact h
    · next saved rest heq =>
      refine ⟨h.key, fun rows hmem => h.tables rows ?_⟩
      simp only [Ledger.layers, mem_cons, heq] at hmem ⊢
      tauto
  | commit => exact ⟨h.key, fun rows hmem => layers_commit hmem ▸ hrows⟩
  | rollback => exact ⟨h.key, fun rows hmem => layers_rollback hmem ▸ hcommitted⟩
  | switchKey k =>
    simp only [Ledger.step]
    split
    · exact h
    · next hfresh =>
      refine ⟨fun k' hk' => by simp_all, fun rows hmem => ?_⟩
      exact (h.tables rows hmem).switchKey hfresh
  | purge p =>
    simp only [Ledger.step]
    rcases Ledger.purge_cases (S := S) p h.ascending with heq | heq | ⟨n, hn, heq, -⟩ <;> rw [heq]
    · exact h
    · exact ⟨h.key, fun rows hmem => layers_rollback hmem ▸ hcommitted⟩
    · refine ⟨h.key, fun rows hmem => ?_⟩
      obtain rfl := layers_commit hmem
      have hrecord : Appends S s.key (s.records ++ [s.purgeRecord S p]) s.rows (s.purgeRecord S p) :=
        appends_sealedRow hrows (.inr (by simp [Ledger.purgeRecord]))
      have hstaged := (hrows.records_mono (subset_append_left _ _)).concat hrecord h.key
      exact hstaged.drop hn

theorem honest_init (key : Option ℕ) : Honest S (Ledger.init key) := by
  refine ⟨fun k hk => by simp_all [Ledger.init], fun rows hmem => ?_⟩
  obtain rfl : rows = [] := by simpa [Ledger.layers, Ledger.init] using hmem
  constructor <;> simp [Ledger.init]

end UltimateCaManager.Audit
