import UltimateCaManager.AuditVerifiable

/-!
# Ledgers of the server verify

Every ledger that appends, transactions, key switches and purges reach verifies, provided that the
key history is written with the entry that needs it. It is written too early or not at all when a
savepoint ends in between, and too late for a second key in the same transaction; and an
interrupted purge leaves rows before the start that the first entry under a key records.
-/
namespace UltimateCaManager.Audit

open List Runs

variable {S : Sealing} {s : Ledger}

/-! ## The key history -/

variable {ring : Option Keyring} {rows : List AuditLog}

theorem reconcileKeyring_of_current {pending : Option Keyring} {keyId : List Char}
    (h : ring.any (·.current = keyId)) : reconcileKeyring ring keyId pending = pending := by
  simp [reconcileKeyring, h]

/-- The history that is written for a new current key keeps the keys that it had. -/
theorem reconcileKeyring_of_other {keyId : List Char} (h : ring.any (·.current = keyId) = false) :
    ∃ q, q.current = keyId ∧ keyId ∈ q.history ∧
      (∀ pending, reconcileKeyring ring keyId pending = some q) ∧
      ∀ g, ring = some g → g.history ⊆ q.history := by
  refine ⟨⟨keyId, (knownKeys ring).filter (· ≠ keyId) ++ [keyId]⟩, rfl, by simp,
    fun pending => by simp [reconcileKeyring, h], ?_⟩
  rintro g rfl other hother
  have hknown : other ∈ knownKeys (some g) := by
    rw [knownKeys]
    split
    · exact mem_append_left _ hother
    · exact hother
  by_cases heq : other = keyId
  · simp [heq]
  · exact mem_append_left _ (mem_filter.mpr ⟨hknown, by simpa using heq⟩)

/-- The history lists the keys of the ledger, or will when the open transaction ends. -/
structure Ringed (S : Sealing) (s : Ledger) : Prop where
  listed : s.pending = none → ∀ rows ∈ s.layers, Listed s.ring rows
  committed : Listed s.ring s.committed
  pending : ∀ p, s.pending = some p → ∃ k, s.key = some k ∧
    reconcileKeyring s.ring (S.keyId k) none = some p ∧ Listed (some p) s.rows ∧
    s.rows.getLast?.any (underKey S s.key)
  current : ∀ g k, s.ring = some g → s.key = some k → g.current = S.keyId k →
    ∀ rows ∈ s.layers, rows.getLast?.any (underKey S s.key)
  self : ∀ g, s.ring = some g → g.current ∈ g.history ∧ ∃ k ∈ s.usedKeys, g.current = S.keyId k

theorem Listed.mono {rows' : List AuditLog} (h : Listed ring rows)
    (hsub : rows' ⊆ rows) : Listed ring rows' :=
  fun log hlog => h log (hsub hlog)

theorem Listed.concat {log : AuditLog} (h : Listed ring rows)
    (hlog : ∀ keyId, log.hashKeyId = some keyId → ∃ g, ring = some g ∧ keyId ∈ g.history) :
    Listed ring (rows ++ [log]) :=
  forall_mem_append.mpr ⟨h, by simpa using hlog⟩

theorem Listed.ring_mono {ring' : Option Keyring} (h : Listed ring rows)
    (hsub : ∀ g, ring = some g → ∃ g', ring' = some g' ∧ g.history ⊆ g'.history) :
    Listed ring' rows := by
  intro log hlog keyId hkeyId
  obtain ⟨g, hg, hmem⟩ := h log hlog keyId hkeyId
  obtain ⟨g', hg', hhistory⟩ := hsub g hg
  exact ⟨g', hg', hhistory hmem⟩

theorem Ringed.ready (h : Ringed S s) : Ready S s.key s.ring s.rows := by
  intro hfind
  have hlast := not_last_under hfind
  have hpending : s.pending = none := Option.eq_none_iff_forall_ne_some.mpr fun p hp => by
    obtain ⟨k, -, -, -, hunder⟩ := h.pending p hp
    simp [hlast] at hunder
  refine ⟨h.listed hpending _ s.rows_mem, fun k g hk hg hcurrent => ?_⟩
  have hunder := h.current g k hg hk hcurrent _ s.rows_mem
  simp [hlast] at hunder

theorem Ringed.append (h : Ringed S s) (e : Entry) (gap : ℕ) (purgeFrom : Option ℤ) :
    Ringed S (s.append S e gap purgeFrom) := by
  set new := sealedRow S s.key s.ring s.rows e (s.nextId gap) purgeFrom with hnew
  have hnewKey : new.hashKeyId = s.key.map S.keyId := (sealedRow_sealedBy (lt_nextId gap)).hashKeyId
  have hlayers : ∀ rows ∈ (s.append S e gap purgeFrom).layers, rows = s.rows ++ [new] ∨ rows ∈ s.layers := by
    intro rows hmem
    simp only [Ledger.layers, mem_cons] at hmem ⊢
    tauto
  have hlast : s.key.isSome → (s.rows ++ [new]).getLast?.any (underKey S s.key) := fun hsome => by
    simp [hnew, underKey_sealedRow (lt_nextId gap), hsome]
  have hplain (hpending : s.pending = none) (hwritten : (s.append S e gap purgeFrom).pending = none)
      (hkey : ∀ keyId, s.key.map S.keyId = some keyId → ∃ g, s.ring = some g ∧ keyId ∈ g.history) :
      Ringed S (s.append S e gap purgeFrom) := by
    refine ⟨fun _ rows hmem => ?_, h.committed, fun p hp => ?_, fun g k hg hk hcur rows hmem => ?_,
      h.self⟩
    · rcases hlayers rows hmem with rfl | hmem
      · exact (h.listed hpending _ s.rows_mem).concat (hnewKey ▸ hkey)
      · exact h.listed hpending rows hmem
    · simp [hwritten] at hp
    · rcases hlayers rows hmem with rfl | hmem
      · exact hlast (Option.isSome_of_mem hk)
      · exact h.current g k hg hk hcur rows hmem
  cases hk : s.key with
  | none =>
    have hpending : s.pending = none := Option.eq_none_iff_forall_ne_some.mpr fun p hp => by
      obtain ⟨k, hsome, -⟩ := h.pending p hp
      simp [hk] at hsome
    exact hplain hpending (by simp [Ledger.append, hk, hpending]) (by simp [hk])
  | some k =>
    have hpendingEq : (s.append S e gap purgeFrom).pending =
        reconcileKeyring s.ring (S.keyId k) s.pending := by simp [Ledger.append, hk]
    cases hc : s.ring.any (·.current = S.keyId k) with
    | true =>
      obtain ⟨g, hg, hcurrent⟩ : ∃ g, s.ring = some g ∧ g.current = S.keyId k := by
        simpa [Option.any_eq_true] using hc
      have hpending : s.pending = none := Option.eq_none_iff_forall_ne_some.mpr fun p hp => by
        obtain ⟨k', hk', hq, -⟩ := h.pending p hp
        cases hk.symm.trans hk'
        rw [reconcileKeyring_of_current hc] at hq
        cases hq
      rw [reconcileKeyring_of_current hc] at hpendingEq
      refine hplain hpending (hpendingEq.trans hpending) fun keyId hid => ⟨g, hg, ?_⟩
      rw [hk, Option.map_some, Option.some.injEq] at hid
      exact hid ▸ hcurrent ▸ (h.self g hg).1
    | false =>
      obtain ⟨q, hqcurrent, hqself, hq, hkeeps⟩ := reconcileKeyring_of_other hc
      have hrows : Listed (some q) s.rows := by
        cases hp : s.pending with
        | none =>
          exact (h.listed hp _ s.rows_mem).ring_mono fun g hg => ⟨q, rfl, hkeeps g hg⟩
        | some p =>
          obtain ⟨k', hk', hp', hlisted, -⟩ := h.pending p hp
          cases hk.symm.trans hk'
          rw [hq] at hp'
          exact hp' ▸ hlisted
      rw [hq] at hpendingEq
      refine ⟨fun hnone => ?_, h.committed, fun p hp => ?_, fun g k' hg hk' hcur => ?_, h.self⟩
      · simp [hpendingEq] at hnone
      · rw [hpendingEq, Option.some.injEq] at hp
        subst hp
        refine ⟨k, hk, hq none, hrows.concat fun keyId hid => ?_, hlast (by simp [hk])⟩
        rw [hnewKey, hk, Option.map_some, Option.some.injEq] at hid
        exact ⟨q, rfl, hid ▸ hqself⟩
      · cases hk.symm.trans hk'
        have hring : s.ring = some g := hg
        simp [hring, hcur] at hc

/-- Rows at the front of what the session sees may go, if some are left. -/
theorem Ringed.drop {n : ℕ} {purged records : List AuditLog} (h : Ringed S s)
    (hn : n < s.rows.length) :
    Ringed S { s with rows := s.rows.drop n, purged := purged, records := records } := by
  have hlast : (s.rows.drop n).getLast? = s.rows.getLast? := by
    rw [getLast?_drop, if_neg (by omega)]
  refine ⟨fun hp rows hmem => ?_, h.committed, fun p hp => ?_, fun g k hg hk hcur rows hmem => ?_,
    h.self⟩
  · rcases mem_cons.mp hmem with rfl | hmem
    · exact (h.listed hp _ s.rows_mem).mono (drop_subset n _)
    · exact h.listed hp rows (mem_cons_of_mem _ hmem)
  · obtain ⟨k, hk, hq, hlisted, hunder⟩ := h.pending p hp
    exact ⟨k, hk, hq, hlisted.mono (drop_subset n _), hlast ▸ hunder⟩
  · rcases mem_cons.mp hmem with rfl | hmem
    · exact hlast ▸ h.current g k hg hk hcur _ s.rows_mem
    · exact h.current g k hg hk hcur rows (mem_cons_of_mem _ hmem)

theorem Ringed.commit (h : Ringed S s) (hkeys : ∀ k, s.key = some k → k ∈ s.usedKeys) :
    Ringed S s.commit := by
  cases hp : s.pending with
  | none =>
    have hring : s.commit.ring = s.ring := by simp [Ledger.commit, Ledger.afterCommit, hp]
    have hrows := h.listed hp _ s.rows_mem
    refine ⟨fun _ rows hmem => ?_, hring ▸ hrows, fun p hnone => (by cases hnone),
      fun g k hg hk hcur rows hmem => ?_, fun g hg => h.self g (hring ▸ hg)⟩
    · exact hring ▸ layers_commit hmem ▸ hrows
    · exact layers_commit hmem ▸ h.current g k (hring ▸ hg) hk hcur _ s.rows_mem
  | some p =>
    have hring : s.commit.ring = some p := by simp [Ledger.commit, Ledger.afterCommit, hp]
    obtain ⟨k, hk, hq, hlisted, hunder⟩ := h.pending p hp
    have hother : s.ring.any (·.current = S.keyId k) = false := by
      by_contra hc
      rw [reconcileKeyring_of_current (by simpa using hc)] at hq
      cases hq
    obtain ⟨q, hqcurrent, hqself, hqeq, -⟩ := reconcileKeyring_of_other hother
    rw [hqeq, Option.some.injEq] at hq
    subst hq
    refine ⟨fun _ rows hmem => ?_, hring ▸ hlisted, fun p hnone => (by cases hnone),
      fun g k' _ _ _ rows hmem => layers_commit hmem ▸ hunder, fun g hg => ?_⟩
    · exact hring ▸ layers_commit hmem ▸ hlisted
    · rw [hring, Option.some.injEq] at hg
      subst hg
      exact ⟨hqcurrent ▸ hqself, k, hkeys k hk, hqcurrent⟩

theorem Ringed.rollback (h : Ringed S s) : Ringed S s.rollback := by
  refine ⟨fun _ rows hmem => layers_rollback hmem ▸ h.committed, h.committed,
    fun p hnone => (by cases hnone), fun g k hg hk hcur rows hmem => ?_, h.self⟩
  exact layers_rollback hmem ▸ h.current g k hg hk hcur _ s.committed_mem

/-! ## Runs -/

/-- The step leaves the key history in time: no savepoint ends and no key is switched while a
history waits to be written, and a purge that is interrupted has entries under the current key
before its record. -/
def Timely (S : Sealing) (s : Ledger) : Event → Prop
  | .release | .rollbackTo | .switchKey _ => s.pending = none
  | .purge p => p.stopAfter = none ∨ s.key = none ∨ s.rows.getLast?.any (underKey S s.key)
  | .append _ _ | .beginNested | .commit | .rollback => True

instance (S : Sealing) (s : Ledger) (ev : Event) : Decidable (Timely S s ev) := by
  cases ev <;> unfold Timely <;> infer_instance

/-- Every table that the session can reach verifies, and goes on to. -/
structure Sound (S : Sealing) (s : Ledger) : Prop where
  honest : Honest S s
  verifiable : ∀ rows ∈ s.layers, Verifiable S s.key rows
  ringed : Ringed S s

theorem sound_init (key : Option ℕ) : Sound S (Ledger.init key) := by
  have hlayers : ∀ rows ∈ (Ledger.init key).layers, rows = [] := by
    simp [Ledger.layers, Ledger.init]
  refine ⟨honest_init key, fun rows hmem => ?_, ⟨fun _ rows hmem => ?_, ?_, ?_, ?_, ?_⟩⟩
  · rw [hlayers rows hmem]
    constructor <;> simp
  · rw [hlayers rows hmem]
    simp [Listed]
  all_goals simp [Listed, Ledger.init]

theorem Sound.purge {p : Purge} (h : Sound S s) (hp : Timely S s (.purge p)) :
    Sound S (s.step S (.purge p)) := by
  have htable := h.honest.tables _ s.rows_mem
  have hhonest := honest_step h.honest (Event.purge p)
  simp only [Ledger.step] at hhonest ⊢
  rcases Ledger.purge_cases (S := S) p h.honest.ascending with heq | heq | ⟨n, hn, heq, hbelow, hall⟩
  · exact heq.symm ▸ h
  · rw [heq] at hhonest ⊢
    exact ⟨hhonest, fun rows hmem => layers_rollback hmem ▸
      h.verifiable _ s.committed_mem, h.ringed.rollback⟩
  · rw [heq] at hhonest ⊢
    refine ⟨hhonest, fun rows hmem => ?_, ?_⟩
    · rw [layers_commit hmem]
      refine (h.verifiable _ s.rows_mem).purge (lt_nextId p.gap) htable h.ringed.ready
        (purgeBoundary_le_nextId p.cutoff p.gap) rfl hbelow ?_
      rcases hp with hnone | hkey | hlast
      · exact .inl (hall hnone)
      · exact .inr (.inl hkey)
      · refine .inr (.inr fun hfind => ?_)
        simp [not_last_under hfind] at hlast
    · have happend := h.ringed.append (p.record (s.rows.filter
        (·.id < purgeBoundary s.rows p.cutoff)).length) p.gap (some (purgeBoundary s.rows p.cutoff))
      exact (happend.drop hn).commit h.honest.key

/-- With no history to write, the session may go to other tables that it can go back to. -/
theorem Sound.relayer {s' : Ledger} {savepoints : List (List AuditLog)} (h : Sound S s)
    (hp : s.pending = none) (hrows : rows ∈ s.layers) (hsavepoints : savepoints ⊆ s.layers)
    (hs' : s' = { s with rows := rows, savepoints := savepoints, pending := none })
    (hhonest : Honest S s') : Sound S s' := by
  have hlayers : ∀ rows' ∈ s'.layers, rows' ∈ s.layers := by
    rw [hs']
    intro rows' hmem
    rcases mem_cons.mp hmem with rfl | hmem
    · exact hrows
    · rcases mem_cons.mp hmem with rfl | hmem
      · exact s.committed_mem
      · exact hsavepoints hmem
  subst hs'
  exact ⟨hhonest, fun rows' hmem => h.verifiable rows' (hlayers rows' hmem),
    fun _ rows' hmem => h.ringed.listed hp rows' (hlayers rows' hmem), h.ringed.committed,
    fun p hnone => (by cases hnone), fun g k hg hk hcur rows' hmem =>
      h.ringed.current g k hg hk hcur rows' (hlayers rows' hmem), h.ringed.self⟩

theorem sound_step (ev : Event) (h : Sound S s) (hev : Timely S s ev) : Sound S (s.step S ev) := by
  have hsavepoints : s.savepoints ⊆ s.layers := fun rows hmem => by simp [Ledger.layers, hmem]
  cases ev with
  | append e gap =>
    refine ⟨honest_step h.honest _, forall_mem_cons.mpr ⟨?_, (forall_mem_cons.mp h.verifiable).2⟩,
      h.ringed.append e gap none⟩
    exact (h.verifiable _ s.rows_mem).concat (lt_nextId gap) (h.honest.tables _ s.rows_mem)
      h.ringed.ready
  | beginNested =>
    have hlayers : ∀ rows ∈ (s.step S .beginNested).layers, rows ∈ s.layers := by
      intro rows hmem
      simp only [Ledger.step, Ledger.layers, mem_cons] at hmem ⊢
      tauto
    exact ⟨honest_step h.honest _, fun rows hmem => h.verifiable rows (hlayers rows hmem),
      fun hp rows hmem => h.ringed.listed hp rows (hlayers rows hmem), h.ringed.committed,
      h.ringed.pending, fun g k hg hk hcur rows hmem =>
        h.ringed.current g k hg hk hcur rows (hlayers rows hmem), h.ringed.self⟩
  | release =>
    have hhonest := honest_step h.honest Event.release
    simp only [Ledger.step] at hhonest ⊢
    split at hhonest
    · exact h
    · next saved rest heq =>
      have hrest : rest ⊆ s.layers := fun rows hmem => hsavepoints (by simp [heq, hmem])
      exact h.relayer hev s.rows_mem hrest (by simp [Timely] at hev; simp [Ledger.afterCommit, hev]) hhonest
  | rollbackTo =>
    have hhonest := honest_step h.honest Event.rollbackTo
    simp only [Ledger.step] at hhonest ⊢
    split at hhonest
    · exact h
    · next saved rest heq =>
      have hrest : rest ⊆ s.layers := fun rows hmem => hsavepoints (by simp [heq, hmem])
      have hsaved : saved ∈ s.layers := hsavepoints (by simp [heq])
      exact h.relayer hev hsaved hrest rfl hhonest
  | commit =>
    exact ⟨honest_step h.honest _, fun rows hmem => layers_commit hmem ▸ h.verifiable _ s.rows_mem,
      h.ringed.commit h.honest.key⟩
  | rollback =>
    exact ⟨honest_step h.honest _,
      fun rows hmem => layers_rollback hmem ▸ h.verifiable _ s.committed_mem, h.ringed.rollback⟩
  | switchKey k =>
    have hhonest := honest_step h.honest (Event.switchKey k)
    simp only [Ledger.step] at hhonest ⊢
    split at hhonest
    · next hused =>
      rw [if_pos hused]
      exact h
    · next hfresh =>
      rw [if_neg hfresh]
      refine ⟨hhonest, fun rows hmem =>
        (h.verifiable rows hmem).switchKey (h.honest.tables rows hmem) hfresh, ?_⟩
      refine ⟨fun _ => h.ringed.listed hev, h.ringed.committed, fun p hp => ?_,
        fun g k' hg hk' hcur => ?_, fun g hg => ?_⟩
      · exact absurd (hp.symm.trans hev) (by simp)
      · -- the history names a key that was used
        obtain ⟨-, k₀, hk₀, hcur₀⟩ := h.ringed.self g hg
        cases hk'
        exact absurd (S.keyId_injective (hcur.symm.trans hcur₀) ▸ hk₀) hfresh
      · obtain ⟨hself, k₀, hk₀, hcur₀⟩ := h.ringed.self g hg
        exact ⟨hself, k₀, mem_cons_of_mem _ hk₀, hcur₀⟩
  | purge p => exact h.purge hev

/-- Every committed ledger of a timely run verifies under the current key, as a whole and on every
range of ids. -/
theorem ledger_verifies (S : Sealing) (key : Option ℕ) {s : Ledger}
    (h : Reach (Ledger.step S) (Timely S) (Ledger.init key) s) (startId endId : Option ℤ) :
    (verifyIntegrity S s.key s.committed startId endId).valid = true := by
  have hsound : Sound S s := h.invariant (sound_init key) fun s ev _ hs hev => sound_step ev hs hev
  exact valid_of_verifiable (hsound.honest.tables _ s.committed_mem)
    (hsound.verifiable _ s.committed_mem) startId endId

def plainEntry (instant : ℕ) : Entry where
  timestamp := some instant
  username := some ['u']
  action := ['a']
  resourceType := none
  resourceId := none
  resourceName := none
  details := none
  ipAddress := none
  userAgent := none
  success := some true

def plainPurge (cutoff instant : ℕ) : Purge where
  cutoff := cutoff
  retentionDays := 7
  now := instant
  username := ['u']
  ipAddress := none
  userAgent := none
  gap := 0
  stopAfter := none

/-- Two keys and a purge; the second key is first used in a savepoint of a transaction that is
committed. -/
def ordinaryLife : List Event :=
  [.append (plainEntry 1) 0, .commit, .switchKey 2, .append (plainEntry 2) 0, .beginNested,
    .commit, .append (plainEntry 3) 1, .commit, .purge (plainPurge 2 4)]

theorem ledger_verifies_ordinary_life :
    (exec (Ledger.step .transparent) (Ledger.init (some 1)) ordinaryLife).committed.length = 3 ∧
      ∀ startId endId, (verifyIntegrity .transparent
        (exec (Ledger.step .transparent) (Ledger.init (some 1)) ordinaryLife).key
        (exec (Ledger.step .transparent) (Ledger.init (some 1)) ordinaryLife).committed
        startId endId).valid = true :=
  ⟨by decide +kernel, ledger_verifies .transparent (some 1) (Reach.start.exec (by decide +kernel))⟩

/-- The first entry under a new key is written in a savepoint; the savepoint is released and the
transaction rolled back. -/
def earlyHistory : List Event :=
  [.append (plainEntry 1) 0, .commit, .switchKey 2, .beginNested, .append (plainEntry 2) 0,
    .release, .rollback, .append (plainEntry 3) 0, .commit]

/-- The history already names the new key when its first entry is committed, which then attests no
other key. -/
theorem history_written_by_savepoint :
    (verifyIntegrity .transparent
      (exec (Ledger.step .transparent) (Ledger.init (some 1)) earlyHistory).key
      (exec (Ledger.step .transparent) (Ledger.init (some 1)) earlyHistory).committed
      none none).valid = false := by
  decide +kernel

end UltimateCaManager.Audit
