import UltimateCaManager.AuditHonest
import Mathlib.Data.List.Find

/-!
# Tables of the server that verify

A table that the server wrote verifies under the current key, as a whole and on every range of ids,
when the first entry under the key attests the other keys before it and records say where the
table starts. Appends and purges keep this when the key history lists the keys of the table.
-/
namespace UltimateCaManager.Audit

open List Ascending

variable {S : Sealing} {key : Option ℕ} {keys : List ℕ} {log : AuditLog}
  {records purged rows logs : List AuditLog}

/-! ## Ranges -/

theorem range_part (h : Ascends AuditLog.id rows) (startId endId : Option ℤ) :
    range rows startId endId <:+: rows := by
  have hupper : ∀ bound : Option ℤ, ∃ n, rows.filter (fun log => bound.all (log.id ≤ ·)) = rows.take n := by
    intro bound
    cases bound with
    | none => exact ⟨rows.length, by simp⟩
    | some b =>
      obtain ⟨n, -, heq⟩ := h.filter_lt (b + 1)
      refine ⟨n, ?_⟩
      simp only [← heq, Option.all_some, Int.lt_add_one_iff]
  obtain ⟨n, hn⟩ := hupper (endId.filter (· ≠ 0))
  obtain ⟨m, hm⟩ := exists_filter_eq_drop (l := rows.take n)
    (p := fun log => (startId.filter (· ≠ 0)).all (· ≤ log.id)) <| by
      refine (h.sublist (take_sublist n rows)).imp fun hab => ?_
      cases startId.filter (· ≠ 0) with
      | none => simp
      | some b =>
        simp only [Option.all_some, decide_eq_true_eq]
        omega
  have heq : range rows startId endId = (rows.take n).drop m := by
    rw [← hm, ← hn, filter_filter]
    rfl
  rw [heq]
  exact (drop_suffix m _).isInfix.trans ( take_prefix n rows).isInfix

theorem mem_range_between {startId endId : Option ℤ} {a b c : AuditLog}
    (ha : a ∈ range rows startId endId) (hc : c ∈ range rows startId endId) (hb : b ∈ rows)
    (hab : a.id ≤ b.id) (hbc : b.id ≤ c.id) : b ∈ range rows startId endId := by
  simp only [range, mem_filter, Bool.and_eq_true, Option.all_eq_true, decide_eq_true_eq] at *
  refine ⟨hb, fun m hm => ?_, fun m hm => ?_⟩
  · have := ha.2.1 m hm
    omega
  · have := hc.2.2 m hm
    omega

/-! ## The pass over a range -/

/-- Entries that are sealed and linked, those under the key last, are all accepted. -/
theorem walked_of_sealed (hsealed : ∀ log ∈ logs, ∃ key', log.SealedBy S key')
    (hlinked : logs.IsChain fun a b => b.prevHash = a.entryHash)
    (hlasting : logs.Pairwise fun a b => underKey S key a → underKey S key b) :
    Walked S key logs (walk S key logs) := by
  refine walked_of_accepts fun before log after heq hwalked => ?_
  have hmem : ∀ a ∈ before, a ∈ logs := fun a ha => by simp [heq, ha]
  obtain ⟨key', hlog⟩ := hsealed log (by simp [heq])
  have hclass : ∃ c, log.classify S key = some c := by
    cases key' with
    | none => exact ⟨_, hlog.classify_none key⟩
    | some k =>
      by_cases hk : key = some k
      · exact ⟨_, hk ▸ hlog.classify_self⟩
      · exact ⟨_, hlog.classify_foreign hk⟩
  obtain ⟨c, hc⟩ := hclass
  refine ⟨c, hc, fun hne => ?_, fun _ => ?_⟩
  · -- an entry under the key before this one would have made it one too
    rw [hwalked.firstKeyed, Option.map_eq_none_iff, find?_eq_none]
    intro a ha hkeyed
    obtain ⟨keyₐ, hsealedₐ⟩ := hsealed a (hmem a ha)
    rw [hsealedₐ.keyed_iff] at hkeyed
    rw [heq, pairwise_append] at hlasting
    have hunder := hlasting.2.2 a ha log (mem_cons_self ..) hkeyed
    rw [← hlog.keyed_iff, AuditLog.keyed, hc] at hunder
    simp [hne] at hunder
  · cases hlast : before.getLast? with
    | none =>
      left
      rw [getLast?_eq_none_iff.mp hlast]
      rfl
    | some last =>
      right
      intro p hp
      rw [heq, isChain_append] at hlinked
      have hprev : log.prevHash = last.entryHash :=
        hlinked.2.2 last hlast log (by simp)
      obtain ⟨keyₗ, hsealedₗ⟩ := hsealed last (hmem last (mem_of_getLast? hlast))
      rw [hlog.given_prevHash, hprev, hsealedₗ.tip] at hp
      rw [hwalked.prevHash, hlast, Option.map_some, hp]

/-! ## What a table needs to verify -/

/-- The entry attests the other one, which is under another key. -/
def AuditLog.Attests (f log : AuditLog) : Prop :=
  ∃ rotation keyId last, f.retiredKeys = some rotation ∧ log.hashKeyId = some keyId ∧
    rotation.keys.lookup keyId = some last ∧ log.id ≤ last

/-- The first entry under the key attests what is before it, and records say where the table
starts. -/
structure Verifiable (S : Sealing) (key : Option ℕ) (rows : List AuditLog) : Prop where
  attested : ∀ f, rows.find? (underKey S key) = some f → ∀ log ∈ rows, log.id < f.id →
    log.hashVersion = some keyedChain → f.Attests log
  started : ∀ head, rows.head? = some head →
    (∃ log ∈ rows, ∃ start, log.chainStart = some start ∧ head.id ≤ start) ∨
      ∀ log ∈ rows, log.hashVersion = some sha256Chain ∧ log.chainStart = none
  startedKeyed : ∀ head, rows.head? = some head → (∃ log ∈ rows, underKey S key log) →
    ∃ log ∈ rows, underKey S key log ∧ ∃ start, log.chainStart = some start ∧ head.id ≤ start
  opened : ∀ head f, rows.head? = some head → rows.find? (underKey S key) = some f →
    f = head ∨ ∃ start, f.chainStart = some start ∧ start ≤ head.id

theorem find?_keyed_eq (hsealed : ∀ log ∈ logs, ∃ key', log.SealedBy S key') :
    logs.find? (AuditLog.keyed S key) = logs.find? (underKey S key) := by
  refine find?_congr fun log hlog => ?_
  obtain ⟨key', h⟩ := hsealed log hlog
  exact h.keyed_iff

theorem lt_of_find?_under (hasc : Ascends AuditLog.id rows)
    (hlasting : rows.Pairwise fun a b => underKey S key a → underKey S key b) {f : AuditLog}
    (hf : rows.find? (underKey S key) = some f) (hlog : log ∈ rows) (hnot : ¬underKey S key log) :
    log.id < f.id := by
  obtain ⟨hunder, before, after, rfl, -⟩ := find?_eq_some_iff_append.mp hf
  rcases mem_append.mp hlog with hlog | hlog
  · exact (pairwise_append.mp hasc).2.2 log hlog f (mem_cons_self ..)
  · rcases mem_cons.mp hlog with rfl | hlog
    · exact absurd hunder hnot
    · have hafter := (pairwise_cons.mp (pairwise_append.mp hlasting).2.1).1
      exact absurd (hafter log hlog hunder) hnot

section Verification

variable {w : Walk} (htable : HonestTable S key keys records purged rows)
  (hverifiable : Verifiable S key rows)

include htable

theorem HonestTable.ascends : Ascends AuditLog.id rows :=
  (pairwise_append.mp htable.ascending).2.1

theorem HonestTable.lasts :
    rows.Pairwise fun a b => underKey S key a → underKey S key b :=
  (pairwise_append.mp htable.lasting).2.1

theorem HonestTable.sealedBy : ∀ log ∈ rows, ∃ key', log.SealedBy S key' := by
  intro log hlog
  obtain ⟨key', -, h⟩ := htable.sealed log (mem_append_right _ hlog)
  exact ⟨key', h⟩

/-- The pass over a part of the table has no errors. -/
theorem HonestTable.walked (hpart : logs <:+: rows) :
    Walked S key logs (walk S key logs) := by
  refine walked_of_sealed (fun log hlog => htable.sealedBy log (hpart.subset hlog)) ?_ ?_
  · obtain ⟨front, back, heq⟩ := hpart
    have hlinked := htable.linked.right_of_append
    rw [← heq] at hlinked
    exact hlinked.left_of_append.right_of_append
  · exact htable.lasts.sublist hpart.sublist

include hverifiable

theorem attests_range (startId endId : Option ℤ)
    (hw : Walked S key (range rows startId endId) w) (hkeyed : w.firstKeyed ≠ none) : w.Attests := by
  have hpart := range_part htable.ascends startId endId
  have hsub := hpart.subset
  intro span hspan
  obtain ⟨log, hlog, hforeign, hid, hlast⟩ := hw.span span hspan
  obtain ⟨key', hsealed⟩ := htable.sealedBy log (hsub hlog)
  -- the entry is under another key, before the first one under the current key
  have hnot : ¬underKey S key log := by
    rw [← hsealed.keyed_iff, AuditLog.keyed, hforeign]
    simp
  have hversion : log.hashVersion = some keyedChain := by
    cases key' with
    | none => simp [hsealed.classify_none] at hforeign
    | some k => exact hsealed.hashVersion
  obtain ⟨f, hf⟩ : ∃ f, (range rows startId endId).find? (underKey S key) = some f := by
    rw [hw.firstKeyed, find?_keyed_eq fun l hl => htable.sealedBy l (hsub hl)] at hkeyed
    exact Option.ne_none_iff_exists'.mp fun e => hkeyed (by simp [e])
  obtain ⟨f', hf'⟩ : ∃ f', rows.find? (underKey S key) = some f' := by
    refine Option.isSome_iff_exists.mp (find?_isSome.mpr ⟨f, hsub (mem_of_find?_eq_some hf), ?_⟩)
    exact find?_some hf
  have hlt := lt_of_find?_under htable.ascends htable.lasts hf' (hsub hlog) hnot
  have hle := htable.ascends.le_of_find? hf' (hsub (mem_of_find?_eq_some hf)) (find?_some hf)
  -- the first entry of the table under the key is between the two, hence in the range
  have hmem : f' ∈ range rows startId endId := mem_range_between hlog
    (mem_of_find?_eq_some hf) (mem_of_find?_eq_some hf') (by omega) hle
  have hle' := (htable.ascends.sublist hpart.sublist).le_of_find? hf hmem (find?_some hf')
  have heq : f = f' := htable.ascends.eq_of_key (hsub (mem_of_find?_eq_some hf))
    (mem_of_find?_eq_some hf') (by omega)
  subst heq
  obtain ⟨rotation, keyId, last, hretired, hkeyId, hlookup, hbelow⟩ :=
    hverifiable.attested f hf' log (hsub hlog) hlt hversion
  refine ⟨last, ?_, by omega⟩
  rw [Walk.limitOf, hw.rotation, find?_keyed_eq fun l hl => htable.sealedBy l (hsub hl), hf, ← hid, hkeyId]
  simpa [hretired] using hlookup

theorem checkChainStart_table {first : First} (hw : Walked S key rows w) (hfirst : w.first = some first) :
    w.checkChainStart first = w := by
  obtain ⟨head, hhead, hid⟩ : ∃ head, rows.head? = some head ∧ head.id = first.id := by
    rw [hw.first, Option.map_eq_some_iff] at hfirst
    obtain ⟨head, hhead, rfl⟩ := hfirst
    exact ⟨head, hhead, rfl⟩
  have hversion : first.hashVersion = head.hashVersion := by
    rw [hw.first, hhead] at hfirst
    cases hfirst
    rfl
  have hpositive : ∀ log ∈ rows, ∀ start, log.chainStart = some start → 0 < start :=
    fun log hlog => (htable.positive log (mem_append_right _ hlog)).2
  have hkeyed := hw.firstKeyed
  rw [find?_keyed_eq htable.sealedBy] at hkeyed
  have hunderKeyed : ∀ log ∈ rows, underKey S key log → log.keyed S key := by
    intro log hlog hunder
    obtain ⟨key', hsealed⟩ := htable.sealedBy log hlog
    rwa [hsealed.keyed_iff]
  cases hf : rows.find? (underKey S key) with
  | some f =>
    rw [hf] at hkeyed
    have hfmem := mem_of_find?_eq_some hf
    have hfunder := find?_some hf
    obtain ⟨log, hlog, hunder, start, hstart, hle⟩ := hverifiable.startedKeyed head hhead ⟨f, hfmem, hfunder⟩
    obtain ⟨m, hm, hstartle⟩ := hw.keyedStart.reached hpositive log hlog (hunderKeyed log hlog hunder)
      start hstart
    refine Walk.checkChainStart_keyed hkeyed hm (by omega) ?_
    rcases hverifiable.opened head f hhead hf with rfl | ⟨start', hstart', hle'⟩
    · exact .inl hid.symm
    · obtain ⟨m', hm', hmin⟩ := hw.keyedMinStart.reached hpositive f hfmem (hunderKeyed f hfmem hfunder)
        start' hstart'
      exact .inr ⟨m', hm', by omega⟩
  | none =>
    rw [hf] at hkeyed
    have hsealedClass : ∀ log ∈ rows, log.classify S key ≠ some .unsealed := by
      intro log hlog hc
      obtain ⟨key', hsealed⟩ := htable.sealedBy log hlog
      rw [Walk.classify_unsealed, hsealed.given_entryHash] at hc
      cases hc
    refine Walk.checkChainStart_unkeyed hkeyed ?_
    rcases hverifiable.started head hhead with ⟨log, hlog, start, hstart, hle⟩ | hplain
    · obtain ⟨m, hm, hstartle⟩ := hw.anyStart.reached hpositive log hlog (hsealedClass log hlog) start hstart
      exact .inl ⟨m, hm, by omega⟩
    · refine .inr ⟨?_, ?_⟩
      · by_contra hsome
        obtain ⟨m, hm⟩ := Option.ne_none_iff_exists'.mp hsome
        obtain ⟨log, hlog, -, hstart⟩ := hw.anyStart.source m hm
        rw [(hplain log hlog).2] at hstart
        cases hstart
      · rw [hversion, (hplain head (mem_of_mem_head? hhead)).1]
        decide

theorem valid_of_verifiable (startId endId : Option ℤ) :
    (verifyIntegrity S key rows startId endId).valid = true := by
  have hw := htable.walked (range_part htable.ascends startId endId)
  rw [verifyIntegrity, verifyChain, Walk.finish,
    Walk.conclude_eq fun _ => attests_range htable hverifiable startId endId hw]
  · simp [hw.errorCount]
  · intro hwhole first hfirst
    simp only [Bool.and_eq_true, Option.isNone_iff_eq_none] at hwhole
    obtain ⟨rfl, rfl⟩ := hwhole
    have hall : range rows none none = rows := by simp [range]
    rw [hall] at hw hfirst ⊢
    exact checkChainStart_table htable hverifiable hw hfirst

end Verification

/-! ## The other keys in the ledger -/

def Listed (ring : Option Keyring) (rows : List AuditLog) : Prop :=
  ∀ log ∈ rows, ∀ keyId, log.hashKeyId = some keyId → ∃ g, ring = some g ∧ keyId ∈ g.history

theorem mem_otherKeyed {keyId other : List Char} {id : ℤ} :
    (other, id) ∈ otherKeyed rows keyId ↔ ∃ log ∈ rows, log.hashVersion = some keyedChain ∧
      log.hashKeyId = some other ∧ other ≠ keyId ∧ log.id = id := by
  simp only [otherKeyed, mem_filterMap]
  constructor
  · rintro ⟨log, hlog, h⟩
    split at h
    · next other' hother =>
      split at h
      · next hcond =>
        cases h
        exact ⟨log, hlog, hcond.1, hother, hcond.2, rfl⟩
      · cases h
    · cases h
  · rintro ⟨log, hlog, hversion, hother, hne, rfl⟩
    exact ⟨log, hlog, by simp [hversion, hother, hne]⟩

/-- A row under another key is not after the last one that the ledger is said to hold. -/
theorem lookup_inLedger {keyId other : List Char} {p : List Char × ℤ → Bool}
    (hp : ∀ last, p (other, last)) (hlog : log ∈ rows) (hversion : log.hashVersion = some keyedChain)
    (hother : log.hashKeyId = some other) (hne : other ≠ keyId) :
    ∃ last, ((inLedger rows keyId).filter p).lookup other = some last ∧ log.id ≤ last := by
  have hkeyed : (other, log.id) ∈ otherKeyed rows keyId :=
    mem_otherKeyed.mpr ⟨log, hlog, hversion, hother, hne, rfl⟩
  have hids : log.id ∈ ((otherKeyed rows keyId).filter (·.1 = other)).map Prod.snd :=
    mem_map.mpr ⟨(other, log.id), mem_filter.mpr ⟨hkeyed, by simp⟩, rfl⟩
  obtain ⟨last, hmax⟩ := Option.isSome_iff_exists.mp (isSome_max?_of_mem hids)
  refine ⟨last, ?_, (max?_eq_some_iff.mp hmax).2 _ hids⟩
  have hkeys : other ∈ ((otherKeyed rows keyId).map Prod.fst).dedup :=
    mem_dedup.mpr (mem_map_of_mem (f := Prod.fst) hkeyed)
  simp only [inLedger]
  generalize ((otherKeyed rows keyId).map Prod.fst).dedup = others at hkeys ⊢
  induction others with
  | nil => cases hkeys
  | cons o others ih =>
    by_cases ho : o = other
    · subst ho
      simp [hmax, hp last]
    · have hrest := ih ((mem_cons.mp hkeys).resolve_left (Ne.symm ho))
      cases hm : (((otherKeyed rows keyId).filter (·.1 = o)).map Prod.snd).max? with
      | none => simpa [hm] using hrest
      | some m =>
        have hbeq : (other == o) = false := by simpa using Ne.symm ho
        by_cases hpo : p (o, m)
        · simpa [hm, hpo, lookup_cons, hbeq] using hrest
        · simpa [hm, hpo] using hrest

/-- The first entry under a key that the history does not name yet attests every other key. -/
theorem attests_rotation {ring : Option Keyring} {k : ℕ} {f : AuditLog} (hlisted : Listed ring rows)
    (hcurrent : ∀ g, ring = some g → g.current ≠ S.keyId k)
    (hf : f.retiredKeys = rotation ring rows (S.keyId k)) (hlog : log ∈ rows)
    (hversion : log.hashVersion = some keyedChain) {other : List Char}
    (hother : log.hashKeyId = some other) (hne : other ≠ S.keyId k) : f.Attests log := by
  obtain ⟨g, rfl, hmem⟩ := hlisted log hlog other hother
  obtain ⟨last, hlookup, hle⟩ := lookup_inLedger (p := fun entry => entry.1 ∈ g.history)
    (fun _ => by simpa using hmem) hlog hversion hother hne
  have hknown : ((inLedger rows (S.keyId k)).filter fun entry => entry.1 ∈ g.history) ≠ [] := by
    intro e
    simp [e] at hlookup
  refine ⟨⟨true, _⟩, other, last, hf.trans ?_, hother, hlookup, hle⟩
  simp [rotation, if_neg (hcurrent g rfl), if_neg hknown]

/-! ## Appending and purging -/

section Steps

theorem Verifiable.switchKey {k : ℕ} (htable : HonestTable S key keys records purged rows)
    (h : Verifiable S key rows) (hk : k ∉ keys) : Verifiable S (some k) rows := by
  have hnone : ∀ log ∈ rows, ¬underKey S (some k) log := fun log hlog => by
    simp [htable.not_under hk (mem_append_right _ hlog)]
  have hfind : rows.find? (underKey S (some k)) = none := find?_eq_none.mpr hnone
  refine ⟨fun f hf => ?_, h.started, fun head _ hex => ?_, fun head f _ hf => ?_⟩
  · simp [hfind] at hf
  · obtain ⟨log, hlog, hunder⟩ := hex
    exact absurd hunder (hnone log hlog)
  · simp [hfind] at hf

variable {ring : Option Keyring} {e : Entry} {id : ℤ} {purgeFrom : Option ℤ}

/-- The history lets the next entry under the key attest the other keys of the rows. -/
def Ready (S : Sealing) (key : Option ℕ) (ring : Option Keyring) (rows : List AuditLog) : Prop :=
  rows.find? (underKey S key) = none →
    Listed ring rows ∧ ∀ k g, key = some k → ring = some g → g.current ≠ S.keyId k

theorem isSome_of_underKey (h : underKey S key log) : key.isSome := by
  cases key <;> simp_all [underKey]

theorem not_last_under (h : rows.find? (underKey S key) = none) :
    rows.getLast?.any (underKey S key) = false := by
  cases hlast : rows.getLast? with
  | none => rfl
  | some last =>
    simpa using find?_eq_none.mp h last (mem_of_getLast? hlast)

variable (habove : ∀ other ∈ rows, other.id < id)

include habove

theorem underKey_sealedRow :
    underKey S key (sealedRow S key ring rows e id purgeFrom) = key.isSome := by
  rw [Bool.eq_iff_iff, (sealedRow_sealedBy habove).underKey_iff]
  simp

theorem find?_under_concat :
    (rows ++ [sealedRow S key ring rows e id purgeFrom]).find? (underKey S key) =
      (rows.find? (underKey S key)).or
        (if key.isSome then some (sealedRow S key ring rows e id purgeFrom) else none) := by
  rw [find?_append, find?_singleton, underKey_sealedRow habove]

/-- The start that the first entry under a key records is the first id of the table. -/
theorem chainStart_first (hasc : Ascends AuditLog.id rows) (hsome : key.isSome)
    (hfind : rows.find? (underKey S key) = none) {head : AuditLog}
    (hhead : (rows ++ [sealedRow S key ring rows e id none]).head? = some head) :
    (sealedRow S key ring rows e id none).chainStart = some head.id := by
  have hstaged : Ascends AuditLog.id (rows ++ [sealedRow S key ring rows e id none]) :=
    pairwise_concat hasc (sealedRow_id ▸ habove)
  have hmin := hstaged.min?_map
  rw [hhead] at hmin
  rw [sealedRow_chainStart habove, if_pos ⟨hsome, not_last_under hfind⟩]
  simpa [idsWith] using hmin

/-- A purge record names the first id that is not below its boundary. -/
theorem chainStart_record {boundary : ℤ} (hreach : boundary ≤ id) :
    ∃ start, (sealedRow S key ring rows e id (some boundary)).chainStart = some start ∧
      start ∈ idsWith rows id ∧ boundary ≤ start ∧
      ∀ m ∈ idsWith rows id, boundary ≤ m → start ≤ m := by
  have hmem : id ∈ (idsWith rows id).filter (boundary ≤ ·) := by simp [idsWith, hreach]
  obtain ⟨start, hmin⟩ : ∃ start, startFrom rows id boundary = some start :=
    Option.isSome_iff_exists.mp (isSome_min?_of_mem hmem)
  obtain ⟨hstart, hleast⟩ := min?_eq_some_iff.mp hmin
  obtain ⟨hids, hge⟩ := mem_filter.mp hstart
  refine ⟨start, ?_, hids, by simpa using hge, fun m hm hbm => ?_⟩
  · rw [sealedRow_chainStart habove, Option.bind_some, hmin]
    split <;> rfl
  · exact hleast m (mem_filter.mpr ⟨hm, by simpa using hbm⟩)

variable (htable : HonestTable S key keys records purged rows) (h : Verifiable S key rows)
  (hready : Ready S key ring rows)

include htable h hready

/-- The first entry under the key in the rows with one more attests what is before it. -/
theorem attested_concat :
    ∀ f, (rows ++ [sealedRow S key ring rows e id purgeFrom]).find? (underKey S key) = some f →
      ∀ log ∈ rows ++ [sealedRow S key ring rows e id purgeFrom], log.id < f.id →
        log.hashVersion = some keyedChain → f.Attests log := by
  intro f hf log hlog hlt hversion
  rw [find?_under_concat habove] at hf
  cases hfind : rows.find? (underKey S key) with
  | some f' =>
    rw [hfind, Option.some_or, Option.some.injEq] at hf
    subst hf
    rcases mem_append.mp hlog with hlog | hlog
    · exact h.attested f' hfind log hlog hlt hversion
    · rw [mem_singleton.mp hlog, sealedRow_id] at hlt
      have := habove f' (mem_of_find?_eq_some hfind)
      omega
  | none =>
    rw [hfind] at hf
    cases key with
    | none => simp at hf
    | some k =>
      have hf : sealedRow S (some k) ring rows e id purgeFrom = f := by simpa using hf
      have hlog : log ∈ rows := by
        rcases mem_append.mp hlog with hlog | hlog
        · exact hlog
        · rw [mem_singleton.mp hlog, hf] at hlt
          exact absurd hlt (lt_irrefl _)
      obtain ⟨hlisted, hcurrent⟩ := hready hfind
      obtain ⟨key', hsealed⟩ := htable.sealedBy log hlog
      have hnot : ¬underKey S (some k) log := by simpa using find?_eq_none.mp hfind log hlog
      cases key' with
      | none => simp [hsealed.hashVersion, sha256Chain, keyedChain] at hversion
      | some k' =>
        have hother : log.hashKeyId = some (S.keyId k') := hsealed.hashKeyId
        have hne : S.keyId k' ≠ S.keyId k := by
          intro heq
          rw [S.keyId_injective heq] at hsealed
          exact hnot (hsealed.underKey_iff.mpr ⟨rfl, rfl⟩)
        refine attests_rotation hlisted (fun g => hcurrent k g rfl) ?_ hlog hversion hother hne
        rw [← hf, sealedRow_retiredKeys habove, not_last_under hfind]
        rfl

theorem Verifiable.concat :
    Verifiable S key (rows ++ [sealedRow S key ring rows e id none]) := by
  set new := sealedRow S key ring rows e id none with hnew
  have hmem : new ∈ rows ++ [new] := by simp
  have hfirst : ∀ head, key.isSome → rows.find? (underKey S key) = none →
      (rows ++ [new]).head? = some head → new.chainStart = some head.id :=
    fun head hsome hfind hhead => chainStart_first habove htable.ascends hsome hfind hhead
  have hunder : key.isSome → underKey S key new := fun hsome => by
    rw [underKey_sealedRow habove, hsome]
  -- a head of the longer table is the head of the rows, if they have one
  have hheads : ∀ head, (rows ++ [new]).head? = some head → rows = [] ∨ rows.head? = some head := by
    intro head hhead
    cases rows with
    | nil => exact .inl rfl
    | cons r rest => exact .inr (by simpa using hhead)
  constructor
  case attested => exact attested_concat habove htable h hready
  case startedKeyed =>
    intro head hhead ⟨log, hlog, hlogUnder⟩
    have hsome := isSome_of_underKey hlogUnder
    cases hfind : rows.find? (underKey S key) with
    | none => exact ⟨new, hmem, hunder hsome, head.id, hfirst head hsome hfind hhead, le_rfl⟩
    | some f =>
      have hfmem := mem_of_find?_eq_some hfind
      have hhead' := (hheads head hhead).resolve_left (ne_nil_of_mem hfmem)
      obtain ⟨log', hlog', hstart⟩ := h.startedKeyed head hhead' ⟨f, hfmem, find?_some hfind⟩
      exact ⟨log', mem_append_left _ hlog', hstart⟩
  case opened =>
    intro head f hhead hf
    rw [find?_under_concat habove] at hf
    cases hfind : rows.find? (underKey S key) with
    | none =>
      rw [hfind, Option.none_or] at hf
      have hsome : key.isSome := by cases key <;> simp_all
      rw [if_pos hsome, Option.some.injEq] at hf
      subst hf
      exact .inr ⟨head.id, hfirst head hsome hfind hhead, le_rfl⟩
    | some f' =>
      rw [hfind, Option.some_or, Option.some.injEq] at hf
      subst hf
      have hhead' := (hheads head hhead).resolve_left
        (ne_nil_of_mem (mem_of_find?_eq_some hfind))
      exact h.opened head f' hhead' hfind
  case started =>
    intro head hhead
    by_cases hstart : ∃ log ∈ rows, ∃ start, log.chainStart = some start ∧ head.id ≤ start
    · obtain ⟨log, hlog, hspec⟩ := hstart
      exact .inl ⟨log, mem_append_left _ hlog, hspec⟩
    · -- no record yet: the rows have no key, and the new entry records its start if it has one
      have hplain : ∀ log ∈ rows, log.hashVersion = some sha256Chain ∧ log.chainStart = none := by
        rcases hheads head hhead with rfl | hhead'
        · simp
        · exact (h.started head hhead').resolve_left hstart
      cases key with
      | none =>
        refine .inr (forall_mem_append.mpr ⟨hplain, forall_mem_singleton.mpr ?_⟩)
        rw [sealedRow_chainStart habove]
        exact ⟨rfl, by simp⟩
      | some k =>
        have hfind : rows.find? (underKey S (some k)) = none := by
          rw [find?_eq_none]
          intro log hlog
          simp [underKey, isUnder, (hplain log hlog).1, sha256Chain, keyedChain]
        exact .inl ⟨new, hmem, head.id, hfirst head rfl hfind hhead, le_rfl⟩

/-- A purge that is not interrupted, or whose record is not the first entry under its key, keeps a
table verifiable. -/
theorem Verifiable.purge {boundary : ℤ} {n : ℕ} {record : AuditLog}
    (hreach : boundary ≤ id) (hrecord : sealedRow S key ring rows e id (some boundary) = record)
    (hbelow : ∀ log ∈ (rows ++ [record]).take n, log.id < boundary)
    (hwhole : (∀ log ∈ (rows ++ [record]).drop n, boundary ≤ log.id) ∨ key = none ∨
      rows.find? (underKey S key) ≠ none) :
    Verifiable S key ((rows ++ [record]).drop n) := by
  have hid : record.id = id := hrecord ▸ sealedRow_id
  have hids : idsWith rows id = (rows ++ [record]).map AuditLog.id := by simp [idsWith, hid]
  obtain ⟨start, hstart, hmem, hge, hleast⟩ := chainStart_record (S := S) (e := e) habove hreach
  rw [hrecord] at hstart
  rw [hids] at hmem hleast
  have hasc : Ascends AuditLog.id (rows ++ [record]) :=
    pairwise_concat htable.ascends (hid ▸ habove)
  have hrecordUnder : underKey S key record = key.isSome := hrecord ▸ underKey_sealedRow habove
  have hlasts : (rows ++ [record]).Pairwise fun a b => underKey S key a → underKey S key b := by
    refine pairwise_concat htable.lasts fun a _ hunder => ?_
    rw [hrecordUnder, isSome_of_underKey hunder]
  have hdropAsc := hasc.sublist (drop_sublist n _)
  have hkept : ∀ log ∈ rows ++ [record], boundary ≤ log.id → log ∈ (rows ++ [record]).drop n := by
    intro log hlog hle
    rw [← take_append_drop n (rows ++ [record]), mem_append] at hlog
    refine hlog.resolve_left fun htake => ?_
    have := hbelow log htake
    omega
  have hrecordMem : record ∈ (rows ++ [record]).drop n := hkept record (by simp) (by omega)
  -- the row that the record names was kept
  have hheadStart : ∀ head, ((rows ++ [record]).drop n).head? = some head → head.id ≤ start := by
    intro head hhead
    obtain ⟨log, hlog, hlogId⟩ := mem_map.mp hmem
    exact hlogId ▸ hdropAsc.head_le hhead (hkept log hlog (by omega))
  constructor
  case attested =>
    intro f hf log hlog hlt hversion
    have hall : ∀ f, (rows ++ [record]).find? (underKey S key) = some f →
        ∀ log ∈ rows ++ [record], log.id < f.id → log.hashVersion = some keyedChain →
          f.Attests log := hrecord ▸ attested_concat habove htable h hready
    rcases find?_drop hlasts hf with hfirst | hhead
    · exact hall f hfirst log (mem_of_mem_drop hlog) hlt hversion
    · have := hdropAsc.head_le hhead hlog
      omega
  case started =>
    exact fun head hhead => .inl ⟨record, hrecordMem, start, hstart, hheadStart head hhead⟩
  case startedKeyed =>
    rintro head hhead ⟨log, -, hunder⟩
    refine ⟨record, hrecordMem, ?_, start, hstart, hheadStart head hhead⟩
    rw [hrecordUnder, isSome_of_underKey hunder]
  case opened =>
    intro head f hhead hf
    rcases find?_drop hlasts hf with hfirst | hfhead
    · have hheadMem := mem_of_mem_head? hhead
      rw [find?_append] at hfirst
      cases hfind : rows.find? (underKey S key) with
      | none =>
        -- the record is the first entry under its key, and the purge was not interrupted
        rw [hfind, Option.none_or] at hfirst
        have hfr : f = record := mem_singleton.mp (mem_of_find?_eq_some hfirst)
        have hcomplete : ∀ log ∈ (rows ++ [record]).drop n, boundary ≤ log.id := by
          refine hwhole.resolve_right fun hor => ?_
          rcases hor with hnokey | hne
          · have hsome := isSome_of_underKey (find?_some hf)
            simp [hnokey] at hsome
          · exact hne hfind
        refine .inr ⟨start, hfr ▸ hstart, hleast head.id ?_ (hcomplete head hheadMem)⟩
        exact mem_map_of_mem (mem_of_mem_drop hheadMem)
      | some f' =>
        rw [hfind, Option.some_or, Option.some.injEq] at hfirst
        subst hfirst
        obtain ⟨head₀, hhead₀⟩ : ∃ head₀, rows.head? = some head₀ :=
          Option.ne_none_iff_exists'.mp fun e => by
            simp [head?_eq_none_iff.mp e] at hfind
        have hstaged : (rows ++ [record]).head? = some head₀ := by
          rw [head?_append, hhead₀, Option.some_or]
        have hle := hasc.head_le hstaged (mem_of_mem_drop hheadMem)
        rcases h.opened head₀ f' hhead₀ hfind with rfl | ⟨start', hstart', hle'⟩
        · have hge := hdropAsc.head_le hhead (mem_of_find?_eq_some hf)
          exact .inl (hdropAsc.eq_of_key (mem_of_find?_eq_some hf) hheadMem (by omega))
        · exact .inr ⟨start', hstart', by omega⟩
    · exact .inl (Option.mem_unique hfhead hhead)

end Steps

end UltimateCaManager.Audit
