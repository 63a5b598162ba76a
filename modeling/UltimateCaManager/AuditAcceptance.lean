import UltimateCaManager.AuditWalk
import Mathlib.Data.List.Chain

/-!
# What a verification pass without errors has seen

A pass stays without errors exactly as long as each entry is accepted; the state of such a pass is
described by the entries that it was fed.
-/
namespace UltimateCaManager.Audit

open List

/-- How an entry that passes its own check is sealed. -/
inductive Class
  | unsealed
  | recomputable
  | foreign
  | keyed
  deriving DecidableEq

def Class.found : Class → Seal
  | .keyed => .keyed
  | .recomputable => .recomputable
  | .unsealed | .foreign => .other

/-- The class of an entry under a key, none when the entry fails its own check. -/
def AuditLog.classify (S : Sealing) (key : Option ℕ) (log : AuditLog) : Option Class :=
  match given log.entryHash with
  | none => some .unsealed
  | some entryHash =>
    if log.version = sha256Chain then
      if log.computeHash S log.prevHash none = entryHash then some .recomputable else none
    else if log.version = keyedChain then
      match key with
      | some k =>
        if log.hashKeyId = some (S.keyId k) then
          if log.computeHash S log.prevHash key = entryHash then some .keyed else none
        else some .foreign
      | none => some .foreign
    else none

namespace Walk

variable {S : Sealing} {key : Option ℕ} {w : Walk} {log : AuditLog}

def Linked (w : Walk) (log : AuditLog) : Prop :=
  w.first = none ∨ ∀ p, given log.prevHash = some p → w.prevHash = some p

/-- The entry is of the class and adds no error. -/
structure Accepts (S : Sealing) (key : Option ℕ) (w : Walk) (log : AuditLog) (c : Class) : Prop where
  classify : log.classify S key = some c
  keyed : c ≠ .keyed → w.firstKeyed = none
  linked : c ≠ .unsealed → w.Linked log

@[simp] theorem errorCount_error (id : ℤ) (kind : ErrorKind) :
    (w.error id kind).errorCount = w.errorCount + 1 := rfl

@[simp] theorem errorCount_enter : (w.enter log).errorCount = w.errorCount := rfl

@[simp] theorem firstKeyed_enter : (w.enter log).firstKeyed = w.firstKeyed := rfl

theorem checkLink_enter (h : w.Linked log) : (w.enter log).checkLink log = w.enter log := by
  unfold checkLink
  cases hp : given log.prevHash with
  | none => rfl
  | some p =>
    have heq : (w.enter log).prevHash = some p := by
      cases hf : w.first with
      | none => simp [enter, hf, hp]
      | some first =>
        have hlinked := h.resolve_left (by simp [hf]) p hp
        simp [enter, hf, hlinked]
    simp [heq]

theorem errorCount_checkLink_enter (h : ¬w.Linked log) :
    ((w.enter log).checkLink log).errorCount = w.errorCount + 1 := by
  simp only [Linked, not_or, not_forall] at h
  obtain ⟨hfirst, p, hp, hne⟩ := h
  have heq : (w.enter log).prevHash = w.prevHash := by
    simp [enter, hfirst]
  have hne' : some p ≠ w.prevHash := fun e => hne e.symm
  simp [checkLink, hp, heq, hne']

theorem errorCount_checkLink_le : w.errorCount ≤ (w.checkLink log).errorCount := by
  unfold checkLink
  split
  · split <;> simp
  · exact le_rfl

@[simp] theorem firstKeyed_checkLink : (w.checkLink log).firstKeyed = w.firstKeyed := by
  unfold checkLink
  split
  · split <;> rfl
  · rfl

@[simp] theorem errorCount_noteStart (n : ℕ) (found : Seal) :
    (w.noteStart log n found).errorCount = w.errorCount := by
  unfold noteStart
  repeat' split
  all_goals rfl

@[simp] theorem firstKeyed_noteStart (n : ℕ) (found : Seal) :
    (w.noteStart log n found).firstKeyed = w.firstKeyed := by
  unfold noteStart
  repeat' split
  all_goals rfl

theorem errorCount_settle_le (index n : ℕ) (found : Seal) :
    w.errorCount ≤ (w.settle log index n found).errorCount := by
  unfold settle takeOver
  split
  · split <;> simp
  · split
    · exact le_rfl
    · split <;> exact le_rfl
    · exact le_rfl

/-! ## One entry -/

/-- An entry of another key is noted until an entry under the key takes over. -/
def note (key : Option ℕ) (w : Walk) (log : AuditLog) (c : Class) : Walk :=
  if c = .foreign then
    { w with
      retiredCount := w.retiredCount + 1
      retired := if key.isSome ∧ w.firstKeyed = none then noteRetired log.hashKeyId log.id w.retired
        else w.retired }
  else w

variable {c : Class}

/-- The class of an entry decides what the check of its seal makes of a pass. -/
theorem checkSeal_spec (S : Sealing) (key : Option ℕ) (w : Walk) {h : List Char}
    (hh : given log.entryHash = some h) :
    match log.classify S key with
    | some c => w.checkSeal S key log h = (w.note key log c, c.found)
    | none => (w.checkSeal S key log h).1.errorCount = w.errorCount + 1 := by
  simp only [AuditLog.classify, hh, checkSeal]
  by_cases hv : log.version = sha256Chain
  · by_cases heq : log.computeHash S log.prevHash none = h
    · simp [hv, heq, note, Class.found]
    · simp [hv, heq]
  by_cases hk : log.version = keyedChain
  · have hne : keyedChain ≠ sha256Chain := by decide
    cases key with
    | none => simp [hk, hne, note, Class.found]
    | some k =>
      by_cases hid : log.hashKeyId = some (S.keyId k)
      · by_cases heq : log.computeHash S log.prevHash (some k) = h
        · simp [hk, hne, hid, heq, note, Class.found]
        · simp [hk, hne, hid, heq]
      · simp [hk, hne, hid, note, Class.found]
  · simp [hv, hk]

@[simp] theorem errorCount_note (c : Class) : (w.note key log c).errorCount = w.errorCount := by
  unfold note
  split <;> rfl

@[simp] theorem firstKeyed_note (c : Class) : (w.note key log c).firstKeyed = w.firstKeyed := by
  unfold note
  split <;> rfl

theorem feed_unsealed (h : given log.entryHash = none) : w.feed S key log = (w.enter log).skip log := by
  simp [feed, h]

theorem feed_sealed {h : List Char} (hh : given log.entryHash = some h)
    (hc : log.classify S key = some c) :
    w.feed S key log =
      (({ ((w.enter log).checkLink log).note key log c with prevHash := some h }.noteStart log
        w.errorCount c.found).settle log w.checked w.errorCount c.found) := by
  have hseal := checkSeal_spec S key ((w.enter log).checkLink log) hh
  rw [hc] at hseal
  simp [feed, hh, hseal]

theorem classify_unsealed : log.classify S key = some .unsealed ↔ given log.entryHash = none := by
  unfold AuditLog.classify
  cases given log.entryHash with
  | none => simp
  | some h =>
    cases key <;> grind

theorem exists_entryHash (hc : log.classify S key = some c) (hne : c ≠ .unsealed) :
    ∃ h, given log.entryHash = some h := by
  cases hh : given log.entryHash with
  | some h => exact ⟨h, rfl⟩
  | none =>
    rw [classify_unsealed.mpr hh] at hc
    exact absurd (Option.some.inj hc).symm hne

/-- A pass never loses an error, and an entry that is not accepted adds one. -/
theorem errorCount_feed_pos (h : ∀ c, ¬w.Accepts S key log c) :
    w.errorCount < (w.feed S key log).errorCount := by
  cases hh : given log.entryHash with
  | none =>
    have hkeyed : w.firstKeyed ≠ none := fun e =>
      h .unsealed ⟨classify_unsealed.mpr hh, fun _ => e, fun e => absurd rfl e⟩
    have hsome : w.firstKeyed.isSome = true := Option.isSome_iff_ne_none.mpr hkeyed
    simp [feed_unsealed hh, skip, hsome]
  | some entryHash =>
    cases hc : log.classify S key with
    | none =>
      have hseal := checkSeal_spec S key ((w.enter log).checkLink log) hh
      rw [hc] at hseal
      have hlink : (w.enter log).errorCount ≤ ((w.enter log).checkLink log).errorCount :=
        errorCount_checkLink_le
      rw [errorCount_enter] at hlink
      simp only [feed, hh]
      refine lt_of_lt_of_le ?_ (errorCount_settle_le _ _ _)
      simp only [errorCount_noteStart]
      omega
    | some c =>
      rw [feed_sealed hh hc]
      by_cases hlinked : w.Linked log
      · -- linked and of a good class, so it comes after the key took over
        have hlate : c ≠ .keyed ∧ w.firstKeyed ≠ none := by
          by_contra hcon
          refine h c ⟨hc, fun hk => ?_, fun _ => hlinked⟩
          by_contra hf
          exact hcon ⟨hk, hf⟩
        have hfound : c.found ≠ .keyed := by
          cases c <;> simp_all [Class.found]
        have hsome : w.firstKeyed.isSome = true := Option.isSome_iff_ne_none.mpr hlate.2
        simp [checkLink_enter hlinked, settle, hsome, hfound]
      · refine lt_of_lt_of_le ?_ (errorCount_settle_le _ _ _)
        simp [errorCount_checkLink_enter hlinked]

theorem errorCount_feed_le : w.errorCount ≤ (w.feed S key log).errorCount := by
  by_cases h : ∃ c, w.Accepts S key log c
  · obtain ⟨c, hc⟩ := h
    by_cases hne : c = .unsealed
    · subst hne
      simp [feed_unsealed (classify_unsealed.mp hc.classify), skip, hc.keyed (by decide)]
    · obtain ⟨entryHash, hh⟩ := exists_entryHash hc.classify hne
      rw [feed_sealed hh hc.classify, checkLink_enter (hc.linked hne)]
      refine le_trans ?_ (errorCount_settle_le _ _ _)
      simp
  · exact (errorCount_feed_pos (not_exists.mp h)).le

/-- The bound after an entry that may say where the ledger starts. -/
def bounded (pick : ℤ → ℤ → ℤ) (bound start : Option ℤ) : Option ℤ :=
  match start with
  | some start => some (extremum pick bound start)
  | none => bound

/-- What an accepted entry makes of a pass without errors. -/
structure Fed (key : Option ℕ) (w : Walk) (log : AuditLog) (c : Class) (w' : Walk) : Prop where
  errorCount : w'.errorCount = 0
  checked : w'.checked = w.checked + 1
  first : w'.first =
    some (w.first.getD ⟨log.id, log.hashVersion, (given log.prevHash).getD genesis⟩)
  prevHash : w'.prevHash = some ((given log.entryHash).getD genesis)
  firstKeyed : w'.firstKeyed = w.firstKeyed.or (if c = .keyed then some log.id else none)
  rotation : w'.rotation = if w.firstKeyed = none ∧ c = .keyed then
    (log.retiredKeys.map Rotation.keys).getD [] else w.rotation
  errorsAtFirstKeyed : w.errorsAtFirstKeyed = 0 → w'.errorsAtFirstKeyed = 0
  retired : w'.retired = if c = .foreign ∧ key.isSome ∧ w.firstKeyed = none then
    noteRetired log.hashKeyId log.id w.retired else w.retired
  keyedStart : w'.keyedStart =
    if c = .keyed then bounded max w.keyedStart log.chainStart else w.keyedStart
  keyedMinStart : w'.keyedMinStart =
    if c = .keyed then bounded min w.keyedMinStart log.chainStart else w.keyedMinStart
  anyStart : w'.anyStart =
    if c ≠ .unsealed then bounded max w.anyStart log.chainStart else w.anyStart

theorem Accepts.fed (hw : w.errorCount = 0) (h : w.Accepts S key log c) :
    Fed key w log c (w.feed S key log) := by
  by_cases hne : c = .unsealed
  · subst hne
    have hh := classify_unsealed.mp h.classify
    have hkeyed := h.keyed (by decide)
    rw [feed_unsealed hh]
    constructor <;> simp [skip, enter, hkeyed, hh, hw]
  · obtain ⟨entryHash, hh⟩ := exists_entryHash h.classify hne
    have hlink := checkLink_enter (h.linked hne)
    rw [feed_sealed hh h.classify, hlink]
    cases c with
    | unsealed => exact absurd rfl hne
    | keyed =>
      cases hk : w.firstKeyed <;> cases hs : log.chainStart <;>
        constructor <;> simp [note, noteStart, settle, takeOver, enter, Class.found, bounded, hw, hh, hk, hs]
    | recomputable =>
      have hk := h.keyed (by decide)
      cases hr : w.runStart <;> cases hs : log.chainStart <;>
        constructor <;> simp [note, noteStart, settle, enter, Class.found, bounded, hw, hh, hk, hr, hs]
    | foreign =>
      have hk := h.keyed (by decide)
      cases hs : log.chainStart <;>
        constructor <;> simp [note, noteStart, settle, enter, Class.found, bounded, hw, hh, hk, hs]

end Walk

/-! ## The spans of other keys -/

theorem mem_noteRetired {keyId : Option (List Char)} {id : ℤ} {spans : List Span} {span : Span}
    (h : span ∈ noteRetired keyId id spans) :
    span ∈ spans ∨ span.keyId = keyId ∧ span.last = id := by
  induction spans with
  | nil =>
    rw [noteRetired, mem_singleton] at h
    exact .inr (by simp [h])
  | cons other spans ih =>
    rw [noteRetired] at h
    split at h
    · next heq =>
      rcases mem_cons.mp h with rfl | h
      · exact .inr ⟨heq, rfl⟩
      · exact .inl (mem_cons_of_mem _ h)
    · rcases mem_cons.mp h with rfl | h
      · exact .inl (mem_cons_self ..)
      · exact (ih h).imp_left (mem_cons_of_mem _)

theorem keyIds_noteRetired (keyId : Option (List Char)) (id : ℤ) (spans : List Span) :
    keyId ∈ (noteRetired keyId id spans).map Span.keyId ∧
      spans.map Span.keyId ⊆ (noteRetired keyId id spans).map Span.keyId := by
  induction spans with
  | nil => simp [noteRetired]
  | cons span spans ih =>
    rw [noteRetired]
    split
    · next heq => simp [heq]
    · refine ⟨mem_cons_of_mem _ ih.1, ?_⟩
      exact cons_subset_cons _ ih.2

/-! ## Where records say that the ledger starts -/

/-- A choice of one of two numbers, on the far side of both. -/
structure Picks (pick : ℤ → ℤ → ℤ) (R : ℤ → ℤ → Prop) : Prop where
  choice : ∀ a b, pick a b = a ∨ pick a b = b
  left : ∀ a b, R a (pick a b)
  right : ∀ a b, R b (pick a b)
  trans : ∀ a b c, R a b → R b c → R a c

theorem picks_max : Picks max (· ≤ ·) :=
  ⟨fun a b => by omega, fun a b => by omega, fun a b => by omega, fun _ _ _ => Int.le_trans⟩

theorem picks_min : Picks min (fun a b => b ≤ a) :=
  ⟨fun a b => by omega, fun a b => by omega, fun a b => by omega,
    fun _ _ _ h h' => Int.le_trans h' h⟩

/-- The bound stands on one of the recorded starts, and is on the far side of all of them. -/
structure Bounds (R : ℤ → ℤ → Prop) (P : AuditLog → Prop) (logs : List AuditLog)
    (bound : Option ℤ) : Prop where
  source : ∀ m, bound = some m → ∃ log ∈ logs, P log ∧ log.chainStart = some m
  reached : (∀ log ∈ logs, ∀ start, log.chainStart = some start → 0 < start) →
    ∀ log ∈ logs, P log → ∀ start, log.chainStart = some start → ∃ m, bound = some m ∧ R start m

theorem extremum_eq (pick : ℤ → ℤ → ℤ) (bound : Option ℤ) (start : ℤ) (h : ∀ m, bound = some m → 0 < m) :
    extremum pick bound start = pick (bound.getD start) start := by
  cases bound with
  | none => rfl
  | some m =>
    have hm : m ≠ 0 := by
      have := h m rfl
      omega
    simp [extremum, Option.filter, hm]

namespace Bounds

variable {pick : ℤ → ℤ → ℤ} {R : ℤ → ℤ → Prop} {P : AuditLog → Prop} {logs : List AuditLog}
  {bound : Option ℤ} {log : AuditLog}

theorem nil : Bounds R P [] none :=
  ⟨fun _ h => (nomatch h), fun _ _ h => (nomatch h)⟩

theorem skip (h : Bounds R P logs bound) (hlog : P log → log.chainStart = none) :
    Bounds R P (logs ++ [log]) bound := by
  refine ⟨fun m hm => ?_, fun hpos other hmem hP start hstart => ?_⟩
  · obtain ⟨other, hmem, hother⟩ := h.source m hm
    exact ⟨other, mem_append_left _ hmem, hother⟩
  · rcases mem_append.mp hmem with hmem | hmem
    · exact h.reached (fun l hl => hpos l (mem_append_left _ hl)) other hmem hP start hstart
    · rw [mem_singleton] at hmem
      subst hmem
      rw [hlog hP] at hstart
      cases hstart

theorem concat (hpick : Picks pick R) (h : Bounds R P logs bound) (hlog : P log) :
    Bounds R P (logs ++ [log]) (Walk.bounded pick bound log.chainStart) := by
  cases hs : log.chainStart with
  | none => exact h.skip fun _ => hs
  | some start =>
    refine ⟨fun m hm => ?_, fun hpos other hmem hP start' hstart' => ?_⟩
    · have hm' : extremum pick bound start = m := Option.some.inj hm
      have hmem : log ∈ logs ++ [log] := by simp
      rcases hpick.choice ((bound.filter (· ≠ 0)).getD start) start with hc | hc
      · cases hb : bound.filter (· ≠ 0) with
        | none =>
          rw [hb, Option.getD_none] at hc
          refine ⟨log, hmem, hlog, ?_⟩
          rw [hs, ← hm', extremum, hb, Option.getD_none, hc]
        | some b =>
          have hbound : bound = some b := (Option.filter_eq_some_iff.mp hb).1
          obtain ⟨other, hother, hP, hstart⟩ := h.source b hbound
          refine ⟨other, mem_append_left _ hother, hP, ?_⟩
          rw [hstart, ← hm', extremum, hc, hb, Option.getD_some]
      · refine ⟨log, hmem, hlog, ?_⟩
        rw [hs, ← hm', extremum, hc]
    · have hposLogs : ∀ l ∈ logs, ∀ s, l.chainStart = some s → 0 < s := fun l hl =>
        hpos l (mem_append_left _ hl)
      have hbound : ∀ m, bound = some m → 0 < m := by
        intro m hm
        obtain ⟨l, hl, -, hstart⟩ := h.source m hm
        exact hposLogs l hl m hstart
      refine ⟨pick (bound.getD start) start, by rw [Walk.bounded, extremum_eq pick bound start hbound], ?_⟩
      rcases mem_append.mp hmem with hmem | hmem
      · obtain ⟨m, rfl, hR⟩ := h.reached hposLogs other hmem hP start' hstart'
        exact hpick.trans _ _ _ hR (hpick.left m start)
      · rw [mem_singleton] at hmem
        subst hmem
        rw [hs] at hstart'
        cases hstart'
        exact hpick.right _ _

end Bounds

/-! ## A whole pass -/

variable {S : Sealing} {key : Option ℕ} {logs : List AuditLog} {log : AuditLog}

def AuditLog.keyed (S : Sealing) (key : Option ℕ) (log : AuditLog) : Bool :=
  log.classify S key = some .keyed

/-- The hash that the entry after this one has to name. -/
def AuditLog.tip (log : AuditLog) : List Char := (given log.entryHash).getD genesis

/-- A sealed entry names the entry before it. -/
def Follows (a b : AuditLog) : Prop :=
  given b.entryHash ≠ none → ∀ p, given b.prevHash = some p → a.tip = p

theorem walk_concat : walk S key (logs ++ [log]) = (walk S key logs).feed S key log := by
  simp [walk]

/-- The pass over the entries ran without errors and is in the state `w`. -/
structure Walked (S : Sealing) (key : Option ℕ) (logs : List AuditLog) (w : Walk) : Prop where
  errorCount : w.errorCount = 0
  checked : w.checked = logs.length
  first : w.first =
    logs.head?.map fun log => ⟨log.id, log.hashVersion, (given log.prevHash).getD genesis⟩
  prevHash : w.prevHash = logs.getLast?.map AuditLog.tip
  firstKeyed : w.firstKeyed = (logs.find? (AuditLog.keyed S key)).map AuditLog.id
  rotation : w.rotation = (((logs.find? (AuditLog.keyed S key)).bind AuditLog.retiredKeys).map
    Rotation.keys).getD []
  errorsAtFirstKeyed : w.errorsAtFirstKeyed = 0
  classified : ∀ log ∈ logs, log.classify S key ≠ none
  lasting : logs.Pairwise fun a b => a.keyed S key → b.keyed S key
  follows : logs.IsChain Follows
  span : ∀ span ∈ w.retired, ∃ log ∈ logs, log.classify S key = some .foreign ∧
    log.hashKeyId = span.keyId ∧ log.id = span.last
  spanned : key.isSome → ∀ log ∈ logs, log.classify S key = some .foreign →
    log.hashKeyId ∈ w.retired.map Span.keyId
  keyedStart : Bounds (· ≤ ·) (fun log => log.keyed S key) logs w.keyedStart
  keyedMinStart : Bounds (fun a b => b ≤ a) (fun log => log.keyed S key) logs w.keyedMinStart
  anyStart : Bounds (· ≤ ·) (fun log => log.classify S key ≠ some .unsealed) logs w.anyStart

theorem walked_nil : Walked S key [] Walk.init := by
  constructor <;> simp [Walk.init, Bounds.nil]

theorem find?_keyed_concat {c : Class} (hc : log.classify S key = some c) :
    (logs ++ [log]).find? (AuditLog.keyed S key) =
      (logs.find? (AuditLog.keyed S key)).or (if c = .keyed then some log else none) := by
  have hlog : log.keyed S key = decide (c = .keyed) := by simp [AuditLog.keyed, hc]
  rw [find?_append, find?_singleton, hlog]
  simp

theorem Walked.concat {w : Walk} {c : Class} (h : Walked S key logs w)
    (hlog : w.Accepts S key log c) : Walked S key (logs ++ [log]) (w.feed S key log) := by
  have hfed := hlog.fed h.errorCount
  have hc := hlog.classify
  have hkeyed : log.keyed S key = decide (c = .keyed) := by simp [AuditLog.keyed, hc]
  constructor
  case errorCount => exact hfed.errorCount
  case checked => simp [hfed.checked, h.checked]
  case first =>
    rw [hfed.first, h.first]
    cases logs <;> simp
  case prevHash => simp [hfed.prevHash, AuditLog.tip]
  case firstKeyed =>
    rw [hfed.firstKeyed, h.firstKeyed, find?_keyed_concat hc]
    cases logs.find? (AuditLog.keyed S key) <;> by_cases hk : c = .keyed <;> simp
  case rotation =>
    rw [hfed.rotation, h.rotation, find?_keyed_concat hc, h.firstKeyed]
    cases logs.find? (AuditLog.keyed S key) <;> by_cases hk : c = .keyed <;> simp [hk]
  case errorsAtFirstKeyed => exact hfed.errorsAtFirstKeyed h.errorsAtFirstKeyed
  case classified =>
    exact forall_mem_append.mpr ⟨h.classified, by simp [hc]⟩
  case lasting =>
    rw [pairwise_append]
    refine ⟨h.lasting, pairwise_singleton _ _, fun a ha b hb hak => ?_⟩
    rw [mem_singleton] at hb
    subst hb
    by_contra hbk
    -- an entry of another class is accepted only before the first one under the key
    have hnone := hlog.keyed fun hk => hbk (by simp [hkeyed, hk])
    rw [h.firstKeyed, Option.map_eq_none_iff, find?_eq_none] at hnone
    exact hnone a ha hak
  case follows =>
    rw [isChain_append]
    refine ⟨h.follows, .singleton _, fun a ha b hb hsealed p hp => ?_⟩
    rw [head?_cons, Option.mem_def, Option.some.injEq] at hb
    subst hb
    have hne : c ≠ .unsealed := fun e => hsealed (Walk.classify_unsealed.mp (e ▸ hc))
    have hfirst : w.first ≠ none := by
      rw [h.first]
      cases logs with
      | nil => cases ha
      | cons x xs => simp
    have hprev := (hlog.linked hne).resolve_left hfirst p hp
    rw [h.prevHash, Option.mem_def.mp ha] at hprev
    exact Option.some.inj hprev
  case span =>
    intro span hspan
    rw [hfed.retired] at hspan
    have hold : span ∈ w.retired → ∃ log' ∈ logs ++ [log], log'.classify S key = some .foreign ∧
        log'.hashKeyId = span.keyId ∧ log'.id = span.last := by
      intro hmem
      obtain ⟨other, hother, hspec⟩ := h.span span hmem
      exact ⟨other, mem_append_left _ hother, hspec⟩
    split at hspan
    · next hforeign =>
      rcases mem_noteRetired hspan with hmem | ⟨hid, hlast⟩
      · exact hold hmem
      · exact ⟨log, by simp, hforeign.1 ▸ hc, hid.symm, hlast.symm⟩
    · exact hold hspan
  case spanned =>
    intro hsome other hmem hforeign
    have hkeep : w.retired.map Span.keyId ⊆ (w.feed S key log).retired.map Span.keyId := by
      rw [hfed.retired]
      split
      · exact (keyIds_noteRetired _ _ _).2
      · exact List.Subset.refl _
    rcases mem_append.mp hmem with hmem | hmem
    · exact hkeep (h.spanned hsome other hmem hforeign)
    · rw [mem_singleton] at hmem
      subst hmem
      have hcf : c = .foreign := Option.mem_unique hc hforeign
      rw [hfed.retired, if_pos ⟨hcf, hsome, hlog.keyed (by simp [hcf])⟩]
      exact (keyIds_noteRetired _ _ _).1
  case keyedStart =>
    rw [hfed.keyedStart]
    split
    · next hk => exact h.keyedStart.concat picks_max (by simp [hkeyed, hk])
    · next hk => exact h.keyedStart.skip fun hlk => absurd hlk (by simp [hkeyed, hk])
  case keyedMinStart =>
    rw [hfed.keyedMinStart]
    split
    · next hk => exact h.keyedMinStart.concat picks_min (by simp [hkeyed, hk])
    · next hk => exact h.keyedMinStart.skip fun hlk => absurd hlk (by simp [hkeyed, hk])
  case anyStart =>
    rw [hfed.anyStart]
    split
    · next hne => exact h.anyStart.concat picks_max (by simpa [hc] using hne)
    · next he => exact h.anyStart.skip fun hne => absurd (hc.trans (by simpa using he)) hne

/-- A pass without errors is described by its entries. -/
theorem walked_of_errorCount (h : (walk S key logs).errorCount = 0) :
    Walked S key logs (walk S key logs) := by
  induction logs using reverseRecOn with
  | nil => exact walked_nil
  | append_singleton logs log ih =>
    rw [walk_concat] at h ⊢
    by_cases hacc : ∃ c, (walk S key logs).Accepts S key log c
    · obtain ⟨c, hc⟩ := hacc
      refine (ih ?_).concat hc
      exact Nat.le_zero.mp (h ▸ Walk.errorCount_feed_le)
    · have := Walk.errorCount_feed_pos (not_exists.mp hacc)
      omega

/-- A pass in which each entry is accepted where it stands has no errors. -/
theorem walked_of_accepts (h : ∀ before log after, logs = before ++ log :: after →
    Walked S key before (walk S key before) → ∃ c, (walk S key before).Accepts S key log c) :
    Walked S key logs (walk S key logs) := by
  induction logs using reverseRecOn with
  | nil => exact walked_nil
  | append_singleton logs log ih =>
    have hlogs := ih fun before log' after heq =>
      h before log' (after ++ [log]) (by simp [heq])
    obtain ⟨c, hc⟩ := h logs log [] rfl hlogs
    rw [walk_concat]
    exact hlogs.concat hc

/-! ## The end of a pass -/

namespace Walk

/-- Every entry under another key is attested by the first entry under the key. -/
def Attests (w : Walk) : Prop :=
  ∀ span ∈ w.retired, ∃ limit, w.limitOf span = some limit ∧ span.last ≤ limit

variable {w : Walk} {table : List AuditLog} {wholeTable : Bool} {upperId : Option ℤ}

theorem checkRetired_eq (h : w.Attests) : w.checkRetired table upperId = w := by
  refine foldlRecOn (motive := (· = w)) _ _ rfl fun w' hw' span hmem => ?_
  obtain ⟨limit, hlimit, hle⟩ := h span hmem
  simpa [hlimit, hle] using hw'

theorem errorCount_le_foldl_error {α : Type} (skip : α → Bool) (id : α → ℤ) (kind : ErrorKind)
    (xs : List α) (w : Walk) :
    w.errorCount ≤ (xs.foldl (fun w' x => if skip x then w' else w'.error (id x) kind) w).errorCount ∧
      ((xs.foldl (fun w' x => if skip x then w' else w'.error (id x) kind) w).errorCount = 0 →
        ∀ x ∈ xs, skip x) := by
  induction xs generalizing w with
  | nil => simp
  | cons x xs ih =>
    rw [foldl_cons]
    cases hx : skip x with
    | true =>
      obtain ⟨hle, hall⟩ := ih w
      exact ⟨hle, fun h => forall_mem_cons.mpr ⟨hx, hall h⟩⟩
    | false =>
      obtain ⟨hle, -⟩ := ih (w.error (id x) kind)
      rw [errorCount_error] at hle
      refine ⟨by simp; omega, fun h => ?_⟩
      simp only [Bool.false_eq_true, if_false] at h
      omega

theorem attests_of_errorCount (h : (w.checkRetired table upperId).errorCount = 0) : w.Attests := by
  intro span hspan
  have hskip := (errorCount_le_foldl_error _ _ _ _ w).2 h span hspan
  exact (Option.any_eq_true_iff_get ..).mp hskip |>.elim fun hs hle =>
    ⟨_, (Option.some_get hs).symm, by simpa using hle⟩

theorem errorCount_le_checkChainStart (first : First) :
    w.errorCount ≤ (w.checkChainStart first).errorCount := by
  unfold checkChainStart
  repeat' split
  all_goals simp

variable {first : First}

/-- Under the key, a record that it seals says where the ledger starts. -/
theorem checkChainStart_keyed {firstKeyed start : ℤ} (hkeyed : w.firstKeyed = some firstKeyed)
    (hstart : w.keyedStart = some start) (hle : first.id ≤ start)
    (hmin : first.id = firstKeyed ∨ ∃ m, w.keyedMinStart = some m ∧ m ≤ first.id) :
    w.checkChainStart first = w := by
  have hnot : ¬(w.keyedMinStart.any (first.id < ·) ∧ first.id ≠ firstKeyed) := by
    rintro ⟨hlt, hne⟩
    obtain ⟨m, hm, hmle⟩ := hmin.resolve_left hne
    simp only [hm, Option.any_some, decide_eq_true_eq] at hlt
    omega
  have hlt : ¬start < first.id := by omega
  simp [checkChainStart, hkeyed, hstart, if_neg hlt, if_neg hnot]

theorem checkChainStart_unkeyed (hkeyed : w.firstKeyed = none)
    (h : (∃ start, w.anyStart = some start ∧ first.id ≤ start) ∨
      w.anyStart = none ∧ first.hashVersion ≠ some keyedChain) :
    w.checkChainStart first = w := by
  rcases h with ⟨start, hstart, hle⟩ | ⟨hnone, hversion⟩
  · have hlt : ¬start < first.id := by omega
    simp [checkChainStart, hkeyed, hstart, if_neg hlt]
  · simp [checkChainStart, hkeyed, hnone, hversion]

theorem le_keyedStart (hkeyed : w.firstKeyed ≠ none)
    (h : (w.checkChainStart first).errorCount = 0) :
    ∃ start, w.keyedStart = some start ∧ first.id ≤ start := by
  obtain ⟨firstKeyed, hk⟩ := Option.ne_none_iff_exists'.mp hkeyed
  have hw : w.errorCount = 0 := Nat.le_zero.mp (h ▸ errorCount_le_checkChainStart first)
  cases hs : w.keyedStart with
  | none => simp [checkChainStart, hk, hs, hw] at h
  | some start =>
    refine ⟨start, rfl, ?_⟩
    by_contra hlt
    simp [checkChainStart, hk, hs, (by omega : start < first.id)] at h

theorem conclude_eq (hatt : key.isSome → w.firstKeyed ≠ none → w.Attests)
    (hstart : wholeTable → ∀ first, w.first = some first → w.checkChainStart first = w) :
    w.conclude key table wholeTable upperId = w := by
  have hretired : (if key.isSome ∧ w.firstKeyed.isSome ∧ w.errorsAtFirstKeyed = 0 then
      w.checkRetired table upperId else w) = w := by
    split
    · next hcond =>
      exact checkRetired_eq (hatt hcond.1 (Option.isSome_iff_ne_none.mp hcond.2.1))
    · rfl
  simp only [conclude, hretired]
  cases hf : w.first with
  | none => rfl
  | some first =>
    cases wholeTable with
    | false => rfl
    | true => exact hstart rfl first hf

theorem checkChainStart_eq_self (h : (w.checkChainStart first).errorCount = 0) :
    w.checkChainStart first = w := by
  unfold checkChainStart at h ⊢
  cases hk : w.firstKeyed with
  | some firstKeyed =>
    cases hs : w.keyedStart <;> simp only [hs] at h ⊢ <;> split_ifs at h ⊢ <;> simp_all
  | none =>
    cases hs : w.anyStart <;> simp only [hk] at h ⊢ <;> split_ifs at h ⊢ <;> simp_all

theorem conclude_eq_self (h : (w.conclude key table wholeTable upperId).errorCount = 0) :
    w.conclude key table wholeTable upperId = w := by
  generalize hr : (if key.isSome ∧ w.firstKeyed.isSome ∧ w.errorsAtFirstKeyed = 0 then
    w.checkRetired table upperId else w) = r
  have hend : w.conclude key table wholeTable upperId = r := by
    simp only [conclude, hr] at h ⊢
    cases hf : r.first with
    | none => rfl
    | some first =>
      cases wholeTable with
      | false => rfl
      | true =>
        simp only [hf] at h ⊢
        exact checkChainStart_eq_self h
  rw [hend] at h ⊢
  rw [← hr] at h ⊢
  split at h
  · next hcond => rw [if_pos hcond, checkRetired_eq (attests_of_errorCount h)]
  · next hcond => rw [if_neg hcond]

theorem of_errorCount_conclude (h : (w.conclude key table wholeTable upperId).errorCount = 0) :
    w.errorCount = 0 ∧
      (key.isSome → w.firstKeyed ≠ none → w.errorsAtFirstKeyed = 0 →
        w.Attests ∧ (wholeTable → ∀ first, w.first = some first →
          (w.checkChainStart first).errorCount = 0)) := by
  have hself := conclude_eq_self h
  refine ⟨hself ▸ h, fun hsome hkeyed hat => ?_⟩
  have hcond : key.isSome ∧ w.firstKeyed.isSome ∧ w.errorsAtFirstKeyed = 0 :=
    ⟨hsome, Option.isSome_iff_ne_none.mpr hkeyed, hat⟩
  simp only [conclude, if_pos hcond] at h
  have hretired : (w.checkRetired table upperId).errorCount = 0 := by
    split at h
    · split at h
      · exact Nat.le_zero.mp (h ▸ errorCount_le_checkChainStart _)
      · exact h
    · exact h
  have hatt := attests_of_errorCount hretired
  rw [checkRetired_eq hatt] at h
  refine ⟨hatt, fun hwhole first hfirst => ?_⟩
  simpa [hfirst, hwhole] using h

end Walk

end UltimateCaManager.Audit
