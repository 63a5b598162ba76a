import UltimateCaManager.Tables
import Mathlib.Data.List.Perm.Basic

/-!
# Rows with a number and an identity

The rows of a table carry a number, given by the installation that holds them, and an identity of
their own. Placing an identity leaves the table alone where it is there and gives it the next
number where it is not. A loop that writes, for each entry of a list, the row of its identity or a
new one ends with the pairs of numbers and identities that placing the identities gives, and each
of its rows was there before or was written for an entry.
-/
namespace UltimateCaManager.KeyedRows

open List

open Tables

section Placing

variable {κ : Type*} {l : List (ℕ × κ)} {k : κ} {ks : List κ} {i : ℕ}

/-- No two rows share a number, and no two an identity. -/
structure Apart (l : List (ℕ × κ)) : Prop where
  numbers : (l.map Prod.fst).Nodup
  keys : (l.map Prod.snd).Nodup

theorem Apart.filter (h : Apart l) (p : ℕ × κ → Bool) : Apart (l.filter p) :=
  ⟨h.numbers.sublist (filter_sublist.map _), h.keys.sublist (filter_sublist.map _)⟩

def nextNumber (numbers : List ℕ) : ℕ := numbers.foldr max 0 + 1

variable [DecidableEq κ]

/-- Give an identity the next number, unless it has one. -/
def enrol (l : List (ℕ × κ)) (k : κ) : List (ℕ × κ) :=
  if k ∈ l.map Prod.snd then l else l ++ [(nextNumber (l.map Prod.fst), k)]

def place (l : List (ℕ × κ)) (ks : List κ) : List (ℕ × κ) := ks.foldl enrol l

def numberOf (l : List (ℕ × κ)) (k : κ) : Option ℕ := (l.find? fun p => p.2 = k).map Prod.fst

theorem lt_nextNumber {numbers : List ℕ} (h : i ∈ numbers) : i < nextNumber numbers := by
  induction numbers with
  | nil => simp at h
  | cons j numbers ih =>
    simp only [nextNumber, foldr_cons] at ih ⊢
    rcases mem_cons.mp h with rfl | h
    · omega
    · have := ih h
      omega

theorem Apart.enrol (h : Apart l) : Apart (enrol l k) := by
  unfold KeyedRows.enrol
  split
  next => exact h
  next hk =>
    constructor
    · refine nodup_concat h.numbers fun p hp => ?_
      exact (lt_nextNumber (mem_map_of_mem hp)).ne
    · refine nodup_concat h.keys fun p hp heq => hk ?_
      exact mem_map.mpr ⟨p, hp, heq⟩

theorem Apart.place (h : Apart l) : Apart (place l ks) := by
  induction ks generalizing l with
  | nil => exact h
  | cons k ks ih => exact ih h.enrol

theorem mem_enrol {p : ℕ × κ} (h : p ∈ l) : p ∈ enrol l k := by
  unfold enrol
  split
  next => exact h
  next => exact mem_append_left _ h

theorem mem_place {p : ℕ × κ} (h : p ∈ l) : p ∈ place l ks := by
  induction ks generalizing l with
  | nil => exact h
  | cons k ks ih => exact ih (mem_enrol h)

theorem mem_keys_enrol {k' : κ} :
    k' ∈ (enrol l k).map Prod.snd ↔ k' ∈ l.map Prod.snd ∨ k' = k := by
  unfold enrol
  split
  next hk => exact ⟨.inl, fun h => h.elim id fun heq => heq ▸ hk⟩
  next => rw [map_append, mem_append, map_singleton, mem_singleton]

theorem mem_keys_place {k' : κ} :
    k' ∈ (place l ks).map Prod.snd ↔ k' ∈ l.map Prod.snd ∨ k' ∈ ks := by
  induction ks generalizing l with
  | nil => simp [place]
  | cons k ks ih =>
    rw [mem_cons, ← or_assoc, ← mem_keys_enrol]
    exact ih

/-- Identities that are there already are placed without a trace. -/
theorem place_of_forall_mem (h : ∀ k ∈ ks, k ∈ l.map Prod.snd) : place l ks = l := by
  induction ks with
  | nil => rfl
  | cons k ks ih =>
    have hk : enrol l k = l := if_pos (h k mem_cons_self)
    rw [place, foldl_cons, hk]
    exact ih fun k' hk' => h k' (mem_cons_of_mem k hk')

theorem place_concat : place l (ks ++ [k]) = enrol (place l ks) k := by
  rw [place, foldl_append]
  rfl

theorem numberOf_eq_some (h : Apart l) : numberOf l k = some i ↔ (i, k) ∈ l := by
  constructor
  · intro hi
    obtain ⟨p, hp, rfl⟩ := Option.map_eq_some_iff.mp hi
    obtain ⟨hmem, rfl⟩ := find?_key hp
    exact hmem
  · intro hmem
    have hfind : l.find? (fun p => p.2 = k) = some (i, k) := find?_of_mem h.keys hmem
    rw [numberOf, hfind]
    rfl

theorem numberOf_eq_none : numberOf l k = none ↔ k ∉ l.map Prod.snd := by
  simp only [numberOf, Option.map_eq_none_iff, find?_eq_none, decide_eq_true_eq, mem_map,
    not_exists, not_and]

end Placing

/-! ## Loops -/

section Loops

variable {ρ α κ : Type*} (number : ρ → ℕ) (key : ρ → κ)

def pairs (rows : List ρ) : List (ℕ × κ) := rows.map fun row => (number row, key row)

/-- Put `row'` where `found` is, or at the end. -/
def write (rows : List ρ) (found : Option ρ) (row' : ρ) : List ρ :=
  match found with
  | some row => amend (fun r => number r = number row) (fun _ => row') rows
  | none => rows ++ [row']

variable {number key} {rows : List ρ}

theorem map_fst_pairs : (pairs number key rows).map Prod.fst = rows.map number := by
  simp [pairs]

theorem map_snd_pairs : (pairs number key rows).map Prod.snd = rows.map key := by
  simp [pairs]

theorem mem_pairs {i : ℕ} {k : κ} :
    (i, k) ∈ pairs number key rows ↔ ∃ row ∈ rows, number row = i ∧ key row = k := by
  simp [pairs]

theorem Apart.nodup_numbers (h : Apart (pairs number key rows)) : (rows.map number).Nodup := by
  have hnodup := h.numbers
  rwa [map_fst_pairs] at hnodup

theorem Apart.nodup_keys (h : Apart (pairs number key rows)) : (rows.map key).Nodup := by
  have hnodup := h.keys
  rwa [map_snd_pairs] at hnodup

theorem Apart.eq_of_number (h : Apart (pairs number key rows)) {r r' : ρ} (hr : r ∈ rows)
    (hr' : r' ∈ rows) (hnumber : number r = number r') : r = r' :=
  eq_of_key h.nodup_numbers hr hr' hnumber

theorem Apart.eq_of_identity (h : Apart (pairs number key rows)) {r r' : ρ} (hr : r ∈ rows)
    (hr' : r' ∈ rows) (hkey : key r = key r') : r = r' :=
  eq_of_key h.nodup_keys hr hr' hkey

theorem write_some (hrows : Apart (pairs number key rows)) {row row' : ρ} (hrow : row ∈ rows)
    (hnumber : number row' = number row) (hkey : key row' = key row) :
    pairs number key (write number rows (some row) row') = pairs number key rows := by
  simp only [pairs, write, amend, map_map]
  refine map_congr_left fun r hr => ?_
  by_cases heq : number r = number row
  · rw [hrows.eq_of_number hr hrow heq]
    simp [hnumber, hkey]
  · simp [heq]

variable [DecidableEq κ] {k : α → κ} {Q : α → ρ → Prop} {start : List ρ} {done : List α}

variable (number key k Q start) in
/-- The rows once the entries `done` are written: each was there before and has the identity of
none of them, or was written for one of them. -/
structure Upserted (done : List α) (rows : List ρ) : Prop where
  places : pairs number key rows = place (pairs number key start) (done.map k)
  origin : ∀ row ∈ rows, (row ∈ start ∧ key row ∉ done.map k) ∨ ∃ a ∈ done, key row = k a ∧ Q a row

theorem Upserted.nil : Upserted number key k Q start [] start :=
  ⟨rfl, fun _ hrow => .inl ⟨hrow, not_mem_nil⟩⟩

theorem Upserted.apart (h : Upserted number key k Q start done rows)
    (hs : Apart (pairs number key start)) : Apart (pairs number key rows) := by
  rw [h.places]
  exact hs.place

theorem mem_keys_of_places (h : Upserted number key k Q start done rows) {k' : κ} :
    k' ∈ rows.map key ↔ k' ∈ start.map key ∨ k' ∈ done.map k := by
  have hkeys := congrArg (map Prod.snd) h.places
  rw [map_snd_pairs] at hkeys
  rw [hkeys, mem_keys_place, map_snd_pairs]

/-- One turn of the loop: the row of the entry's identity, or a new row, is written. -/
theorem Upserted.write (h : Upserted number key k Q start done rows)
    (hs : Apart (pairs number key start)) {a : α} {row' : ρ}
    (hnumber : number row' = ((rows.find? fun r => key r = k a).map number).getD
      (nextNumber (rows.map number))) (hkey : key row' = k a) (hQ : Q a row') :
    Upserted number key k Q start (done ++ [a])
      (write number rows (rows.find? fun r => key r = k a) row') := by
  have hrows := h.apart hs
  cases hfind : rows.find? (fun r => key r = k a) with
  | some row =>
    obtain ⟨hrow, hrowkey⟩ := find?_key hfind
    have hnum : number row' = number row := by simpa [hfind] using hnumber
    have hmem : k a ∈ (pairs number key rows).map Prod.snd := by
      rw [map_snd_pairs, ← hrowkey]
      exact mem_map_of_mem hrow
    constructor
    · rw [write_some hrows hrow hnum (hkey.trans hrowkey.symm), map_append, map_singleton,
        place_concat, ← h.places, enrol, if_pos hmem]
    · intro r hr
      rcases mem_amend.mp hr with ⟨hr, hne⟩ | ⟨-, -, -, rfl⟩
      · -- another row does not have the identity that was written
        have hother : key r ≠ k a := by
          intro heq
          obtain rfl := hrows.eq_of_identity hr hrow (heq.trans hrowkey.symm)
          simp at hne
        rcases h.origin r hr with ⟨hstart, hdone⟩ | ⟨b, hb, hwritten⟩
        · exact .inl ⟨hstart, by simpa [hother] using hdone⟩
        · exact .inr ⟨b, mem_append_left _ hb, hwritten⟩
      · exact .inr ⟨a, mem_append_right _ mem_cons_self, hkey, hQ⟩
  | none =>
    have hnew : ∀ r ∈ rows, key r ≠ k a := by simpa using hfind
    have hnum : number row' = nextNumber (rows.map number) := by simpa [hfind] using hnumber
    have hmem : k a ∉ (pairs number key rows).map Prod.snd := by
      rw [map_snd_pairs]
      intro hmem
      obtain ⟨r, hr, heq⟩ := mem_map.mp hmem
      exact hnew r hr heq
    constructor
    · rw [map_append, map_singleton, place_concat, ← h.places, enrol, if_neg hmem, map_fst_pairs]
      simp [pairs, KeyedRows.write, hnum, hkey]
    · intro r hr
      rcases mem_append.mp hr with hr | hr
      · have hother := hnew r hr
        rcases h.origin r hr with ⟨hstart, hdone⟩ | ⟨b, hb, hwritten⟩
        · exact .inl ⟨hstart, by simpa [hother] using hdone⟩
        · exact .inr ⟨b, mem_append_left _ hb, hwritten⟩
      · rw [mem_singleton.mp hr]
        exact .inr ⟨a, mem_append_right _ mem_cons_self, hkey, hQ⟩

end Loops

/-- What one turn of a loop carries on, with the entries that came before it, holds at its end. -/
theorem foldlM_induction {σ α : Type} {step : σ → α → Option σ} {P : List α → σ → Prop} {l : List α}
    {s s' : σ} (h : l.foldlM step s = some s') (hinit : P [] s)
    (hstep : ∀ done a rest s s', l = done ++ a :: rest → P done s → step s a = some s' →
      P (done ++ [a]) s') : P l s' := by
  suffices hloop : ∀ done rest s, l = done ++ rest → P done s → rest.foldlM step s = some s' →
      P l s' from hloop [] l s rfl hinit h
  intro done rest
  induction rest generalizing done with
  | nil =>
    intro s hl hs hrest
    obtain rfl := Option.some.inj hrest
    simpa [hl] using hs
  | cons a rest ih =>
    intro s hl hs hrest
    rw [foldlM_cons] at hrest
    obtain ⟨s₁, hs₁, hrest⟩ := Option.bind_eq_some_iff.mp hrest
    exact ih (done ++ [a]) s₁ (by simp [hl]) (hstep done a rest s s₁ hl hs hs₁) hrest

end UltimateCaManager.KeyedRows
