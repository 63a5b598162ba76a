import UltimateCaManager.BackupRestore

/-!
# What a restore refines

Two installations agree on a row by its identity, in which a reference stands for the identity of
the row that it names. A restore is to write each archived row onto the row here with its
identity, or onto a new row with the next number. That is so when the identities tell the rows of
each section apart, in the archive and here, and when no archived identity, spelled with the
numbers of the source, is taken for another row here.
-/
namespace UltimateCaManager.Backup

open List

open Tables KeyedRows

abbrev Identity := List (Option Cell ⊕ Option Key)

instance decidableEqIdentity : DecidableEq Identity := inferInstance

def identity (D : Database) (n : SectionName) (row : Row) : Identity :=
  (sections n).identity.map fun f =>
    match (sections n).references.lookup f with
    | none => .inl (cell n row f)
    | some t => .inr ((row.ref f).bind fun i => (row? (D t) i).map (key t))

/-- The identity that an archived row had in the source. -/
def origin (n : SectionName) (a : ArchivedRow) : Identity :=
  (sections n).identity.map fun f =>
    match (sections n).references.lookup f with
    | none => .inl (cell n a.toRow f)
    | some _ => .inr (a.identityOf f)

/-- The numbers and identities of the rows of a section. -/
abbrev numbered (n : SectionName) (rows : List Row) : List (ℕ × Key) := pairs Row.id (key n) rows

/-- The number of a row that is identified by its values, when what the archive holds and `T`
does not takes the next numbers. -/
def numberHere (A : Archive) (T : Database) (t : SectionName) (k : Key) : Option ℕ :=
  numberOf (place (numbered t (T t)) ((A t).map fun a => key t a.toRow)) k

/-- The identity of an archived row, spelled with the numbers of this installation. -/
def keyHere (A : Archive) (T : Database) (n : SectionName) (a : ArchivedRow) : Key :=
  keyWith n a fun f => ((sections n).references.lookup f).bind fun t =>
    (a.identityOf f).bind (numberHere A T t)

/-- The archives that can be restored into `T` without a mistake. -/
structure Restorable (carried : SectionName → Bool) (A : Archive) (T : Database) : Prop where
  carries : ∀ n, carried n = false → A n = []
  ids : ∀ n, ((T n).map Row.id).Nodup
  keys : ∀ n, ((T n).map (key n)).Nodup
  origins : ∀ n, ((A n).map (origin n)).Nodup
  /-- An archived row has an identity. -/
  stated : ∀ n, (sections n).singleton = false → ∀ a ∈ A n, ∃ f ∈ (sections n).identity,
    if isReference n f then a.identityOf f ≠ none else empty (cell n a.toRow f) = false
  /-- The rows that an identity names are archived, or here where the archive leaves them out. -/
  linked : ∀ n, ∀ p ∈ (sections n).references, p.1 ∈ (sections n).identity → ∀ a ∈ A n,
    ∀ k ∈ a.identityOf p.1, k ∈ (A p.2).map (fun b => key p.2 b.toRow) ∨
      carried p.2 = false ∧ k ∈ (T p.2).map (key p.2)
  /-- What an archived identity is spelled as in the source, no other row is spelled as here. -/
  apart : ∀ n, ∀ a ∈ A n, ∀ k ∈ (T n).map (key n) ++ (A n).map (keyHere A T n),
    k = key n a.toRow → k = keyHere A T n a
  /-- The columns that the rows are looked up by tell them apart as the identity does. -/
  agree : ∀ n, ∀ a ∈ A n, ∀ text ∈ (T n).map Row.text ++ (A n).map (·.text),
    (sections n).columns.map text = (sections n).columns.map a.text ↔
      (sections n).identity.map text = (sections n).identity.map a.text
  /-- No archived row is passed over. -/
  kept : ∀ n, ∀ a ∈ A n, (∀ c ∈ (sections n).needs, empty ((a.text c).map Cell.text) = false) ∧
    ∀ c ∈ (sections n).issuer, a.text c ∈ (A .certificateAuthorities).map (·.text "refid")
  /-- Where there is one row for the whole installation, an archive that carries none finds none. -/
  only : ∀ n, (sections n).singleton → carried n → A n = [] → T n = []

variable {carried : SectionName → Bool} {A : Archive} {T D plan : Database}

variable {n t : SectionName} {a b : ArchivedRow} {row : Row} {rows : List Row}

variable {f : String} {k : Key}

/-! ## Identities -/

theorem map_number_inj {i j : Option ℕ} : i.map Cell.number = j.map Cell.number ↔ i = j :=
  (Option.map_injective fun _ _ => Cell.number.inj).eq_iff

theorem not_isReference (h : (sections n).byReference = false) (hf : f ∈ (sections n).identity) :
    isReference n f = false := by
  simp only [Section.byReference, any_eq_false, Bool.not_eq_true] at h
  exact h f hf

/-- Without references an identity is spelled alike by every installation. -/
theorem keyWith_of_plain (h : (sections n).byReference = false) (number : String → Option ℕ) :
    keyWith n a number = key n a.toRow := by
  refine map_congr_left fun f hf => ?_
  simp [not_isReference h hf]

theorem map_keyHere_of_plain (h : (sections n).byReference = false) :
    (A n).map (keyHere A T n) = (A n).map fun a => key n a.toRow :=
  map_congr_left fun _ _ => keyWith_of_plain h _

theorem keyWith_congr {number number' : String → Option ℕ}
    (h : ∀ f t, f ∈ (sections n).identity → (sections n).references.lookup f = some t →
      number f = number' f) : keyWith n a number = keyWith n a number' := by
  refine map_congr_left fun f hf => ?_
  cases ht : (sections n).references.lookup f with
  | none => simp [isReference, ht]
  | some t => rw [h f t hf ht]

/-- A row has the identity of an archived row just when its values do and its references bear the
numbers that the archived row has here. -/
theorem key_eq_keyHere : key n row = keyHere A T n a ↔ ∀ f ∈ (sections n).identity,
    match (sections n).references.lookup f with
    | none => cell n row f = cell n a.toRow f
    | some t => row.ref f = (a.identityOf f).bind (numberHere A T t) := by
  rw [key, keyHere, keyWith, map_inj_left]
  refine forall₂_congr fun f _ => ?_
  cases ht : (sections n).references.lookup f with
  | none => simp [isReference, ht]
  | some t =>
    simp only [cell, isReference, ht, Option.isSome_some, if_true, Option.bind_some,
      map_number_inj]

theorem key_eq_iff_text (h : (sections n).byReference = false) :
    key n row = key n a.toRow ↔
      (sections n).identity.map row.text = (sections n).identity.map a.text := by
  have hinj : Function.Injective Cell.text := fun _ _ => Cell.text.inj
  rw [key, key, map_inj_left, map_inj_left]
  refine forall₂_congr fun f hf => ?_
  simp [cell, not_isReference h hf, (Option.map_injective hinj).eq_iff]

theorem index_eq (h : Apart (numbered n (plan n))) :
    index plan n k = numberOf (numbered n (plan n)) k := by
  cases hlast : ((plan n).filter fun row => key n row = k).getLast? with
  | none =>
    have hnone : ∀ row ∈ plan n, key n row ≠ k := by simpa using hlast
    rw [index, hlast, Option.map_none, eq_comm, numberOf_eq_none, map_snd_pairs]
    intro hk
    obtain ⟨row, hrow, hkey⟩ := mem_map.mp hk
    exact hnone row hrow hkey
  | some row =>
    have hmem := mem_of_getLast? hlast
    simp only [mem_filter, decide_eq_true_eq] at hmem
    rw [index, hlast, Option.map_some, eq_comm, numberOf_eq_some h]
    exact mem_pairs.mpr ⟨row, hmem.1, rfl, hmem.2⟩

/-- A plan that numbers the rows which the identities of a section name as they are here. -/
structure Planned (A : Archive) (T plan : Database) (n : SectionName) : Prop where
  here : Apart (numbered n (plan n))
  numbers : ∀ f t, f ∈ (sections n).identity → (sections n).references.lookup f = some t →
    ∀ k, index plan t k = numberHere A T t k

theorem Planned.resolve_eq (h : Planned A T plan n) (hf : f ∈ (sections n).identity)
    (ht : (sections n).references.lookup f = some t) :
    resolve plan A n a f = (a.identityOf f).bind (numberHere A T t) := by
  have hid : idOf plan A t = numberHere A T t := by
    funext k
    simp [idOf, (plain_of_identity hf ht).2, h.numbers f t hf ht]
  rw [resolve, ht, Option.bind_some, hid]

theorem Planned.resolvedKey_eq (h : Planned A T plan n) :
    resolvedKey plan A n a = keyHere A T n a := by
  refine keyWith_congr fun f t hf ht => ?_
  rw [h.resolve_eq hf ht, ht, Option.bind_some]

theorem Planned.identityHere_eq (h : Planned A T plan n) :
    identityHere plan n a = keyHere A T n a := by
  refine keyWith_congr fun f t hf ht => ?_
  have hindex : index plan t = numberHere A T t := funext (h.numbers f t hf ht)
  rw [resolveHere, ht, Option.bind_some, Option.bind_some, hindex]

/-- An archived row is found by its identity here, unless the spelling of the source is taken for
another row. -/
theorem Planned.existingId_eq (h : Planned A T plan n)
    (hapart : ∀ row ∈ plan n, key n row = key n a.toRow → key n row = keyHere A T n a) :
    existingId plan n a = numberOf (numbered n (plan n)) (keyHere A T n a) := by
  by_cases hs : (sections n).singleton = true
  · have hid := Section.identity_of_singleton hs
    rw [existingId, if_pos hs]
    cases hrows : plan n with
    | nil => rfl
    | cons row rows => simp [numberOf, pairs, key, keyHere, keyWith, hid]
  · rw [existingId, if_neg hs, ← index_eq h.here, h.identityHere_eq]
    cases hraw : index plan n (key n a.toRow) with
    | some i =>
      rw [index_eq h.here, numberOf_eq_some h.here] at hraw
      obtain ⟨row, hrow, rfl, hkey⟩ := mem_pairs.mp hraw
      have hhere : key n a.toRow = keyHere A T n a := hkey ▸ hapart row hrow hkey
      rw [Option.some_or, eq_comm, index_eq h.here, numberOf_eq_some h.here, ← hhere]
      exact hraw
    | none =>
      rw [Option.none_or]
      by_cases hr : (sections n).byReference = true
      · rw [if_pos hr]
      · rw [if_neg hr, ← hraw, keyHere, keyWith_of_plain (Bool.eq_false_iff.mpr hr)]

end UltimateCaManager.Backup
