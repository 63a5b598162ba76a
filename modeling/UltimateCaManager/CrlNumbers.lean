import UltimateCaManager.CrlServer
import UltimateCaManager.RevocationTidy

/-!
# CRL numbers

The number of a CRL is read before the CRL is signed and written when it is stored, and nothing
keeps two producers from reading the same one. The numbers increase in the order of storage as
long as no other CRL of the CA is stored between the two, and an uploaded CRL is newer than every
stored one, deltas included.
-/
namespace UltimateCaManager.Revocation

open List Runs Concurrency

/-- A number that a request has read and not stored yet. -/
structure Reservation where
  caId : ℕ
  number : ℕ
  seen : ℕ

def Task.reserved : Task → Option Reservation
  | .fullDate ca _ _ number seen => some ⟨ca.id, number, seen⟩
  | .fullCommit ca _ number seen _ => some ⟨ca.id, number, seen⟩
  | .deltaCommit ca _ _ _ _ number seen => some ⟨ca.id, number, seen⟩
  | .uploadCommit ca _ number seen => some ⟨ca.id, number, seen⟩
  | _ => none

def Task.stores : Task → Option Crl
  | .fullCommit ca rows number _ thisUpdate =>
    some ⟨ca.id, number, thisUpdate, false, none, false, crlEntries false thisUpdate rows⟩
  | .deltaCommit ca base instant rows _ number _ =>
    some ⟨ca.id, number, instant, true, some base.number, false, crlEntries true instant rows⟩
  | .uploadCommit ca u number _ => some ⟨ca.id, number, u.thisUpdate, false, none, true, u.entries⟩
  | _ => none

/-! ## The condition -/

/-- No CRL of the CA was stored since the number of the one to be stored was read. -/
def Task.Uninterrupted (db : Db) (t : Task) : Prop :=
  t.stores.isSome → ∀ r ∈ t.reserved, (db.crlsOf r.caId).length = r.seen
  deriving Decidable

/-- An uploaded CRL has a number above all the stored ones, or none when the newest stored CRL is
a full one. -/
def Upload.Newer (u : Upload) (db : Db) (caId : ℕ) : Prop :=
  (∀ n ∈ u.number, ∀ crl ∈ db.crlsOf caId, crl.number < n) ∧
    (u.number = none → ∀ crl ∈ db.crlsOf caId, ∃ latest ∈ db.getLatestCrl caId,
      crl.number ≤ latest.number)
  deriving Decidable

def Task.Newer (db : Db) : Task → Prop
  | .uploadLatest ca u => u.Newer db ca.id
  | _ => True

/-- The steps under which the numbers increase. -/
def Sequential (w : World Server Task) : Concurrency.Label Request Unit Event → Prop
  | .advance i _ => ∀ t ∈ w.tasks i, t.Uninterrupted w.shared.db ∧ t.Newer w.shared.db
  | _ => True

instance (db : Db) (t : Task) : Decidable (t.Newer db) := by
  induction t using Task.casesOn <;> unfold Task.Newer <;> infer_instance

instance (w : World Server Task) (l : Concurrency.Label Request Unit Event) :
    Decidable (Sequential w l) := by
  induction l using Concurrency.Label.casesOn <;> unfold Sequential <;> infer_instance

/-! ## One step -/

section Step

variable {s s' : Server} {t : Task} {t' : Option Task} {u : Unit} {db : Db} {caId : ℕ}

theorem stores_reserved {crl : Crl} (h : t.stores = some crl) :
    ∃ r, t.reserved = some r ∧ crl.caId = r.caId ∧ crl.number = r.number := by
  cases t with
  | fullCommit | deltaCommit | uploadCommit =>
    cases h
    exact ⟨_, rfl, rfl, rfl⟩
  | _ => cases h

theorem advance_crls (h : s.advance t u = some (s', t')) :
    s'.db.crls = s.db.crls ++ t.stores.toList := by
  cases t with
  | fullHousekeeping ca =>
    cases h
    simp only [Task.stores, Option.toList_none, append_nil]
    exact (runHousekeeping_frame _ _ _ _ _).2.1
  | revokeCommit id reason instant =>
    cases h
    simp only [Task.stores, Option.toList_none, append_nil]
    exact crls_revokeCertificate reason
  | unholdLift id =>
    cases h
    simp only [Task.stores, Option.toList_none, append_nil]
    exact crls_liftHold
  | fullCommit | deltaCommit | uploadCommit =>
    cases h
    rfl
  | _ =>
    cases h
    exact (append_nil _).symm

/-- A number is held since it was read: one above the stored ones, or that of an upload. -/
theorem advance_reserved (h : s.advance t u = some (s', t')) {v : Task} (hv : t' = some v)
    {r : Reservation} (hr : v.reserved = some r) : t.reserved = some r ∨
      r.seen = (s.db.crlsOf r.caId).length ∧ (r.number = s.db.nextCrlNumber r.caId ∨
        ∃ ca up, t = .uploadLatest ca up ∧ ca.id = r.caId ∧
          r.number = up.storedNumber (s.db.getLatestCrl ca.id)) := by
  subst hv
  cases t with
  | fullNumber | deltaNumber =>
    cases h
    cases hr
    exact .inr ⟨rfl, .inl rfl⟩
  | fullDate ca rows slot number seen =>
    cases h
    cases hr
    exact .inl rfl
  | uploadLatest ca up =>
    simp only [Server.advance, Option.some.injEq, Prod.mk.injEq] at h
    obtain ⟨-, h⟩ := h
    split at h
    · cases h
      cases hr
      exact .inr ⟨rfl, .inr ⟨ca, up, rfl, rfl, rfl⟩⟩
    · cases h
  | deltaBase ca =>
    simp only [Server.advance, Option.some.injEq, Prod.mk.injEq] at h
    obtain ⟨base, -, rfl⟩ := Option.map_eq_some_iff.mp h.2
    cases hr
  | _ =>
    cases h
    try cases hr

theorem le_foldl_max (l : List ℕ) (a : ℕ) : a ≤ l.foldl max a ∧ ∀ n ∈ l, n ≤ l.foldl max a := by
  induction l generalizing a with
  | nil => exact ⟨Nat.le_refl a, by simp⟩
  | cons m rest ih =>
    obtain ⟨hstart, hrest⟩ := ih (max a m)
    refine ⟨(Nat.le_max_left a m).trans hstart, forall_mem_cons.mpr ⟨?_, hrest⟩⟩
    exact (Nat.le_max_right a m).trans hstart

theorem lt_nextCrlNumber {crl : Crl} (h : crl ∈ db.crlsOf caId) :
    crl.number < db.nextCrlNumber caId := by
  have hle := (le_foldl_max ((db.crlsOf caId).map Crl.number) 0).2 _ (mem_map_of_mem h)
  exact Nat.lt_succ_of_le hle

theorem lt_storedNumber {up : Upload} (h : up.Newer db caId) {crl : Crl}
    (hcrl : crl ∈ db.crlsOf caId) : crl.number < up.storedNumber (db.getLatestCrl caId) := by
  unfold Upload.storedNumber
  cases hn : up.number with
  | some n => exact h.1 n hn crl hcrl
  | none =>
    obtain ⟨latest, hlatest, hle⟩ := h.2 hn crl hcrl
    rw [Option.mem_def.mp hlatest]
    exact Nat.lt_succ_of_le hle

end Step

/-! ## Every run -/

def Db.Numbered (db : Db) : Prop :=
  ∀ caId, ((db.crlsOf caId).map Crl.number).Pairwise (· < ·)

/-- A held number is above the stored ones as long as no CRL of the CA is stored. -/
def Reservation.Sound (db : Db) (r : Reservation) : Prop :=
  r.seen ≤ (db.crlsOf r.caId).length ∧
    ((db.crlsOf r.caId).length = r.seen → ∀ crl ∈ db.crlsOf r.caId, crl.number < r.number)

theorem crlsOf_append {db db' : Db} {crls : List Crl} (h : db'.crls = db.crls ++ crls) (caId : ℕ) :
    db'.crlsOf caId = db.crlsOf caId ++ crls.filter fun crl => crl.caId = caId := by
  rw [Db.crlsOf, h, filter_append]
  rfl

theorem Reservation.Sound.append {db db' : Db} {crls : List Crl} {r : Reservation}
    (h : db'.crls = db.crls ++ crls) (hr : r.Sound db) : r.Sound db' := by
  obtain ⟨hle, hlt⟩ := hr
  rw [Reservation.Sound, crlsOf_append h]
  refine ⟨hle.trans (by simp), fun hlen crl hcrl => ?_⟩
  -- nothing of the CA was stored
  have hnone : crls.filter (fun crl => crl.caId = r.caId) = [] := by
    rw [length_append] at hlen
    exact length_eq_zero_iff.mp (by omega)
  rw [hnone, append_nil] at hlen hcrl
  exact hlt hlen crl hcrl

theorem Db.Numbered.add {db db' : Db} {crl : Crl} {r : Reservation} (h : db.Numbered)
    (hcrls : db'.crls = db.crls ++ [crl]) (hca : crl.caId = r.caId) (hnumber : crl.number = r.number)
    (hr : r.Sound db) (hseen : (db.crlsOf r.caId).length = r.seen) : db'.Numbered := by
  intro caId
  rw [crlsOf_append hcrls]
  by_cases hc : crl.caId = caId
  · rw [filter_cons_of_pos (by simpa using hc), map_append,
      pairwise_append]
    refine ⟨h caId, by simp, fun a ha b hb => ?_⟩
    obtain ⟨q, hq, rfl⟩ := mem_map.mp ha
    have hb : b = crl.number := by simpa using hb
    rw [hb, hnumber]
    exact hr.2 hseen q (by rw [← hca, hc]; exact hq)
  · rw [filter_cons_of_neg (by simpa using hc), filter_nil, append_nil]
    exact h caId

theorem sequential_inductive : Server.system.Inductive Sequential (fun s => s.db.Numbered)
    (fun s t => ∀ r ∈ t.reserved, r.Sound s.db) (fun _ _ => True) where
  symm _ := trivial
  event := by
    intro w e _ hP
    cases e with
    | tick | configure | setKey => exact ⟨hP, fun hQ => hQ⟩
  start := by
    intro w i r t _ _ hstart
    refine ⟨fun q hq => ?_, fun _ => trivial⟩
    -- a request has read no number yet
    have hnone : t.reserved = none := by
      cases r <;> simp only [Server.system, Server.start, Option.bind_eq_bind,
        Option.bind_eq_some_iff] at hstart
      all_goals grind [Task.reserved]
    rw [hnone] at hq
    cases hq
  advance := by
    intro w i input t s t' hguard hP ht hQ hadv
    obtain ⟨hunint, hnewer⟩ := hguard t ht
    have hcrls := advance_crls hadv
    refine ⟨?_, ?_, fun hu _ r hr => (hu r hr).append hcrls⟩
    · cases hstores : t.stores with
      | none =>
        intro caId
        rw [hstores, Option.toList_none, append_nil] at hcrls
        have hsame : s.db.crlsOf caId = w.shared.db.crlsOf caId := by
          rw [Db.crlsOf, hcrls]
          rfl
        rw [hsame]
        exact hP caId
      | some crl =>
        rw [hstores] at hcrls
        obtain ⟨r, hr, hca, hnumber⟩ := stores_reserved hstores
        exact hP.add hcrls hca hnumber (hQ r hr) (hunint (by rw [hstores]; rfl) r hr)
    · intro v hv
      refine ⟨fun r hr => ?_, fun _ _ => trivial⟩
      rcases advance_reserved hadv hv hr with hold | ⟨hseen, hnumber⟩
      · exact (hQ r hold).append hcrls
      · have hread : r.Sound w.shared.db := by
          refine ⟨hseen.le, fun _ crl hcrl => ?_⟩
          rcases hnumber with hnumber | ⟨ca, up, rfl, hca, hnumber⟩
          · rw [hnumber]
            exact lt_nextCrlNumber hcrl
          · rw [hnumber, hca]
            exact lt_storedNumber (hca ▸ hnewer) hcrl
        exact hread.append hcrls

/-- The last element of an increasing list is the first of the largest ones. -/
theorem argmax_eq_getLast? {α : Type*} {f : α → ℕ} {l : List α} (h : (l.map f).Pairwise (· < ·)) :
    l.argmax f = l.getLast? := by
  induction l using reverseRecOn with
  | nil => rfl
  | append_singleton l a ih =>
    rw [map_append, pairwise_append] at h
    rw [argmax_concat, ih h.1, getLast?_concat]
    cases hlast : l.getLast? with
    | none => rfl
    | some c =>
      have hlt := h.2.2 (f c) (mem_map_of_mem (mem_of_getLast? hlast)) (f a) (by simp)
      simp [hlt]

/-- In every such run the numbers of the CRLs of a CA increase in the order in which they were
stored, and the latest CRL is the full one stored last. -/
theorem crl_numbers_increase (now : ℕ) (db : Db) (hdb : db.crls = []) (w : World Server Task)
    (hw : Reach Server.system.step Sequential (World.initial (Server.init now db)) w) (caId : ℕ) :
    ((w.shared.db.crlsOf caId).map Crl.number).Pairwise (· < ·) ∧
      w.shared.db.getLatestCrl caId =
        ((w.shared.db.crlsOf caId).filter fun crl => !crl.isDelta).getLast? := by
  have hstart : (Server.init now db).db.Numbered := by
    intro c
    simp [Server.init, Db.crlsOf, hdb]
  have hnumbered := (sequential_inductive.reach hstart hw).shared
  refine ⟨hnumbered caId, argmax_eq_getLast? ?_⟩
  exact (hnumbered caId).sublist (filter_sublist.map _)

def rootOnly : Db := ⟨[rootCa], [], [], 0, []⟩

/-- A full CRL, a delta CRL, then an upload once the key is offline. -/
def threeProducers : List (Concurrency.Label Request Unit Event) :=
  .request 0 (.full 1) :: finish 0 6 ++ .request 1 (.delta 1) :: finish 1 5 ++
    [.event (.setKey 1 true true), .request 2 (.upload 1 ⟨5, 1, false, some 7, 3, some 9, []⟩)] ++
      finish 2 2

theorem crl_numbers_increase_three_producers :
    let w := exec Server.system.step (World.initial (Server.init 0 rootOnly)) threeProducers
    ((w.shared.db.crlsOf 1).map Crl.number).Pairwise (· < ·) ∧ w.shared.db.getLatestCrl 1 =
      ((w.shared.db.crlsOf 1).filter fun crl => !crl.isDelta).getLast? :=
  crl_numbers_increase 0 rootOnly rfl _ (Reach.start.exec (by decide)) 1

/-- Two full CRLs that read the number before either is stored get the same one. -/
theorem two_crls_with_one_number :
    let w := exec Server.system.step (World.initial (Server.init 0 rootOnly))
      (.request 0 (.full 1) :: .request 1 (.full 1) :: finish 0 4 ++ finish 1 4 ++ finish 0 2 ++
        finish 1 2)
    (w.shared.db.crlsOf 1).map Crl.number = [1, 1] := by
  decide

end UltimateCaManager.Revocation
