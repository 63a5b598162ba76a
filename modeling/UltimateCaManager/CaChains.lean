import UltimateCaManager.RevocationData
import UltimateCaManager.Runs

/-!
# The CAs above a CA

A revoked CA breaks the paths of all that are below it, so a signing asks for the whole chain: that
none of its CAs is revoked, and that it ends.
-/
namespace UltimateCaManager.Revocation

open List Runs

inductive ChainState
  | revoked | broken
  deriving DecidableEq

def maxChainDepth : ℕ := 64

namespace Db

variable (db : Db)

/-- The flag of the CA, or a revocation that its issuer still holds. -/
def isRevoked (ca : CaRow) : Bool :=
  ca.revoked || ((db.issuingCa ca).bind (db.persistedCaRevocation ca)).isSome

/-- The loop of `chain_revocation` with the levels that are left. -/
def chainRevocationFrom : ℕ → List ℕ → CaRow → Option ChainState
  | left, seen, ca =>
    if db.isRevoked ca then some .revoked
    else if ca.id ∈ seen then some .broken
    else match left with
      | 0 => some .broken
      | left + 1 =>
        match db.issuingCa ca with
        | none => none
        | some parent => chainRevocationFrom left (ca.id :: seen) parent

def chainRevocation (ca : CaRow) : Option ChainState :=
  db.chainRevocationFrom maxChainDepth [] ca

/-- Neither the flag of the CA nor a record of its issuer revokes it. -/
structure Unrevoked (ca : CaRow) : Prop where
  flag : ca.revoked = false
  record : ∀ crt parent, ca.crt = some crt → db.issuingCa ca = some parent →
    ∀ r ∈ db.records, r.caref = parent.refid →
      r.serialNumber ∉ serialVariants ((ca.serialNumber.bind serialToInt).getD crt.serial)

/-- The CAs from `ca` up to one without issuer: they are met once each and none is revoked. -/
structure SoundPath (ca : CaRow) (path : List CaRow) : Prop where
  leads : Leads db.issuingCa ca path
  nodup : (path.map CaRow.id).Nodup
  unrevoked : ∀ c ∈ path, db.Unrevoked c

end Db

variable {db : Db} {ca : CaRow}

theorem isRevoked_eq_false : db.isRevoked ca = false ↔ db.Unrevoked ca := by
  rw [Db.isRevoked, Bool.or_eq_false_iff, Option.isSome_eq_false_iff, Option.isNone_iff_eq_none]
  refine (and_congr_right' ?_).trans ⟨fun h => ⟨h.1, h.2⟩, fun h => ⟨h.flag, h.record⟩⟩
  cases hcrt : ca.crt with
  | none => simp [Db.issuingCa, hcrt]
  | some crt =>
    cases hissuer : db.issuingCa ca with
    | none => simp
    | some parent => simp [Db.persistedCaRevocation, hcrt]

theorem chainRevocationFrom_eq_none (n : ℕ) (seen : List ℕ) (ca : CaRow) :
    db.chainRevocationFrom n seen ca = none ↔
      ∃ path, db.SoundPath ca path ∧ path.length ≤ n ∧ ∀ c ∈ path, c.id ∉ seen := by
  induction n generalizing seen ca with
  | zero =>
    rw [Db.chainRevocationFrom]
    constructor
    · intro h
      split_ifs at h
    · rintro ⟨path, hpath, hlength, -⟩
      obtain rfl := length_eq_zero_iff.mp (Nat.le_zero.mp hlength)
      cases hpath.leads
  | succ n ih =>
    rw [Db.chainRevocationFrom]
    by_cases hrevoked : db.isRevoked ca = true
    · simp only [hrevoked, if_true, reduceCtorEq, false_iff]
      rintro ⟨path, hpath, -, -⟩
      have hunrevoked := isRevoked_eq_false.mpr (hpath.unrevoked ca hpath.leads.mem)
      simp [hrevoked] at hunrevoked
    · have hunrevoked := isRevoked_eq_false.mp (Bool.not_eq_true _ ▸ hrevoked)
      rw [if_neg hrevoked]
      by_cases hseen : ca.id ∈ seen
      · simp only [hseen, if_true, reduceCtorEq, false_iff]
        rintro ⟨path, hpath, -, hfresh⟩
        exact hfresh ca hpath.leads.mem hseen
      · rw [if_neg hseen]
        cases hissuer : db.issuingCa ca with
        | none =>
          refine iff_of_true rfl ⟨[ca], ⟨.last hissuer, by simp, ?_⟩, by simp, ?_⟩
          · simpa using hunrevoked
          · simpa using hseen
        | some parent =>
          rw [ih]
          constructor
          · rintro ⟨path, hpath, hlength, hfresh⟩
            refine ⟨ca :: path, ⟨.step hissuer hpath.leads, ?_, ?_⟩, by simpa using hlength, ?_⟩
            · rw [map_cons, nodup_cons]
              refine ⟨fun hmem => ?_, hpath.nodup⟩
              obtain ⟨c, hc, hid⟩ := mem_map.mp hmem
              exact hfresh c hc (by simp [hid])
            · exact forall_mem_cons.mpr ⟨hunrevoked, hpath.unrevoked⟩
            · exact forall_mem_cons.mpr
                ⟨hseen, fun c hc hmem => hfresh c hc (mem_cons_of_mem _ hmem)⟩
          · rintro ⟨path, ⟨hleads, hnodup, hall⟩, hlength, hfresh⟩
            cases hleads with
            | last h => rw [hissuer] at h; cases h
            | step h hb =>
              obtain rfl := Option.mem_unique hissuer h
              rw [map_cons, nodup_cons] at hnodup
              rw [forall_mem_cons] at hall hfresh
              refine ⟨_, ⟨hb, hnodup.2, hall.2⟩, by simpa using hlength, fun c hc hmem => ?_⟩
              rcases mem_cons.mp hmem with hid | hmem
              · exact hnodup.1 (hid ▸ mem_map_of_mem hc)
              · exact hfresh.2 c hc hmem

/-- Nothing stands against a CA when the climb to a CA without issuer meets at most
`MAX_CHAIN_DEPTH` CAs, the CA itself included, none of them twice and none revoked. -/
theorem chainRevocation_eq_none_iff (db : Db) (ca : CaRow) : db.chainRevocation ca = none ↔
    ∃ path, db.SoundPath ca path ∧ path.length ≤ maxChainDepth := by
  rw [Db.chainRevocation, chainRevocationFrom_eq_none]
  simp

/-- The CA of level `i`, under that of the level above. -/
def rung (i : ℕ) : CaRow :=
  ⟨i, i, if i < 64 then some (i + 1) else none, i,
    some ⟨⟨i, 9⟩, i, i, min (i + 1) 64, min (i + 1) 64, none⟩, none, none, false, none, none, true,
    false, false, false⟩

def ladder : Db := ⟨(List.range 65).map rung, [], [], 0, []⟩

theorem issuingCa_ladder : ∀ i < 64, ladder.issuingCa (rung i) = some (rung (i + 1)) := by
  decide +kernel

theorem leads_ladder (k : ℕ) (hk : k ≤ 64) :
    Leads ladder.issuingCa (rung (64 - k)) ((range' (64 - k) (k + 1)).map rung) := by
  induction k with
  | zero => exact .last (by decide +kernel)
  | succ k ih =>
    have hstep : 64 - (k + 1) + 1 = 64 - k := by omega
    rw [range'_succ, hstep]
    exact .step (hstep ▸ issuingCa_ladder _ (by omega)) (ih (by omega))

/-- Sixty-four steps lead to a root, and the chain is refused as broken. -/
theorem deepest_chain_refused : ladder.chainRevocation (rung 0) = some .broken ∧
    ∃ path, ladder.SoundPath (rung 0) path ∧ path.length = maxChainDepth + 1 := by
  refine ⟨by decide +kernel, _, ⟨leads_ladder 64 le_rfl, by decide +kernel, ?_⟩, by rfl⟩
  intro c hc
  obtain ⟨i, -, rfl⟩ := mem_map.mp hc
  exact ⟨rfl, fun _ _ _ _ r hr => by cases hr⟩

end UltimateCaManager.Revocation
