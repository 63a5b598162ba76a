import UltimateCaManager.RevocationData

/-!
# Lifting a hold

`unhold_certificate` commits up to three times. With delta CRLs the certificate is first staged as
`removeFromCRL`, so that a delta lists it; then the hold and its record are lifted in one commit,
and when that fails a last commit puts the hold back. Which of its steps fail is an input.
-/
namespace UltimateCaManager.HoldLifting

open Revocation

/-- What a hold writes on the row of a certificate. -/
structure Hold where
  revoked : Bool
  revokedAt : Option ℕ
  revokeReason : Option Reason
  invalidityAt : Option ℕ
  deriving DecidableEq

def Hold.staged (hold : Hold) (instant : ℕ) : Hold :=
  { hold with revokeReason := some .removeFromCRL, revokedAt := some instant }

structure Cert where
  caref : Option ℕ
  serialNumber : Option (List Char)
  hold : Hold
  deriving DecidableEq

/-- The row of the certificate, and the persistent records. -/
structure State where
  cert : Option Cert
  records : List Record
  deriving DecidableEq

inductive Answer
  | error (status : ℕ) (message : String)
  | success (message : String)
  deriving DecidableEq

/-- What lifting the hold on the Microsoft CA comes to, for a certificate that one issued. -/
inductive Propagation
  | none | lifted | refused (error : String) | raised

/-- Which steps succeed: the lookup of the CA, the commit of the staging, the delta CRL, the reread
of the certificate after a failed one, the commit that lifts the hold, the one that puts it back,
and after a lifting the reads of the rows that its commit expired (for the arguments of the audit
entry and of the deletions from the caches, the source of the certificate and the answer) and the
lookup of the responders whose caches are cleared. The audit entry, the full CRL and the deletions
themselves are guarded, so their failures change nothing. -/
structure Outcome where
  lookup : Bool
  stage : Bool
  delta : Bool
  reread : Bool
  lift : Bool
  restore : Bool
  refresh : Bool
  responders : Bool
  propagation : Propagation

def failed : Answer := .error 500 "Failed to remove certificate hold"

namespace State

variable (s : State)

def setHold (hold : Hold) : State := { s with cert := s.cert.map ({ · with hold := hold }) }

def lifted : State :=
  { s.setHold ⟨false, none, none, none⟩ with
    records := match s.cert.bind Cert.caref, s.cert.bind Cert.serialNumber with
      | some caref, some serial =>
        s.records.filter fun r => !(r.caref = caref && r.serialNumber = serial)
      | _, _ => s.records }

end State

/-- The answer once the hold was lifted; an exception is answered as a failure. -/
def Outcome.answer (o : Outcome) : Answer :=
  if !o.refresh || !o.responders then failed
  else match o.propagation with
    | .none => .success "Certificate hold removed successfully"
    | .lifted => .success "Certificate hold removed in UCM and on the Microsoft CA"
    | .refused error => .success ("Certificate hold removed in UCM, but lifting it on the " ++
        "Windows CA failed: " ++ error ++ ". Unrevoke it on the CA manually.")
    | .raised => failed

/-- The commit of the lifting, or the return to the hold as it was. -/
def lift (o : Outcome) (held : Hold) (s : State) : State × Answer :=
  if o.lift then (s.lifted, o.answer)
  else (if o.restore then s.setHold held else s, failed)

/-- `unhold_certificate`; `staging` says whether the CA has delta CRLs and a distribution point. -/
def unhold (o : Outcome) (staging : Bool) (instant : ℕ) (s : State) : State × Answer :=
  match s.cert with
  | none => (s, .error 404 "Certificate not found")
  | some cert =>
    if !cert.hold.revoked then (s, .error 400 "Certificate is not revoked")
    else if cert.hold.revokeReason ≠ some .certificateHold then
      (s, .error 400 "Only certificates with reason \"certificateHold\" can be unheld")
    else if !o.lookup then (s, failed)
    else if !staging then lift o cert.hold s
    else if !o.stage then (s, failed)
    else
      let staged := s.setHold (cert.hold.staged instant)
      if !o.delta && !o.reread then (staged, failed) else lift o cert.hold staged

/-- Both lifted and said to be, or both as before and said not to be. -/
def AllOrNothing (s : State) : State × Answer → Prop
  | (s', .success _) => s' = s.lifted
  | (s', .error _ _) => s' = s

/-- No step fails whose failure the route does not make good: the reread, the return to a staged
hold, and what follows the lifting without a guard. -/
def MadeGood (o : Outcome) (staging : Bool) : Prop :=
  (staging = true → o.delta = true ∨ o.reread = true) ∧
    (staging = true → o.lift = false → o.restore = true) ∧
      (o.lift = true → o.refresh = true ∧ o.responders = true ∧ o.propagation ≠ .raised)

variable {o : Outcome} {s : State} {cert : Cert}

theorem setHold_ne (hcert : s.cert = some cert) {hold : Hold} (h : hold ≠ cert.hold) :
    s.setHold hold ≠ s := by
  intro heq
  have hsame := congrArg State.cert heq
  simp only [State.setHold, hcert, Option.map_some, Option.some.injEq] at hsame
  exact h (congrArg Cert.hold hsame)

@[simp] theorem setHold_setHold (s : State) (hold hold' : Hold) :
    (s.setHold hold).setHold hold' = s.setHold hold' := by
  cases h : s.cert <;> simp [State.setHold, h]

@[simp] theorem lifted_setHold (s : State) (hold : Hold) : (s.setHold hold).lifted = s.lifted := by
  cases h : s.cert <;> simp [State.lifted, State.setHold, h]

theorem setHold_self (hcert : s.cert = some cert) : s.setHold cert.hold = s := by
  cases s
  simp_all [State.setHold]

theorem lifted_ne (hcert : s.cert = some cert) (hrevoked : cert.hold.revoked = true) :
    s.lifted ≠ s := by
  intro heq
  have hsame := congrArg State.cert heq
  simp only [State.lifted, State.setHold, hcert, Option.map_some, Option.some.injEq] at hsame
  simpa [hrevoked] using congrArg (fun c => c.hold.revoked) hsame

theorem answer_spec (o : Outcome) {s : State} (h : s.lifted ≠ s) :
    AllOrNothing s (s.lifted, o.answer) ↔
      o.refresh = true ∧ o.responders = true ∧ o.propagation ≠ .raised := by
  cases hread : o.refresh <;> cases hr : o.responders <;> cases hp : o.propagation <;>
    simp [Outcome.answer, hread, hr, hp, AllOrNothing, failed, h]

/-- The lifting, from the state before the staging or from the staged one. -/
theorem lift_spec (hcert : s.cert = some cert) (hrevoked : cert.hold.revoked = true)
    (hold : Hold) (staging : Bool) (hhold : hold ≠ cert.hold ↔ staging = true) :
    AllOrNothing s (lift o cert.hold (s.setHold hold)) ↔
      (staging = true → o.lift = false → o.restore = true) ∧
        (o.lift = true → o.refresh = true ∧ o.responders = true ∧ o.propagation ≠ .raised) := by
  cases hlift : o.lift with
  | true =>
    simp only [lift, hlift, if_true, lifted_setHold, answer_spec o (lifted_ne hcert hrevoked)]
    simp
  | false =>
    cases hrestore : o.restore with
    | true => simp [lift, hlift, hrestore, AllOrNothing, failed, setHold_self hcert]
    | false =>
      have hsame : s.setHold hold = s ↔ staging = false := by
        rw [← Bool.not_eq_true, ← hhold, not_not]
        exact ⟨fun h => by_contra fun hne => setHold_ne hcert hne h,
          fun h => h ▸ setHold_self hcert⟩
      simp [lift, hlift, hrestore, AllOrNothing, failed, hsame]

/-- Certificate and record end both lifted or both as they were, and the answer says which, exactly
when the certificate is not held, the route ends before it staged anything, or no step fails that
it does not make good. -/
theorem unhold_allOrNothing_iff (o : Outcome) (staging : Bool) (instant : ℕ) (s : State) :
    AllOrNothing s (unhold o staging instant s) ↔
      ((∃ cert, s.cert = some cert ∧ cert.hold.revoked = true ∧
        cert.hold.revokeReason = some .certificateHold) → o.lookup = true →
          (staging = true → o.stage = true) → MadeGood o staging) := by
  cases hcert : s.cert with
  | none => simp [unhold, hcert, AllOrNothing]
  | some cert =>
    by_cases hheld : cert.hold.revoked = true ∧ cert.hold.revokeReason = some .certificateHold
    · obtain ⟨hrevoked, hreason⟩ := hheld
      have hstaged : cert.hold.staged instant ≠ cert.hold := by
        intro h
        have hsame := congrArg Hold.revokeReason h
        rw [hreason] at hsame
        cases hsame
      have hlift := lift_spec (o := o) hcert hrevoked
        (if staging then cert.hold.staged instant else cert.hold) staging (by
          cases staging <;> simp [hstaged])
      cases hlookup : o.lookup with
      | false => simp [unhold, hcert, hrevoked, hreason, hlookup, AllOrNothing, failed]
      | true =>
        cases staging with
        | false =>
          simp only [Bool.false_eq_true, if_false, setHold_self hcert] at hlift
          simp [unhold, hcert, hrevoked, hreason, hlookup, hlift, MadeGood]
        | true =>
          cases hstage : o.stage with
          | false => simp [unhold, hcert, hrevoked, hreason, hstage, AllOrNothing, failed]
          | true =>
            by_cases hreread : o.delta = true ∨ o.reread = true
            · have hgo : (!o.delta && !o.reread) = false := by
                rcases hreread with h | h <;> simp [h]
              simp only [if_true] at hlift
              simp [unhold, hcert, hrevoked, hreason, hlookup, hstage, hgo, hlift, MadeGood,
                hreread]
            · have hstop : (!o.delta && !o.reread) = true := by simpa using hreread
              simp [unhold, hcert, hrevoked, hreason, hlookup, hstage, hstop, AllOrNothing, failed,
                setHold_ne hcert hstaged, MadeGood, hreread]
    · by_cases hrevoked : cert.hold.revoked = true
      · have hreason : cert.hold.revokeReason ≠ some .certificateHold := fun h =>
          hheld ⟨hrevoked, h⟩
        simp [unhold, hcert, hrevoked, hreason, AllOrNothing]
      · simp [unhold, hcert, hrevoked, AllOrNothing]

def heldState : State :=
  ⟨some ⟨some 7, some ['5'], ⟨true, some 1, some .certificateHold, none⟩⟩,
    [⟨1, 7, ['5'], 1, some .certificateHold, 9, some 1⟩]⟩

def noneFail : Outcome := ⟨true, true, true, true, true, true, true, true, .none⟩

/-- When neither the lifting nor the return to the hold can be committed, the certificate stays
staged; when the rows or the responders cannot be read, a lifted hold is answered as a failure. -/
theorem hold_left_staged_and_lifting_denied :
    unhold { noneFail with lift := false, restore := false } true 3 heldState =
      (heldState.setHold ⟨true, some 3, some .removeFromCRL, none⟩, failed) ∧
    unhold { noneFail with refresh := false } true 3 heldState = (heldState.lifted, failed) ∧
    unhold { noneFail with responders := false } true 3 heldState = (heldState.lifted, failed) := by
  decide

end UltimateCaManager.HoldLifting
