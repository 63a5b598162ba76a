import UltimateCaManager.AuditCompleteness

/-!
# Editing an entry under its old seal

A SHA-256 seal covers the joined texts of the fields. An edit of the fields that keeps the hashes
is found by the verification exactly when it changes the pieces between the separators: text that
moves from one field to the next, or a missing value that becomes the word for it, is not found.
-/
namespace UltimateCaManager.Audit

open List Runs

/-! ## Joined texts -/

section Joined

variable {α : Type*} [BEq α] [LawfulBEq α] {sep : α} {texts texts' : List (List α)}

theorem splitOn_joined (h : texts ≠ []) :
    ([sep].intercalate texts).splitOn sep = texts.flatMap (List.splitOn sep) := by
  induction texts with
  | nil => exact absurd rfl h
  | cons text rest ih =>
    cases rest with
    | nil => simp
    | cons text' rest =>
      rw [intercalate_cons_cons, append_assoc, flatMap_cons,
        ← ih (by simp)]
      exact splitOnP_append_cons _ _ (by simp)

theorem joined_eq_iff (h : texts ≠ []) (h' : texts' ≠ []) :
    [sep].intercalate texts = [sep].intercalate texts' ↔
      texts.flatMap (List.splitOn sep) = texts'.flatMap (List.splitOn sep) := by
  rw [← splitOn_joined h, ← splitOn_joined h']
  constructor
  · exact congrArg _
  · intro heq
    calc [sep].intercalate texts
        = [sep].intercalate (([sep].intercalate texts).splitOn sep) :=
          (intercalate_splitOn sep).symm
      _ = [sep].intercalate (([sep].intercalate texts').splitOn sep) := by rw [heq]
      _ = [sep].intercalate texts' := intercalate_splitOn sep

end Joined

/-! ## Edits -/

/-- The fields that a SHA-256 seal is meant to cover. -/
structure SealedFields where
  timestamp : Option ℕ
  username : Option (List Char)
  action : List Char
  resourceType : Option (List Char)
  resourceId : Option (List Char)
  details : Option (List Char)
  success : Option Bool
  deriving DecidableEq

namespace AuditLog

variable {S : Sealing} {key : Option ℕ} {w : Walk} {log : AuditLog} {f : SealedFields}

def sealedFields (log : AuditLog) : SealedFields where
  timestamp := log.timestamp
  username := log.username
  action := log.action
  resourceType := log.resourceType
  resourceId := log.resourceId
  details := log.details
  success := log.success

def edit (log : AuditLog) (f : SealedFields) : AuditLog :=
  { log with
    timestamp := f.timestamp
    username := f.username
    action := f.action
    resourceType := f.resourceType
    resourceId := f.resourceId
    details := f.details
    success := f.success }

/-- The pieces of the texts of the fields between separators. -/
def pieces (S : Sealing) (log : AuditLog) : List (List Char) :=
  (log.fieldTexts S).flatMap (List.splitOn '|')

theorem data_edit_iff : (log.edit f).data S log.prevHash = log.data S log.prevHash ↔
    (log.edit f).pieces S = log.pieces S := by
  have hid : (log.edit f).id = log.id := rfl
  rw [data, data, joined_eq_iff (by simp) (by simp), hid]
  simp [pieces]

/-- The pass reads the edited entry as it was when the joined text is the same. -/
theorem feed_edit (hversion : log.version = sha256Chain)
    (hdata : (log.edit f).data S log.prevHash = log.data S log.prevHash) :
    w.feed S key (log.edit f) = w.feed S key log := by
  have hhash : (log.edit f).computeHash S log.prevHash none = log.computeHash S log.prevHash none := by
    simp [computeHash, hdata]
  have hseal : ∀ (w : Walk) (h : List Char),
      w.checkSeal S key (log.edit f) h = w.checkSeal S key log h := by
    intro w h
    have hversion' : (log.edit f).version = sha256Chain := hversion
    simp only [Walk.checkSeal, if_pos hversion, if_pos hversion']
    rw [show (log.edit f).prevHash = log.prevHash from rfl, hhash]
    rfl
  simp only [Walk.feed]
  rw [show given (log.edit f).entryHash = given log.entryHash from rfl]
  cases given log.entryHash with
  | none => rfl
  | some h =>
    simp only
    rw [hseal]
    rfl

/-- An edit that changes the joined text no longer matches the seal. -/
theorem classify_edit {h : List Char} (hversion : log.version = sha256Chain)
    (hsealed : given log.entryHash = some h) (hclass : log.classify S key ≠ none)
    (hsha : Function.Injective S.sha256)
    (hdata : (log.edit f).data S log.prevHash ≠ log.data S log.prevHash) :
    (log.edit f).classify S key = none := by
  have hold : log.computeHash S log.prevHash none = h := by
    by_contra hne
    exact hclass (by simp [classify, hsealed, hversion, hne])
  have hnew : (log.edit f).computeHash S log.prevHash none ≠ h := by
    rw [← hold]
    exact fun heq => hdata (hsha heq)
  have hversion' : (log.edit f).version = sha256Chain := hversion
  have hsealed' : given (log.edit f).entryHash = some h := hsealed
  have hprev : (log.edit f).prevHash = log.prevHash := rfl
  simp [classify, hsealed', hversion', hprev, hnew]

end AuditLog

variable {S : Sealing} {key : Option ℕ} {log : AuditLog} {f : SealedFields}
  {before after : List AuditLog}

theorem walked_of_valid {table : List AuditLog}
    (h : (verifyIntegrity S key table none none).valid = true) :
    Walked S key table (walk S key table) := by
  have hall : range table none none = table := by simp [range]
  simp only [verifyIntegrity, verifyChain, Walk.finish, hall, decide_eq_true_eq] at h
  exact walked_of_errorCount (Walk.of_errorCount_conclude h).1

/-- The table that the end of a pass looks into matters for an error only. -/
theorem valid_of_walk {table table' : List AuditLog}
    (hwalk : walk S key table' = walk S key table)
    (h : (verifyIntegrity S key table none none).valid = true) :
    (verifyIntegrity S key table' none none).valid = true := by
  have hall : ∀ t : List AuditLog, range t none none = t := fun t => by simp [range]
  simp only [verifyIntegrity, verifyChain, Walk.finish, hall,
    decide_eq_true_eq, hwalk] at h ⊢
  have hself := Walk.conclude_eq_self h
  have hend := (Walk.of_errorCount_conclude h).2
  have hw := walked_of_errorCount (Walk.of_errorCount_conclude h).1
  rw [Walk.conclude_eq]
  · exact hw.errorCount
  · exact fun hsome hkeyed => (hend hsome hkeyed hw.errorsAtFirstKeyed).1
  · intro _ first hfirst
    by_cases hcond : key.isSome ∧ (walk S key table).firstKeyed.isSome ∧
        (walk S key table).errorsAtFirstKeyed = 0
    · have hkeyed := Option.isSome_iff_ne_none.mp hcond.2.1
      exact Walk.checkChainStart_eq_self ((hend hcond.1 hkeyed hcond.2.2).2 rfl first hfirst)
    · simpa [Walk.conclude, if_neg hcond, hfirst] using hself

/-- In a ledger that verifies, other fields under the seal of an old entry are found exactly when
they are not made of the same pieces. -/
theorem edit_found_iff {S : Sealing} (hsha : Function.Injective S.sha256) (key : Option ℕ)
    {before after : List AuditLog} {log : AuditLog} (hversion : log.version = sha256Chain)
    (hsealed : given log.entryHash ≠ none)
    (hvalid : (verifyIntegrity S key (before ++ log :: after) none none).valid = true)
    (f : SealedFields) :
    (verifyIntegrity S key (before ++ log.edit f :: after) none none).valid = false ↔
      (log.edit f).pieces S ≠ log.pieces S := by
  rw [← not_iff_not, Bool.not_eq_false, not_not, ← AuditLog.data_edit_iff]
  constructor
  · intro hnew
    by_contra hdata
    obtain ⟨h, hh⟩ := Option.ne_none_iff_exists'.mp hsealed
    have hold := (walked_of_valid hvalid).classified log (by simp)
    have hedited := (walked_of_valid hnew).classified (log.edit f) (by simp)
    exact hedited (AuditLog.classify_edit hversion hh hold hsha hdata)
  · intro hdata
    refine valid_of_walk ?_ hvalid
    simp [walk, AuditLog.feed_edit hversion hdata]

/-! ## An old entry before the first one under a key -/

def separatorEntry : Entry := { plainEntry 1 with username := some ['a', '|', 'b'], action := ['c'] }

def oldEntry : AuditLog := sealedRow .transparent none none [] separatorEntry 1 none

def firstKeyedEntry : AuditLog := sealedRow .transparent (some 1) none [oldEntry] (plainEntry 2) 2 none

def otherUser : SealedFields := { oldEntry.sealedFields with username := some ['x'] }

/-- The old fields, with a part of the name moved to the action. -/
def movedText : SealedFields :=
  { oldEntry.sealedFields with username := some ['a'], action := ['b', '|', 'c'] }

theorem edit_found_other_user :
    (verifyIntegrity .transparent (some 1) [oldEntry.edit otherUser, firstKeyedEntry]
      none none).valid = false := by
  have hsha : Function.Injective Sealing.transparent.sha256 := fun a b h => (cons.inj h).2
  have hvalid : (verifyIntegrity .transparent (some 1) ([] ++ oldEntry :: [firstKeyedEntry])
      none none).valid = true := by decide +kernel
  exact (edit_found_iff hsha (some 1) (by decide +kernel) (by decide +kernel) hvalid otherUser).mpr
    (by decide +kernel)

/-- The server wrote the ledger, the edit changes the fields, and the verification still passes. -/
theorem moved_text_not_found :
    (exec (Ledger.step .transparent) (Ledger.init none) [.append separatorEntry 0, .commit,
        .switchKey 1, .append (plainEntry 2) 0, .commit]).committed = [oldEntry, firstKeyedEntry] ∧
      movedText ≠ oldEntry.sealedFields ∧
      (verifyIntegrity .transparent (some 1) [oldEntry, firstKeyedEntry] none none).status = .intact ∧
      (verifyIntegrity .transparent (some 1) [oldEntry.edit movedText, firstKeyedEntry]
        none none).status = .intact := by
  decide +kernel

end UltimateCaManager.Audit
