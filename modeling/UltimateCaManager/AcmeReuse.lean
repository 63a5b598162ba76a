import UltimateCaManager.AcmeStages

/-!
# Copies of authorizations

An authorization created by reuse is a copy: it has the account, identifier, wildcard flag and
expiry of its source. Only the deactivation of a copy ever changes its status, because challenges
are answered and expiries are noticed on rows that were pending. This holds in every run, whatever
sessions commit meanwhile.
-/
namespace UltimateCaManager.Acme

open List Tables Transactions Runs Concurrency.System

/-! ## Copies -/

def Authorization.isCopy (a : Authorization) : Bool :=
  match a.provenance with
  | some (.reused _ _) => true
  | _ => false

/-- What a copy shares with its source. -/
def Authorization.proof (a : Authorization) : ℕ × Identifier × Bool × ℕ :=
  (a.accountId, a.identifier, a.wildcard, a.expires)

variable {a : Authorization} {now orderId accountId : ℕ} {settings : Settings} {tokens : ℕ → ℕ}
  {identifier : Identifier} {t : Task}

theorem isCopy_eq_true :
    a.isCopy = true ↔ ∃ source instant, a.provenance = some (.reused source instant) := by
  unfold Authorization.isCopy
  split
  next source instant h => simp [h]
  next h =>
    simp only [Bool.false_eq_true, false_iff, not_exists]
    exact fun source instant heq => h source instant heq

/-- The row that a copy was made from, which was no longer pending. -/
def CopiedFrom (db : Db) (a : Authorization) : Prop :=
  ∀ source instant, a.provenance = some (.reused source instant) →
    ∃ b ∈ db.authorizations, b.authorizationId = source ∧ b.proof = a.proof ∧ b.status ≠ .pending

def Original (db : Db) (authorizationId : ℕ) : Prop :=
  ∃ a ∈ db.authorizations, a.authorizationId = authorizationId ∧ a.isCopy = false

def HasOrder (db : Db) (orderId : ℕ) : Prop := ∃ o ∈ db.orders, o.orderId = orderId

/-- The side condition of a statement: new copies are valid and have a source, and what a
statement does to a status is a deactivation or meets an original. -/
def Write.Genuine (db : Db) : Write → Prop
  | .addAuthorization a => (a.status = .valid ∨ a.status = .pending ∧ a.isCopy = false) ∧
      CopiedFrom db a ∧ ∀ orderId, a.orderId = some orderId → HasOrder db orderId
  | .setAuthorization authorizationId status p => status ≠ .pending ∧
      (∀ source instant, p ≠ some (.reused source instant)) ∧
      (status = .deactivated ∨ Original db authorizationId)
  | _ => True

/-- Rows persist; what is no longer pending stays so, and no original becomes a copy. -/
structure Db.Keeps (db db' : Db) : Prop where
  orders : ∀ orderId, HasOrder db orderId → HasOrder db' orderId
  authorizations : ∀ a ∈ db.authorizations, ∃ a' ∈ db'.authorizations, a'.fixed = a.fixed ∧
    (a.status ≠ .pending → a'.status ≠ .pending) ∧ (a.isCopy = false → a'.isCopy = false)

variable {db db' : Db} {w : Write} {ws : List Write}

theorem Db.Keeps.refl (db : Db) : db.Keeps db :=
  ⟨fun _ h => h, fun a ha => ⟨a, ha, rfl, id, id⟩⟩

theorem Db.Keeps.trans {db₁ db₂ db₃ : Db} (h : db₁.Keeps db₂) (h' : db₂.Keeps db₃) :
    db₁.Keeps db₃ where
  orders orderId ho := h'.orders orderId (h.orders orderId ho)
  authorizations a ha := by
    obtain ⟨a₂, ha₂, hf₂, hs₂, hc₂⟩ := h.authorizations a ha
    obtain ⟨a₃, ha₃, hf₃, hs₃, hc₃⟩ := h'.authorizations a₂ ha₂
    exact ⟨a₃, ha₃, hf₃.trans hf₂, hs₃ ∘ hs₂, hc₃ ∘ hc₂⟩

theorem Original.mono {authorizationId : ℕ} (hle : db.Keeps db')
    (h : Original db authorizationId) : Original db' authorizationId := by
  obtain ⟨a, ha, hid, hcopy⟩ := h
  obtain ⟨a', ha', hf, -, hc⟩ := hle.authorizations a ha
  exact ⟨a', ha', (fixed_id hf).trans hid, hc hcopy⟩

theorem Authorization.proof_of_fixed {a' : Authorization} (h : a'.fixed = a.fixed) :
    a'.proof = a.proof := by
  simp only [Authorization.fixed, Prod.mk.injEq] at h
  obtain ⟨-, -, haccount, hidentifier, hwildcard, hexpires⟩ := h
  simp [Authorization.proof, haccount, hidentifier, hwildcard, hexpires]

theorem CopiedFrom.mono (hle : db.Keeps db') (h : CopiedFrom db a) : CopiedFrom db' a := by
  intro source instant hprov
  obtain ⟨b, hb, hid, hproof, hstatus⟩ := h source instant hprov
  obtain ⟨b', hb', hf, hs, -⟩ := hle.authorizations b hb
  exact ⟨b', hb', (fixed_id hf).trans hid, (Authorization.proof_of_fixed hf).trans hproof, hs hstatus⟩

theorem Write.Genuine.mono (hle : db.Keeps db') (h : w.Genuine db) : w.Genuine db' := by
  cases w with
  | addAuthorization a =>
    exact ⟨h.1, h.2.1.mono hle, fun orderId ho => hle.orders orderId (h.2.2 orderId ho)⟩
  | setAuthorization id status p => exact ⟨h.1, h.2.1, h.2.2.imp_right fun ho => ho.mono hle⟩
  | _ => trivial

theorem hasOrder_apply (h : HasOrder db orderId) : HasOrder (db.apply w) orderId := by
  obtain ⟨o, ho, hid⟩ := h
  obtain ⟨o', ho', hf⟩ := (Db.le_apply db w).orders o ho
  exact ⟨o', ho', (congrArg Prod.fst hf).trans hid⟩

/-- What a statement makes of a row depends on its columns only. -/
theorem Authorization.after_keeps {a' : Authorization} (hf : a'.fixed = a.fixed)
    (hs : a.status ≠ .pending → a'.status ≠ .pending) (hc : a.isCopy = false → a'.isCopy = false) :
    ((a.after w).status ≠ .pending → (a'.after w).status ≠ .pending) ∧
      ((a.after w).isCopy = false → (a'.after w).isCopy = false) := by
  unfold Authorization.after
  split
  next id status p =>
    rw [fixed_id hf]
    split
    · refine ⟨fun h => h, ?_⟩
      cases p with
      | none => exact hc
      | some p => exact fun h => h
    · exact ⟨hs, hc⟩
  next => exact ⟨hs, hc⟩

theorem Db.Keeps.apply (h : db.Keeps db') (w : Write) : (db.apply w).Keeps (db'.apply w) where
  orders orderId ho := by
    obtain ⟨o, hmem, hid⟩ := ho
    rcases mem_orders_apply hmem with rfl | ⟨o₀, ho₀, hf, -⟩
    · exact ⟨o, mem_concat_self, hid⟩
    · exact hasOrder_apply (h.orders orderId ⟨o₀, ho₀, (congrArg Prod.fst hf).trans hid⟩)
  authorizations a ha := by
    rw [authorizations_apply] at ha ⊢
    rcases mem_append.mp ha with ha | ha
    · obtain ⟨q, hq, rfl⟩ := mem_map.mp ha
      obtain ⟨q', hq', hf, hs, hc⟩ := h.authorizations q hq
      obtain ⟨hs', hc'⟩ := Authorization.after_keeps (w := w) hf hs hc
      refine ⟨q'.after w, mem_append_left _ (mem_map_of_mem hq'), ?_, hs', hc'⟩
      rw [Authorization.after_fixed, Authorization.after_fixed, hf]
    · exact ⟨a, mem_append_right _ ha, rfl, id, id⟩

theorem Write.Genuine.keeps (h : w.Genuine db) : db.Keeps (db.apply w) where
  orders _ := hasOrder_apply
  authorizations a ha := by
    refine ⟨a.after w, ?_, Authorization.after_fixed w a, ?_⟩
    · rw [authorizations_apply]
      exact mem_append_left _ (mem_map_of_mem ha)
    · unfold Authorization.after
      split
      next key status p =>
        split
        · refine ⟨fun _ => h.1, fun hcopy => ?_⟩
          cases hp : p with
          | none => exact hcopy
          | some q =>
            rw [← Bool.not_eq_true, isCopy_eq_true]
            rintro ⟨source, instant, heq⟩
            exact h.2.1 source instant (hp.trans heq)
        · exact ⟨id, id⟩
      next => exact ⟨id, id⟩

theorem keeps_applyAll (h : store.Admissible Write.Genuine db ws) :
    db.Keeps (store.applyAll db ws) := by
  induction ws generalizing db with
  | nil => exact Db.Keeps.refl db
  | cons w ws ih => exact h.1.keeps.trans (ih h.2)

theorem genuine_mono (hle : db.Keeps db') (h : store.Admissible Write.Genuine db ws) :
    store.Admissible Write.Genuine db' ws :=
  h.mono (fun _ _ w hle => Db.Keeps.apply hle w) (fun _ _ _ hle h => Write.Genuine.mono hle h) hle

theorem Db.Keeps.applyAll (h : db.Keeps db') (ws : List Write) :
    (store.applyAll db ws).Keeps (store.applyAll db' ws) :=
  Store.applyAll_mono (fun _ _ w h => Db.Keeps.apply h w) h

/-! ## The invariant of the tables -/

structure Copied (db : Db) : Prop where
  unique : db.Unique
  status : ∀ a ∈ db.authorizations, a.isCopy = true → a.status = .valid ∨ a.status = .deactivated
  source : ∀ a ∈ db.authorizations, CopiedFrom db a
  ordered : ∀ a ∈ db.authorizations, ∀ orderId, a.orderId = some orderId → HasOrder db orderId

theorem Copied.apply (h : Copied db) (hw : w.Genuine db) (hacc : db.accepts w = true) :
    Copied (db.apply w) where
  unique := h.unique.apply hacc
  status a ha hcopy := by
    rcases mem_authorizations_apply ha with rfl | ⟨a₀, ha₀, hf, ⟨hs, hp⟩ | ⟨p, rfl, hp⟩⟩
    · exact .inl (hw.1.resolve_right fun hnew => by simp [hcopy] at hnew)
    · rw [hs]
      refine h.status a₀ ha₀ ?_
      rwa [Authorization.isCopy, ← hp]
    · -- the statement left the history of a copy alone, so that it met a copy
      refine .inr (hw.2.2.resolve_right ?_)
      rintro ⟨b, hb, hid, horiginal⟩
      obtain rfl := h.unique.authorization_eq hb ha₀ (hid.trans (fixed_id hf).symm)
      obtain ⟨source, instant, hprov⟩ := isCopy_eq_true.mp hcopy
      rw [hprov] at hp
      cases p with
      | none =>
        rw [← Bool.not_eq_true] at horiginal
        exact horiginal (isCopy_eq_true.mpr ⟨source, instant, hp.symm⟩)
      | some q => exact hw.2.1 source instant hp.symm
  source a ha := by
    rcases mem_authorizations_apply ha with rfl | ⟨a₀, ha₀, hf, ⟨hs, hp⟩ | ⟨p, rfl, hp⟩⟩
    · exact hw.2.1.mono hw.keeps
    · intro source instant hprov
      rw [← Authorization.proof_of_fixed hf]
      exact (h.source a₀ ha₀).mono hw.keeps source instant (hp ▸ hprov)
    · intro source instant hprov
      rw [← Authorization.proof_of_fixed hf]
      refine (h.source a₀ ha₀).mono hw.keeps source instant ?_
      rw [hprov] at hp
      cases p with
      | none => exact hp.symm
      | some q => exact absurd hp.symm (hw.2.1 source instant)
  ordered a ha orderId hord := by
    rcases mem_authorizations_apply ha with rfl | ⟨a₀, ha₀, hf, -⟩
    · exact hasOrder_apply (hw.2.2 orderId hord)
    · refine hasOrder_apply (h.ordered a₀ ha₀ orderId ?_)
      exact (congrArg (fun x => x.2.1) hf).trans hord

theorem Copied.applyAll (h : Copied db) (hws : store.Admissible Write.Genuine db ws)
    (hacc : store.acceptsAll db ws = true) : Copied (store.applyAll db ws) :=
  hws.keeps (fun _ _ _ h hw hacc => h.apply hw hacc) hacc h

theorem Copied.original (h : Copied db) (ha : a ∈ db.authorizations)
    (hpending : a.status = .pending) : Original db a.authorizationId := by
  refine ⟨a, ha, rfl, ?_⟩
  rw [← Bool.not_eq_true]
  intro hcopy
  rcases h.status a ha hcopy with hs | hs <;> simp [hpending] at hs

/-! ## The handlers stage genuinely -/

variable {s s' : Session} {marks : ℕ → AuthorizationStatus → Prop} {text : Text}

theorem Sound.keeps_view (h : s.Sound store Write.Genuine db) : db.Keeps s.view := by
  rw [h.view_eq]
  exact keeps_applyAll h.admissible

theorem StagesFor.genuine (h : StagesFor marks s s') (hs : s.Sound store Write.Genuine db)
    (hm : ∀ id status, marks id status → status = .deactivated ∨
      status ≠ .pending ∧ Original db id) : s'.Sound store Write.Genuine db := by
  induction h with
  | refl => exact hs
  | quiet w _ hw ih =>
    refine ih.write ?_
    obtain ⟨hquiet, hmark⟩ := hw
    cases w with
    | setAuthorization id status p =>
      obtain ⟨-, rfl⟩ := hquiet
      rcases hm id status (hmark id status none rfl) with rfl | ⟨hne, horiginal⟩
      · exact ⟨by simp, by simp, .inl rfl⟩
      · exact ⟨hne, by simp, .inr (horiginal.mono (Sound.keeps_view ih))⟩
    | addAuthorization a => exact hquiet.elim
    | _ => trivial
  | close o _ _ _ ih => exact ih.observe.write trivial

theorem Pending.genuine (h : Copied db) :
    ∀ id status, Pending db id status → status = .deactivated ∨
      status ≠ .pending ∧ Original db id := by
  rintro id status ⟨rfl, a, ha, rfl, hpending⟩
  exact .inr ⟨by simp, h.original ha hpending⟩

theorem admissible_addChallenge {cs : List Challenge} :
    store.Admissible Write.Genuine db (cs.map .addChallenge) := by
  induction cs generalizing db with
  | nil => trivial
  | cons c cs ih => exact ⟨trivial, ih⟩

theorem addRow_genuine (hs : s.Sound store Write.Genuine db)
    {cs : List Challenge} (ha : (Write.addAuthorization a).Genuine s.view) :
    (stageAll s (.addAuthorization a :: cs.map .addChallenge)).Sound store Write.Genuine db := by
  rw [stageAll_eq]
  refine ⟨?_, Store.admissible_append.mpr ⟨hs.admissible, ?_⟩⟩
  · simp [hs.view_eq, Store.applyAll_append]
  · rw [← hs.view_eq]
    exact ⟨ha, admissible_addChallenge⟩

theorem newAuthorization_genuine {orderId : Option ℕ} (hs : s.Sound store Write.Genuine db)
    (hord : ∀ id, orderId = some id → HasOrder s.view id) :
    (newAuthorization settings now tokens orderId accountId identifier s).Sound store
      Write.Genuine db := by
  have hprov : ∀ source instant, (newAuthorizationRow settings now (tokens 0) orderId accountId
      identifier).provenance ≠ some (.reused source instant) := by
    intro source instant h
    obtain ⟨entry, -, heq⟩ := Option.map_eq_some_iff.mp h
    cases heq
  refine addRow_genuine hs ⟨?_, fun source instant h => absurd h (hprov source instant), hord⟩
  have hcopy : (newAuthorizationRow settings now (tokens 0) orderId accountId identifier).isCopy =
      false := by
    rw [← Bool.not_eq_true, isCopy_eq_true]
    exact fun ⟨source, instant, h⟩ => hprov source instant h
  by_cases happroved : (approvalOf settings identifier).isSome
  · exact .inl (if_pos happroved)
  · exact .inr ⟨if_neg happroved, hcopy⟩

theorem copyAuthorization_genuine {source : Authorization}
    (hs : s.Sound store Write.Genuine db) (hsource : source ∈ s.view.authorizations)
    (hvalid : source.status = .valid) (hord : HasOrder s.view orderId) :
    (copyAuthorization now tokens orderId source s).Sound store Write.Genuine db := by
  refine addRow_genuine hs ⟨.inl rfl, ?_, ?_⟩
  · rintro _ _ ⟨⟩
    exact ⟨source, hsource, rfl, rfl, by simp [hvalid]⟩
  · rintro _ ⟨⟩
    exact hord

theorem hasOrder_stageAll (h : HasOrder s.view orderId) (ws : List Write) :
    HasOrder (stageAll s ws).view orderId := by
  rw [stageAll_eq]
  obtain ⟨o, ho, hid⟩ := h
  obtain ⟨o', ho', hf⟩ := (Db.le_applyAll s.view ws).orders o ho
  exact ⟨o', ho', (congrArg Prod.fst hf).trans hid⟩

/-- A source that `_create_authorization` picks is a valid row in its sight. -/
theorem createAuthorization_cases {commits : Bool}
    (h : createAuthorization settings now tokens orderId accountId identifier s = (s', commits)) :
    (∃ source ∈ s.view.authorizations, source.status = .valid ∧
      s' = copyAuthorization now tokens orderId source s) ∨
    s' = newAuthorization settings now tokens (some orderId) accountId identifier s := by
  unfold createAuthorization at h
  simp only at h
  split at h
  next source hfirst =>
    cases h
    obtain ⟨hmem, hre⟩ := mem_filter.mp (mem_of_firstBy hfirst)
    simp only [reusable, Bool.and_eq_true, decide_eq_true_eq] at hre
    exact .inl ⟨source, hmem, hre.1.2, rfl⟩
  next =>
    cases h
    exact .inr rfl

theorem createAuthorization_genuine {commits : Bool} (hs : s.Sound store Write.Genuine db)
    (hord : HasOrder s.view orderId)
    (h : createAuthorization settings now tokens orderId accountId identifier s = (s', commits)) :
    store.Admissible Write.Genuine db s'.writes ∧
      HasOrder (store.applyAll db s'.writes) orderId := by
  obtain ⟨hsound, hord⟩ : s'.Sound store Write.Genuine db ∧ HasOrder s'.view orderId := by
    rcases createAuthorization_cases h with ⟨source, hmem, hvalid, rfl⟩ | rfl
    · exact ⟨copyAuthorization_genuine hs hmem hvalid hord, hasOrder_stageAll hord _⟩
    · refine ⟨newAuthorization_genuine hs ?_, hasOrder_stageAll hord _⟩
      rintro _ ⟨⟩
      exact hord
  exact ⟨hsound.admissible, hsound.view_eq ▸ hord⟩

theorem finishOrder_genuine (hs : s.Sound store Write.Genuine db) :
    (finishOrder s orderId).Sound store Write.Genuine db := by
  unfold finishOrder
  simp only
  split
  · exact hs.observe.write trivial
  · exact hs

theorem completeChallenge_genuine {challengeId authorizationId : ℕ} {type : ChallengeType}
    (horiginal : Original db authorizationId) :
    (completeChallenge (.start db) now challengeId authorizationId type).Sound store
      Write.Genuine db := by
  have h₁ : (stage (Session.start db) (.setChallenge challengeId .valid (some now) none)).Sound
      store Write.Genuine db := Session.Sound.start.write trivial
  rcases completeChallenge_cases db now challengeId authorizationId type with
    heq | ⟨a, s₃, -, -, hstages, -, -, heq⟩
  · rwa [heq]
  have h₃ := hstages.genuine
    (h₁.write ⟨by simp, by simp, .inr (horiginal.mono (Sound.keeps_view h₁))⟩) (by simp)
  rcases heq with heq | ⟨o, -, -, heq⟩
  · rwa [heq]
  · rw [heq]
    exact h₃.observe.write trivial

/-! ## Tasks -/

def Next.Genuine (db : Db) (writes : List Write) : Next → Prop
  | .creating orderId _ _ => HasOrder (store.applyAll db writes) orderId
  | .challenge _ authorizationId => Original db authorizationId
  | _ => True

/-- What a task relies on: its writes are genuine, and the row whose challenge it handles is an
original. -/
def Task.Genuine (db : Db) : Task → Prop
  | .creating orderId _ _ staged => store.Admissible Write.Genuine db staged ∧
      HasOrder (store.applyAll db staged) orderId
  | .responding _ authorizationId _ => Original db authorizationId
  | .failing _ authorizationId _ => Original db authorizationId
  | .committing writes _ next => store.Admissible Write.Genuine db writes ∧ next.Genuine db writes
  | _ => True

theorem Task.Genuine.mono (hle : db.Keeps db') (h : t.Genuine db) : t.Genuine db' := by
  cases t with
  | creating orderId accountId todo staged =>
    exact ⟨genuine_mono hle h.1, (hle.applyAll staged).orders orderId h.2⟩
  | responding | failing => exact Original.mono hle h
  | committing writes reads next =>
    refine ⟨genuine_mono hle h.1, ?_⟩
    cases next with
    | creating orderId accountId todo => exact (hle.applyAll writes).orders orderId h.2
    | challenge challengeId authorizationId => exact Original.mono hle h.2
    | _ => trivial
  | _ => trivial

theorem commitThen_genuine (h : s.Sound store Write.Genuine db) :
    (Session.commitThen s .finished).Genuine db :=
  ⟨h.admissible, trivial⟩

theorem starts_genuine {r : Request} (hc : Copied db)
    (h : Starts settings now db r t) : t.Genuine db := by
  cases h with
  | newOrder =>
    exact ⟨⟨trivial, trivial⟩, _, mem_concat_self, rfl⟩
  | newAuthz => exact commitThen_genuine (newAuthorization_genuine .start (by simp))
  | respond hchallenge ha hopen hpending =>
    exact hc.original (authorization?_mem ha).1 hpending
  | finalize => trivial
  | deactivateExpired ha hs =>
    have hstages := expireAuthorizationIfNeeded_stages ha hs
    exact ⟨(hstages.genuine .start (Pending.genuine hc)).admissible, trivial⟩
  | deactivate ha hs =>
    exact commitThen_genuine ((deactivateAuthorization_stages hs).genuine .start fun _ _ => .inl)
  | pollOrder ho hs =>
    exact commitThen_genuine
      ((expireOrderIfNeeded_stages ho hs).genuine .start (Pending.genuine hc))
  | pollAuthorization ha hs =>
    exact commitThen_genuine
      ((expireAuthorizationIfNeeded_stages ha hs).genuine .start (Pending.genuine hc))

theorem rejectOrRestore_genuine {badRequest : Bool} {detail : String} :
    (signOrder.rejectOrRestore orderId badRequest detail).Genuine db := by
  unfold signOrder.rejectOrRestore
  split
  · exact ⟨⟨trivial, trivial, trivial⟩, trivial⟩
  · trivial

theorem Copied.addCertificate (h : Copied db) (c : Certificate) :
    Copied (db.apply (.addCertificate c)) :=
  ⟨⟨h.unique.1, h.unique.2⟩, h.status, h.source, h.ordered⟩

theorem keeps_addCertificate (db : Db) (c : Certificate) :
    db.Keeps (db.apply (.addCertificate c)) :=
  ⟨fun _ h => h, fun a ha => ⟨a, ha, rfl, id, id⟩⟩

structure LeavesCopies (db db' : Db) (t' : Option Task) : Prop where
  copied : Copied db'
  keeps : db.Keeps db'
  task : ∀ t, t' = some t → t.Genuine db'

theorem LeavesCopies.same {t' : Option Task} (hc : Copied db)
    (ht : ∀ t, t' = some t → t.Genuine db) : LeavesCopies db db t' :=
  ⟨hc, Db.Keeps.refl db, ht⟩

theorem LeavesCopies.next (hc : Copied db) (ht : t.Genuine db) : LeavesCopies db db (some t) :=
  .same hc (by rintro t ⟨⟩; exact ht)

theorem advances_genuine {input : Input} {t' : Option Task} (hc : Copied db) (ht : t.Genuine db)
    (h : Advances text settings now db t input db' t') : LeavesCopies db db' t' := by
  cases h with
  | finish hacc => exact .next hc (commitThen_genuine (finishOrder_genuine ⟨rfl, ht.1⟩))
  | authorize hacc hs | reuse hacc hs =>
    exact .next hc (createAuthorization_genuine ⟨rfl, ht.1⟩ ht.2 hs)
  | pass => exact .next hc ⟨(completeChallenge_genuine ht).admissible, ht⟩
  | fail => exact .next hc ht
  | invalidateChallenge =>
    refine .next hc (commitThen_genuine ((invalidateChallenge_stages _ _ _ _).genuine .start ?_))
    rintro id status ⟨rfl, rfl, -⟩
    exact .inr ⟨by simp, ht⟩
  | @claim orderId csr problem hready =>
    have hw : (Write.setOrderStatus orderId .processing).Genuine db := trivial
    refine ⟨hc.apply hw rfl, hw.keeps, ?_⟩
    rintro t ⟨⟩
    trivial
  | signed hacc =>
    refine ⟨hc.addCertificate _, keeps_addCertificate _ _, ?_⟩
    rintro t ⟨⟩
    exact ⟨⟨trivial, trivial, trivial⟩, trivial⟩
  | signRefused => exact .next hc rejectOrRestore_genuine
  | failedAfterCommit hacc =>
    refine ⟨hc.addCertificate _, keeps_addCertificate _ _, ?_⟩
    rintro t ⟨⟩
    exact rejectOrRestore_genuine
  | restore => exact .next hc ⟨⟨trivial, trivial⟩, trivial⟩
  | invalidateOrder => exact .next hc ⟨⟨trivial, trivial, trivial⟩, trivial⟩
  | deactivate =>
    refine .same hc fun t ht' => ?_
    obtain ⟨a, -, ha⟩ := Option.bind_eq_some_iff.mp ht'
    obtain ⟨s, hs, rfl⟩ := continueDeactivation_eq_some ha
    exact commitThen_genuine ((deactivateAuthorization_stages hs).genuine .start fun _ _ => .inl)
  | @committed writes reads next problem hacc =>
    refine ⟨hc.applyAll ht.1 hacc, keeps_applyAll ht.1, fun t ht' => ?_⟩
    cases next with
    | creating orderId accountId todo =>
      cases ht'
      exact ⟨trivial, ht.2⟩
    | _ => cases ht' <;> trivial
  | @rolledBack writes reads next ok problem =>
    refine .same hc fun t ht' => ?_
    cases next with
    | challenge challengeId authorizationId =>
      cases ht'
      exact ht.2
    | _ => cases ht' <;> trivial
  | _ =>
    refine .same hc fun t ht' => ?_
    cases ht' <;> trivial

/-! ## Runs -/

/-- Copies are as they should be, and every task relies on the right things. -/
structure CopiesKept (w : World) : Prop where
  copied : Copied w.db
  tasks : ∀ i t, w.tasks i = some t → t.Genuine w.db

theorem CopiesKept.initial (settings : Settings) (now : ℕ) :
    CopiesKept (Acme.initial settings now) where
  copied := ⟨.empty, by simp [Acme.initial, Db.empty], by simp [Acme.initial, Db.empty],
    by simp [Acme.initial, Db.empty]⟩
  tasks := by simp [Acme.initial]

theorem CopiesKept.step {w : World} (h : CopiesKept w) (text : Text) (l : Label) :
    CopiesKept (Acme.step text w l) ∧ w.db.Keeps (Acme.step text w l).db := by
  have hsteps := step_steps text w l
  generalize Acme.step text w l = w' at hsteps
  cases hsteps with
  | idle => exact ⟨h, Db.Keeps.refl _⟩
  | tick | configure => exact ⟨⟨h.1, h.2⟩, Db.Keeps.refl _⟩
  | @request i r hfree =>
    refine ⟨⟨h.copied, forall_update (fun t ht => ?_) h.tasks⟩, Db.Keeps.refl _⟩
    exact starts_genuine h.copied (handle_starts ht)
  | @advance i input t db t' ht hadv =>
    have hleft := advances_genuine h.copied (h.tasks i t ht) hadv
    refine ⟨⟨hleft.copied, forall_update hleft.task fun j u hu => ?_⟩, hleft.keeps⟩
    exact (h.tasks j u hu).mono hleft.keeps

theorem copiesKept_reach {guard : World → Label → Prop} {w : World}
    (h : Reach (step text) guard (initial settings now) w) : CopiesKept w :=
  h.invariant (CopiesKept.initial settings now) fun _ l _ hw _ => (hw.step text l).1

end UltimateCaManager.Acme
