import UltimateCaManager.AcmeStages

/-!
# Justified authorizations

What counts as proof of control of an identifier, and the invariant of the tables that carries
it: an authorization which was ever made valid has a justified history, challenges are only
offered where their type may prove the identifier, and an order which is ready, processing or
valid has a justified authorization for each of its identifiers. Each handler stages statements
that keep the invariant, whatever other sessions commit meanwhile.
-/
namespace UltimateCaManager.Acme

open List Tables Transactions

/-! ## What counts as proof -/

/-- The identifier as it was ordered. -/
def Authorization.name (a : Authorization) : String :=
  if a.wildcard then String.ofList ('*' :: '.' :: a.identifier.value.toList)
  else a.identifier.value

/-- A wildcard is proven through the DNS only, an IP address never through it. -/
def MayProve (type : ChallengeType) (identifier : Identifier) (wildcard : Bool) : Prop :=
  (wildcard = true → type = .dns01 ∨ type = .dnsPersist01) ∧
    (identifier.type = .ip → type ≠ .dns01 ∧ type ≠ .dnsPersist01)

/-- An authorization was validated by a challenge that may prove it, or copied within its expiry
from such an authorization of the same account and identifier, or auto-approved by an entry that
was registered for its name. -/
inductive Proven (db : Db) : Authorization → Prop
  | challenge {a : Authorization} {type : ChallengeType} :
      a.provenance = some (.challenge type) → MayProve type a.identifier a.wildcard → Proven db a
  | reused {a b : Authorization} {instant : ℕ} :
      a.provenance = some (.reused b.authorizationId instant) → b ∈ db.authorizations →
      b.accountId = a.accountId → b.identifier = a.identifier → b.wildcard = a.wildcard →
      instant < b.expires → Proven db b → Proven db a
  | autoApproved {a : Authorization} {entry : DomainEntry} {registered : List DomainEntry} :
      a.provenance = some (.autoApproved entry registered) → entry ∈ registered →
      entry.autoApprove = true → Covers entry a.name → Proven db a

/-- The account has a proven authorization for the identifier, with the same wildcard flag. -/
def ControlProven (db : Db) (accountId : ℕ) (identifier : Identifier) : Prop :=
  ∃ a ∈ db.authorizations, a.accountId = accountId ∧
    (a.identifier, a.wildcard) = normalizeAuthorizationIdentifier identifier ∧ Proven db a

/-! ## The invariant of the tables -/

def AuthorizedBy (db : Db) (orderId accountId : ℕ) (identifier : Identifier)
    (p : Authorization → Prop) : Prop :=
  ∃ a ∈ db.authorizations, a.orderId = some orderId ∧ a.accountId = accountId ∧
    (a.identifier, a.wildcard) = normalizeAuthorizationIdentifier identifier ∧ p a

/-- Every identifier of the order has an authorization with a history. -/
def Authorized (db : Db) (o : Order) : Prop :=
  ∀ identifier ∈ o.identifiers,
    AuthorizedBy db o.orderId o.accountId identifier fun a => a.provenance.isSome

def OfferedFor (db : Db) (authorizationId : ℕ) (type : ChallengeType) : Prop :=
  ∃ a ∈ db.authorizations, a.authorizationId = authorizationId ∧
    MayProve type a.identifier a.wildcard

def OwnedBy (db : Db) (orderId accountId : ℕ) : Prop :=
  ∃ o ∈ db.orders, o.orderId = orderId ∧ o.accountId = accountId

def AuthorizedOrder (db : Db) (orderId : ℕ) : Prop :=
  ∃ o ∈ db.orders, o.orderId = orderId ∧ Authorized db o

/-- The statuses that finalization can start from or lead to. -/
def OrderStatus.Granted (status : OrderStatus) : Prop :=
  status = .ready ∨ status = .processing ∨ status = .valid

def Recorded (db : Db) : Prop :=
  ∀ a ∈ db.authorizations, a.status = .valid → a.provenance.isSome

structure Justified (db : Db) : Prop where
  unique : db.Unique
  offered : ∀ c ∈ db.challenges, OfferedFor db c.authorizationId c.type
  owned : ∀ a ∈ db.authorizations, ∀ orderId, a.orderId = some orderId →
    OwnedBy db orderId a.accountId
  proven : ∀ a ∈ db.authorizations, a.provenance.isSome → Proven db a
  granted : ∀ o ∈ db.orders, o.status.Granted → Authorized db o

def NewlyProven (db : Db) (a : Authorization) : Prop :=
  match a.provenance with
  | none => True
  | some (.challenge _) => False
  | some (.reused source instant) => ∃ b ∈ db.authorizations, b.authorizationId = source ∧
      b.accountId = a.accountId ∧ b.identifier = a.identifier ∧ b.wildcard = a.wildcard ∧
      instant < b.expires ∧ b.provenance.isSome
  | some (.autoApproved entry registered) =>
    entry ∈ registered ∧ entry.autoApprove = true ∧ Covers entry a.name

/-- The side condition under which a statement keeps the invariant. -/
def Write.Fair (db : Db) : Write → Prop
  | .addOrder o => o.status = .pending
  | .addAuthorization a => (a.status = .valid → a.provenance.isSome) ∧
      (∀ orderId, a.orderId = some orderId → OwnedBy db orderId a.accountId) ∧ NewlyProven db a
  | .addChallenge c => OfferedFor db c.authorizationId c.type
  | .setOrderStatus orderId status => status.Granted → AuthorizedOrder db orderId
  | .setAuthorization authorizationId status p => (status = .valid → p.isSome) ∧
      ∀ h, p = some h → ∃ type, h = .challenge type ∧ OfferedFor db authorizationId type
  | .addCertificate _ => False
  | _ => True

variable {db db' : Db} {w : Write} {ws : List Write}

/-! ### The conditions survive foreign commits -/

variable {a : Authorization} {o : Order} {orderId accountId now : ℕ} {identifier : Identifier}
  {cs : List Challenge} {settings : Settings} {tokens : ℕ → ℕ}

theorem Authorization.eq_of_fixed {b : Authorization} (h : a.fixed = b.fixed) :
    a.authorizationId = b.authorizationId ∧ a.orderId = b.orderId ∧ a.accountId = b.accountId ∧
      a.identifier = b.identifier ∧ a.wildcard = b.wildcard ∧ a.expires = b.expires := by
  simpa [Authorization.fixed] using h

theorem Order.eq_of_fixed {p : Order} (h : o.fixed = p.fixed) :
    o.orderId = p.orderId ∧ o.accountId = p.accountId ∧ o.identifiers = p.identifiers ∧
      o.expires = p.expires := by
  simpa [Order.fixed] using h

theorem AuthorizedBy.mono
    {p p' : Authorization → Prop} (hle : db.Le db')
    (hp : ∀ a a' : Authorization, a'.fixed = a.fixed →
      (a.provenance.isSome → a'.provenance.isSome) → p a → p' a')
    (h : AuthorizedBy db orderId accountId identifier p) :
    AuthorizedBy db' orderId accountId identifier p' := by
  obtain ⟨a, ha, hord, hacc, hid, hpa⟩ := h
  obtain ⟨a', ha', hf, hprov⟩ := hle.authorizations a ha
  obtain ⟨-, h₂, h₃, h₄, h₅, -⟩ := Authorization.eq_of_fixed hf
  exact ⟨a', ha', h₂ ▸ hord, h₃ ▸ hacc, by rw [h₄, h₅, hid], hp a a' hf hprov hpa⟩

theorem Authorized.mono (hle : db.Le db') {o' : Order} (hf : o'.fixed = o.fixed)
    (h : Authorized db o) : Authorized db' o' := by
  obtain ⟨h₁, h₂, h₃, -⟩ := Order.eq_of_fixed hf
  intro identifier hmem
  rw [h₁, h₂]
  exact (h identifier (h₃ ▸ hmem)).mono hle fun _ _ _ hprov => hprov

theorem OfferedFor.mono {authorizationId : ℕ} {type : ChallengeType} (hle : db.Le db')
    (h : OfferedFor db authorizationId type) : OfferedFor db' authorizationId type := by
  obtain ⟨a, ha, hid, hmay⟩ := h
  obtain ⟨a', ha', hf, -⟩ := hle.authorizations a ha
  obtain ⟨h₁, -, -, h₄, h₅, -⟩ := Authorization.eq_of_fixed hf
  exact ⟨a', ha', h₁.trans hid, by rwa [h₄, h₅]⟩

theorem OwnedBy.mono (hle : db.Le db') (h : OwnedBy db orderId accountId) :
    OwnedBy db' orderId accountId := by
  obtain ⟨o, ho, hid, hacc⟩ := h
  obtain ⟨o', ho', hf⟩ := hle.orders o ho
  obtain ⟨h₁, h₂, -⟩ := Order.eq_of_fixed hf
  exact ⟨o', ho', h₁.trans hid, h₂.trans hacc⟩

theorem AuthorizedOrder.mono (hle : db.Le db') (h : AuthorizedOrder db orderId) :
    AuthorizedOrder db' orderId := by
  obtain ⟨o, ho, hid, hauth⟩ := h
  obtain ⟨o', ho', hf⟩ := hle.orders o ho
  exact ⟨o', ho', (Order.eq_of_fixed hf).1.trans hid, hauth.mono hle hf⟩

theorem NewlyProven.mono (hle : db.Le db') (h : NewlyProven db a) : NewlyProven db' a := by
  unfold NewlyProven at h ⊢
  split at h
  · trivial
  · exact h
  · obtain ⟨b, hb, hsrc, hacc, hid, hwild, hexp, hprov⟩ := h
    obtain ⟨b', hb', hf, hprov'⟩ := hle.authorizations b hb
    obtain ⟨h₁, -, h₃, h₄, h₅, h₆⟩ := Authorization.eq_of_fixed hf
    exact ⟨b', hb', h₁.trans hsrc, h₃.trans hacc, h₄.trans hid, h₅.trans hwild, h₆ ▸ hexp,
      hprov' hprov⟩
  · exact h

theorem Write.Fair.mono (hle : db.Le db') (h : w.Fair db) : w.Fair db' := by
  cases w with
  | addAuthorization a =>
    exact ⟨h.1, fun id hid => (h.2.1 id hid).mono hle, h.2.2.mono hle⟩
  | addChallenge c => exact OfferedFor.mono hle h
  | setOrderStatus id status => exact fun hs => AuthorizedOrder.mono hle (h hs)
  | setAuthorization id status p =>
    refine ⟨h.1, fun q hq => ?_⟩
    obtain ⟨type, htype, hoff⟩ := h.2 q hq
    exact ⟨type, htype, hoff.mono hle⟩
  | addOrder | addCertificate => exact h
  | _ => trivial

theorem fair_mono (hle : db.Le db') (h : store.Admissible Write.Fair db ws) :
    store.Admissible Write.Fair db' ws :=
  h.mono (fun _ _ w hle => Db.Le.apply hle w) (fun _ _ _ hle h => Write.Fair.mono hle h) hle

/-! ### A fair statement keeps the invariant -/

theorem Recorded.apply (h : Recorded db) (hw : w.Fair db) : Recorded (db.apply w) := by
  intro a ha hvalid
  rcases mem_authorizations_apply ha with rfl | ⟨a₀, ha₀, -, ⟨hs, hp⟩ | ⟨p, rfl, hp⟩⟩
  · exact hw.1 hvalid
  · rw [hp]
    exact h a₀ ha₀ (hs ▸ hvalid)
  · obtain ⟨q, hq⟩ := Option.isSome_iff_exists.mp (hw.1 hvalid)
    rw [hp, hq]
    rfl

/-- A statement leaves the history of a row alone or replaces it by a fitting challenge. -/
theorem after_provenance_cases (hu : db.Unique) (hw : w.Fair db) (ha : a ∈ db.authorizations) :
    (a.after w).provenance = a.provenance ∨ Proven (db.apply w) (a.after w) := by
  obtain ⟨-, -, -, h₄, h₅, -⟩ := Authorization.eq_of_fixed (Authorization.after_fixed w a)
  cases w with
  | setAuthorization id status p =>
    by_cases hid : a.authorizationId = id
    · cases p with
      | none => exact .inl (by simp [Authorization.after, hid])
      | some q =>
        obtain ⟨type, rfl, b, hb, hbid, hmay⟩ := hw.2 q rfl
        obtain rfl := hu.authorization_eq hb ha (hbid.trans hid.symm)
        rw [← h₄, ← h₅] at hmay
        exact .inr (.challenge (by simp [Authorization.after, hid]) hmay)
    · exact .inl (by simp [Authorization.after, hid])
  | _ => exact .inl rfl

theorem after_mem (ha : a ∈ db.authorizations) : a.after w ∈ (db.apply w).authorizations := by
  rw [authorizations_apply]
  exact mem_append_left _ (mem_map_of_mem ha)

theorem Authorization.name_congr {b : Authorization} (h : a.fixed = b.fixed) : a.name = b.name := by
  obtain ⟨-, -, -, h₄, h₅, -⟩ := Authorization.eq_of_fixed h
  simp [Authorization.name, h₄, h₅]

/-- A proof stays a proof. The induction follows the chain of copies. -/
theorem Proven.apply (hu : db.Unique) (hw : w.Fair db) (h : Proven db a)
    (ha : a ∈ db.authorizations) : Proven (db.apply w) (a.after w) := by
  induction h with
  | @challenge a type hp hmay =>
    obtain ⟨-, -, -, h₄, h₅, -⟩ := Authorization.eq_of_fixed (Authorization.after_fixed w a)
    rcases after_provenance_cases hu hw ha with heq | hnew
    · exact .challenge (heq.trans hp) (by rwa [h₄, h₅])
    · exact hnew
  | @reused a b instant hp hb hacc hid hwild hexp _ ih =>
    obtain ⟨-, -, h₃, h₄, h₅, -⟩ := Authorization.eq_of_fixed (Authorization.after_fixed w a)
    obtain ⟨g₁, -, g₃, g₄, g₅, g₆⟩ := Authorization.eq_of_fixed (Authorization.after_fixed w b)
    rcases after_provenance_cases hu hw ha with heq | hnew
    · have hp' : (a.after w).provenance =
          some (.reused (b.after w).authorizationId instant) := by rw [heq, hp, g₁]
      refine .reused hp' (after_mem hb) ?_ ?_ ?_ ?_ (ih hb)
      · rw [g₃, h₃, hacc]
      · rw [g₄, h₄, hid]
      · rw [g₅, h₅, hwild]
      · rwa [g₆]
    · exact hnew
  | @autoApproved a entry registered hp hmem happ hcov =>
    rcases after_provenance_cases hu hw ha with heq | hnew
    · refine .autoApproved (heq.trans hp) hmem happ ?_
      rwa [Authorization.name_congr (Authorization.after_fixed w a)]
    · exact hnew

theorem NewlyProven.proven (h : NewlyProven db a)
    (hsome : a.provenance.isSome) (hdb : ∀ b ∈ db.authorizations, b.provenance.isSome →
      ∃ b' ∈ db'.authorizations, b'.fixed = b.fixed ∧ Proven db' b') : Proven db' a := by
  unfold NewlyProven at h
  split at h
  · next hnone => simp [hnone] at hsome
  · exact h.elim
  · next source instant hp =>
    obtain ⟨b, hb, rfl, hacc, hid, hwild, hexp, hprov⟩ := h
    obtain ⟨b', hb', hf, hproven⟩ := hdb b hb hprov
    obtain ⟨h₁, -, h₃, h₄, h₅, h₆⟩ := Authorization.eq_of_fixed hf
    exact .reused (by rw [hp, h₁]) hb' (h₃.trans hacc) (h₄.trans hid) (h₅.trans hwild)
      (h₆ ▸ hexp) hproven
  · next entry registered hp => exact .autoApproved hp h.1 h.2.1 h.2.2

theorem Justified.proven_apply (h : Justified db) (hw : w.Fair db)
    (ha : a ∈ (db.apply w).authorizations) (hsome : a.provenance.isSome) :
    Proven (db.apply w) a := by
  have hkept : ∀ b ∈ db.authorizations, b.provenance.isSome →
      ∃ b' ∈ (db.apply w).authorizations, b'.fixed = b.fixed ∧ Proven (db.apply w) b' :=
    fun b hb hsome => ⟨b.after w, after_mem hb, Authorization.after_fixed w b,
      (h.proven b hb hsome).apply h.unique hw hb⟩
  rw [authorizations_apply] at ha
  rcases mem_append.mp ha with ha | ha
  · obtain ⟨b, hb, rfl⟩ := mem_map.mp ha
    by_cases hb' : b.provenance.isSome
    · exact (h.proven b hb hb').apply h.unique hw hb
    · rcases after_provenance_cases h.unique hw hb with heq | hnew
      · exact absurd (heq ▸ hsome) hb'
      · exact hnew
  · cases w with
    | addAuthorization b =>
      obtain rfl := mem_singleton.mp ha
      exact hw.2.2.proven hsome hkept
    | _ => cases ha

theorem Justified.granted_apply (h : Justified db) (hw : w.Fair db)
    (ho : o ∈ (db.apply w).orders) (hg : o.status.Granted) : Authorized (db.apply w) o := by
  rcases mem_orders_apply ho with rfl | ⟨o₀, ho₀, hf, hs | rfl⟩
  · have hpending : o.status = .pending := hw
    simp [OrderStatus.Granted, hpending] at hg
  · exact (h.granted o₀ ho₀ (hs ▸ hg)).mono (Db.le_apply db w) hf.symm
  · obtain ⟨o₁, ho₁, hid, hauth⟩ := hw hg
    have hids : o₁.orderId = o₀.orderId := hid.trans (Order.eq_of_fixed hf).1.symm
    obtain rfl := h.unique.order_eq ho₁ ho₀ hids
    exact hauth.mono (Db.le_apply db _) hf.symm

theorem Justified.apply (h : Justified db) (hw : w.Fair db) (hacc : db.accepts w = true) :
    Justified (db.apply w) where
  unique := h.unique.apply hacc
  offered c hc := by
    rcases mem_challenges_apply hc with rfl | ⟨c₀, hc₀, -, h₂, h₃⟩
    · exact OfferedFor.mono (Db.le_apply db _) hw
    · rw [← h₂, ← h₃]
      exact (h.offered c₀ hc₀).mono (Db.le_apply db w)
  owned a ha orderId hord := by
    rcases mem_authorizations_apply ha with rfl | ⟨a₀, ha₀, hf, -⟩
    · exact (hw.2.1 orderId hord).mono (Db.le_apply db _)
    · obtain ⟨-, h₂, h₃, -⟩ := Authorization.eq_of_fixed hf
      rw [← h₃]
      exact (h.owned a₀ ha₀ orderId (h₂.trans hord)).mono (Db.le_apply db w)
  proven a ha hsome := h.proven_apply hw ha hsome
  granted o ho hg := h.granted_apply hw ho hg

theorem Justified.applyAll (h : Justified db) (hws : store.Admissible Write.Fair db ws)
    (hacc : store.acceptsAll db ws = true) : Justified (store.applyAll db ws) :=
  hws.keeps (fun _ _ _ h hw hacc => h.apply hw hacc) hacc h

theorem Recorded.applyAll (h : Recorded db) (hws : store.Admissible Write.Fair db ws) :
    Recorded (store.applyAll db ws) :=
  hws.keeps_view (fun _ _ h hw => h.apply hw) h

/-! ## The handlers stage fairly -/

variable {s s' : Session}

theorem Write.Quiet.fair (h : w.Quiet) (db : Db) : w.Fair db := by
  cases w with
  | setAuthorization id status p =>
    obtain ⟨hs, rfl⟩ := h
    exact ⟨fun hv => absurd hv hs, by simp⟩
  | setOrderError | setChallenge | deleteChallenge => trivial
  | _ => exact h.elim

theorem Stages.fair (h : Stages s s') (hs : s.Sound store Write.Fair db) :
    s'.Sound store Write.Fair db := by
  induction h with
  | refl => exact hs
  | quiet w _ hw ih => exact ih.write (hw.fair _)
  | close o _ _ _ ih =>
    refine ih.observe.write fun hg => ?_
    simp [OrderStatus.Granted] at hg

theorem Sound.le_view (h : s.Sound store Write.Fair db) : db.Le s.view := by
  rw [h.view_eq]
  exact Db.le_applyAll db s.writes

theorem Sound.recorded_view (h : s.Sound store Write.Fair db) (hr : Recorded db) :
    Recorded s.view := by
  rw [h.view_eq]
  exact hr.applyAll h.admissible

theorem stageAll_le (s : Session) (ws : List Write) : s.view.Le (stageAll s ws).view := by
  rw [stageAll_eq]
  exact Db.le_applyAll s.view ws

theorem Sound.stageAll (h : s.Sound store Write.Fair db)
    (hws : store.Admissible Write.Fair s.view ws) :
    (stageAll s ws).Sound store Write.Fair db := by
  rw [stageAll_eq]
  refine ⟨?_, Store.admissible_append.mpr ⟨h.admissible, h.view_eq ▸ hws⟩⟩
  simp [h.view_eq, Store.applyAll_append]

theorem admissible_addChallenges (h : ∀ c ∈ cs, OfferedFor db c.authorizationId c.type) :
    store.Admissible Write.Fair db (cs.map .addChallenge) := by
  induction cs generalizing db with
  | nil => trivial
  | cons c cs ih =>
    refine ⟨h c (by simp), ih fun d hd => ?_⟩
    exact (h d (mem_cons_of_mem c hd)).mono (Db.le_apply db (.addChallenge c))

theorem admissible_addAuthorization
    (ha : (Write.addAuthorization a).Fair db)
    (hcs : ∀ c ∈ cs, c.authorizationId = a.authorizationId ∧ MayProve c.type a.identifier a.wildcard) :
    store.Admissible Write.Fair db (.addAuthorization a :: cs.map .addChallenge) := by
  refine ⟨ha, admissible_addChallenges fun c hc => ?_⟩
  obtain ⟨hid, hmay⟩ := hcs c hc
  exact ⟨a, by simp [Db.apply], hid.symm, hmay⟩

theorem mayProve_of_mem_challengeTypes {status : ChallengeStatus} {type : ChallengeType}
    (h : type ∈ challengeTypes settings a status) : MayProve type a.identifier a.wildcard := by
  rcases mem_append.mp h with h | h
  · split at h
    · cases h
    · next hip =>
      refine ⟨fun _ => ?_, fun hip' => absurd hip' hip⟩
      split at h <;> simp_all
  · split at h
    · cases h
    · next hwild =>
      refine ⟨fun hw => absurd (.inl hw) hwild, fun _ => ?_⟩
      rcases mem_cons.mp h with rfl | h
      · simp
      · obtain rfl := mem_singleton.mp h
        simp

theorem mem_createChallenges {status : ChallengeStatus} {validated : Option ℕ} {c : Challenge}
    (h : c ∈ createChallenges settings tokens a status validated) :
    c.authorizationId = a.authorizationId ∧ MayProve c.type a.identifier a.wildcard := by
  obtain ⟨i, hi, rfl⟩ := mem_mapIdx.mp h
  exact ⟨rfl, mayProve_of_mem_challengeTypes (getElem_mem hi)⟩

theorem name_of_normalize
    (h : (a.identifier, a.wildcard) = normalizeAuthorizationIdentifier identifier) :
    a.name = identifier.value := by
  unfold normalizeAuthorizationIdentifier at h
  split at h
  · next base _ hbase =>
    obtain ⟨h₁, h₂⟩ := Prod.mk.inj h
    rw [Authorization.name, h₁, h₂, if_pos rfl, ← toList_of_stripWildcard hbase,
      String.ofList_toList]
  · obtain ⟨h₁, h₂⟩ := Prod.mk.inj h
    rw [Authorization.name, h₁, h₂, if_neg (by simp)]

theorem autoApproval_covers {domain : String} {entry : DomainEntry}
    (h : autoApproval settings domain = some entry) :
    entry ∈ settings.localDomains ++ settings.domains ∧ entry.autoApprove = true ∧
      Covers entry domain := by
  unfold autoApproval at h
  split at h
  · cases h
  · rcases Option.or_eq_some_iff.mp h with h | ⟨-, h⟩
    · obtain ⟨hfind, happ⟩ := Option.filter_eq_some_iff.mp h
      obtain ⟨hmem, hcov⟩ := find_covers hfind
      exact ⟨mem_append_left _ hmem, happ, hcov⟩
    · obtain ⟨hfind, happ⟩ := Option.filter_eq_some_iff.mp h
      obtain ⟨hmem, hcov⟩ := find_covers hfind
      exact ⟨mem_append_right _ hmem, happ, hcov⟩

theorem authorizedBy_stageAll (hord : a.orderId = some orderId) (hacc : a.accountId = accountId)
    (hid : (a.identifier, a.wildcard) = normalizeAuthorizationIdentifier identifier) :
    AuthorizedBy (stageAll s (.addAuthorization a :: cs.map .addChallenge)).view orderId accountId
      identifier fun _ => True := by
  rw [stageAll_eq]
  have hrow : AuthorizedBy (s.view.apply (.addAuthorization a)) orderId accountId identifier
      fun _ => True := ⟨a, by simp [Db.apply], hord, hacc, hid, trivial⟩
  exact hrow.mono (Db.le_applyAll _ (cs.map .addChallenge)) fun _ _ _ _ _ => trivial

theorem newAuthorizationRow_proven (settings : Settings) (now authorizationId : ℕ)
    (orderId : Option ℕ) (accountId : ℕ) (identifier : Identifier) :
    NewlyProven db (newAuthorizationRow settings now authorizationId orderId accountId
      identifier) := by
  cases happ : approvalOf settings identifier with
  | none => simp [NewlyProven, newAuthorizationRow, happ]
  | some entry =>
    simp only [NewlyProven, newAuthorizationRow, happ]
    rw [show Authorization.name _ = identifier.value from name_of_normalize rfl]
    unfold approvalOf at happ
    split at happ
    · exact autoApproval_covers happ
    · cases happ

theorem newAuthorization_fair {orderId : Option ℕ} (hs : s.Sound store Write.Fair db)
    (hown : ∀ id, orderId = some id → OwnedBy s.view id accountId) :
    (newAuthorization settings now tokens orderId accountId identifier s).Sound store
      Write.Fair db := by
  refine Sound.stageAll hs (admissible_addAuthorization
    ⟨?_, hown, newAuthorizationRow_proven _ _ _ _ _ _⟩ fun c hc => ?_)
  · cases happ : approvalOf settings identifier with
    | none | some => simp [newAuthorizationRow, happ]
  · split at hc <;> exact mem_createChallenges hc

theorem copyAuthorization_fair {source : Authorization}
    (hs : s.Sound store Write.Fair db) (hj : Justified s.view) (hr : Recorded s.view)
    (hsource : source ∈ s.view.authorizations) (hvalid : source.status = .valid)
    (hexp : now < source.expires) (hown : OwnedBy s.view orderId source.accountId) :
    (copyAuthorization now tokens orderId source s).Sound store Write.Fair db := by
  refine Sound.stageAll hs (admissible_addAuthorization ⟨by simp, ?_, ?_⟩ fun c hc => ?_)
  · rintro id ⟨⟩
    exact hown
  · exact ⟨source, hsource, rfl, rfl, rfl, rfl, hexp, hr source hsource hvalid⟩
  · obtain ⟨i, hi, rfl⟩ := mem_mapIdx.mp hc
    obtain ⟨hc₀, haid⟩ := mem_filter.mp (mem_filter.mp (getElem_mem hi)).1
    obtain ⟨b, hb, hbid, hmay⟩ := hj.offered _ hc₀
    obtain rfl := hj.unique.authorization_eq hb hsource (hbid.trans (of_decide_eq_true haid))
    exact ⟨rfl, hmay⟩

theorem createAuthorization_fair (hs : s.Sound store Write.Fair db) (hj : Justified s.view)
    (hr : Recorded s.view) (hown : OwnedBy s.view orderId accountId) :
    let result := (createAuthorization settings now tokens orderId accountId identifier s).1
    result.Sound store Write.Fair db ∧ s.view.Le result.view ∧
      AuthorizedBy result.view orderId accountId identifier fun _ => True := by
  unfold createAuthorization
  simp only
  split
  · next source hfirst =>
    obtain ⟨hmem, hre⟩ := mem_filter.mp (mem_of_firstBy hfirst)
    simp only [reusable, Bool.and_eq_true, decide_eq_true_eq, and_assoc] at hre
    obtain ⟨rfl, hid, hwild, hvalid, hexp⟩ := hre
    refine ⟨copyAuthorization_fair hs hj hr hmem hvalid hexp hown, stageAll_le s _, ?_⟩
    exact authorizedBy_stageAll rfl rfl (Prod.ext hid hwild)
  · refine ⟨newAuthorization_fair hs fun id hid => ?_, stageAll_le s _,
      authorizedBy_stageAll rfl rfl rfl⟩
    cases hid
    exact hown

end UltimateCaManager.Acme
