import UltimateCaManager.AcmeJustification

/-!
# Proof of control

Every name that finalization signs is an identifier of the order, and the account of the order
has shown control of it. This holds of every run in which no challenge is passed for an order
that is still being created and no CSR smuggles an IP address into the certificate through its
common name; both conditions are needed.
-/
namespace UltimateCaManager.Acme

open List Transactions Runs Concurrency.System

variable {db db' : Db} {ws : List Write} {s : Session} {text : Text}

/-! ## The condition on the run -/

/-- A CSR without a subjectAltName extension does not have an IP address as its first common
name. -/
def AddressFree (text : Text) (csr : Csr) : Prop :=
  csr.san = none → ∀ cn ∈ (commonNames csr.subject).take 1, text.ipAddress cn = none
  deriving Decidable

/-- The order of the authorization, if it has one, has an authorization for each identifier. -/
def CreatedInFull (db : Db) (authorizationId : ℕ) : Prop :=
  ∀ a ∈ db.authorizations, a.authorizationId = authorizationId →
    ∀ o ∈ db.orders, a.orderId = some o.orderId → ∀ identifier ∈ o.identifiers,
      ∃ b ∈ db.authorizations, b.orderId = some o.orderId ∧
        (b.identifier, b.wildcard) = normalizeAuthorizationIdentifier identifier
  deriving Decidable

/-- No challenge is passed for an order that is still being created, and no SAN-less CSR with an
IP address as common name is submitted. -/
def Careful (text : Text) (w : World) : Label → Prop
  | .request _ r => ∀ csr ∈ r.csr?, AddressFree text csr
  | .advance i input => input.passes = true →
      ∀ authorizationId ∈ (w.tasks i).bind Task.answering?, CreatedInFull w.db authorizationId
  | .tick _ => True
  | .configure _ => True

instance (text : Text) (w : World) (l : Label) : Decidable (Careful text w l) := by
  induction l using Label.casesOn <;> unfold Careful <;> infer_instance

/-! ## Tasks -/

/-- The order exists and each of its identifiers is still to do or has its authorization. -/
def CreatedUpTo (db : Db) (orderId accountId : ℕ) (todo : List Identifier) : Prop :=
  ∃ o ∈ db.orders, o.orderId = orderId ∧ o.accountId = accountId ∧
    ∀ identifier ∈ o.identifiers, identifier ∈ todo ∨
      AuthorizedBy db orderId accountId identifier fun _ => True

variable {orderId accountId now : ℕ} {t : Task} {settings : Settings} {t' : Option Task}
  {names : List GeneralName}

theorem CreatedUpTo.mono {todo : List Identifier} (hle : db.Le db')
    (h : CreatedUpTo db orderId accountId todo) : CreatedUpTo db' orderId accountId todo := by
  obtain ⟨o, ho, hid, hacc, hall⟩ := h
  obtain ⟨o', ho', hf⟩ := hle.orders o ho
  obtain ⟨h₁, h₂, h₃, -⟩ := Order.eq_of_fixed hf
  refine ⟨o', ho', h₁.trans hid, h₂.trans hacc, fun identifier hmem => ?_⟩
  exact (hall identifier (h₃ ▸ hmem)).imp_right fun h => h.mono hle fun _ _ _ _ _ => trivial

theorem CreatedUpTo.owned {todo : List Identifier}
    (h : CreatedUpTo db orderId accountId todo) : OwnedBy db orderId accountId := by
  obtain ⟨o, ho, hid, hacc, -⟩ := h
  exact ⟨o, ho, hid, hacc⟩

def Next.Ok (db : Db) : Next → Prop
  | .creating orderId accountId todo => CreatedUpTo db orderId accountId todo
  | _ => True

/-- The CSR was checked against an order all of whose identifiers are authorized. -/
def CheckedFor (text : Text) (db : Db) (orderId : ℕ) (csr : Csr) : Prop :=
  ∃ o ∈ db.orders, o.orderId = orderId ∧ Authorized db o ∧ csrMatchesOrder text csr o = true

def Task.Ok (text : Text) (db : Db) : Task → Prop
  | .creating orderId accountId todo staged => store.Admissible Write.Fair db staged ∧
      CreatedUpTo (store.applyAll db staged) orderId accountId todo
  | .responding _ authorizationId type => OfferedFor db authorizationId type
  | .finalizing _ csr => AddressFree text csr
  | .claimed orderId csr => AddressFree text csr ∧ AuthorizedOrder db orderId
  | .signing orderId csr _ => AddressFree text csr ∧ CheckedFor text db orderId csr
  | .committing writes _ next => store.Admissible Write.Fair db writes ∧
      next.Ok (store.applyAll db writes)
  | _ => True

theorem Next.Ok.mono {next : Next} (hle : db.Le db') (h : next.Ok db) : next.Ok db' := by
  cases next with
  | creating orderId accountId todo => exact CreatedUpTo.mono hle h
  | _ => trivial

theorem Task.Ok.mono (hle : db.Le db') (h : t.Ok text db) : t.Ok text db' := by
  cases t with
  | creating orderId accountId todo staged =>
    exact ⟨fair_mono hle h.1, h.2.mono (hle.applyAll staged)⟩
  | responding challengeId authorizationId type => exact OfferedFor.mono hle h
  | finalizing orderId csr => exact h
  | claimed orderId csr => exact ⟨h.1, h.2.mono hle⟩
  | signing orderId csr allowed =>
    obtain ⟨hfree, o, ho, hid, hauth, hcsr⟩ := h
    obtain ⟨o', ho', hf⟩ := hle.orders o ho
    obtain ⟨h₁, -, h₃, -⟩ := Order.eq_of_fixed hf
    simp only [csrMatchesOrder, Order.domains, Order.ips, ← h₃] at hcsr
    exact ⟨hfree, o', ho', h₁.trans hid, hauth.mono hle hf, hcsr⟩
  | committing writes reads next => exact ⟨fair_mono hle h.1, h.2.mono (hle.applyAll writes)⟩
  | _ => trivial

theorem commitThen_ok (h : s.Sound store Write.Fair db) :
    (Session.commitThen s .finished).Ok text db :=
  ⟨h.admissible, trivial⟩

theorem completeChallenge_fair {challengeId authorizationId : ℕ} {type : ChallengeType}
    (hj : Justified db) (hr : Recorded db) (hoff : OfferedFor db authorizationId type)
    (hfull : CreatedInFull db authorizationId) :
    (completeChallenge (.start db) now challengeId authorizationId type).Sound store
      Write.Fair db := by
  have h₁ : (stage (Session.start db) (.setChallenge challengeId .valid (some now) none)).Sound
      store Write.Fair db := Session.Sound.start.write trivial
  rcases completeChallenge_cases db now challengeId authorizationId type with
    heq | ⟨a, s₃, ha, -, hstages, -, -, heq⟩
  · rwa [heq]
  have h₃ : s₃.Sound store Write.Fair db := by
    refine hstages.stages.fair (h₁.write ⟨fun _ => rfl, ?_⟩)
    rintro _ ⟨⟩
    exact ⟨type, rfl, hoff.mono (Sound.le_view h₁)⟩
  rcases heq with heq | ⟨o, ho, hall, heq⟩
  · rwa [heq]
  rw [heq]
  refine h₃.observe.write fun _ => ?_
  -- the session read the authorization from the committed table
  obtain ⟨hadb, haid⟩ := authorization?_mem ha
  obtain ⟨-, hord⟩ := orderOf_mem ho
  obtain ⟨o₀, ho₀, hid₀, hacc₀⟩ := hj.owned a hadb _ hord
  obtain ⟨o', ho', hf⟩ := (Sound.le_view h₃).orders o₀ ho₀
  obtain ⟨g₁, g₂, g₃, -⟩ := Order.eq_of_fixed hf
  refine ⟨o', ho', g₁.trans hid₀, fun identifier hmem => ?_⟩
  obtain ⟨b, hb, hbord, hbid⟩ := hfull a hadb haid o₀ ho₀ (hid₀ ▸ hord) identifier (g₃ ▸ hmem)
  obtain ⟨o₁, ho₁, hid₁, hacc₁⟩ := hj.owned b hb _ hbord
  obtain rfl := hj.unique.order_eq ho₁ ho₀ hid₁
  obtain ⟨b', hb', hbf, -⟩ := (Sound.le_view h₃).authorizations b hb
  obtain ⟨-, k₂, k₃, k₄, k₅, -⟩ := Authorization.eq_of_fixed hbf
  have hbord' : b'.orderId = some o.orderId := by rw [k₂, hbord, hid₀]
  have hvalid : b'.status = .valid := by
    have hof : b' ∈ s₃.view.authorizationsOf o.orderId :=
      mem_filter.mpr ⟨hb', by simp [hbord']⟩
    simpa using all_eq_true.mp hall b' hof
  refine ⟨b', hb', ?_, ?_, ?_, Sound.recorded_view h₃ hr b' hb' hvalid⟩
  · rw [hbord', g₁, hid₀]
  · rw [k₃, g₂, hacc₁]
  · rw [k₄, k₅, hbid]

theorem createdUpTo_rest {tokens : ℕ → ℕ}
    {identifier : Identifier} {rest : List Identifier} {staged : List Write} {commits : Bool}
    (h : CreatedUpTo (store.applyAll db staged) orderId accountId (identifier :: rest))
    (hs₀ : (⟨store.applyAll db staged, staged, []⟩ : Session).Sound store Write.Fair db)
    (hj : Justified db) (hr : Recorded db) (hacc : store.acceptsAll db staged = true)
    (hs : createAuthorization settings now tokens orderId accountId identifier
      ⟨store.applyAll db staged, staged, []⟩ = (s, commits)) :
    s.Sound store Write.Fair db ∧ CreatedUpTo s.view orderId accountId rest := by
  have hcreate := @createAuthorization_fair db orderId accountId now identifier settings tokens _
    hs₀ (hj.applyAll hs₀.admissible hacc) (hr.applyAll hs₀.admissible) h.owned
  simp only [hs] at hcreate
  obtain ⟨hsound, hle, hrow⟩ := hcreate
  refine ⟨hsound, ?_⟩
  obtain ⟨o, ho, hid, hacc', hall⟩ := h
  obtain ⟨o', ho', hf⟩ := hle.orders o ho
  obtain ⟨h₁, h₂, h₃, -⟩ := Order.eq_of_fixed hf
  refine ⟨o', ho', h₁.trans hid, h₂.trans hacc', fun i hmem => ?_⟩
  rcases hall i (h₃ ▸ hmem) with htodo | hdone
  · rcases mem_cons.mp htodo with rfl | hrest
    · exact .inr hrow
    · exact .inl hrest
  · exact .inr (hdone.mono hle fun _ _ _ _ _ => trivial)

/-- The end of `create_order` makes the order ready only when all identifiers are authorized. -/
theorem finishOrder_fair (hs : s.Sound store Write.Fair db)
    (hr : Recorded s.view) (h : CreatedUpTo s.view orderId accountId []) :
    (finishOrder s orderId).Sound store Write.Fair db := by
  unfold finishOrder
  simp only
  split
  · next hall =>
    refine hs.observe.write fun _ => ?_
    obtain ⟨o, ho, rfl, rfl, hauth⟩ := h
    refine ⟨o, ho, rfl, fun identifier hmem => ?_⟩
    obtain ⟨a, ha, hord, hacc, hid, -⟩ := (hauth identifier hmem).resolve_left (by simp)
    have hvalid : a.status = .valid :=
      hall.2 a (mem_filter.mpr ⟨ha, by simp [hord]⟩)
    exact ⟨a, ha, hord, hacc, hid, hr a ha hvalid⟩
  · exact hs

theorem starts_ok {r : Request} (hj : Justified db)
    (hcare : ∀ csr ∈ r.csr?, AddressFree text csr) (h : Starts settings now db r t) :
    t.Ok text db := by
  cases h with
  | newOrder =>
    refine ⟨⟨rfl, trivial⟩, _, mem_concat_self, rfl, rfl, ?_⟩
    exact fun identifier hmem => .inl hmem
  | newAuthz => exact commitThen_ok (newAuthorization_fair .start (by simp))
  | respond hc ha =>
    have hoff := hj.offered _ (Tables.find?_key hc).1
    rwa [← (authorization?_mem ha).2] at hoff
  | finalize => exact hcare _ rfl
  | deactivateExpired ha hs =>
    exact ⟨((expireAuthorizationIfNeeded_stages ha hs).stages.fair .start).admissible, trivial⟩
  | deactivate ha hs => exact commitThen_ok ((deactivateAuthorization_stages hs).stages.fair .start)
  | pollOrder ho hs =>
    exact commitThen_ok ((expireOrderIfNeeded_stages ho hs).stages.fair .start)
  | pollAuthorization ha hs =>
    exact commitThen_ok ((expireAuthorizationIfNeeded_stages ha hs).stages.fair .start)

theorem rejectOrRestore_ok {badRequest : Bool} {detail : String} :
    (signOrder.rejectOrRestore orderId badRequest detail).Ok text db := by
  unfold signOrder.rejectOrRestore
  split
  · refine ⟨⟨fun hg => ?_, trivial, trivial⟩, trivial⟩
    simp [OrderStatus.Granted] at hg
  · trivial

theorem Justified.authorizedOrder (hj : Justified db) {status : OrderStatus}
    (h : db.status? orderId = some status) (hg : status.Granted) : AuthorizedOrder db orderId := by
  obtain ⟨o, ho, rfl⟩ := Option.map_eq_some_iff.mp h
  obtain ⟨hmem, hid⟩ := order?_mem ho
  exact ⟨o, hmem, hid, hj.granted o hmem hg⟩

theorem Justified.addCertificate (hj : Justified db) (c : Certificate) :
    Justified (db.apply (.addCertificate c)) where
  unique := ⟨hj.unique.1, hj.unique.2⟩
  offered := hj.offered
  owned := hj.owned
  proven a ha hsome := by
    have hp := hj.proven a ha hsome
    clear hsome
    induction hp with
    | challenge hp hmay => exact .challenge hp hmay
    | reused hp hb hacc hid hwild hexp _ ih => exact .reused hp hb hacc hid hwild hexp (ih hb)
    | autoApproved hp hmem happ hcov => exact .autoApproved hp hmem happ hcov
  granted := hj.granted

/-- What a step of a task leaves: the tables keep their invariant, and the task relies on them. -/
structure Left (text : Text) (db db' : Db) (t' : Option Task) : Prop where
  justified : Justified db'
  recorded : Recorded db'
  le : db.Le db'
  task : ∀ t, t' = some t → t.Ok text db'

theorem Left.same (hj : Justified db) (hr : Recorded db)
    (ht : ∀ t, t' = some t → t.Ok text db) : Left text db db t' :=
  ⟨hj, hr, Db.Le.refl db, ht⟩

theorem Left.next (hj : Justified db) (hr : Recorded db) (ht : t.Ok text db) :
    Left text db db (some t) :=
  .same hj hr (by rintro t ⟨⟩; exact ht)

theorem advances_ok {input : Input}
    (hj : Justified db) (hr : Recorded db) (ht : t.Ok text db)
    (hcare : ∀ challengeId authorizationId type problem,
      t = .responding challengeId authorizationId type → input = .answer true problem →
      CreatedInFull db authorizationId)
    (h : Advances text settings now db t input db' t') : Left text db db' t' := by
  cases h with
  | flushFailed | claimLost | notRestored | notInvalidated => exact .same hj hr (by simp)
  | @finish orderId accountId staged tokens hacc =>
    have hs : (⟨store.applyAll db staged, staged, []⟩ : Session).Sound store Write.Fair db :=
      ⟨rfl, ht.1⟩
    exact .next hj hr (commitThen_ok (finishOrder_fair hs (hr.applyAll ht.1) ht.2))
  | @authorize orderId accountId identifier rest staged tokens s hacc hs
  | @reuse orderId accountId identifier rest staged tokens s hacc hs =>
    have hs₀ : (⟨store.applyAll db staged, staged, []⟩ : Session).Sound store Write.Fair db :=
      ⟨rfl, ht.1⟩
    obtain ⟨hsound, hcovered⟩ := createdUpTo_rest ht.2 hs₀ hj hr hacc hs
    exact .next hj hr ⟨hsound.admissible, hsound.view_eq ▸ hcovered⟩
  | @pass challengeId authorizationId type problem =>
    have hfull := hcare challengeId authorizationId type problem rfl rfl
    exact .next hj hr ⟨(completeChallenge_fair hj hr ht hfull).admissible, trivial⟩
  | fail | caaRefused | checkFailed | signFailed => exact .next hj hr trivial
  | invalidateChallenge =>
    exact .next hj hr (commitThen_ok ((invalidateChallenge_stages _ _ _ _).stages.fair .start))
  | @claim orderId csr problem hready =>
    have hauth := hj.authorizedOrder hready (.inl rfl)
    have hfair : (Write.setOrderStatus orderId .processing).Fair db := fun _ => hauth
    refine ⟨hj.apply hfair rfl, hr.apply hfair, Db.le_apply db _, ?_⟩
    rintro t ⟨⟩
    exact ⟨ht, hauth.mono (Db.le_apply db _)⟩
  | @checked orderId csr allowed caaRefusal o ho hstatus hcsr =>
    obtain ⟨hmem, hid⟩ := order?_mem ho
    have hg : o.status.Granted := hstatus.imp_right .inl
    exact .next hj hr ⟨ht.1, o, hmem, hid, hj.granted o hmem hg, hcsr⟩
  | @signed orderId csr allowed certificateId hacc =>
    refine ⟨hj.addCertificate _, hr, ⟨fun o ho => ⟨o, ho, rfl⟩, fun a ha => ⟨a, ha, rfl, id⟩⟩, ?_⟩
    rintro t ⟨⟩
    obtain ⟨-, o, ho, hid, hauth, -⟩ := ht
    refine ⟨⟨fun _ => ⟨o, ho, hid, hauth⟩, trivial, trivial⟩, trivial⟩
  | signRefused => exact .next hj hr rejectOrRestore_ok
  | failedAfterCommit hacc =>
    refine ⟨hj.addCertificate _, hr, ⟨fun o ho => ⟨o, ho, rfl⟩, fun a ha => ⟨a, ha, rfl, id⟩⟩, ?_⟩
    rintro t ⟨⟩
    exact rejectOrRestore_ok
  | @restore orderId hproc =>
    exact .next hj hr ⟨⟨fun _ => hj.authorizedOrder hproc (.inr (.inl rfl)), trivial⟩, trivial⟩
  | invalidateOrder hproc =>
    refine .next hj hr ⟨⟨fun hg => ?_, trivial, trivial⟩, trivial⟩
    simp [OrderStatus.Granted] at hg
  | deactivate =>
    refine .same hj hr fun t ht' => ?_
    obtain ⟨a, -, ha⟩ := Option.bind_eq_some_iff.mp ht'
    obtain ⟨s, hs, rfl⟩ := continueDeactivation_eq_some ha
    exact commitThen_ok ((deactivateAuthorization_stages hs).stages.fair .start)
  | @committed writes reads next problem hacc =>
    refine ⟨hj.applyAll ht.1 hacc, hr.applyAll ht.1, Db.le_applyAll db writes, fun t ht' => ?_⟩
    cases next with
    | creating orderId accountId todo =>
      cases ht'
      exact ⟨trivial, ht.2⟩
    | _ => cases ht' <;> trivial
  | @rolledBack writes reads next ok problem =>
    refine .same hj hr fun t ht' => ?_
    cases next <;> cases ht' <;> trivial

/-! ## Runs -/

structure Sane (text : Text) (w : World) : Prop where
  justified : Justified w.db
  recorded : Recorded w.db
  tasks : ∀ i t, w.tasks i = some t → t.Ok text w.db

theorem sane_initial (settings : Settings) (now : ℕ) : Sane text (initial settings now) where
  justified := ⟨.empty, by simp [initial, Db.empty], by simp [initial, Db.empty],
    by simp [initial, Db.empty], by simp [initial, Db.empty]⟩
  recorded := by simp [Recorded, initial, Db.empty]
  tasks := by simp [initial]

theorem sane_step {w : World} {l : Label} (h : Sane text w) (hl : Careful text w l) :
    Sane text (step text w l) := by
  generalize hw' : step text w l = w'
  have hstep := hw' ▸ step_steps text w l
  cases hstep with
  | idle => exact h
  | tick | configure => exact ⟨h.1, h.2, h.3⟩
  | @request i r hfree =>
    refine ⟨h.justified, h.recorded, forall_update (fun t ht => ?_) h.tasks⟩
    exact starts_ok h.justified hl (handle_starts ht)
  | @advance i input t db t' ht hadv =>
    have hleft := advances_ok h.justified h.recorded (h.tasks i t ht) (by
      rintro challengeId authorizationId type problem rfl rfl
      exact hl rfl authorizationId (by simp [ht, Task.answering?])) hadv
    refine ⟨hleft.justified, hleft.recorded, forall_update hleft.task fun j u hu => ?_⟩
    exact (h.tasks j u hu).mono hleft.le

/-! ## The names of a certificate -/

/-- An identifier that a common name repeats, up to case and trailing dots. -/
def Identifies (text : Text) (identifier : Identifier) (n : String) : Prop :=
  match identifier.type with
  | .dns => text.norm identifier.value = text.norm n
  | .ip => identifier.value = n ∨ identifier.value = text.norm n

/-- Every name of the certificate is an identifier of its order that the account of the order
has proven control of. -/
def NamesProven (text : Text) (db : Db) (c : Certificate) : Prop :=
  ∃ o ∈ db.orders, o.orderId = c.orderId ∧
    (∀ n ∈ c.dnsNames, ∃ identifier ∈ o.identifiers, identifier.type = .dns ∧
      text.norm identifier.value = text.norm n ∧ ControlProven db o.accountId identifier) ∧
    (∀ n ∈ c.ipNames, ∃ identifier ∈ o.identifiers, identifier.type = .ip ∧
      identifier.value = n ∧ ControlProven db o.accountId identifier) ∧
    ∀ n ∈ c.commonNames, ∃ identifier ∈ o.identifiers,
      Identifies text identifier n ∧ ControlProven db o.accountId identifier

theorem mem_domains_norm {o : Order} {n : String} (h : n ∈ o.domains.map text.norm) :
    ∃ identifier ∈ o.identifiers, identifier.type = .dns ∧ text.norm identifier.value = n := by
  simp only [Order.domains, mem_map, mem_filter, decide_eq_true_eq] at h
  obtain ⟨_, ⟨identifier, ⟨hmem, htype⟩, rfl⟩, rfl⟩ := h
  exact ⟨identifier, hmem, htype, rfl⟩

theorem mem_ips {o : Order} {n : String} (h : n ∈ o.ips) :
    ∃ identifier ∈ o.identifiers, identifier.type = .ip ∧ identifier.value = n := by
  simp only [Order.ips, mem_map, mem_filter, decide_eq_true_eq] at h
  obtain ⟨identifier, ⟨hmem, htype⟩, rfl⟩ := h
  exact ⟨identifier, hmem, htype, rfl⟩

/-- What the CSR checks establish, one fact for each of the four comparisons. -/
theorem csrMatchesOrder_spec {csr : Csr} {o : Order} (h : csrMatchesOrder text csr o = true) :
    (∀ n ∈ extractDomainsFromCsr csr, text.norm n ∈ o.domains.map text.norm) ∧
    (∀ n, .dns n ∈ csr.san.getD [] → text.norm n ∈ o.domains.map text.norm) ∧
    (∀ n, .ip n ∈ csr.san.getD [] → n ∈ o.ips) ∧
    (∀ n ∈ commonNames csr.subject, text.norm n ∈ o.domains.map text.norm ∨
      text.norm n ∈ o.ips ∨ n ∈ o.ips) ∧ emails csr.subject = [] := by
  simp only [csrMatchesOrder, sameSet, validateCsrSanTypes, validateCsrSubject, Bool.and_eq_true,
    all_eq_true, decide_eq_true_eq, Bool.or_eq_true, List.isEmpty_iff] at h
  obtain ⟨⟨⟨⟨hdom, -⟩, -⟩, hsan⟩, hmail, hcn⟩ := h
  refine ⟨fun n hn => hdom _ (mem_map_of_mem hn), fun n hn => ?_, fun n hn => ?_,
    fun n hn => ?_, hmail⟩
  · simpa using hsan _ hn
  · simpa using hsan _ hn
  · have := hcn n hn
    tauto

theorem mem_dnsNames {n : String} : n ∈ dnsNames names ↔ .dns n ∈ names := by
  grind [dnsNames]

theorem mem_ipNames {n : String} : n ∈ ipNames names ↔ .ip n ∈ names := by
  grind [ipNames]

theorem effectiveSubject_of_no_san {csr : Csr} (h : csr.san = none) :
    effectiveSubject csr = csr.subject := by
  unfold effectiveSubject
  split
  · next hempty => simp [h, hempty]
  · rfl

theorem mem_effectiveSans_of_no_san {csr : Csr} {allowed : Option (List SanKind)}
    {name : GeneralName} (hsan : csr.san = none) (h : name ∈ effectiveSans text csr allowed) :
    (∃ cn ∈ (commonNames csr.subject).take 1, name = match text.ipAddress cn with
      | some ip => .ip ip
      | none => if '@' ∈ cn.toList then .email cn else .dns cn) ∨
      ∃ address, name = .email address := by
  have hsynth : name ∈ synthesizeSanFromSubject text csr.subject := by
    unfold effectiveSans at h
    simp only [hsan, effectiveSubject_of_no_san hsan] at h
    split at h
    · next heq => cases heq
    · exact h
    · exact (mem_filter.mp h).1
  simp only [synthesizeSanFromSubject, mem_append, mem_map] at hsynth
  rcases hsynth with ⟨cn, hcn, rfl⟩ | ⟨address, -, rfl⟩
  · exact .inl ⟨cn, hcn, rfl⟩
  · exact .inr ⟨address, rfl⟩

theorem effectiveSans_of_san {csr : Csr} {allowed : Option (List SanKind)}
    (h : csr.san = some names) :
    effectiveSans text csr allowed = names := by
  simp [effectiveSans, h]

variable {csr : Csr} {allowed : Option (List SanKind)} {o : Order} {n : String}

theorem dns_name_ordered (h : csrMatchesOrder text csr o = true)
    (hn : .dns n ∈ effectiveSans text csr allowed) : text.norm n ∈ o.domains.map text.norm := by
  obtain ⟨hdom, hdns, -⟩ := csrMatchesOrder_spec h
  cases hsan : csr.san with
  | some names =>
    rw [effectiveSans_of_san hsan] at hn
    exact hdns n (by simpa [hsan] using hn)
  | none =>
    rcases mem_effectiveSans_of_no_san hsan hn with ⟨cn, hcn, heq⟩ | ⟨address, heq⟩
    · have hncn : n = cn := by
        split at heq
        · cases heq
        · split at heq <;> cases heq
          rfl
      rw [hncn]
      exact hdom cn (mem_extractDomainsFromCsr.mpr (.inl hcn))
    · cases heq

theorem ip_name_ordered (hfree : AddressFree text csr) (h : csrMatchesOrder text csr o = true)
    (hn : .ip n ∈ effectiveSans text csr allowed) : n ∈ o.ips := by
  obtain ⟨-, -, hip, -⟩ := csrMatchesOrder_spec h
  cases hsan : csr.san with
  | some names =>
    rw [effectiveSans_of_san hsan] at hn
    exact hip n (by simpa [hsan] using hn)
  | none =>
    rcases mem_effectiveSans_of_no_san hsan hn with ⟨cn, hcn, heq⟩ | ⟨address, heq⟩
    · rw [hfree hsan cn hcn] at heq
      simp only at heq
      split at heq <;> cases heq
    · cases heq

theorem common_name_ordered (h : csrMatchesOrder text csr o = true)
    (hn : n ∈ commonNames (effectiveSubject csr)) :
    ∃ identifier ∈ o.identifiers, Identifies text identifier n := by
  obtain ⟨-, hdns, hip, hcn, -⟩ := csrMatchesOrder_spec h
  have hdomain : text.norm n ∈ o.domains.map text.norm →
      ∃ identifier ∈ o.identifiers, Identifies text identifier n := by
    intro hmem
    obtain ⟨identifier, hi, htype, heq⟩ := mem_domains_norm hmem
    exact ⟨identifier, hi, by simp [Identifies, htype, heq]⟩
  have haddress : text.norm n ∈ o.ips ∨ n ∈ o.ips →
      ∃ identifier ∈ o.identifiers, Identifies text identifier n := by
    rintro (hmem | hmem) <;> obtain ⟨identifier, hi, htype, heq⟩ := mem_ips hmem
    all_goals exact ⟨identifier, hi, by simp [Identifies, htype, heq]⟩
  unfold effectiveSubject at hn
  split at hn
  · simp only [commonNames, mem_filterMap, Option.mem_toList] at hn
    obtain ⟨attr, hfirst, hattr⟩ := hn
    obtain ⟨name, hname, hsome⟩ := exists_of_findSome?_eq_some hfirst
    cases name with
    | dns value =>
      cases hsome
      cases hattr
      exact hdomain (hdns _ hname)
    | ip value =>
      cases hsome
      cases hattr
      exact haddress (.inr (hip _ hname))
    | email | other => cases hsome
  · rcases hcn n hn with hmem | hmem
    · exact hdomain hmem
    · exact haddress hmem

theorem certificateFor_proven {certificateId : ℕ} (hj : Justified db)
    (hfree : AddressFree text csr) (h : CheckedFor text db orderId csr) :
    NamesProven text db (certificateFor text certificateId orderId csr allowed) := by
  obtain ⟨o, ho, hid, hauth, hcsr⟩ := h
  have hcontrol : ∀ identifier ∈ o.identifiers, ControlProven db o.accountId identifier := by
    intro identifier hmem
    obtain ⟨a, ha, -, hacc, hnorm, hsome⟩ := hauth identifier hmem
    exact ⟨a, ha, hacc, hnorm, hj.proven a ha hsome⟩
  refine ⟨o, ho, hid, fun n hn => ?_, fun n hn => ?_, fun n hn => ?_⟩
  · obtain ⟨identifier, hmem, htype, heq⟩ :=
      mem_domains_norm (dns_name_ordered hcsr (mem_dnsNames.mp hn))
    exact ⟨identifier, hmem, htype, heq, hcontrol identifier hmem⟩
  · obtain ⟨identifier, hmem, htype, heq⟩ :=
      mem_ips (ip_name_ordered hfree hcsr (mem_ipNames.mp hn))
    exact ⟨identifier, hmem, htype, heq, hcontrol identifier hmem⟩
  · obtain ⟨identifier, hmem, hident⟩ := common_name_ordered hcsr hn
    exact ⟨identifier, hmem, hident, hcontrol identifier hmem⟩

theorem certificates_applyAll (h : store.Admissible Write.Fair db ws) :
    (store.applyAll db ws).certificates = db.certificates := by
  induction ws generalizing db with
  | nil => rfl
  | cons w ws ih =>
    rw [Store.applyAll_cons, ih h.2]
    cases w with
    | addCertificate c => exact h.1.elim
    | _ => rfl

theorem advances_certificates {input : Input} {c : Certificate} (ht : t.Ok text db)
    (h : Advances text settings now db t input db' t') (hc : c ∈ db'.certificates) :
    c ∈ db.certificates ∨ ∃ orderId csr allowed certificateId,
      t = .signing orderId csr allowed ∧
      c = certificateFor text certificateId orderId csr allowed := by
  cases h with
  | signed | failedAfterCommit =>
    rcases mem_certificates_apply hc with heq | hold
    · cases heq
      exact .inr ⟨_, _, _, _, rfl, rfl⟩
    · exact .inl hold
  | committed hacc =>
    rw [certificates_applyAll ht.1] at hc
    exact .inl hc
  | _ => exact .inl hc

/-- In every run in which no challenge is passed for an order still being created and no CSR
names an IP address by its common name alone, each name of a certificate is an identifier of its
order, and the account of the order had proven control of it when the certificate was signed. -/
theorem signed_names_proven (text : Text) (settings : Settings) (now : ℕ) (w : World) (l : Label)
    (c : Certificate) (hw : Reach (step text) (Careful text) (initial settings now) w)
    (hc : c ∈ (step text w l).db.certificates) (hnew : c ∉ w.db.certificates) :
    NamesProven text w.db c := by
  have hsane : Sane text w :=
    hw.invariant (sane_initial settings now) fun _ _ _ hs hl => sane_step hs hl
  generalize hw' : step text w l = w' at hc
  have hstep := hw' ▸ step_steps text w l
  cases hstep with
  | @advance i input t db t' ht hadv =>
    have hok := hsane.tasks i t ht
    rcases advances_certificates hok hadv hc with hold |
      ⟨orderId, csr, allowed, certificateId, rfl, rfl⟩
    · exact absurd hold hnew
    · exact certificateFor_proven hsane.justified hok.1 hok.2
  | _ => exact absurd hc hnew

/-! ## Both conditions are needed -/

/-- ASCII texts that are lower-case already, and one address text. -/
def plainText : Text := ⟨id, fun s => if s = "10.0.0.1" then some s else none⟩

def dnsId (value : String) : Identifier := ⟨.dns, value, ""⟩

def noProblem : Problem := ⟨"", ""⟩

/-- The steps by which finalization request `i` of account 7 signs certificate 5 for order 1,
up to the signature. -/
def finalizeOrder (i : ℕ) (csr : Csr) : List Label :=
  [.request i (.finalize 7 1 csr), .advance i (.commit true noProblem),
    .advance i (.checks none none)]

/-- Order 1 of account 7 for one name, whose `dns-01` challenge 11 is then passed. -/
def provenOrder (value : String) : List Label :=
  [.request 0 (.newOrder 1 7 [dnsId value]), .advance 0 (.tokens (10 + ·)),
    .advance 0 (.commit true noProblem), .advance 0 (.tokens (20 + ·)),
    .advance 0 (.commit true noProblem), .request 1 (.respondToChallenge 7 11),
    .advance 1 (.answer true noProblem), .advance 1 (.commit true noProblem)]

def emptySettings : Settings := ⟨[], [], false⟩

/-- An order for one name is authorized, finalized and signed within the condition. -/
theorem signed_names_proven_one_name :
    let w := exec (step plainText) (initial emptySettings 0)
      (provenOrder "a.example" ++ finalizeOrder 2 ⟨[], some [.dns "a.example"]⟩)
    ∃ c ∈ (step plainText w (.advance 2 (.sign (.signed 5)))).db.certificates,
      c.dnsNames = ["a.example"] ∧ NamesProven plainText w.db c :=
  ⟨⟨5, 1, ["a.example"], [], ["a.example"]⟩, by decide, rfl,
    signed_names_proven plainText emptySettings 0 _ (.advance 2 (.sign (.signed 5))) _
      (Reach.start.exec (by decide)) (by decide) (by decide)⟩

/-- Order 1 for two names. The challenge of the first is passed after `create_order` has
committed its authorization and before it has created the one of the second. -/
def partialOrder : List Label :=
  [.request 0 (.newOrder 1 7 [dnsId "a.example", dnsId "b.example"]),
    .advance 0 (.tokens (10 + ·)), .advance 0 (.commit true noProblem),
    .request 1 (.respondToChallenge 7 11), .advance 1 (.answer true noProblem),
    .advance 1 (.commit true noProblem), .advance 0 (.tokens (20 + ·)),
    .advance 0 (.commit true noProblem), .advance 0 (.tokens (30 + ·)),
    .advance 0 (.commit true noProblem)]

/-- The certificate of the order names `b.example`, whose authorization is still pending. -/
theorem signed_name_unproven :
    let w := exec (step plainText) (initial emptySettings 0)
      (partialOrder ++ finalizeOrder 2 ⟨[], some [.dns "a.example", .dns "b.example"]⟩)
    ∃ c ∈ (step plainText w (.advance 2 (.sign (.signed 5)))).db.certificates,
      c ∉ w.db.certificates ∧ ¬NamesProven plainText w.db c := by
  refine ⟨⟨5, 1, ["a.example", "b.example"], [], ["a.example"]⟩, by decide, by decide, ?_⟩
  rintro ⟨o, ho, -, hdns, -⟩
  obtain ⟨identifier, hmem, -, hnorm, a, ha, -, hid, hproven⟩ := hdns "b.example" (by decide)
  have hnone : a.provenance = none := by
    clear hdns hproven
    revert o identifier a
    decide
  cases hproven <;> simp_all

end UltimateCaManager.Acme
