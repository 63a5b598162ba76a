import UltimateCaManager.AcmeIssuance
import UltimateCaManager.Concurrency

/-!
# The ACME server

Requests are handled concurrently. A request is a task that alternates between reading the
committed database, which decides what it will write, and committing its writes; other tasks
run in between. What the outside decides (validation results, outcomes of signing, failures of
commits, random tokens, the clock) comes with the label of a step. A label that does not fit the
task it addresses changes nothing.
-/
namespace UltimateCaManager.Acme

open Transactions

inductive Next
  | finished
  | creating (orderId accountId : ℕ) (todo : List Identifier)
  | challenge (challengeId authorizationId : ℕ)
  | issue (orderId : ℕ)
  | reject (orderId : ℕ)
  | deactivate (authorizationId : ℕ)
  deriving DecidableEq

/-- Where a request stands between two steps. -/
inductive Task
  /-- `create_order` with the identifiers still to be authorized and the uncommitted writes. -/
  | creating (orderId accountId : ℕ) (todo : List Identifier) (staged : List Write)
  /-- A challenge whose validator is on the network. -/
  | responding (challengeId authorizationId : ℕ) (type : ChallengeType)
  /-- The `except` clause of a validator whose commit raised. -/
  | failing (challengeId authorizationId : ℕ) (problem : Problem)
  /-- The order was read as ready, `begin_order_processing` comes next. -/
  | finalizing (orderId : ℕ) (csr : Csr)
  | claimed (orderId : ℕ) (csr : Csr)
  | signing (orderId : ℕ) (csr : Csr) (allowed : Option (List SanKind))
  | restoring (orderId : ℕ)
  | invalidating (orderId : ℕ) (detail : String)
  | deactivating (authorizationId : ℕ)
  /-- A session about to commit, with the order statuses it had read. -/
  | committing (writes : List Write) (reads : List (ℕ × OrderStatus)) (next : Next)
  deriving DecidableEq

def Next.onSuccess : Next → Option Task
  | .finished => none
  | .creating orderId accountId todo => some (.creating orderId accountId todo [])
  | .challenge _ _ => none
  | .issue _ => none
  | .reject orderId => some (.restoring orderId)
  | .deactivate authorizationId => some (.deactivating authorizationId)

/-- A failed commit is rolled back; `problem` describes the exception. -/
def Next.onFailure (problem : Problem) : Next → Option Task
  | .challenge challengeId authorizationId => some (.failing challengeId authorizationId problem)
  | .issue orderId => some (.restoring orderId)
  | .reject orderId => some (.restoring orderId)
  | _ => none

inductive Request
  | newOrder (orderId accountId : ℕ) (identifiers : List Identifier)
  | newAuthz (tokens : ℕ → ℕ) (accountId : ℕ) (identifier : Identifier)
  | respondToChallenge (accountId challengeId : ℕ)
  | finalize (accountId orderId : ℕ) (csr : Csr)
  | deactivate (accountId authorizationId : ℕ)
  | pollOrder (accountId orderId : ℕ)
  | pollAuthorization (accountId authorizationId : ℕ)

/-- How `CertificateService.sign_csr` ends. It commits the certificate itself, and what it does
after that commit may still raise. A failure is the request's fault or the server's. -/
inductive SignOutcome
  | signed (certificateId : ℕ)
  | refused (badRequest : Bool) (detail : String)
  | failedAfterCommit (certificateId : ℕ) (badRequest : Bool) (detail : String)

/-- What the outside decides at a step of a task. -/
inductive Input
  | proceed
  | tokens (tokens : ℕ → ℕ)
  | answer (passed : Bool) (problem : Problem)
  | commit (ok : Bool) (problem : Problem)
  | checks (allowed : Option (List SanKind)) (caaRefusal : Option String)
  | sign (outcome : SignOutcome)

def Request.csr? : Request → Option Csr
  | .finalize _ _ csr => some csr
  | _ => none

def Input.passes : Input → Bool
  | .answer passed _ => passed
  | _ => false

def Task.answering? : Task → Option ℕ
  | .responding _ authorizationId _ => some authorizationId
  | _ => none

def Session.commitThen (s : Session) (next : Next) : Task :=
  .committing s.writes s.reads next

/-- The deactivation of an authorization after its expiry was looked at. -/
def continueDeactivation (db : Db) (a : Authorization) : Option Task :=
  if a.status = .invalid then none
  else (deactivateAuthorization (.start db) a).map (Session.commitThen · .finished)

/-- The first part of a handler: its checks, up to its first commit or outside call. -/
def handle (settings : Settings) (now : ℕ) (db : Db) : Request → Option Task
  | .newOrder orderId accountId identifiers =>
    some (.creating orderId accountId identifiers
      [.addOrder ⟨orderId, accountId, .pending, identifiers, now + lifetime, none, none⟩])
  | .newAuthz tokens accountId identifier =>
    (createPreAuthorization settings now tokens accountId identifier (.start db)).map
      (Session.commitThen · .finished)
  | .respondToChallenge accountId challengeId => do
    let c ← db.challenge? challengeId
    let a ← db.authorization? c.authorizationId
    -- no expiry is looked at here
    if a.accountId = accountId ∧ c.status.isOpen ∧ a.status = .pending then
      some (.responding challengeId a.authorizationId c.type)
    else none
  | .finalize accountId orderId csr => do
    let o ← db.order? orderId
    if o.accountId = accountId ∧ o.status = .ready then some (.finalizing orderId csr) else none
  | .deactivate accountId authorizationId => do
    let a ← db.authorization? authorizationId
    if a.accountId = accountId then
      match expireAuthorizationIfNeeded (.start db) now a with
      | some s => some (Session.commitThen s (.deactivate authorizationId))
      | none => continueDeactivation db a
    else none
  | .pollOrder accountId orderId => do
    let o ← db.order? orderId
    if o.accountId = accountId then
      (expireOrderIfNeeded (.start db) now o).map (Session.commitThen · .finished)
    else none
  | .pollAuthorization accountId authorizationId => do
    let a ← db.authorization? authorizationId
    if a.accountId = accountId then
      (expireAuthorizationIfNeeded (.start db) now a).map (Session.commitThen · .finished)
    else none

/-- The rules by which a request starts a task. -/
inductive Starts (settings : Settings) (now : ℕ) (db : Db) : Request → Task → Prop
  | newOrder {orderId accountId identifiers} :
      Starts settings now db (.newOrder orderId accountId identifiers)
        (.creating orderId accountId identifiers
          [.addOrder ⟨orderId, accountId, .pending, identifiers, now + lifetime, none, none⟩])
  | newAuthz {tokens accountId identifier} :
      Starts settings now db (.newAuthz tokens accountId identifier) (Session.commitThen
        (newAuthorization settings now tokens none accountId identifier (.start db)) .finished)
  | respond {accountId challengeId c a} (hc : db.challenge? challengeId = some c)
      (ha : db.authorization? c.authorizationId = some a) (hopen : c.status.isOpen = true)
      (hpending : a.status = .pending) :
      Starts settings now db (.respondToChallenge accountId challengeId)
        (.responding challengeId a.authorizationId c.type)
  | finalize {accountId orderId csr o} (ho : db.order? orderId = some o)
      (hready : o.status = .ready) :
      Starts settings now db (.finalize accountId orderId csr) (.finalizing orderId csr)
  | deactivateExpired {accountId authorizationId a s}
      (ha : db.authorization? authorizationId = some a)
      (hs : expireAuthorizationIfNeeded (.start db) now a = some s) :
      Starts settings now db (.deactivate accountId authorizationId)
        (Session.commitThen s (.deactivate authorizationId))
  | deactivate {accountId authorizationId a s} (ha : db.authorization? authorizationId = some a)
      (hs : deactivateAuthorization (.start db) a = some s) :
      Starts settings now db (.deactivate accountId authorizationId)
        (Session.commitThen s .finished)
  | pollOrder {accountId orderId o s} (ho : db.order? orderId = some o)
      (hs : expireOrderIfNeeded (.start db) now o = some s) :
      Starts settings now db (.pollOrder accountId orderId) (Session.commitThen s .finished)
  | pollAuthorization {accountId authorizationId a s}
      (ha : db.authorization? authorizationId = some a)
      (hs : expireAuthorizationIfNeeded (.start db) now a = some s) :
      Starts settings now db (.pollAuthorization accountId authorizationId)
        (Session.commitThen s .finished)

theorem continueDeactivation_eq_some {db : Db} {a : Authorization} {t : Task}
    (h : continueDeactivation db a = some t) :
    ∃ s, deactivateAuthorization (.start db) a = some s ∧ t = Session.commitThen s .finished := by
  unfold continueDeactivation at h
  split at h
  · cases h
  · obtain ⟨s, hs, rfl⟩ := Option.map_eq_some_iff.mp h
    exact ⟨s, hs, rfl⟩

theorem handle_starts {settings : Settings} {now : ℕ} {db : Db} {r : Request} {t : Task}
    (h : handle settings now db r = some t) : Starts settings now db r t := by
  cases r with
  | newOrder orderId accountId identifiers =>
    cases h
    exact .newOrder
  | newAuthz tokens accountId identifier =>
    obtain ⟨s, hs, rfl⟩ := Option.map_eq_some_iff.mp h
    unfold createPreAuthorization at hs
    simp only at hs
    split at hs <;> cases hs
    exact .newAuthz
  | respondToChallenge accountId challengeId =>
    simp only [handle, Option.bind_eq_bind, Option.bind_eq_some_iff] at h
    obtain ⟨c, hc, a, ha, h⟩ := h
    split at h
    · next hcheck =>
      cases h
      exact .respond hc ha hcheck.2.1 hcheck.2.2
    · cases h
  | finalize accountId orderId csr =>
    simp only [handle, Option.bind_eq_bind, Option.bind_eq_some_iff] at h
    obtain ⟨o, ho, h⟩ := h
    split at h
    · next hcheck =>
      cases h
      exact .finalize ho hcheck.2
    · cases h
  | deactivate accountId authorizationId =>
    simp only [handle, Option.bind_eq_bind, Option.bind_eq_some_iff] at h
    obtain ⟨a, ha, h⟩ := h
    split at h
    · split at h
      · next s hs =>
        cases h
        exact .deactivateExpired ha hs
      · obtain ⟨s, hs, rfl⟩ := continueDeactivation_eq_some h
        exact .deactivate ha hs
    · cases h
  | pollOrder accountId orderId =>
    simp only [handle, Option.bind_eq_bind, Option.bind_eq_some_iff] at h
    obtain ⟨o, ho, h⟩ := h
    split at h
    · obtain ⟨s, hs, rfl⟩ := Option.map_eq_some_iff.mp h
      exact .pollOrder ho hs
    · cases h
  | pollAuthorization accountId authorizationId =>
    simp only [handle, Option.bind_eq_bind, Option.bind_eq_some_iff] at h
    obtain ⟨a, ha, h⟩ := h
    split at h
    · obtain ⟨s, hs, rfl⟩ := Option.map_eq_some_iff.mp h
      exact .pollAuthorization ha hs
    · cases h

/-- Sign, and what the order becomes of it. -/
def signOrder (text : Text) (db : Db) (orderId : ℕ) (csr : Csr) (allowed : Option (List SanKind)) :
    SignOutcome → Db × Option Task
  | .signed certificateId =>
    let certificate := certificateFor text certificateId orderId csr allowed
    if db.accepts (.addCertificate certificate) then
      (db.apply (.addCertificate certificate),
        some (.committing [.setOrderStatus orderId .valid, .linkCertificate orderId certificateId]
          [(orderId, .processing)] (.issue orderId)))
    else (db, some (.restoring orderId))
  | .refused badRequest detail => (db, some (rejectOrRestore orderId badRequest detail))
  | .failedAfterCommit certificateId badRequest detail =>
    let certificate := certificateFor text certificateId orderId csr allowed
    if db.accepts (.addCertificate certificate) then
      (db.apply (.addCertificate certificate), some (rejectOrRestore orderId badRequest detail))
    else (db, some (.restoring orderId))
where
  /-- A bad request invalidates the order, a server fault leaves it to be retried. -/
  rejectOrRestore (orderId : ℕ) (badRequest : Bool) (detail : String) : Task :=
    if badRequest then
      .committing [.setOrderStatus orderId .invalid,
        .setOrderError orderId (.single (problemData "badCSR" detail))]
        [(orderId, .processing)] (.reject orderId)
    else .restoring orderId

/-- One step of a task: the database after it and where the task stands, `none` when the input
does not fit. -/
def advance (text : Text) (settings : Settings) (now : ℕ) (db : Db) :
    Task → Input → Option (Db × Option Task)
  | .creating orderId accountId todo staged, .tokens tokens =>
    if store.acceptsAll db staged then
      let s : Session := ⟨store.applyAll db staged, staged, []⟩
      match todo with
      | [] => some (db, some (Session.commitThen (finishOrder s orderId) .finished))
      | identifier :: rest =>
        match createAuthorization settings now tokens orderId accountId identifier s with
        | (s, true) => some (db, some (Session.commitThen s (.creating orderId accountId rest)))
        | (s, false) => some (db, some (.creating orderId accountId rest s.writes))
    else some (db, none)
  | .responding challengeId authorizationId type, .answer passed problem =>
    if passed then
      some (db, some (Session.commitThen
        (completeChallenge (.start db) now challengeId authorizationId type)
        (.challenge challengeId authorizationId)))
    else some (db, some (.failing challengeId authorizationId problem))
  | .failing challengeId authorizationId problem, .proceed =>
    some (db, some (Session.commitThen
      (invalidateChallenge (.start db) challengeId authorizationId problem) .finished))
  | .finalizing orderId csr, .commit ok _ =>
    -- the conditional update and its commit
    if ok ∧ db.status? orderId = some .ready then
      some (db.apply (.setOrderStatus orderId .processing), some (.claimed orderId csr))
    else some (db, none)
  | .claimed orderId csr, .checks allowed caaRefusal =>
    match db.order? orderId with
    | none => some (db, some (.restoring orderId))
    | some o =>
      -- `get_order` shows the processing order of this finalization as ready
      if (o.status = .ready ∨ o.status = .processing) ∧ csrMatchesOrder text csr o ∧
          ¬templateRefuses allowed o then
        match caaRefusal with
        | some detail =>
          if o.domains = [] then some (db, some (.signing orderId csr allowed))
          else some (db, some (.invalidating orderId detail))
        | none => some (db, some (.signing orderId csr allowed))
      else some (db, some (.restoring orderId))
  | .signing orderId csr allowed, .sign outcome => some (signOrder text db orderId csr allowed outcome)
  | .restoring orderId, .proceed =>
    if db.status? orderId = some .processing then
      some (db, some (.committing [.setOrderStatus orderId .ready] [(orderId, .processing)] .finished))
    else some (db, none)
  | .invalidating orderId detail, .proceed =>
    if db.status? orderId = some .processing then
      some (db, some (.committing [.setOrderStatus orderId .invalid,
        .setOrderError orderId (.single (problemData "caa" detail))] [(orderId, .processing)] .finished))
    else some (db, none)
  | .deactivating authorizationId, .proceed =>
    some (db, (db.authorization? authorizationId).bind (continueDeactivation db))
  | .committing writes _ next, .commit ok problem =>
    if ok ∧ store.acceptsAll db writes then some (store.applyAll db writes, next.onSuccess)
    else some (db, next.onFailure problem)
  | _, _ => none

/-- The rules by which a task advances, one for each outcome of a step. -/
inductive Advances (text : Text) (settings : Settings) (now : ℕ) (db : Db) :
    Task → Input → Db → Option Task → Prop
  | flushFailed {orderId accountId todo staged tokens} :
      Advances text settings now db (.creating orderId accountId todo staged) (.tokens tokens) db none
  | finish {orderId accountId staged tokens} (hacc : store.acceptsAll db staged = true) :
      Advances text settings now db (.creating orderId accountId [] staged) (.tokens tokens) db
        (some (Session.commitThen
          (finishOrder ⟨store.applyAll db staged, staged, []⟩ orderId) .finished))
  | authorize {orderId accountId identifier rest staged tokens s}
      (hacc : store.acceptsAll db staged = true)
      (hs : createAuthorization settings now tokens orderId accountId identifier
        ⟨store.applyAll db staged, staged, []⟩ = (s, true)) :
      Advances text settings now db (.creating orderId accountId (identifier :: rest) staged)
        (.tokens tokens) db (some (Session.commitThen s (.creating orderId accountId rest)))
  | reuse {orderId accountId identifier rest staged tokens s}
      (hacc : store.acceptsAll db staged = true)
      (hs : createAuthorization settings now tokens orderId accountId identifier
        ⟨store.applyAll db staged, staged, []⟩ = (s, false)) :
      Advances text settings now db (.creating orderId accountId (identifier :: rest) staged)
        (.tokens tokens) db (some (.creating orderId accountId rest s.writes))
  | pass {challengeId authorizationId type problem} :
      Advances text settings now db (.responding challengeId authorizationId type)
        (.answer true problem) db (some (Session.commitThen
          (completeChallenge (.start db) now challengeId authorizationId type)
          (.challenge challengeId authorizationId)))
  | fail {challengeId authorizationId type problem} :
      Advances text settings now db (.responding challengeId authorizationId type)
        (.answer false problem) db (some (.failing challengeId authorizationId problem))
  | invalidateChallenge {challengeId authorizationId problem} :
      Advances text settings now db (.failing challengeId authorizationId problem) .proceed db
        (some (Session.commitThen
          (invalidateChallenge (.start db) challengeId authorizationId problem) .finished))
  | claim {orderId csr problem} (hready : db.status? orderId = some .ready) :
      Advances text settings now db (.finalizing orderId csr) (.commit true problem)
        (db.apply (.setOrderStatus orderId .processing)) (some (.claimed orderId csr))
  | claimLost {orderId csr ok problem} :
      Advances text settings now db (.finalizing orderId csr) (.commit ok problem) db none
  | checked {orderId csr allowed caaRefusal o} (ho : db.order? orderId = some o)
      (hstatus : o.status = .ready ∨ o.status = .processing)
      (hcsr : csrMatchesOrder text csr o = true) :
      Advances text settings now db (.claimed orderId csr) (.checks allowed caaRefusal) db
        (some (.signing orderId csr allowed))
  | caaRefused {orderId csr allowed detail} :
      Advances text settings now db (.claimed orderId csr) (.checks allowed (some detail)) db
        (some (.invalidating orderId detail))
  | checkFailed {orderId csr allowed caaRefusal} :
      Advances text settings now db (.claimed orderId csr) (.checks allowed caaRefusal) db
        (some (.restoring orderId))
  | signed {orderId csr allowed certificateId}
      (hacc : db.accepts (.addCertificate (certificateFor text certificateId orderId csr allowed)) =
        true) :
      Advances text settings now db (.signing orderId csr allowed) (.sign (.signed certificateId))
        (db.apply (.addCertificate (certificateFor text certificateId orderId csr allowed)))
        (some (.committing
          [.setOrderStatus orderId .valid, .linkCertificate orderId certificateId]
          [(orderId, .processing)] (.issue orderId)))
  | signFailed {orderId csr allowed outcome} :
      Advances text settings now db (.signing orderId csr allowed) (.sign outcome) db
        (some (.restoring orderId))
  | signRefused {orderId csr allowed badRequest detail} :
      Advances text settings now db (.signing orderId csr allowed)
        (.sign (.refused badRequest detail)) db
        (some (signOrder.rejectOrRestore orderId badRequest detail))
  | failedAfterCommit {orderId csr allowed certificateId badRequest detail}
      (hacc : db.accepts (.addCertificate (certificateFor text certificateId orderId csr allowed)) =
        true) :
      Advances text settings now db (.signing orderId csr allowed)
        (.sign (.failedAfterCommit certificateId badRequest detail))
        (db.apply (.addCertificate (certificateFor text certificateId orderId csr allowed)))
        (some (signOrder.rejectOrRestore orderId badRequest detail))
  | restore {orderId} (hproc : db.status? orderId = some .processing) :
      Advances text settings now db (.restoring orderId) .proceed db (some (.committing
        [.setOrderStatus orderId .ready] [(orderId, .processing)] .finished))
  | notRestored {orderId} :
      Advances text settings now db (.restoring orderId) .proceed db none
  | invalidateOrder {orderId detail} (hproc : db.status? orderId = some .processing) :
      Advances text settings now db (.invalidating orderId detail) .proceed db
        (some (.committing [.setOrderStatus orderId .invalid,
          .setOrderError orderId (.single (problemData "caa" detail))]
          [(orderId, .processing)] .finished))
  | notInvalidated {orderId detail} :
      Advances text settings now db (.invalidating orderId detail) .proceed db none
  | deactivate {authorizationId} :
      Advances text settings now db (.deactivating authorizationId) .proceed db
        ((db.authorization? authorizationId).bind (continueDeactivation db))
  | committed {writes reads next problem} (hacc : store.acceptsAll db writes = true) :
      Advances text settings now db (.committing writes reads next) (.commit true problem)
        (store.applyAll db writes) next.onSuccess
  | rolledBack {writes reads next ok problem}
      (hfail : ¬(ok = true ∧ store.acceptsAll db writes = true)) :
      Advances text settings now db (.committing writes reads next) (.commit ok problem) db
        (next.onFailure problem)

theorem signOrder_advances {text : Text} {settings : Settings} {now : ℕ} {db db' : Db}
    {orderId : ℕ} {csr : Csr} {allowed : Option (List SanKind)} {outcome : SignOutcome}
    {t : Option Task} (h : signOrder text db orderId csr allowed outcome = (db', t)) :
    Advances text settings now db (.signing orderId csr allowed) (.sign outcome) db' t := by
  cases outcome with
  | signed certificateId =>
    simp only [signOrder] at h
    split at h <;> cases h
    · next hacc => exact .signed hacc
    · exact .signFailed
  | refused badRequest detail => cases h; exact .signRefused
  | failedAfterCommit certificateId badRequest detail =>
    simp only [signOrder] at h
    split at h <;> cases h
    · next hacc => exact .failedAfterCommit hacc
    · exact .signFailed

theorem advance_advances {text : Text} {settings : Settings} {now : ℕ} {db db' : Db} {t : Task}
    {input : Input} {t' : Option Task}
    (h : advance text settings now db t input = some (db', t')) :
    Advances text settings now db t input db' t' := by
  unfold advance at h
  split at h
  · split at h
    · next hacc =>
      simp only at h
      split at h
      · cases h; exact .finish hacc
      · split at h <;> cases h
        · next hs => exact .authorize hacc hs
        · next hs => exact .reuse hacc hs
    · cases h; exact .flushFailed
  · next passed _ =>
    cases passed with
    | true => cases h; exact .pass
    | false => cases h; exact .fail
  · cases h; exact .invalidateChallenge
  · split at h
    · next hok =>
      obtain ⟨rfl, hready⟩ := hok
      cases h; exact .claim hready
    · cases h; exact .claimLost
  · split at h
    · cases h; exact .checkFailed
    · next o ho =>
      split at h
      · next hall =>
        split at h
        · split at h <;> cases h
          · exact .checked ho hall.1 hall.2.1
          · exact .caaRefused
        · cases h; exact .checked ho hall.1 hall.2.1
      · cases h; exact .checkFailed
  · exact signOrder_advances (Option.some.inj h)
  · split at h <;> cases h
    · next hproc => exact .restore hproc
    · exact .notRestored
  · split at h <;> cases h
    · next hproc => exact .invalidateOrder hproc
    · exact .notInvalidated
  · cases h; exact .deactivate
  · split at h
    · next hok =>
      obtain ⟨rfl, hacc⟩ := hok
      cases h; exact .committed hacc
    · next hfail => cases h; exact .rolledBack hfail
  · cases h

structure World where
  now : ℕ
  settings : Settings
  db : Db
  tasks : ℕ → Option Task

inductive Label
  | tick (seconds : ℕ)
  | configure (settings : Settings)
  | request (task : ℕ) (request : Request)
  | advance (task : ℕ) (input : Input)

def step (text : Text) (w : World) : Label → World
  | .tick seconds => { w with now := w.now + seconds }
  | .configure settings => { w with settings := settings }
  | .request i r =>
    if (w.tasks i).isSome then w
    else { w with tasks := Function.update w.tasks i (handle w.settings w.now w.db r) }
  | .advance i input =>
    match (w.tasks i).bind fun t => advance text w.settings w.now w.db t input with
    | none => w
    | some (db, t) => { w with db := db, tasks := Function.update w.tasks i t }

inductive Steps (text : Text) (w : World) : Label → World → Prop
  | idle {l} : Steps text w l w
  | tick {seconds} : Steps text w (.tick seconds) { w with now := w.now + seconds }
  | configure {settings} : Steps text w (.configure settings) { w with settings := settings }
  | request {i r} (hfree : w.tasks i = none) : Steps text w (.request i r)
      { w with tasks := Function.update w.tasks i (handle w.settings w.now w.db r) }
  | advance {i input t db t'} (ht : w.tasks i = some t)
      (h : Advances text w.settings w.now w.db t input db t') : Steps text w (.advance i input)
      { w with db := db, tasks := Function.update w.tasks i t' }

theorem step_steps (text : Text) (w : World) (l : Label) : Steps text w l (step text w l) := by
  cases l with
  | tick seconds => exact .tick
  | configure settings => exact .configure
  | request i r =>
    simp only [step]
    split
    · exact .idle
    · next hfree => exact .request (by simpa using hfree)
  | advance i input =>
    simp only [step]
    split
    · exact .idle
    · next db t' h =>
      obtain ⟨t, ht, hadv⟩ := Option.bind_eq_some_iff.mp h
      exact .advance ht (advance_advances hadv)

def initial (settings : Settings) (now : ℕ) : World :=
  ⟨now, settings, .empty, fun _ => none⟩

end UltimateCaManager.Acme
