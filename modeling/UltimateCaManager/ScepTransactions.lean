import UltimateCaManager.Concurrency
import UltimateCaManager.ScepAuthentication

/-!
# SCEP transactions

Enrolment messages, approvals and rejections are handled concurrently. Each of them reads the
request of its transaction, an issuance signs, and the commit stores what was decided. A new
request is protected by the unique index on transaction and CA. An approval and a rejection only
read that the request is pending, so of two that overlap both commit.
-/
namespace UltimateCaManager.Scep

open List Concurrency Runs Tables

/-- What `uq_scep_request_txn_ca` makes unique: a transactionID and a CA. -/
abbrev Transaction := Native × String

def ScepRequest.transaction (r : ScepRequest) : Transaction := (r.transactionId, r.caRefid)

/-- A row of `scep_requests` with the CSR that it stores, if that can be loaded. -/
structure Row where
  request : ScepRequest
  csr : Option Csr
  publicKey_eq : request.publicKey = csr.map Csr.publicKey

def Row.transaction (row : Row) : Transaction := row.request.transaction

/-- A certificate that was committed for a transaction. -/
structure Issued where
  transaction : Transaction
  publicKey : Bytes
  refid : String

/-- `issued` is a history variable. -/
structure Server where
  now : ℤ
  cas : List CaRow
  certificates : List CertRow
  revokedSerials : List RevokedSerial
  rows : List Row
  issued : List Issued

namespace Server

def store (s : Server) : Store :=
  ⟨s.cas, s.certificates, s.revokedSerials, s.rows.map Row.request⟩

def row? (s : Server) (k : Transaction) : Option Row :=
  s.rows.find? fun row => row.transaction = k

def empty (now : ℤ) (cas : List CaRow) (certificates : List CertRow)
    (revokedSerials : List RevokedSerial) : Server :=
  ⟨now, cas, certificates, revokedSerials, [], []⟩

end Server

/-- A certificate signed by a session that has not committed yet. -/
structure Issuance where
  svc : Service
  signed : Signed
  renewalOf : Option Certificate
  publicKey : Bytes

inductive Task
  /-- No request of the transaction was found, so a new one is stored. -/
  | enrolling (svc : Service) (o : Opened) (csr : Csr)
  /-- About to insert the row, with what was issued for it. -/
  | inserting (row : Row) (issuance : Option Issuance)
  /-- The request was read as pending. -/
  | approving (svc : Service) (transaction : Transaction) (csr : Csr)
      (renewalOf : Option Certificate)
  /-- About to set the request approved. -/
  | updating (transaction : Transaction) (issuance : Issuance)
  /-- About to set the request rejected. -/
  | rejecting (transaction : Transaction) (reason : String)

inductive Request
  | message (svc : Service) (m : Message)
  | approve (svc : Service) (transactionId : Native)
  | reject (transaction : Transaction) (reason : String)

inductive Input
  | issue
  | commit (ok : Bool)

section

variable (lib : Library) (loadCertificate : Bytes → Option Certificate)

/-- The reads of a request. Messages that are answered from the tables end there. -/
def begin (s : Server) : Request → Option Task
  | .message svc m =>
    match openMessage lib svc s.now m with
    | .error _ => none
    | .ok o =>
      if o.messageType = .pkiReq ∨ o.messageType = .renewalReq then
        match admitEnrolment lib svc s.now s.store o, s.row? (o.transactionId, svc.ca.refid) with
        | .ok csr, none => some (.enrolling svc o csr)
        | _, _ => none
      else none
  | .approve svc transactionId => do
    let row ← s.row? (transactionId, svc.ca.refid)
    -- a CSR that cannot be loaded raises
    let csr ← row.csr
    if row.request.status = .pending then
      some (.approving svc row.transaction csr (row.request.renewalOf.bind loadCertificate))
    else none
  | .reject transaction reason => do
    let row ← s.row? transaction
    if row.request.status = .pending then some (.rejecting transaction reason) else none

/-- The row of a new request, approved by what was issued for it. -/
def newRow (svc : Service) (o : Opened) (csr : Csr) (signed : Option Signed) : Row :=
  { request :=
      match signed with
      | none => newRequest svc o csr
      | some signed =>
        { newRequest svc o csr with status := .approved, certRefid := some signed.refid }
    csr := some csr
    publicKey_eq := by cases signed <;> rfl }

/-- Sign, or end when the CA refuses. -/
def issue (s : Server) : Task → Option (Server × Option Task)
  | .enrolling svc o csr =>
    if svc.autoApprove then
      let renewalOf := if o.messageType = .renewalReq then some o.signer else none
      match autoApproveRequest svc s.now s.store csr renewalOf with
      | none => some (s, none)
      | some (_, signed) =>
        if svc.intuneClient.all fun client =>
            client.sendSuccessNotification o.transactionId o.data signed.der then
          some (s, some (.inserting (newRow svc o csr (some signed))
            (some ⟨svc, signed, renewalOf, csr.publicKey⟩)))
        else some (s, none)
    else some (s, some (.inserting (newRow svc o csr none) none))
  | .approving svc transaction csr renewalOf =>
    match autoApproveRequest svc s.now s.store csr renewalOf with
    | none => some (s, none)
    | some (_, signed) =>
      some (s, some (.updating transaction ⟨svc, signed, renewalOf, csr.publicKey⟩))
  | _ => none

def Server.insert (s : Server) (row : Row) : Server :=
  { s with rows := s.rows ++ [row] }

def Row.setStatus (row : Row) (status : RequestStatus) (certRefid : Option String) : Row :=
  { row with
    request := { row.request with status, certRefid := certRefid <|> row.request.certRefid } }

/-- The update names the request by its key only. -/
def Server.setStatus (s : Server) (k : Transaction) (status : RequestStatus)
    (certRefid : Option String) : Server :=
  { s with rows := amend (·.transaction = k) (·.setStatus status certRefid) s.rows }

/-- The certificate is stored for the transaction. A renewal whose certificate was claimed
meanwhile ends here: the claim is a conditional update. -/
def Server.addCertificate (s : Server) (k : Transaction) (i : Issuance) : Option Server :=
  (storeSigned i.svc s.store i.signed i.renewalOf).map fun certificates =>
    { s with certificates := certificates,
             issued := s.issued ++ [⟨k, i.publicKey, i.signed.refid⟩] }

/-- The commit of a session, `none` when it raises. -/
def commit (s : Server) : Task → Option Server
  | .inserting row issuance =>
    if (s.row? row.transaction).isSome then none
    else
      match issuance with
      | none => some (s.insert row)
      | some i => (s.addCertificate row.transaction i).map (Server.insert · row)
  | .updating transaction i =>
    (s.addCertificate transaction i).map
      (Server.setStatus · transaction .approved (some i.signed.refid))
  | .rejecting transaction reason => some (s.setStatus transaction (.rejected (some reason)) none)
  | _ => none

def Task.commits : Task → Bool
  | .inserting _ _ => true
  | .updating _ _ => true
  | .rejecting _ _ => true
  | _ => false

/-- A commit that raises is rolled back. -/
def advance (s : Server) (t : Task) : Input → Option (Server × Option Task)
  | .issue => issue s t
  | .commit ok =>
    if t.commits then
      match ok, commit s t with
      | true, some s' => some (s', none)
      | _, _ => some (s, none)
    else none

/-- Requests on the tables; an event is the passage of time. -/
def system : System Server Task Request Input ℕ where
  event s microseconds := { s with now := s.now + microseconds }
  start := begin lib loadCertificate
  advance := advance

end

/-! ## A message alone -/

variable {lib : Library} {loadCertificate : Bytes → Option Certificate} {svc : Service}
  {s s' : Server} {k : Transaction}

theorem autoApproveRequest_eq_some {now : ℤ} {st : Store} {csr : Csr}
    {renewalOf : Option Certificate} {stored : List CertRow} {signed : Signed}
    (h : autoApproveRequest svc now st csr renewalOf = some (stored, signed)) :
    storeSigned svc st signed renewalOf = some stored := by
  unfold autoApproveRequest at h
  split at h
  · cases h
  · obtain ⟨signed', -, hstored⟩ := Option.bind_eq_some_iff.mp h
    obtain ⟨stored', hstored', heq⟩ := Option.map_eq_some_iff.mp hstored
    cases heq
    exact hstored'

theorem request?_store (s : Server) (transactionId : Native) (ca : CaRow) :
    s.store.request? transactionId ca =
      (s.row? (transactionId, ca.refid)).map Row.request := by
  unfold Store.request? Server.store Server.row?
  rw [find?_map]
  congr 2
  funext row
  simp [Row.transaction, ScepRequest.transaction]

variable {r : Request} {t : Task} {key : Bytes} {status : RequestStatus} {certRefid : Option String}

/-- The server after a request that nothing interrupts. -/
def alone (lib : Library) (loadCertificate : Bytes → Option Certificate) (s : Server)
    (r : Request) : Server :=
  (exec (system lib loadCertificate).step (World.initial s)
    [.request 0 r, .advance 0 .issue, .advance 0 (.commit true)]).shared

theorem alone_refused (h : begin lib loadCertificate s r = none) :
    alone lib loadCertificate s r = s := by
  simp [alone, System.step, World.initial, system, h]

theorem alone_ended (h : begin lib loadCertificate s r = some t)
    (hissue : issue s t = some (s, none)) : alone lib loadCertificate s r = s := by
  simp [alone, System.step, World.initial, system, h, advance, hissue]

theorem alone_committed {t' : Task} (h : begin lib loadCertificate s r = some t)
    (hissue : issue s t = some (s, some t')) (hcommits : t'.commits = true) :
    alone lib loadCertificate s r = (commit s t').getD s := by
  cases hcommit : commit s t' <;>
    simp [alone, System.step, World.initial, system, h, advance, hissue, hcommits, hcommit]

theorem enrolment_alone {o : Opened} {csr : Csr}
    (h : begin lib loadCertificate s r = some (.enrolling svc o csr))
    (hnew : s.row? (o.transactionId, svc.ca.refid) = none) :
    (alone lib loadCertificate s r).store = (enroll svc s.now s.store o csr).1 := by
  have hrequest : s.store.request? o.transactionId svc.ca = none := by
    rw [request?_store, hnew]
    rfl
  unfold enroll
  rw [hrequest]
  simp only
  by_cases hauto : svc.autoApprove = true
  · rw [if_pos hauto]
    have hkey : ∀ signed, (newRow svc o csr signed).transaction =
      (o.transactionId, svc.ca.refid) := by
      intro signed
      cases signed <;> rfl
    split
    next hrefused =>
      rw [alone_ended h (by simp [issue, hauto, hrefused])]
    next stored signed happroved =>
      split
      next hnotified =>
        have hissue : issue s (.enrolling svc o csr) = some (s, some (.inserting
            (newRow svc o csr (some signed)) (some ⟨svc, signed,
              if o.messageType = .renewalReq then some o.signer else none, csr.publicKey⟩))) := by
          simp only [issue, if_pos hauto, happroved]
          rw [if_pos hnotified]
        rw [alone_committed h hissue rfl]
        simp only [commit, hkey, hnew, Server.addCertificate, autoApproveRequest_eq_some happroved]
        simp [Server.insert, Server.store, newRow]
      next hrefused =>
        rw [alone_ended h]
        simp only [issue, if_pos hauto, happroved]
        rw [if_neg hrefused]
  · have hissue : issue s (.enrolling svc o csr) =
        some (s, some (.inserting (newRow svc o csr none) none)) := by
      simp [issue, hauto]
    have hkey : (newRow svc o csr none).transaction = (o.transactionId, svc.ca.refid) := rfl
    rw [alone_committed h hissue rfl, if_neg hauto]
    simp only [commit, hkey, hnew]
    simp [Server.insert, Server.store, newRow]

/-- A message that nothing interrupts leaves the tables that `process_pkcs_req` leaves. -/
theorem message_alone (s : Server) (svc : Service) (m : Message) :
    (alone lib loadCertificate s (.message svc m)).store =
      (processPkcsReq lib svc s.now s.store m).1 := by
  unfold processPkcsReq
  cases hopen : openMessage lib svc s.now m with
  | error f =>
    rw [alone_refused (by simp [begin, hopen])]
  | ok o =>
    have hquery : o.messageType ≠ .pkiReq → o.messageType ≠ .renewalReq →
        begin lib loadCertificate s (.message svc m) = none := by
      intro hpki hrenewal
      simp [begin, hopen, hpki, hrenewal]
    have henrol : (o.messageType = .pkiReq ∨ o.messageType = .renewalReq) →
        (alone lib loadCertificate s (.message svc m)).store =
          (handleEnrolment lib svc s.now s.store o).1 := by
      intro htype
      unfold handleEnrolment
      cases hadmit : admitEnrolment lib svc s.now s.store o with
      | error f =>
        rw [alone_refused (by simp [begin, hopen, hadmit])]
      | ok csr =>
        cases hrow : s.row? (o.transactionId, svc.ca.refid) with
        | none => exact enrolment_alone (by simp [begin, hopen, htype, hadmit, hrow]) hrow
        | some row =>
          rw [alone_refused (by simp [begin, hopen, hrow])]
          simp [enroll, request?_store, hrow]
    cases htype : o.messageType with
    | pkiReq => simpa [htype] using henrol (.inl htype)
    | renewalReq => simpa [htype] using henrol (.inr htype)
    | _ =>
      rw [alone_refused (hquery (by simp [htype]) (by simp [htype]))]
      simp only [htype, handleQuery]
      split <;> rfl

/-! ## What a commit can be -/

theorem row?_eq_none (h : s.row? k = none) : ∀ row ∈ s.rows, row.transaction ≠ k := by
  intro row hrow
  simpa using find?_eq_none.mp h row hrow

/-- The commits: a new request, with the certificate issued for it or without, and the decision on
an old one. -/
inductive Commits (s : Server) : Task → Server → Prop
  | inserted {row} (hnew : s.row? row.transaction = none) :
      Commits s (.inserting row none) (s.insert row)
  | enrolled {row i certificates} (hnew : s.row? row.transaction = none) :
      Commits s (.inserting row (some i)) { s with
        certificates := certificates, rows := s.rows ++ [row],
        issued := s.issued ++ [⟨row.transaction, i.publicKey, i.signed.refid⟩] }
  | approved {k i certificates} : Commits s (.updating k i) { s with
      certificates := certificates,
      rows := amend (·.transaction = k) (·.setStatus .approved (some i.signed.refid)) s.rows,
      issued := s.issued ++ [⟨k, i.publicKey, i.signed.refid⟩] }
  | rejected {k reason} :
      Commits s (.rejecting k reason) (s.setStatus k (.rejected (some reason)) none)

theorem commit_commits (h : commit s t = some s') : Commits s t s' := by
  cases t with
  | enrolling | approving => cases h
  | inserting row issuance =>
    simp only [commit] at h
    split at h
    · cases h
    next hnew =>
      have hnone : s.row? row.transaction = none := by simpa using hnew
      cases issuance with
      | none =>
        cases h
        exact .inserted hnone
      | some i =>
        simp only [Server.addCertificate, Option.map_map] at h
        obtain ⟨certificates, -, rfl⟩ := Option.map_eq_some_iff.mp h
        exact .enrolled hnone
  | updating k i =>
    simp only [commit, Server.addCertificate, Option.map_map] at h
    obtain ⟨certificates, -, rfl⟩ := Option.map_eq_some_iff.mp h
    exact .approved
  | rejecting k reason =>
    cases h
    exact .rejected

/-- A step of a task signs and changes no table, or it ends the task with a commit or without. -/
theorem advance_cases {input : Input} {t' : Option Task} (h : advance s t input = some (s', t')) :
    (∃ u, s' = s ∧ t' = some u ∧ issue s t = some (s, some u)) ∨ (s' = s ∧ t' = none) ∨
      (t' = none ∧ input = .commit true ∧ Commits s t s') := by
  cases input with
  | issue =>
    have hissue : issue s t = some (s', t') := h
    have hsame : s' = s := by
      cases t with
      | enrolling svc o csr =>
        simp only [issue] at hissue
        repeat' split at hissue
        all_goals cases hissue; rfl
      | approving svc k csr renewalOf =>
        simp only [issue] at hissue
        split at hissue <;> cases hissue <;> rfl
      | _ => cases hissue
    subst hsame
    cases t' with
    | none => exact .inr (.inl ⟨rfl, rfl⟩)
    | some u => exact .inl ⟨u, rfl, rfl, hissue⟩
  | commit ok =>
    simp only [advance] at h
    split at h
    · split at h
      next s₁ hcommit =>
        cases h
        exact .inr (.inr ⟨rfl, rfl, commit_commits hcommit⟩)
      next =>
        cases h
        exact .inr (.inl ⟨rfl, rfl⟩)
    · cases h

/-! ## The condition on the run -/

/-- The transaction whose request a session is about to decide. -/
def Task.decides? : Task → Option Transaction
  | .updating k _ => some k
  | .rejecting k _ => some k
  | _ => none

/-- The request that the task decides is still pending. -/
def Undecided (s : Server) (t : Task) : Prop :=
  ∀ k ∈ t.decides?, ∀ row ∈ s.rows, row.transaction = k → row.request.status = .pending
  deriving Decidable

/-- An approval or rejection is committed while the request is still pending. -/
def StillPending (w : World Server Task) : Label Request Input ℕ → Prop
  | .advance i (.commit true) => ∀ t ∈ w.tasks i, Undecided w.shared t
  | _ => True

instance (w : World Server Task) (l : Label Request Input ℕ) : Decidable (StillPending w l) := by
  unfold StillPending
  split <;> infer_instance

/-! ## Invariants -/

def Server.HasKey (s : Server) (k : Transaction) (publicKey : Bytes) : Prop :=
  ∃ row ∈ s.rows, row.transaction = k ∧ row.request.publicKey = some publicKey

/-- Transactions are unique, and each has at most one certificate, for the key of its request,
which is then approved. -/
structure Consistent (s : Server) : Prop where
  unique : (s.rows.map Row.transaction).Nodup
  once : (s.issued.map Issued.transaction).Nodup
  backed : ∀ e ∈ s.issued, ∃ row ∈ s.rows, row.transaction = e.transaction ∧
    row.request.status = .approved ∧ row.request.publicKey = some e.publicKey

/-- What a task issues is for the key of its request. -/
def Task.Backed (s : Server) : Task → Prop
  | .approving _ k csr _ => s.HasKey k csr.publicKey
  | .updating k i => s.HasKey k i.publicKey
  | .inserting row (some i) => row.request.status = .approved ∧
      row.request.publicKey = some i.publicKey
  | _ => True

theorem Task.Backed.mono (hkeys : ∀ k key, s.HasKey k key → s'.HasKey k key)
    (h : t.Backed s) : t.Backed s' := by
  cases t with
  | approving | updating => exact hkeys _ _ h
  | inserting row issuance =>
    cases issuance with
    | none => trivial
    | some i => exact h
  | _ => trivial

theorem hasKey_amend {p : Row → Bool} (h : s.HasKey k key) :
    ∃ row ∈ amend p (·.setStatus status certRefid) s.rows, row.transaction = k ∧
      row.request.publicKey = some key := by
  obtain ⟨r, hr, hk, hkey⟩ := h
  refine ⟨_, exists_mem_amend hr, ?_⟩
  split <;> exact ⟨hk, hkey⟩

theorem Commits.hasKey (h : Commits s t s') (hk : s.HasKey k key) : s'.HasKey k key := by
  cases h with
  | inserted | enrolled =>
    obtain ⟨r, hr, hrk⟩ := hk
    exact ⟨r, mem_append_left _ hr, hrk⟩
  | approved | rejected => exact hasKey_amend hk

theorem Consistent.unissued (h : Consistent s)
    (hpending : ∀ row ∈ s.rows, row.transaction = k → row.request.status = .pending) :
    ∀ e ∈ s.issued, e.transaction ≠ k := by
  intro e he hk
  obtain ⟨row, hrow, htr, happroved, -⟩ := h.backed e he
  rw [hpending row hrow (htr.trans hk)] at happroved
  cases happroved

/-- A decision on a pending request does not meet one that was decided. -/
theorem mem_amend_of_decided
    (hpending : ∀ row ∈ s.rows, row.transaction = k → row.request.status = .pending)
    {row : Row} (hrow : row ∈ s.rows) (hdecided : row.request.status ≠ .pending) :
    row ∈ amend (·.transaction = k) (·.setStatus status certRefid) s.rows :=
  mem_amend.mpr (.inl ⟨hrow, by simpa using fun hk => hdecided (hpending row hrow hk)⟩)

theorem Consistent.backed_amend (h : Consistent s)
    (hpending : ∀ row ∈ s.rows, row.transaction = k → row.request.status = .pending)
    {e : Issued} (he : e ∈ s.issued) :
    ∃ row ∈ amend (·.transaction = k) (·.setStatus status certRefid) s.rows,
      row.transaction = e.transaction ∧ row.request.status = .approved ∧
        row.request.publicKey = some e.publicKey := by
  obtain ⟨row, hrow, htr, happroved, hkey⟩ := h.backed e he
  exact ⟨row, mem_amend_of_decided hpending hrow (by simp [happroved]), htr, happroved, hkey⟩

theorem Consistent.commits (h : Consistent s) (ht : t.Backed s)
    (hundecided : Undecided s t) (hc : Commits s t s') : Consistent s' := by
  cases hc with
  | @inserted row hnew =>
    refine ⟨nodup_concat h.unique (row?_eq_none hnew), h.once, fun e he => ?_⟩
    obtain ⟨r, hr, hrest⟩ := h.backed e he
    exact ⟨r, mem_append_left _ hr, hrest⟩
  | @enrolled row i certificates hnew =>
    refine ⟨nodup_concat h.unique (row?_eq_none hnew), nodup_concat h.once fun e he hk => ?_,
      forall_mem_concat.mpr ⟨fun e he => ?_, ?_⟩⟩
    · obtain ⟨r, hr, htr, -⟩ := h.backed e he
      exact row?_eq_none hnew r hr (htr.trans hk)
    · obtain ⟨r, hr, hrest⟩ := h.backed e he
      exact ⟨r, mem_append_left _ hr, hrest⟩
    · exact ⟨row, mem_concat_self, rfl, ht⟩
  | @approved k i certificates =>
    have hpending := hundecided k rfl
    refine ⟨nodup_amend (fun _ => rfl) h.unique, nodup_concat h.once (h.unissued hpending),
      forall_mem_concat.mpr ⟨fun e he => h.backed_amend hpending he, ?_⟩⟩
    obtain ⟨row, hrow, hk, hkey⟩ := ht
    refine ⟨row.setStatus .approved (some i.signed.refid), ?_, hk, rfl, hkey⟩
    exact mem_amend.mpr (.inr ⟨row, hrow, by simpa using hk, rfl⟩)
  | @rejected k reason =>
    exact ⟨nodup_amend (fun _ => rfl) h.unique, h.once, fun e he =>
      h.backed_amend (hundecided k rfl) he⟩

def Rejected (k : Transaction) (s : Server) : Prop :=
  ∃ row ∈ s.rows, row.transaction = k ∧ ∃ reason, row.request.status = .rejected reason

theorem Rejected.commits (h : Rejected k s) (hundecided : Undecided s t)
    (hc : Commits s t s') : Rejected k s' := by
  obtain ⟨row, hrow, hk, reason, hrejected⟩ := h
  cases hc with
  | inserted | enrolled => exact ⟨row, mem_append_left _ hrow, hk, reason, hrejected⟩
  | approved | rejected =>
    exact ⟨row, mem_amend_of_decided (hundecided _ rfl) hrow (by simp [hrejected]), hk, reason,
      hrejected⟩

theorem begin_backed (h : begin lib loadCertificate s r = some t) : t.Backed s := by
  cases r with
  | message svc m =>
    simp only [begin] at h
    split at h
    · cases h
    · split at h
      · split at h <;> cases h
        trivial
      · cases h
  | approve svc transactionId =>
    simp only [begin, Option.bind_eq_bind, Option.bind_eq_some_iff] at h
    obtain ⟨row, hrow, csr, hcsr, h⟩ := h
    split at h <;> cases h
    refine ⟨row, (find?_key hrow).1, rfl, ?_⟩
    rw [row.publicKey_eq, hcsr]
    rfl
  | reject k reason =>
    simp only [begin, Option.bind_eq_bind, Option.bind_eq_some_iff] at h
    obtain ⟨row, -, h⟩ := h
    split at h <;> cases h
    trivial

theorem issue_backed {u : Task} (ht : t.Backed s) (h : issue s t = some (s, some u)) :
    u.Backed s := by
  cases t with
  | enrolling svc o csr =>
    simp only [issue] at h
    split at h
    · split at h
      · cases h
      · split at h <;> cases h
        exact ⟨rfl, rfl⟩
    · cases h
      trivial
  | approving svc k csr renewalOf =>
    simp only [issue] at h
    split at h <;> cases h
    exact ht
  | _ => cases h

/-- Whatever else the commits keep holds along every run that decides pending requests only. -/
theorem consistent_inductive {X : Server → Prop}
    (hevent : ∀ s (n : ℕ), X s → X { s with now := s.now + n })
    (hcommit : ∀ {s t s'}, X s → Undecided s t → Commits s t s' → X s') :
    System.Inductive (system lib loadCertificate) StillPending (fun s => Consistent s ∧ X s)
      (fun s t => t.Backed s) (fun _ _ => True) where
  symm := id
  event := by
    intro w n _ ⟨hs, hX⟩
    exact ⟨⟨⟨hs.1, hs.2, hs.3⟩, hevent _ n hX⟩, fun ht => ht.mono fun _ _ h => h⟩
  start := fun _ _ h => ⟨begin_backed h, fun _ => trivial⟩
  advance := by
    intro w i input t s t' hguard ⟨hs, hX⟩ ht hbacked h
    rcases advance_cases h with ⟨u, rfl, rfl, hissue⟩ | ⟨rfl, rfl⟩ | ⟨rfl, rfl, hc⟩
    · refine ⟨⟨hs, hX⟩, ?_, fun hu _ => hu⟩
      rintro v ⟨⟩
      exact ⟨issue_backed hbacked hissue, fun _ _ => trivial⟩
    · exact ⟨⟨hs, hX⟩, by simp, fun hu _ => hu⟩
    · have hundecided : Undecided w.shared t := hguard t ht
      exact ⟨⟨hs.commits hbacked hundecided hc, hcommit hX hundecided hc⟩, by simp,
        fun hu _ => hu.mono fun _ _ => hc.hasKey⟩

/-- In every run whose approvals and rejections are committed while their request is pending, at
most one certificate is committed for a transaction and CA, for the key of its request, and none
once its rejection has been committed. -/
theorem one_certificate_per_transaction (lib : Library)
    (loadCertificate : Bytes → Option Certificate) (now : ℤ) (cas : List CaRow)
    (certificates : List CertRow) (revokedSerials : List RevokedSerial)
    (w : World Server Task) (k : Transaction)
    (hw : Reach (system lib loadCertificate).step StillPending
      (World.initial (.empty now cas certificates revokedSerials)) w) :
    (w.shared.issued.filter fun e => e.transaction = k).length ≤ 1 ∧
    (∀ e ∈ w.shared.issued, e.transaction = k → w.shared.HasKey k e.publicKey) ∧
    ∀ w', Reach (system lib loadCertificate).step StillPending w w' → Rejected k w.shared →
      ∀ e ∈ w'.shared.issued, e.transaction ≠ k := by
  have hempty : Consistent (.empty now cas certificates revokedSerials) :=
    ⟨nodup_nil, nodup_nil, by simp [Server.empty]⟩
  have hinv := (consistent_inductive (X := fun _ => True) (fun _ _ h => h) fun h _ _ => h).reach
    ⟨hempty, trivial⟩ hw
  obtain ⟨hs, -⟩ := hinv.shared
  refine ⟨?_, fun e he hk => ?_, fun w' hw' hrejected e he hk => ?_⟩
  · exact length_filter_key_le_one k hs.once
  · obtain ⟨row, hrow, htr, -, hkey⟩ := hs.backed e he
    exact ⟨row, hrow, htr.trans hk, hkey⟩
  · have hinv' := (consistent_inductive (X := Rejected k) (fun _ _ h => h)
      (fun h hu hc => h.commits hu hc)).reach_from ⟨⟨hs, hrejected⟩, hinv.task, hinv.apart⟩ hw'
    obtain ⟨hs', row, hrow, hrk, reason, hstatus⟩ := hinv'.shared
    obtain ⟨row', hrow', htr, happroved, -⟩ := hs'.backed e he
    have heq : row = row' := eq_of_key hs'.unique hrow hrow' (hrk.trans (htr.trans hk).symm)
    rw [heq, happroved] at hstatus
    cases hstatus

/-! ## Approvals and rejections that overlap -/

/-- An endpoint whose requests are approved by hand. -/
def manualEndpoint : Service :=
  { expiredEndpoint with autoApprove := false, challengeExpired := false }

def enrolmentMessage : Message :=
  { renewalMessage with
    signerInfos := [{ sid := .subjectKeyIdentifier [5], digestAlgorithm := .sha256,
                      signatureAlgorithm := .other "sha256_rsa", signature := [9],
                      signedAttrs := [⟨.transactionId, [.text ['t']]⟩, ⟨.messageType, [.int 19]⟩,
                        ⟨.challengePassword, [.text ['s']]⟩, ⟨.messageDigest, [.bytes [1]]⟩] }] }

def plainSystem : System Server Task Request Input ℕ :=
  system (plainLibrary (renewalCsr "1.2.3.4")) fun _ => none

def enrolled : List (Label Request Input ℕ) :=
  [.request 0 (.message manualEndpoint enrolmentMessage), .advance 0 .issue,
    .advance 0 (.commit true)]

/-- The request is approved once, and a second approval finds it so. -/
theorem approved_once :
    let w := exec plainSystem.step (World.initial (.empty 50 [] [] [])) (enrolled ++
      [.request 1 (.approve manualEndpoint (.text ['t'])), .advance 1 .issue,
        .advance 1 (.commit true), .request 2 (.approve manualEndpoint (.text ['t']))])
    w.shared.issued ≠ [] ∧
      (w.shared.issued.filter fun e => e.transaction = (.text ['t'], "ca")).length ≤ 1 :=
  ⟨by decide, (one_certificate_per_transaction _ _ 50 [] [] [] _ _
    (Reach.start.exec (by decide))).1⟩

/-- Two approvals that both read the request as pending store two certificates for it, and one
that read it before a rejection stores a certificate after it. -/
theorem approved_twice_and_after_rejection :
    (let w := exec plainSystem.step (World.initial (.empty 50 [] [] [])) (enrolled ++
      [.request 1 (.approve manualEndpoint (.text ['t'])),
        .request 2 (.approve manualEndpoint (.text ['t'])), .advance 1 .issue, .advance 2 .issue,
        .advance 1 (.commit true), .advance 2 (.commit true)])
    ¬(w.shared.issued.filter fun e => e.transaction = (.text ['t'], "ca")).length ≤ 1) ∧
    let w := exec plainSystem.step (World.initial (.empty 50 [] [] [])) (enrolled ++
      [.request 1 (.approve manualEndpoint (.text ['t'])),
        .request 2 (.reject (.text ['t'], "ca") "no"), .advance 1 .issue,
        .advance 2 (.commit true)])
    Rejected (.text ['t'], "ca") w.shared ∧ w.shared.issued = [] ∧
      ∃ e ∈ (plainSystem.step w (.advance 1 (.commit true))).shared.issued,
        e.transaction = (.text ['t'], "ca") := by
  refine ⟨by decide, ?_, by decide, by decide⟩
  exact ⟨_, mem_singleton.mpr rfl, rfl, _, rfl⟩

end UltimateCaManager.Scep
