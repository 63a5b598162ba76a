import UltimateCaManager.EabAccounts

/-!
# Confinement by external account binding

A credential is consumed at most once, whatever the requests and the failing commits. An account
is held to the scope of its credential as soon as the two are bound, which is one commit later
than the account itself: a request checked in between, or after a registration that could
neither bind nor remove its account, meets no scope at all. Confinement therefore holds in the
runs that check orders and pre-authorizations only for bound accounts.
-/
namespace UltimateCaManager.Eab

open List Acme Tables Runs Concurrency

/-- The account in whose name an order or a pre-authorization is requested. -/
def Request.account? : Request → Option ℕ
  | .newAccount .. => none
  | .newOrder accountId _ => some accountId
  | .newAuthz accountId _ => some accountId

/-- The credential that the account registered with, if any, is bound to it. -/
def Db.BoundAccount (db : Db) (accountId : ℕ) : Prop :=
  ∀ a ∈ db.account? accountId, ∀ kid ∈ a.registered,
    (db.credential? kid).bind Credential.usedBy = some accountId
  deriving Decidable

/-- Orders and pre-authorizations are requested for bound accounts only. -/
def Bound (w : World Db Task) : Label Request Input Event → Prop
  | .request _ r => ∀ accountId ∈ r.account?, w.shared.BoundAccount accountId
  | _ => True

instance (w : World Db Task) (l : Label Request Input Event) : Decidable (Bound w l) := by
  unfold Bound
  split <;> infer_instance

section Lookups

variable {db db' : Db} {c : Credential} {a : Account} {kid : String} {accountId : ℕ}

theorem credential?_mem (h : db.credential? kid = some c) : c ∈ db.credentials ∧ c.kid = kid :=
  find?_key h

theorem account?_mem (h : db.account? accountId = some a) :
    a ∈ db.accounts ∧ a.accountId = accountId :=
  find?_key h

theorem account?_none (h : db.account? accountId = none) :
    ∀ a ∈ db.accounts, a.accountId ≠ accountId := by
  intro a ha
  simpa using find?_eq_none.mp h a ha

theorem exists_firstBy {α : Type} (before : α → α → Bool) {rows : List α} {r : α}
    (h : r ∈ rows) : ∃ b, firstBy before rows = some b := by
  cases rows with
  | nil => cases h
  | cons q rest =>
    simp only [firstBy]
    split
    · exact ⟨_, rfl⟩
    · split <;> exact ⟨_, rfl⟩

/-- No write changes the configuration or the scope of a credential. -/
structure Db.Keeps (db db' : Db) : Prop where
  eabRequired : db'.eabRequired = db.eabRequired
  scope : ∀ c ∈ db.credentials, ∃ d ∈ db'.credentials, d.kid = c.kid ∧ d.allowed = c.allowed

theorem Db.Keeps.of_eq (h : db'.eabRequired = db.eabRequired)
    (hc : db'.credentials = db.credentials) : db.Keeps db' :=
  ⟨h, fun c hmem => ⟨c, hc ▸ hmem, rfl, rfl⟩⟩

theorem Db.Keeps.of_amend {p : Credential → Bool} {f : Credential → Credential}
    (h : db'.eabRequired = db.eabRequired) (hc : db'.credentials = amend p f db.credentials)
    (hf : ∀ c, (f c).kid = c.kid ∧ (f c).allowed = c.allowed) : db.Keeps db' := by
  refine ⟨h, fun c hmem => ⟨if p c then f c else c, hc ▸ mem_map_of_mem hmem, ?_⟩⟩
  split
  · exact hf c
  · exact ⟨rfl, rfl⟩

theorem Db.Keeps.stored (h : db.Keeps db') (hc : ∃ c ∈ db.credentials, c.kid = kid) :
    ∃ d ∈ db'.credentials, d.kid = kid := by
  obtain ⟨c, hc, rfl⟩ := hc
  obtain ⟨d, hd, hdk, -⟩ := h.scope c hc
  exact ⟨d, hd, hdk⟩

theorem Db.Keeps.event (db : Db) (e : Event) : db.Keeps (event db e) := by
  cases e with
  | tick | close => exact .of_eq rfl rfl
  | issue kid hmacKey allowed expiresAt =>
    simp only [Eab.event]
    split
    · exact .of_eq rfl rfl
    · exact ⟨rfl, fun c hc => ⟨c, mem_append_left _ hc, rfl, rfl⟩⟩
  | revoke kid => exact .of_amend rfl rfl fun _ => ⟨rfl, rfl⟩

end Lookups

/-! ## The invariant -/

section Confinement

variable [LowerCase]

/-- Credential `kid` is stored and allows all the identifiers. -/
def Db.Scoped (db : Db) (kid : String) (identifiers : List Identifier) : Prop :=
  ∃ c ∈ db.credentials, c.kid = kid ∧ ∀ i ∈ identifiers, c.allowsIdentifier i = true

/-- With binding required there is a credential, and a credential allows what was accepted. -/
structure Db.Confined (db : Db) (x : Accepted) : Prop where
  registered : db.eabRequired = true → x.registered.isSome
  within : ∀ kid, x.registered = some kid → db.Scoped kid x.identifiers

structure Db.Sound (db : Db) : Prop where
  kids : (db.credentials.map Credential.kid).Nodup
  tokens : (db.accounts.map Account.accountId).Nodup
  registered : db.eabRequired = true → ∀ a ∈ db.accounts, a.registered.isSome
  /-- A credential is bound to the account that registered with it. -/
  holder : ∀ c ∈ db.credentials, ∀ id, c.usedBy = some id →
    ∃ a ∈ db.accounts, a.accountId = id ∧ a.registered = some c.kid
  spent : ∀ c ∈ db.credentials, ∀ id, c.usedBy = some id → c.status = .used
  logged : ∀ c ∈ db.credentials, ∀ id, c.usedBy = some id ↔ (c.kid, id) ∈ db.bindings
  stored : ∀ b ∈ db.bindings, ∃ c ∈ db.credentials, c.kid = b.1
  once : (db.bindings.map Prod.fst).Nodup
  confined : ∀ x ∈ db.accepted, db.Confined x

/-- The account that a registration has committed and still works on. -/
def Task.account? : Task → Option ℕ
  | .consuming _ accountId => some accountId
  | .removing accountId => some accountId
  | _ => none

def Task.Sound (db : Db) : Task → Prop
  | .creating _ kid => db.eabRequired = true → kid.isSome
  | .inserting _ kid => db.eabRequired = true → kid.isSome
  | .consuming kid accountId =>
    ∃ a ∈ db.accounts, a.accountId = accountId ∧ a.registered = some kid
  | .removing accountId => (∃ a ∈ db.accounts, a.accountId = accountId) ∧
    ∀ c ∈ db.credentials, c.usedBy ≠ some accountId
  | .accepting x => db.Confined x

def Task.Apart (t u : Task) : Prop :=
  ∀ accountId, t.account? = some accountId → u.account? ≠ some accountId

/-! ## Writes -/

section Writes

variable {db db' : Db} {c : Credential} {a : Account} {kid : String} {accountId : ℕ} {x : Accepted}

/-- The scope of a bound account is that of the credential it registered with. -/
theorem Db.Sound.bound_scope (h : db.Sound) (ha : db.account? accountId = some a)
    (hkid : a.registered = some kid)
    (hbound : (db.credential? kid).bind Credential.usedBy = some accountId) :
    ∃ c ∈ db.credentials, c.kid = kid ∧ db.getBoundEabCredential accountId = some c := by
  obtain ⟨c, hc, hused⟩ := Option.bind_eq_some_iff.mp hbound
  obtain ⟨hmem, hck⟩ := credential?_mem hc
  obtain ⟨hamem, haid⟩ := account?_mem ha
  have hrow : c ∈ db.credentials.filter fun c => c.usedBy = some accountId := by simp [hmem, hused]
  obtain ⟨d, hd⟩ := exists_firstBy Db.usedLater hrow
  have hdrow := mem_of_firstBy hd
  simp only [mem_filter, decide_eq_true_eq] at hdrow
  obtain ⟨b, hb, hbid, hbreg⟩ := h.holder d hdrow.1 accountId hdrow.2
  obtain rfl : b = a := eq_of_key h.tokens hb hamem (hbid.trans haid.symm)
  have hdk : d.kid = kid := Option.mem_unique hbreg hkid
  exact ⟨d, hdrow.1, hdk, hd⟩

theorem allowsIdentifier_congr {d : Credential} (h : d.allowed = c.allowed) (i : Identifier) :
    d.allowsIdentifier i = c.allowsIdentifier i := by
  simp [Credential.allowsIdentifier, Credential.allowedDomains, h]

theorem Db.Keeps.confined (h : db.Keeps db') (hx : db.Confined x) : db'.Confined x := by
  refine ⟨fun hreq => hx.registered (h.eabRequired ▸ hreq), fun kid hkid => ?_⟩
  obtain ⟨c, hc, hck, hallow⟩ := hx.within kid hkid
  obtain ⟨d, hd, hdk, hda⟩ := h.scope c hc
  refine ⟨d, hd, hdk.trans hck, fun i hi => ?_⟩
  rw [allowsIdentifier_congr hda]
  exact hallow i hi

theorem Db.Sound.revoke (h : db.Sound) : (db.revoke kid).Sound := by
  have hkeeps : db.Keeps (db.revoke kid) := .of_amend rfl rfl fun _ => ⟨rfl, rfl⟩
  refine ⟨nodup_amend (fun _ => rfl) h.kids, h.tokens, h.registered, ?_, ?_, ?_, ?_, h.once,
    fun x hx => hkeeps.confined (h.confined x hx)⟩
  · exact forall_mem_amend h.holder fun _ _ _ h => h
  · -- an active credential is not bound
    refine forall_mem_amend h.spent fun d _ hp hspent id hid => ?_
    simp [hspent id hid] at hp
  · exact forall_mem_amend h.logged fun _ _ _ h => h
  · exact fun b hb => hkeeps.stored (h.stored b hb)

theorem Db.Sound.issue (h : db.Sound) (hfresh : db.credential? kid = none)
    (hkid : c.kid = kid) (hused : c.usedBy = none) :
    { db with credentials := db.credentials ++ [c] }.Sound := by
  have hkeeps : db.Keeps { db with credentials := db.credentials ++ [c] } :=
    ⟨rfl, fun d hd => ⟨d, mem_append_left _ hd, rfl, rfl⟩⟩
  have hnew : ∀ d ∈ db.credentials, d.kid ≠ c.kid := by
    simpa [hkid] using find?_eq_none.mp hfresh
  have hunbound : ∀ id, (c.kid, id) ∉ db.bindings := by
    intro id hmem
    obtain ⟨d, hd, hdk⟩ := h.stored _ hmem
    exact hnew d hd hdk
  have hrow : ∀ d ∈ db.credentials ++ [c], ∀ id, d.usedBy = some id → d ∈ db.credentials :=
    forall_mem_concat.mpr ⟨fun d hd _ _ => hd, by simp [hused]⟩
  refine ⟨nodup_concat h.kids hnew, h.tokens, h.registered, ?_, ?_, ?_, ?_, h.once,
    fun x hx => hkeeps.confined (h.confined x hx)⟩
  · exact fun d hd id hid => h.holder d (hrow d hd id hid) id hid
  · exact fun d hd id hid => h.spent d (hrow d hd id hid) id hid
  · exact forall_mem_concat.mpr ⟨h.logged, by simp [hused, hunbound]⟩
  · exact fun b hb => hkeeps.stored (h.stored b hb)

theorem Db.Sound.accounts (h : db.Sound) {accounts : List Account}
    (htokens : (accounts.map Account.accountId).Nodup)
    (hreg : db.eabRequired = true → ∀ a ∈ accounts, a.registered.isSome)
    (hholder : ∀ c ∈ db.credentials, ∀ id, c.usedBy = some id →
      ∃ a ∈ accounts, a.accountId = id ∧ a.registered = some c.kid) :
    { db with accounts := accounts }.Sound := by
  have hkeeps : db.Keeps { db with accounts := accounts } := .of_eq rfl rfl
  exact ⟨h.kids, htokens, hreg, hholder, h.spent, h.logged, h.stored, h.once,
    fun x hx => hkeeps.confined (h.confined x hx)⟩

theorem Db.Sound.close (h : db.Sound) (status : AccountStatus) :
    (db.close accountId status).Sound := by
  refine h.accounts ?_ ?_ ?_
  · exact nodup_amend (fun _ => rfl) h.tokens
  · exact fun hreq => forall_mem_amend (h.registered hreq) fun _ _ _ h => h
  · intro c hc id hid
    obtain ⟨a, ha, haid, hareg⟩ := h.holder c hc id hid
    refine ⟨_, mem_map_of_mem ha, ?_⟩
    split <;> exact ⟨haid, hareg⟩

theorem Db.Sound.addAccount (h : db.Sound) {a : Account} (hfresh : db.account? a.accountId = none)
    (hreg : db.eabRequired = true → a.registered.isSome) : (db.addAccount a).Sound := by
  refine h.accounts (nodup_concat h.tokens (account?_none hfresh)) ?_ ?_
  · exact fun hreq => forall_mem_concat.mpr ⟨h.registered hreq, hreg hreq⟩
  · intro c hc id hid
    obtain ⟨b, hb, hrest⟩ := h.holder c hc id hid
    exact ⟨b, mem_append_left _ hb, hrest⟩

theorem Db.Sound.removeAccount (h : db.Sound)
    (hunbound : ∀ c ∈ db.credentials, c.usedBy ≠ some accountId) :
    (db.removeAccount accountId).Sound := by
  refine h.accounts (h.tokens.sublist (filter_sublist.map _)) ?_ ?_
  · intro hreq a ha
    exact h.registered hreq a (mem_of_mem_filter ha)
  · intro c hc id hid
    obtain ⟨a, ha, haid, hareg⟩ := h.holder c hc id hid
    have hne : a.accountId ≠ accountId := by
      rw [haid]
      rintro rfl
      exact hunbound c hc hid
    exact ⟨a, mem_filter.mpr ⟨ha, by simpa using hne⟩, haid, hareg⟩

theorem Db.Sound.consume (h : db.Sound) (hc : db.credential? kid = some c)
    (hcons : c.consumable db.now = true)
    (ha : ∃ a ∈ db.accounts, a.accountId = accountId ∧ a.registered = some kid) :
    (db.consume kid accountId).Sound := by
  obtain ⟨hmem, rfl⟩ := credential?_mem hc
  have hkeeps : db.Keeps (db.consume c.kid accountId) := .of_amend rfl rfl fun _ => ⟨rfl, rfl⟩
  have hunused : c.usedBy = none := by
    simp only [Credential.consumable, Bool.and_eq_true, Option.isNone_iff_eq_none] at hcons
    exact hcons.1.2
  have hunbound : ∀ id, (c.kid, id) ∉ db.bindings := by
    intro id hid
    have hbound := (h.logged c hmem id).mpr hid
    rw [hunused] at hbound
    cases hbound
  -- a row of the table is an old row of another credential, or the consumed one
  have hrow : ∀ d ∈ (db.consume c.kid accountId).credentials,
      d ∈ db.credentials ∧ d.kid ≠ c.kid ∨
        d.kid = c.kid ∧ d.usedBy = some accountId ∧ d.status = .used := by
    intro d hd
    rcases mem_amend.mp hd with ⟨hd, hp⟩ | ⟨e, he, hp, rfl⟩
    · refine .inl ⟨hd, fun hk => ?_⟩
      have hdc : d = c := eq_of_key h.kids hd hmem hk
      simp [hdc, hcons] at hp
    · simp only [Bool.and_eq_true, decide_eq_true_eq] at hp
      exact .inr ⟨hp.1, rfl, rfl⟩
  refine ⟨nodup_amend (fun _ => rfl) h.kids, h.tokens, h.registered, ?_, ?_, ?_, ?_, ?_,
    fun x hx => hkeeps.confined (h.confined x hx)⟩
  · intro d hd id hid
    rcases hrow d hd with ⟨hd, -⟩ | ⟨hk, hu, -⟩
    · exact h.holder d hd id hid
    · rw [hu] at hid
      cases hid
      rw [hk]
      exact ha
  · intro d hd id hid
    rcases hrow d hd with ⟨hd, -⟩ | ⟨-, -, hstatus⟩
    · exact h.spent d hd id hid
    · exact hstatus
  · intro d hd id
    simp only [Db.consume]
    rcases hrow d hd with ⟨hd, hk⟩ | ⟨hk, hu, -⟩
    · simp [h.logged d hd id, hk]
    · simp [hk, hu, hunbound, eq_comm]
  · exact forall_mem_concat.mpr
      ⟨fun b hb => hkeeps.stored (h.stored b hb), hkeeps.stored ⟨c, hmem, rfl⟩⟩
  · refine nodup_concat h.once fun b hb => ?_
    rintro (hk : b.1 = c.kid)
    exact hunbound b.2 (hk ▸ hb)

theorem Db.Sound.accept (h : db.Sound) (hx : db.Confined x) : (db.accept x).Sound := by
  have hkeeps : db.Keeps (db.accept x) := .of_eq rfl rfl
  exact { h with
    confined := forall_mem_concat.mpr
      ⟨fun y hy => hkeeps.confined (h.confined y hy), hkeeps.confined hx⟩ }

end Writes

/-! ## Steps -/

/-- What a step of a task can do; a failed or superfluous step only ends the task. -/
inductive Advances (db : Db) : Task → Db → Option Task → Prop
  | ended {t} : Advances db t db none
  | looked {thumbprint kid} :
      Advances db (.creating thumbprint kid) db (some (.inserting thumbprint kid))
  | inserted {thumbprint kid token} (hfresh : db.account? token = none) :
      Advances db (.inserting thumbprint kid) (db.addAccount ⟨token, thumbprint, .valid, kid⟩)
        (kid.map (.consuming · token))
  | consumed {kid accountId c} (hc : db.credential? kid = some c)
      (hcons : c.consumable db.now = true) :
      Advances db (.consuming kid accountId) (db.consume kid accountId) none
  | lost {kid accountId} (hlost : ∀ c, db.credential? kid = some c →
        ¬(c.status = .used ∧ c.usedBy = some accountId)) :
      Advances db (.consuming kid accountId) db (some (.removing accountId))
  | removed {accountId} : Advances db (.removing accountId) (db.removeAccount accountId) none
  | accepted {x} : Advances db (.accepting x) (db.accept x) none

variable {db : Db} {t : Task}

omit [LowerCase] in
theorem advance_advances {db' : Db} {input : Input} {t' : Option Task}
    (h : advance db t input = some (db', t')) : Advances db t db' t' := by
  unfold advance at h
  split at h
  · split at h <;> cases h
    · exact .ended
    · exact .looked
  · split at h
    · next hok => cases h; exact .inserted hok.2.1
    · cases h; exact .ended
  · split at h
    · next hnone => cases h; exact .lost (by simp [hnone])
    · next c hc =>
      split at h
      · next hcons =>
        split at h <;> cases h
        · exact .consumed hc hcons
        · refine .lost fun d hd hbound => ?_
          rw [hc] at hd
          cases hd
          simp [Credential.consumable, hbound.1] at hcons
      · split at h
        · cases h; exact .ended
        · next hlost =>
          cases h
          exact .lost fun d hd => Option.mem_unique hc hd ▸ hlost
  · split at h <;> cases h
    · exact .removed
    · exact .ended
  · split at h <;> cases h
    · exact .accepted
    · exact .ended
  · cases h

theorem Db.Sound.event (h : db.Sound) (e : Event) : (event db e).Sound := by
  cases e with
  | tick seconds =>
    have hkeeps : db.Keeps { db with now := db.now + seconds } := .of_eq rfl rfl
    exact { h with confined := fun x hx => hkeeps.confined (h.confined x hx) }
  | issue kid hmacKey allowed expiresAt =>
    simp only [Eab.event]
    split
    · exact h
    · next hfresh => exact h.issue (by simpa using hfresh) rfl rfl
  | revoke kid => exact h.revoke
  | close accountId status => exact h.close status

theorem Task.Sound.mono {db' : Db} (ht : t.Sound db) (hkeeps : db.Keeps db')
    (haccounts : ∀ id, t.account? = some id → ∀ a ∈ db.accounts, a.accountId = id →
      ∃ b ∈ db'.accounts, b.accountId = id ∧ b.registered = a.registered)
    (hunbound : ∀ id, t = .removing id → (∀ c ∈ db.credentials, c.usedBy ≠ some id) →
      ∀ c ∈ db'.credentials, c.usedBy ≠ some id) : t.Sound db' := by
  cases t with
  | creating | inserting => exact fun hreq => ht (hkeeps.eabRequired ▸ hreq)
  | consuming kid accountId =>
    obtain ⟨a, ha, haid, hareg⟩ := ht
    obtain ⟨b, hb, hbid, hbreg⟩ := haccounts accountId rfl a ha haid
    exact ⟨b, hb, hbid, hbreg.trans hareg⟩
  | removing accountId =>
    obtain ⟨⟨a, ha, haid⟩, hno⟩ := ht
    obtain ⟨b, hb, hbid, -⟩ := haccounts accountId rfl a ha haid
    exact ⟨⟨b, hb, hbid⟩, hunbound accountId rfl hno⟩
  | accepting x => exact hkeeps.confined ht

theorem check_confined {accountId : ℕ} {identifiers : List Identifier}
    (h : db.Sound) (hbound : db.BoundAccount accountId)
    (ht : check db accountId identifiers = some t) : ∃ x, t = .accepting x ∧ db.Confined x := by
  simp only [check, Option.bind_eq_bind, Option.bind_eq_some_iff] at ht
  obtain ⟨a, ha, ht⟩ := ht
  split at ht
  · next hcheck =>
    cases ht
    obtain ⟨hmem, -⟩ := account?_mem ha
    refine ⟨_, rfl, fun hreq => h.registered hreq a hmem, fun kid hkid => ?_⟩
    obtain ⟨c, hc, hck, hscope⟩ := h.bound_scope ha hkid (hbound a ha kid hkid)
    refine ⟨c, hc, hck, ?_⟩
    simpa [Db.refused, hscope] using hcheck.2.2
  · cases ht

theorem start_sound {r : Request} (h : db.Sound)
    (hbound : ∀ accountId ∈ r.account?, db.BoundAccount accountId) (ht : start db r = some t) :
    t.Sound db ∧ t.account? = none := by
  cases r with
  | newAccount thumbprint onlyReturnExisting binding =>
    simp only [start] at ht
    split at ht
    · cases ht
    · cases binding with
      | none =>
        simp only at ht
        split at ht
        · cases ht
        · next hreq =>
          cases ht
          exact ⟨fun htrue => absurd htrue hreq, rfl⟩
      | some b =>
        simp only at ht
        split at ht <;> cases ht
        exact ⟨fun _ => rfl, rfl⟩
  | newOrder accountId _ | newAuthz accountId _ =>
    obtain ⟨x, rfl, hx⟩ := check_confined h (hbound accountId rfl) ht
    exact ⟨hx, rfl⟩

/-- A registration that lost its credential has an account that no credential is bound to. -/
theorem Db.Sound.lost {kid : String} {accountId : ℕ} (h : db.Sound)
    (ht : (Task.consuming kid accountId).Sound db)
    (hlost : ∀ c, db.credential? kid = some c → ¬(c.status = .used ∧ c.usedBy = some accountId)) :
    (Task.removing accountId).Sound db := by
  obtain ⟨a, ha, haid, hareg⟩ := ht
  refine ⟨⟨a, ha, haid⟩, fun c hc hused => ?_⟩
  obtain ⟨b, hb, hbid, hbreg⟩ := h.holder c hc accountId hused
  have hab : b = a := eq_of_key h.tokens hb ha (hbid.trans haid.symm)
  rw [hab, hareg] at hbreg
  have hfind : db.credential? kid = some c :=
    Option.some.inj hbreg ▸ find?_of_mem h.kids hc
  exact hlost c hfind ⟨h.spent c hc accountId hused, hused⟩

section Advance

variable {db db' : Db} {t u : Task} {t' : Option Task}

theorem advance_db_sound (h : db.Sound) (ht : t.Sound db) (hadv : Advances db t db' t') :
    db'.Sound := by
  cases hadv with
  | ended | looked | lost => exact h
  | inserted hfresh => exact h.addAccount hfresh ht
  | consumed hc hcons => exact h.consume hc hcons ht
  | removed => exact h.removeAccount ht.2
  | accepted => exact h.accept ht

theorem advance_task_sound (h : db.Sound) (ht : t.Sound db) (hadv : Advances db t db' t') {v : Task}
    (hv : t' = some v) : v.Sound db' ∧ ∀ {u : Task}, u.Sound db → t.Apart u → v.Apart u := by
  cases hadv with
  | looked =>
    cases hv
    exact ⟨ht, fun _ _ id hid => by cases hid⟩
  | @inserted thumbprint kid token hfresh =>
    obtain ⟨k, rfl, rfl⟩ := Option.map_eq_some_iff.mp hv
    refine ⟨⟨_, mem_concat_self, rfl, rfl⟩, ?_⟩
    rintro u hu - id ⟨⟩ hid
    -- the token is new, so no other registration works on it
    cases u with
    | consuming kid' accountId =>
      cases hid
      obtain ⟨a, ha, haid, -⟩ := hu
      exact account?_none hfresh a ha haid
    | removing accountId =>
      cases hid
      obtain ⟨⟨a, ha, haid⟩, -⟩ := hu
      exact account?_none hfresh a ha haid
    | _ => cases hid
  | lost hlost =>
    cases hv
    exact ⟨h.lost ht hlost, fun _ hapart => hapart⟩
  | _ => cases hv

theorem advance_other_sound (hadv : Advances db t db' t') (hu : u.Sound db) (hapart : t.Apart u) :
    u.Sound db' := by
  cases hadv with
  | ended | looked | lost => exact hu
  | inserted hfresh =>
    exact hu.mono (.of_eq rfl rfl)
      (fun id _ a ha haid => ⟨a, mem_append_left _ ha, haid, rfl⟩) fun _ _ hno => hno
  | @consumed kid accountId c hc hcons =>
    refine hu.mono (.of_amend rfl rfl fun _ => ⟨rfl, rfl⟩)
      (fun id _ a ha haid => ⟨a, ha, haid, rfl⟩) fun id hid hno d hd => ?_
    subst hid
    rcases mem_amend.mp hd with ⟨hd, -⟩ | ⟨e, he, -, rfl⟩
    · exact hno d hd
    · intro hused
      exact hapart accountId rfl hused.symm
  | @removed accountId =>
    refine hu.mono (.of_eq rfl rfl) (fun id hid a ha haid => ?_) fun _ _ hno => hno
    refine ⟨a, mem_filter.mpr ⟨ha, ?_⟩, haid, rfl⟩
    have hne : id ≠ accountId := by
      rintro rfl
      exact hapart id rfl hid
    simpa [haid] using hne
  | accepted =>
    exact hu.mono (.of_eq rfl rfl) (fun id _ a ha haid => ⟨a, ha, haid, rfl⟩) fun _ _ hno => hno

end Advance

/-! ## Runs -/

theorem system_inductive : System.Inductive system Bound Db.Sound Task.Sound Task.Apart where
  symm := fun h id hu ht => h id ht hu
  event := by
    intro w e _ h
    refine ⟨h.event e, fun {t} ht => ht.mono (.event w.shared e) ?_ ?_⟩
    · intro id _ a ha haid
      cases e with
      | close accountId status =>
        refine ⟨_, mem_map_of_mem ha, ?_⟩
        split <;> exact ⟨haid, rfl⟩
      | issue kid hmacKey allowed expiresAt =>
        refine ⟨a, ?_, haid, rfl⟩
        simp only [system, event]
        split <;> exact ha
      | _ => exact ⟨a, ha, haid, rfl⟩
    · intro id _ hno c hc
      cases e with
      | issue kid hmacKey allowed expiresAt =>
        simp only [system, event] at hc
        split at hc
        · exact hno c hc
        · rcases mem_concat.mp hc with hc | rfl
          · exact hno c hc
          · simp
      | revoke kid =>
        rcases mem_amend.mp hc with ⟨hc, -⟩ | ⟨d, hd, -, rfl⟩
        · exact hno c hc
        · exact hno d hd
      | _ => exact hno c hc
  start := by
    intro w i r t hl h ht
    obtain ⟨hsound, hnone⟩ := start_sound h hl ht
    exact ⟨hsound, fun _ id hid => by rw [hnone] at hid; cases hid⟩
  advance := by
    intro w i input t s t' _ h _ ht hadv
    have hadv := advance_advances hadv
    exact ⟨advance_db_sound h ht hadv, advance_task_sound h ht hadv,
      fun hu hapart => advance_other_sound hadv hu hapart⟩

theorem sound_empty (now : ℕ) (baseUrl : String) (eabRequired : Bool) :
    (empty now baseUrl eabRequired).Sound :=
  ⟨.nil, .nil, by simp [empty], by simp [empty], by simp [empty], by simp [empty],
    by simp [empty], .nil, by simp [empty]⟩

/-- With binding required, in every run that requests orders and pre-authorizations for bound
accounts only: a credential is bound to one account for good, and what was accepted for an
account is allowed by the credential it registered with. -/
theorem eab_confined (now : ℕ) (baseUrl : String) (w : World Db Task)
    (hw : Reach system.step Bound (World.initial (empty now baseUrl true)) w) :
    (w.shared.bindings.map Prod.fst).Nodup ∧
    (∀ c ∈ w.shared.credentials, ∀ id, c.usedBy = some id ↔ (c.kid, id) ∈ w.shared.bindings) ∧
    ∀ x ∈ w.shared.accepted, ∃ kid, x.registered = some kid ∧
      ∃ c ∈ w.shared.credentials, c.kid = kid ∧
        ∀ i ∈ x.identifiers, c.allowsIdentifier i = true := by
  have hsound := (system_inductive.reach (sound_empty now baseUrl true) hw).shared
  have hrequired : w.shared.eabRequired = true := by
    refine hw.invariant (P := fun w => w.shared.eabRequired = true) rfl fun w l _ ih _ => ?_
    generalize hw' : system.step w l = w'
    have hstep := hw' ▸ system.step_steps w l
    cases hstep with
    | event => exact (Db.Keeps.event w.shared _).eabRequired.trans ih
    | advance ht hadv => cases advance_advances hadv <;> exact ih
    | _ => exact ih
  refine ⟨hsound.once, hsound.logged, fun x hx => ?_⟩
  have hconfined := hsound.confined x hx
  obtain ⟨kid, hkid⟩ := Option.isSome_iff_exists.mp (hconfined.registered hrequired)
  exact ⟨kid, hkid, hconfined.within kid hkid⟩

end Confinement

attribute [local instance] asciiCase

/-- Credential `k` for `a.example`, and the registration of account 1 with it up to the commit of
the account. -/
def registration : List (Label Request Input Event) :=
  [.event (.issue "k" 5 (some ["a.example"]) none),
    .request 0 (.newAccount 3 false (some ⟨true, "/acme/new-account", "HS256", "k", .key 3, 5⟩)),
    .advance 0 .proceed, .advance 0 (.commit true 1)]

/-- Once the credential is bound, an order within its scope is accepted. -/
theorem eab_confined_registration :
    let w := exec system.step (World.initial (empty 0 "" true)) (registration ++
      [.advance 0 (.commit true 0), .request 1 (.newOrder 1 [⟨.dns, "a.example", ""⟩]),
        .advance 1 (.commit true 0)])
    w.shared.accepted.length = 1 ∧ ∀ x ∈ w.shared.accepted, ∃ kid, x.registered = some kid ∧
      ∃ c ∈ w.shared.credentials, c.kid = kid ∧
        ∀ i ∈ x.identifiers, c.allowsIdentifier i = true :=
  ⟨by decide, (eab_confined 0 "" _ (Reach.start.exec (by decide))).2.2⟩

/-- An order for another domain is accepted in between, and the credential bound afterwards does
not allow it. -/
theorem order_accepted_before_binding :
    let w := exec system.step (World.initial (empty 0 "" true)) (registration ++
      [.request 1 (.newOrder 1 [⟨.dns, "b.example", ""⟩]), .advance 1 (.commit true 0),
        .advance 0 (.commit true 0)])
    w.shared.bindings = [("k", 1)] ∧ ¬∀ x ∈ w.shared.accepted, ∃ kid, x.registered = some kid ∧
      ∃ c ∈ w.shared.credentials, c.kid = kid ∧
        ∀ i ∈ x.identifiers, c.allowsIdentifier i = true := by
  refine ⟨by decide, fun h => ?_⟩
  obtain ⟨kid, hkid, c, hc, -, hall⟩ := h ⟨1, some "k", [⟨.dns, "b.example", ""⟩]⟩ (by decide)
  revert c
  decide

end UltimateCaManager.Eab
