import UltimateCaManager.AcmeData

/-!
# What a statement can do to the ACME tables

Rows of orders and authorizations are never deleted, and only their status, their links and
their history change. The inversion lemmas say where a row of the updated table comes from; the
order `Db.Le` says that every row is still there with its fixed columns, which is what a session
may rely on while other sessions commit.
-/
namespace UltimateCaManager.Acme

open List Tables Transactions

/-- The columns of an order that no statement writes. -/
def Order.fixed (o : Order) : ℕ × ℕ × List Identifier × ℕ :=
  (o.orderId, o.accountId, o.identifiers, o.expires)

/-- The columns of an authorization that no statement writes. -/
def Authorization.fixed (a : Authorization) : ℕ × Option ℕ × ℕ × Identifier × Bool × ℕ :=
  (a.authorizationId, a.orderId, a.accountId, a.identifier, a.wildcard, a.expires)

variable {db db' : Db} {w : Write}

/-! ## Where rows come from -/

theorem mem_orders_apply {o : Order} (h : o ∈ (db.apply w).orders) :
    w = .addOrder o ∨ ∃ o₀ ∈ db.orders, o₀.fixed = o.fixed ∧
      (o.status = o₀.status ∨ w = .setOrderStatus o.orderId o.status) := by
  cases w with
  | addOrder r =>
    rcases mem_concat.mp h with h | rfl
    · exact .inr ⟨o, h, rfl, .inl rfl⟩
    · exact .inl rfl
  | setOrderStatus id status =>
    rcases mem_amend.mp h with ⟨h, -⟩ | ⟨q, hq, hid, rfl⟩
    · exact .inr ⟨o, h, rfl, .inl rfl⟩
    · refine .inr ⟨q, hq, rfl, .inr ?_⟩
      simpa using (of_decide_eq_true hid).symm
  | setOrderError | linkCertificate =>
    rcases mem_amend.mp h with ⟨h, -⟩ | ⟨q, hq, -, rfl⟩
    · exact .inr ⟨o, h, rfl, .inl rfl⟩
    · exact .inr ⟨q, hq, rfl, .inl rfl⟩
  | _ => exact .inr ⟨o, h, rfl, .inl rfl⟩

theorem mem_authorizations_apply {a : Authorization} (h : a ∈ (db.apply w).authorizations) :
    w = .addAuthorization a ∨ ∃ a₀ ∈ db.authorizations, a₀.fixed = a.fixed ∧
      ((a.status = a₀.status ∧ a.provenance = a₀.provenance) ∨
        ∃ p, w = .setAuthorization a.authorizationId a.status p ∧
          a.provenance = (p <|> a₀.provenance)) := by
  cases w with
  | addAuthorization r =>
    rcases mem_concat.mp h with h | rfl
    · exact .inr ⟨a, h, rfl, .inl ⟨rfl, rfl⟩⟩
    · exact .inl rfl
  | setAuthorization id status p =>
    rcases mem_amend.mp h with ⟨h, -⟩ | ⟨q, hq, hid, rfl⟩
    · exact .inr ⟨a, h, rfl, .inl ⟨rfl, rfl⟩⟩
    · refine .inr ⟨q, hq, rfl, .inr ⟨p, ?_, rfl⟩⟩
      simpa using (of_decide_eq_true hid).symm
  | _ => exact .inr ⟨a, h, rfl, .inl ⟨rfl, rfl⟩⟩

theorem mem_challenges_apply {c : Challenge} (h : c ∈ (db.apply w).challenges) :
    w = .addChallenge c ∨ ∃ c₀ ∈ db.challenges,
      c₀.challengeId = c.challengeId ∧ c₀.authorizationId = c.authorizationId ∧
        c₀.type = c.type := by
  cases w with
  | addChallenge r =>
    rcases mem_concat.mp h with h | rfl
    · exact .inr ⟨c, h, rfl, rfl, rfl⟩
    · exact .inl rfl
  | setChallenge id status validated error =>
    rcases mem_amend.mp h with ⟨h, -⟩ | ⟨q, hq, -, rfl⟩
    · exact .inr ⟨c, h, rfl, rfl, rfl⟩
    · exact .inr ⟨q, hq, rfl, rfl, rfl⟩
  | deleteChallenge id => exact .inr ⟨c, (mem_filter.mp h).1, rfl, rfl, rfl⟩
  | _ => exact .inr ⟨c, h, rfl, rfl, rfl⟩

theorem mem_certificates_apply {c : Certificate} (h : c ∈ (db.apply w).certificates) :
    w = .addCertificate c ∨ c ∈ db.certificates := by
  cases w with
  | addCertificate r =>
    rcases mem_concat.mp h with h | rfl
    · exact .inr h
    · exact .inl rfl
  | _ => exact .inr h

/-! ## Unique identifiers -/

/-- The unique indexes on orders and authorizations. -/
structure Db.Unique (db : Db) : Prop where
  orderIds : (db.orders.map Order.orderId).Nodup
  authorizationIds : (db.authorizations.map Authorization.authorizationId).Nodup

theorem Db.Unique.empty : Db.Unique .empty := ⟨nodup_nil, nodup_nil⟩

theorem Db.Unique.apply (h : db.Unique) (hacc : db.accepts w = true) : (db.apply w).Unique := by
  cases w with
  | addOrder o =>
    refine ⟨nodup_concat h.orderIds fun q hq => ?_, h.authorizationIds⟩
    exact of_decide_eq_true (all_eq_true.mp hacc q hq)
  | addAuthorization a =>
    refine ⟨h.orderIds, nodup_concat h.authorizationIds fun q hq => ?_⟩
    exact of_decide_eq_true (all_eq_true.mp hacc q hq)
  | setOrderStatus | setOrderError | linkCertificate =>
    exact ⟨by simpa [Db.apply, map_amend] using h.orderIds, h.2⟩
  | setAuthorization id status p =>
    exact ⟨h.1, by simpa [Db.apply, map_amend] using h.authorizationIds⟩
  | _ => exact ⟨h.1, h.2⟩

theorem Db.Unique.order_eq (h : db.Unique) {o o' : Order} (ho : o ∈ db.orders)
    (ho' : o' ∈ db.orders) (hid : o.orderId = o'.orderId) : o = o' :=
  eq_of_key h.orderIds ho ho' hid

theorem Db.Unique.authorization_eq (h : db.Unique) {a a' : Authorization}
    (ha : a ∈ db.authorizations) (ha' : a' ∈ db.authorizations)
    (hid : a.authorizationId = a'.authorizationId) : a = a' :=
  eq_of_key h.authorizationIds ha ha' hid

/-! ## Rows persist -/

/-- Every order and authorization is still there with its fixed columns, and a history once
recorded is not lost. -/
structure Db.Le (db db' : Db) : Prop where
  orders : ∀ o ∈ db.orders, ∃ o' ∈ db'.orders, o'.fixed = o.fixed
  authorizations : ∀ a ∈ db.authorizations, ∃ a' ∈ db'.authorizations, a'.fixed = a.fixed ∧
    (a.provenance.isSome → a'.provenance.isSome)

theorem Db.Le.refl (db : Db) : db.Le db :=
  ⟨fun o ho => ⟨o, ho, rfl⟩, fun a ha => ⟨a, ha, rfl, id⟩⟩

theorem Db.Le.trans {db₁ db₂ db₃ : Db} (h : db₁.Le db₂) (h' : db₂.Le db₃) : db₁.Le db₃ where
  orders o ho := by
    obtain ⟨o₂, ho₂, h₂⟩ := h.orders o ho
    obtain ⟨o₃, ho₃, h₃⟩ := h'.orders o₂ ho₂
    exact ⟨o₃, ho₃, h₃.trans h₂⟩
  authorizations a ha := by
    obtain ⟨a₂, ha₂, h₂, hp₂⟩ := h.authorizations a ha
    obtain ⟨a₃, ha₃, h₃, hp₃⟩ := h'.authorizations a₂ ha₂
    exact ⟨a₃, ha₃, h₃.trans h₂, hp₃ ∘ hp₂⟩

def Order.after (w : Write) (o : Order) : Order :=
  match w with
  | .setOrderStatus id status => if o.orderId = id then { o with status := status } else o
  | .setOrderError id error => if o.orderId = id then { o with error := some error } else o
  | .linkCertificate id c => if o.orderId = id then { o with certificateId := some c } else o
  | _ => o

def Authorization.after (w : Write) (a : Authorization) : Authorization :=
  match w with
  | .setAuthorization id status p =>
    if a.authorizationId = id then { a with status := status, provenance := p <|> a.provenance }
    else a
  | _ => a

theorem Order.after_fixed (w : Write) (o : Order) : (o.after w).fixed = o.fixed := by
  unfold Order.after
  split <;> first | rfl | (split <;> rfl)

theorem Authorization.after_fixed (w : Write) (a : Authorization) :
    (a.after w).fixed = a.fixed := by
  unfold Authorization.after
  split
  · split <;> rfl
  · rfl

theorem orders_apply (db : Db) (w : Write) :
    (db.apply w).orders = db.orders.map (Order.after w) ++
      (match w with | .addOrder o => [o] | _ => []) := by
  cases w with
  | addOrder o => exact congrArg (· ++ [o]) (map_id db.orders).symm
  | setOrderStatus | setOrderError | linkCertificate => simp [Db.apply, Order.after, amend]
  | _ =>
    rw [append_nil]
    exact (map_id db.orders).symm

theorem authorizations_apply (db : Db) (w : Write) :
    (db.apply w).authorizations = db.authorizations.map (Authorization.after w) ++
      (match w with | .addAuthorization a => [a] | _ => []) := by
  cases w with
  | addAuthorization a => exact congrArg (· ++ [a]) (map_id db.authorizations).symm
  | setAuthorization id status p => simp [Db.apply, Authorization.after, amend]
  | _ =>
    rw [append_nil]
    exact (map_id db.authorizations).symm

theorem fixed_id {a b : Authorization} (h : a.fixed = b.fixed) :
    a.authorizationId = b.authorizationId :=
  congrArg Prod.fst h

theorem Authorization.after_provenance (w : Write) {a a' : Authorization} (hf : a'.fixed = a.fixed)
    (hp : a.provenance.isSome → a'.provenance.isSome) :
    (a.after w).provenance.isSome → (a'.after w).provenance.isSome := by
  unfold Authorization.after
  split
  · next id status p =>
    rw [fixed_id hf]
    split
    · cases p with
      | none => simpa using hp
      | some p => simp
    · exact hp
  · exact hp

theorem Db.le_apply (db : Db) (w : Write) : db.Le (db.apply w) where
  orders o ho := ⟨o.after w, by
    rw [orders_apply]
    exact mem_append_left _ (mem_map_of_mem ho), Order.after_fixed w o⟩
  authorizations a ha := ⟨a.after w, by
    rw [authorizations_apply]
    exact mem_append_left _ (mem_map_of_mem ha), Authorization.after_fixed w a, by
      unfold Authorization.after
      split
      · split
        · simp only [Option.isSome_iff_exists]
          rintro ⟨p, hp⟩
          simp only [hp]
          exact Option.isSome_iff_exists.mp (by cases ‹Option Provenance› <;> rfl)
        · exact id
      · exact id⟩

/-- Statements respect the order: a session decides the same on a later database. -/
theorem Db.Le.apply (h : db.Le db') (w : Write) : (db.apply w).Le (db'.apply w) where
  orders o ho := by
    rw [orders_apply] at ho ⊢
    rcases mem_append.mp ho with ho | ho
    · obtain ⟨q, hq, rfl⟩ := mem_map.mp ho
      obtain ⟨q', hq', hf⟩ := h.orders q hq
      refine ⟨q'.after w, mem_append_left _ (mem_map_of_mem hq'), ?_⟩
      rw [Order.after_fixed, Order.after_fixed, hf]
    · exact ⟨o, mem_append_right _ ho, rfl⟩
  authorizations a ha := by
    rw [authorizations_apply] at ha ⊢
    rcases mem_append.mp ha with ha | ha
    · obtain ⟨q, hq, rfl⟩ := mem_map.mp ha
      obtain ⟨q', hq', hf, hp⟩ := h.authorizations q hq
      refine ⟨q'.after w, mem_append_left _ (mem_map_of_mem hq'), ?_,
        Authorization.after_provenance w hf hp⟩
      rw [Authorization.after_fixed, Authorization.after_fixed, hf]
    · exact ⟨a, mem_append_right _ ha, rfl, id⟩

theorem Db.le_applyAll (db : Db) (ws : List Write) : db.Le (store.applyAll db ws) :=
  List.foldlRecOn ws _ (Db.Le.refl db) fun db' h w _ => h.trans (Db.le_apply db' w)

theorem Db.Le.applyAll (h : db.Le db') (ws : List Write) :
    (store.applyAll db ws).Le (store.applyAll db' ws) :=
  Store.applyAll_mono (fun _ _ w h => Db.Le.apply h w) h

end UltimateCaManager.Acme
