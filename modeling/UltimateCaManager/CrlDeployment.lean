import UltimateCaManager.DeployQueue

/-!
# The newest CRL reaches the target

Once the event of a CRL has been handled, a binding of its CA has a pending delivery until a push
that read this CRL, or a newer one, has been recorded. This needs that no push that read before is
still in flight when the event is handled: such a push records the merged delivery as delivered.
-/
namespace UltimateCaManager.Deploy

open List Concurrency Runs Tables

/-! ## Rows of one binding -/

/-- A pending delivery, or a last one that was not delivered. -/
def Undone (rows : List Delivery) : Prop :=
  (∃ d ∈ rows, d.status = .pending) ∨ ∀ last ∈ rows.getLast?, last.status ≠ .delivered

variable {rows : List Delivery} {d : Delivery} {id : ℕ} {f : Delivery → Delivery}

theorem undone_concat (h : d.status ≠ .delivered) : Undone (rows ++ [d]) := by
  refine .inr fun last hlast => ?_
  rw [getLast?_concat] at hlast
  cases hlast
  exact h

theorem getLast?_amend (p : Delivery → Bool) (f : Delivery → Delivery) (rows : List Delivery) :
    (amend p f rows).getLast? = rows.getLast?.map fun r => if p r then f r else r :=
  getLast?_map

theorem Undone.amend_same {p : Delivery → Bool} (h : Undone rows)
    (hf : ∀ r, (f r).status = r.status) : Undone (amend p f rows) := by
  have hstatus : ∀ r, (if p r then f r else r).status = r.status := by
    intro r
    split
    · exact hf r
    · rfl
  rcases h with ⟨r, hr, hpending⟩ | hlast
  · exact .inl ⟨_, exists_mem_amend hr, (hstatus r).trans hpending⟩
  · refine .inr fun last hmem => ?_
    rw [getLast?_amend] at hmem
    obtain ⟨r, hr, rfl⟩ := Option.map_eq_some_iff.mp hmem
    rw [hstatus]
    exact hlast r hr

theorem undone_amend_pending {p : Delivery → Bool} (h : Undone rows)
    (hf : ∀ r, (f r).status = .pending) : Undone (amend p f rows) := by
  by_cases hany : ∃ r ∈ rows, p r = true
  · obtain ⟨r, hr, hp⟩ := hany
    exact .inl ⟨f r, mem_amend.mpr (.inr ⟨r, hr, hp, rfl⟩), hf r⟩
  · have hsame : amend p f rows = rows := by
      refine (map_congr_left fun r hr => ?_).trans (map_id rows)
      exact if_neg fun hp => hany ⟨r, hr, hp⟩
    rwa [hsame]

theorem undone_amend_last {last : Delivery} (hlast : rows.getLast? = some last)
    (hid : last.id = id) (hf : ∀ r, (f r).status ≠ .delivered) :
    Undone (amend (·.id = id) f rows) := by
  refine .inr fun r hr => ?_
  rw [getLast?_amend, hlast, Option.map_some, Option.mem_some_iff] at hr
  rw [← hr, if_pos (by simpa using hid)]
  exact hf last

/-! ## What the commits do to the tables -/

variable {s s' : Server}

def Server.deliveriesOf (s : Server) (bindingId : ℕ) : List Delivery :=
  s.deliveries.filter fun d => d.bindingId = bindingId

theorem deliveriesOf_insert (s : Server) (d : Delivery) (bindingId : ℕ) :
    (s.insertDelivery d).deliveriesOf bindingId = s.deliveriesOf bindingId ++
      if d.bindingId = bindingId then [{ d with id := s.deliveries.length }] else [] := by
  unfold Server.deliveriesOf Server.insertDelivery
  by_cases h : d.bindingId = bindingId <;> simp [h]

theorem deliveriesOf_amend (hf : ∀ r, (f r).bindingId = r.bindingId) (bindingId : ℕ) :
    (s.amendDelivery id f).deliveriesOf bindingId =
      amend (·.id = id) f (s.deliveriesOf bindingId) := by
  unfold Server.deliveriesOf Server.amendDelivery amend
  rw [filter_map]
  congr 2
  funext r
  simp only [Function.comp_apply]
  split
  · rw [hf]
  · rfl

variable {bindingId caId queuedAt i : ℕ} {s₁ s₂ s₃ : Server} {b : CrlBinding} {file : File}
  {x : Execution} {t : Task} {plan : List (ℕ × Option ℕ)} {w : World Server Task} {t' : Option Task}

theorem deliveriesOf_amend_other (hf : ∀ r, (f r).bindingId = r.bindingId)
    (hother : ∀ r ∈ s.deliveries, r.id = id → r.bindingId ≠ bindingId) :
    (s.amendDelivery id f).deliveriesOf bindingId = s.deliveriesOf bindingId := by
  rw [deliveriesOf_amend hf]
  refine (map_congr_left fun r hr => ?_).trans (map_id _)
  obtain ⟨hmem, hid⟩ := mem_filter.mp hr
  refine if_neg fun h => hother r hmem (by simpa using h) (by simpa using hid)

/-- Rows stay, with the columns that no commit writes. -/
structure Server.Keeps (s s' : Server) : Prop where
  targets : s'.targets = s.targets
  crls : ∀ c ∈ s.crls, c ∈ s'.crls
  bindings : ∀ b ∈ s.bindings, ∃ b' ∈ s'.bindings,
    b'.id = b.id ∧ b'.caId = b.caId ∧ b'.targetId = b.targetId
  deliveries : ∀ d ∈ s.deliveries, ∃ d' ∈ s'.deliveries,
    d'.id = d.id ∧ d'.bindingId = d.bindingId

theorem Server.Keeps.refl (s : Server) : s.Keeps s :=
  ⟨rfl, fun _ h => h, fun b hb => ⟨b, hb, rfl, rfl, rfl⟩, fun d hd => ⟨d, hd, rfl, rfl⟩⟩

theorem Server.Keeps.trans (h : s₁.Keeps s₂) (h' : s₂.Keeps s₃) :
    s₁.Keeps s₃ where
  targets := h'.targets.trans h.targets
  crls c hc := h'.crls c (h.crls c hc)
  bindings b hb := by
    obtain ⟨b₂, hb₂, hid₂, hca₂, ht₂⟩ := h.bindings b hb
    obtain ⟨b₃, hb₃, hid₃, hca₃, ht₃⟩ := h'.bindings b₂ hb₂
    exact ⟨b₃, hb₃, hid₃.trans hid₂, hca₃.trans hca₂, ht₃.trans ht₂⟩
  deliveries d hd := by
    obtain ⟨d₂, hd₂, hid₂, hb₂⟩ := h.deliveries d hd
    obtain ⟨d₃, hd₃, hid₃, hb₃⟩ := h'.deliveries d₂ hd₂
    exact ⟨d₃, hd₃, hid₃.trans hid₂, hb₃.trans hb₂⟩

/-- Neither a push nor the end of a publication event. -/
structure Server.Quiet (s s' : Server) : Prop extends s.Keeps s' where
  handled : s'.handled = s.handled
  pushed : s'.pushed = s.pushed

theorem Server.Quiet.trans (h : s₁.Quiet s₂) (h' : s₂.Quiet s₃) : s₁.Quiet s₃ :=
  ⟨h.toKeeps.trans h'.toKeeps, h'.handled.trans h.handled, h'.pushed.trans h.pushed⟩

theorem Server.Quiet.refl (s : Server) : s.Quiet s := ⟨.refl s, rfl, rfl⟩

/-- Ids count the rows, and only complete CRLs that exist are handled. -/
structure Server.WellFormed (s : Server) : Prop where
  bindingIds : s.bindings.map CrlBinding.id = List.range s.bindings.length
  deliveryIds : s.deliveries.map Delivery.id = List.range s.deliveries.length
  handled : ∀ c ∈ s.handled, c ∈ s.crls ∧ c.isDelta = false

theorem Server.WellFormed.binding_eq (h : s.WellFormed) {b' : CrlBinding}
    (hb : b ∈ s.bindings) (hb' : b' ∈ s.bindings) (hid : b.id = b'.id) : b = b' := by
  refine eq_of_key ?_ hb hb' hid
  rw [h.bindingIds]
  exact nodup_range

theorem Server.WellFormed.delivery_eq (h : s.WellFormed) {d d' : Delivery}
    (hd : d ∈ s.deliveries) (hd' : d' ∈ s.deliveries) (hid : d.id = d'.id) : d = d' := by
  refine eq_of_key ?_ hd hd' hid
  rw [h.deliveryIds]
  exact nodup_range

theorem quiet_insertDelivery (s : Server) (d : Delivery) : s.Quiet (s.insertDelivery d) :=
  { Server.Quiet.refl s with deliveries := fun r hr => ⟨r, mem_append_left _ hr, rfl, rfl⟩ }

theorem quiet_amendDelivery (s : Server) (hf : ∀ r, (f r).id = r.id)
    (hf' : ∀ r, (f r).bindingId = r.bindingId) : s.Quiet (s.amendDelivery id f) := by
  refine { Server.Quiet.refl s with deliveries := fun r hr => ⟨_, exists_mem_amend hr, ?_⟩ }
  split
  · exact ⟨hf r, hf' r⟩
  · exact ⟨rfl, rfl⟩

theorem Server.WellFormed.insertDelivery (h : s.WellFormed) (d : Delivery) :
    (s.insertDelivery d).WellFormed := by
  refine ⟨h.bindingIds, ?_, h.handled⟩
  unfold Server.insertDelivery
  rw [map_append, h.deliveryIds, length_append, length_singleton, range_succ]
  rfl

theorem Server.WellFormed.amendDelivery (h : s.WellFormed) (hf : ∀ r, (f r).id = r.id) :
    (s.amendDelivery id f).WellFormed := by
  refine ⟨h.bindingIds, ?_, h.handled⟩
  unfold Server.amendDelivery
  rw [map_amend hf, h.deliveryIds]
  simp [amend]

theorem quiet_edit (s : Server) (bindingId : ℕ) (e : Edit) : s.Quiet (s.edit bindingId e) := by
  refine { Server.Quiet.refl s with bindings := fun b hb => ⟨_, exists_mem_amend hb, ?_⟩ }
  split <;> exact ⟨rfl, rfl, rfl⟩

theorem Server.WellFormed.edit (h : s.WellFormed) (bindingId : ℕ) (e : Edit) :
    (s.edit bindingId e).WellFormed := by
  refine ⟨?_, h.deliveryIds, h.handled⟩
  have hid : ∀ b, (e.apply b).id = b.id := fun _ => rfl
  unfold Server.edit
  rw [map_amend hid, h.bindingIds]
  simp [amend]

/-! ## Files that are recent enough -/

/-- The file has a complete CRL of the CA that is at least as new as every one whose event has been
handled. -/
def Server.Current (s : Server) (caId : ℕ) (file : File) : Prop :=
  ∃ c ∈ file.crls, c.caId = caId ∧ c.isDelta = false ∧
    ∀ c' ∈ s.handled, c'.caId = caId → c'.newness ≤ c.newness

/-- The file last pushed for the binding is current. -/
def Server.Fresh (s : Server) (bindingId caId : ℕ) : Prop :=
  ∃ file, s.pushed bindingId = some file ∧ s.Current caId file

theorem latestCompleteCrl_spec {c : Crl} (h : s.latestCompleteCrl caId = some c) :
    c.caId = caId ∧ c.isDelta = false ∧
      ∀ c' ∈ s.crls, c'.caId = caId → c'.isDelta = false → c'.newness ≤ c.newness := by
  have hmem := argmax_mem h
  simp only [mem_filter, Bool.and_eq_true, decide_eq_true_eq, Bool.not_eq_true'] at hmem
  refine ⟨hmem.2.1, hmem.2.2, fun c' hc' hca hcomplete => ?_⟩
  refine le_of_mem_argmax (mem_filter.mpr ⟨hc', ?_⟩) h
  simp [hca, hcomplete]

theorem caChain_eq_cons (s : Server) (h : caId ∈ s.cas) :
    ∃ rest, s.caChain caId = caId :: rest := by
  obtain ⟨n, hn⟩ := Nat.exists_eq_succ_of_ne_zero (length_pos_of_mem h).ne'
  unfold Server.caChain
  rw [hn]
  exact ⟨_, rfl⟩

theorem resolveCrlFiles_latest (h : s.resolveCrlFiles b = some file) :
    ∃ c ∈ file.crls, s.latestCompleteCrl b.caId = some c := by
  unfold Server.resolveCrlFiles at h
  split at h
  next hca =>
    split at h
    · split at h
      · cases h
      · split at h
        next c hc =>
          split at h <;> cases h
          exact ⟨c, mem_singleton.mpr rfl, hc⟩
        next => cases h
    · obtain ⟨crls, hcrls, rfl⟩ := Option.map_eq_some_iff.mp h
      have hcons : ∃ rest, (if b.includeParentCrls = true then s.caChain b.caId else [b.caId]) =
          b.caId :: rest := by
        split
        · exact caChain_eq_cons s hca
        · exact ⟨[], rfl⟩
      obtain ⟨rest, hrest⟩ := hcons
      rw [hrest, mapM_cons] at hcrls
      simp only [Option.bind_eq_bind, Option.bind_eq_some_iff, Option.pure_def,
        Option.some.injEq] at hcrls
      obtain ⟨c, hc, tail, -, rfl⟩ := hcrls
      exact ⟨c, mem_cons_self, (Option.filter_eq_some_iff.mp hc).1⟩
    · cases h
  next => cases h

theorem Server.WellFormed.current (h : s.WellFormed)
    (hfile : s.resolveCrlFiles b = some file) : s.Current b.caId file := by
  obtain ⟨c, hc, hlatest⟩ := resolveCrlFiles_latest hfile
  obtain ⟨hca, hcomplete, hmax⟩ := latestCompleteCrl_spec hlatest
  refine ⟨c, hc, hca, hcomplete, fun c' hc' hca' => ?_⟩
  obtain ⟨hmem, hdelta⟩ := h.handled c' hc'
  exact hmax c' hmem hca' hdelta

theorem Server.Current.congr
    (hh : ∀ c ∈ s'.handled, c.caId = caId → c ∈ s.handled) (h : s.Current caId file) :
    s'.Current caId file := by
  obtain ⟨c, hc, hca, hcomplete, hmax⟩ := h
  exact ⟨c, hc, hca, hcomplete, fun c' hc' hca' => hmax c' (hh c' hc' hca') hca'⟩

theorem Server.Fresh.congr (hh : ∀ c ∈ s'.handled, c.caId = caId → c ∈ s.handled)
    (hp : s'.pushed bindingId = s.pushed bindingId) (h : s.Fresh bindingId caId) :
    s'.Fresh bindingId caId := by
  obtain ⟨file, hfile, hcurrent⟩ := h
  exact ⟨file, hp.trans hfile, hcurrent.congr hh⟩

theorem Server.Quiet.mem_handled (h : s.Quiet s') (caId : ℕ) :
    ∀ c ∈ s'.handled, c.caId = caId → c ∈ s.handled := by
  intro c hc _
  rwa [h.handled] at hc

theorem Server.Quiet.fresh (h : s.Quiet s') (hf : s.Fresh bindingId caId) :
    s'.Fresh bindingId caId :=
  hf.congr (h.mem_handled caId) (by rw [h.pushed])

/-! ## Tasks -/

def Server.HasBinding (s : Server) (id caId : ℕ) : Prop :=
  ∃ b ∈ s.bindings, b.id = id ∧ b.caId = caId

def Server.HasDelivery (s : Server) (id bindingId : ℕ) : Prop :=
  ∃ d ∈ s.deliveries, d.id = id ∧ d.bindingId = bindingId

def Server.targetEnabled (s : Server) (targetId : ℕ) : Bool :=
  s.targets.any fun t => t.id = targetId && t.enabled

theorem live_eq (s : Server) (b : CrlBinding) :
    s.live b = (b.enabled && s.targetEnabled b.targetId) := rfl

structure Execution.Refers (s : Server) (x : Execution) : Prop where
  delivery : ∀ d ∈ x.delivery, s.HasDelivery d x.bindingId
  loaded : ∀ b ∈ x.loaded, s.HasBinding x.bindingId b.caId

/-- What holds of a task between its steps: what it read of a CRL is still current, and a push that
is about to be recorded as delivered has left a current file. -/
def Task.Sound (s : Server) : Task → Prop
  | .queueing crl _ _ => crl ∈ s.crls ∧ crl.isDelta = false
  | .creating b queue => queue = s.live b
  | .saving bindingId changes => ∃ b ∈ s.bindings, b.id = bindingId ∧
      (changes.enabled = some true → s.targetEnabled b.targetId = false)
  | .executing x => x.Refers s
  | .pushing x b file => x.Refers s ∧ s.HasBinding x.bindingId b.caId ∧ s.Current b.caId file
  | .recording x b result => x.Refers s ∧ (result = .delivered →
      ∃ caId ∈ b.map CrlBinding.caId, s.HasBinding x.bindingId caId ∧ s.Fresh x.bindingId caId)
  | _ => True

/-- The CA whose CRL a session has read and not yet recorded the push of. -/
def Task.inFlight? : Task → Option ℕ
  | .pushing _ b _ => some b.caId
  | .recording _ b _ => b.map CrlBinding.caId
  | _ => none

theorem Server.Keeps.hasBinding (hk : s.Keeps s') (h : s.HasBinding id caId) :
    s'.HasBinding id caId := by
  obtain ⟨b, hb, hid, hca⟩ := h
  obtain ⟨b', hb', hid', hca', -⟩ := hk.bindings b hb
  exact ⟨b', hb', hid'.trans hid, hca'.trans hca⟩

theorem Execution.Refers.mono (hk : s.Keeps s') (h : x.Refers s) : x.Refers s' where
  delivery d hd := by
    obtain ⟨r, hr, hid, hb⟩ := h.delivery d hd
    obtain ⟨r', hr', hid', hb'⟩ := hk.deliveries r hr
    exact ⟨r', hr', hid'.trans hid, hb'.trans hb⟩
  loaded b hb := hk.hasBinding (h.loaded b hb)

theorem Server.Keeps.targetEnabled (hk : s.Keeps s') (targetId : ℕ) :
    s'.targetEnabled targetId = s.targetEnabled targetId := by
  rw [Server.targetEnabled, Server.targetEnabled, hk.targets]

theorem Server.Keeps.live (hk : s.Keeps s') (b : CrlBinding) : s'.live b = s.live b := by
  rw [live_eq, live_eq, hk.targetEnabled]

/-- A step of another task keeps a task sound if it keeps the rows, and what is current for the CA
whose CRL the task has read. -/
theorem Task.Sound.mono (hk : s.Keeps s')
    (hcurrent : ∀ caId file, t.inFlight? = some caId → s.Current caId file → s'.Current caId file)
    (hfresh : ∀ bindingId caId, t.inFlight? = some caId → s.HasBinding bindingId caId →
      s.Fresh bindingId caId → s'.Fresh bindingId caId) (h : t.Sound s) : t.Sound s' := by
  cases t with
  | queueing crl plan queuedAt => exact ⟨hk.crls crl h.1, h.2⟩
  | creating b queue => exact h.trans (hk.live b).symm
  | saving bindingId changes =>
    obtain ⟨b, hb, hid, hoff⟩ := h
    obtain ⟨b', hb', hid', -, htarget⟩ := hk.bindings b hb
    refine ⟨b', hb', hid'.trans hid, fun hon => ?_⟩
    rw [hk.targetEnabled, htarget]
    exact hoff hon
  | executing x => exact Execution.Refers.mono hk h
  | pushing x b file =>
    exact ⟨h.1.mono hk, hk.hasBinding h.2.1, hcurrent _ _ rfl h.2.2⟩
  | recording x b result =>
    refine ⟨h.1.mono hk, fun hdelivered => ?_⟩
    obtain ⟨caId, hca, hbinding, hf⟩ := h.2 hdelivered
    exact ⟨caId, hca, hk.hasBinding hbinding, hfresh _ _ hca hbinding hf⟩
  | _ => trivial

theorem Task.Sound.quiet (hq : s.Quiet s') (h : t.Sound s) : t.Sound s' :=
  h.mono hq.toKeeps (fun caId _ _ hc => hc.congr (hq.mem_handled caId)) fun _ _ _ _ => hq.fresh

/-- The deliveries of a binding are settled: something is left to do, or the file is current. -/
def Server.SettledAt (s : Server) (b : CrlBinding) : Prop :=
  s.live b = true → Undone (s.deliveriesOf b.id) ∨ s.Fresh b.id b.caId

theorem Server.SettledAt.mono (h : s.SettledAt b) (hk : s.Keeps s')
    (hundone : Undone (s.deliveriesOf b.id) → Undone (s'.deliveriesOf b.id))
    (hfresh : s.Fresh b.id b.caId → s'.Fresh b.id b.caId) : s'.SettledAt b := by
  intro hlive
  rw [hk.live] at hlive
  exact (h hlive).imp hundone hfresh

/-- What holds of the tables between the steps. -/
structure Server.Settled (s : Server) : Prop extends s.WellFormed where
  settled : ∀ b ∈ s.bindings, s.SettledAt b

/-- A commit that leaves every binding with as much to do as before. -/
theorem Server.Settled.quiet (h : s.Settled) (hq : s.Quiet s') (hw : s'.WellFormed)
    (hb : s'.bindings = s.bindings)
    (hundone : ∀ id, Undone (s.deliveriesOf id) → Undone (s'.deliveriesOf id)) : s'.Settled := by
  refine ⟨hw, fun b hmem => ?_⟩
  rw [hb] at hmem
  exact (h.settled b hmem).mono hq.toKeeps (hundone b.id) hq.fresh

/-! ## Queueing -/

theorem undone_insert (h : d.status ≠ .delivered) (id : ℕ) (hu : Undone (s.deliveriesOf id)) :
    Undone ((s.insertDelivery d).deliveriesOf id) := by
  rw [deliveriesOf_insert]
  split
  · exact undone_concat h
  · rwa [append_nil]

theorem undone_insert_self (h : d.status ≠ .delivered) :
    Undone ((s.insertDelivery d).deliveriesOf d.bindingId) := by
  rw [deliveriesOf_insert, if_pos rfl]
  exact undone_concat h

theorem undone_amendDelivery (hf : ∀ r, (f r).bindingId = r.bindingId)
    (hf' : ∀ r, (f r).status = r.status) (bindingId : ℕ) (hu : Undone (s.deliveriesOf bindingId)) :
    Undone ((s.amendDelivery id f).deliveriesOf bindingId) := by
  rw [deliveriesOf_amend hf]
  exact hu.amend_same hf'

theorem queued_status (bindingId queuedAt : ℕ) :
    (Delivery.queued bindingId queuedAt).status ≠ .delivered := by
  simp [Delivery.queued]

/-- The tables after a subscriber, without the mark that the event is handled. -/
structure Server.Queued (s s' : Server) : Prop extends s.Quiet s' where
  wellFormed : s.WellFormed → s'.WellFormed
  bindings_eq : s'.bindings = s.bindings
  undone : ∀ id, Undone (s.deliveriesOf id) → Undone (s'.deliveriesOf id)

theorem queue_queued (queuedAt : ℕ) (s : Server) (entry : ℕ × Option ℕ) :
    s.Queued (queue queuedAt s entry) := by
  obtain ⟨bindingId, found⟩ := entry
  cases found with
  | none =>
    exact ⟨quiet_insertDelivery s _, fun h => h.insertDelivery _, rfl,
      undone_insert (queued_status bindingId queuedAt)⟩
  | some d =>
    exact ⟨quiet_amendDelivery s (fun _ => rfl) (fun _ => rfl),
      fun h => h.amendDelivery fun _ => rfl, rfl,
      undone_amendDelivery (fun _ => rfl) fun _ => rfl⟩

theorem Server.Queued.trans (h : s₁.Queued s₂) (h' : s₂.Queued s₃) : s₁.Queued s₃ :=
  ⟨h.toQuiet.trans h'.toQuiet, fun hw => h'.wellFormed (h.wellFormed hw),
    h'.bindings_eq.trans h.bindings_eq, fun id hu => h'.undone id (h.undone id hu)⟩

theorem foldl_queue_queued (queuedAt : ℕ) (plan : List (ℕ × Option ℕ)) (s : Server) :
    s.Queued (plan.foldl (queue queuedAt) s) :=
  foldlRecOn plan _ ⟨.refl s, fun h => h, rfl, fun _ h => h⟩
    fun s' h entry _ => h.trans (queue_queued queuedAt s' entry)

theorem undone_foldl_queue (s : Server) (h : (bindingId, none) ∈ plan) :
    Undone ((plan.foldl (queue queuedAt) s).deliveriesOf bindingId) := by
  induction plan generalizing s with
  | nil => cases h
  | cons entry plan ih =>
    rcases mem_cons.mp h with rfl | htail
    · refine (foldl_queue_queued queuedAt plan _).undone bindingId ?_
      exact undone_insert_self (queued_status bindingId queuedAt)
    · exact ih _ htail

/-- When the subscriber of a publication commits, every live binding of the CA has a pending
delivery or gets a new one. -/
def Server.Covers (s : Server) (caId : ℕ) (plan : List (ℕ × Option ℕ)) : Prop :=
  ∀ b ∈ s.bindings, s.live b = true → b.caId = caId →
    (b.id, none) ∈ plan ∨ (s.pending? b.id).isSome = true

theorem undone_of_pending (h : (s.pending? bindingId).isSome = true) :
    Undone (s.deliveriesOf bindingId) := by
  obtain ⟨d, hd⟩ := Option.isSome_iff_exists.mp h
  have hprop := find?_some hd
  simp only [Bool.and_eq_true, decide_eq_true_eq] at hprop
  exact .inl ⟨d, mem_filter.mpr ⟨mem_of_find?_eq_some hd, by simpa using hprop.1⟩, hprop.2⟩

theorem Server.Settled.handle (h : s.Settled) {crl : Crl}
    (hcrl : crl ∈ s.crls ∧ crl.isDelta = false) (hcovers : s.Covers crl.caId plan) :
    Server.Settled { plan.foldl (queue queuedAt) s with handled := s.handled ++ [crl] } := by
  have hq := foldl_queue_queued queuedAt plan s
  have hw := hq.wellFormed h.toWellFormed
  refine ⟨⟨hw.bindingIds, hw.deliveryIds, forall_mem_concat.mpr ⟨fun c hc => ?_, ?_⟩⟩,
    fun b hb hlive => ?_⟩
  · exact ⟨hq.crls c (h.handled c hc).1, (h.handled c hc).2⟩
  · exact ⟨hq.crls crl hcrl.1, hcrl.2⟩
  · have hmem : b ∈ s.bindings := by rwa [← hq.bindings_eq]
    have hlive' : s.live b = true := by rwa [← hq.toKeeps.live]
    by_cases hca : b.caId = crl.caId
    · -- this CRL concerns the binding: the plan has a delivery for it
      left
      rcases hcovers b hmem hlive' hca with hnew | hpending
      · exact undone_foldl_queue s hnew
      · exact hq.undone b.id (undone_of_pending hpending)
    · refine (h.settled b hmem hlive').imp (hq.undone b.id) fun hf => hf.congr ?_ ?_
      · intro c hc hcb
        rcases mem_concat.mp hc with hc | rfl
        · exact hc
        · exact absurd hcb.symm hca
      · exact congrFun hq.pushed b.id

/-! ## Recording a result -/

@[simp] theorem Execution.write_id (x : Execution) (result : Result) (d : Delivery) :
    (x.write result d).id = d.id := by
  cases result <;> simp only [Execution.write] <;> split <;> rfl

@[simp] theorem Execution.write_bindingId (x : Execution) (result : Result) (d : Delivery) :
    (x.write result d).bindingId = d.bindingId := by
  cases result <;> simp only [Execution.write] <;> split <;> rfl

theorem Execution.write_failed (x : Execution) (d : Delivery) :
    (x.write .failed d).status = .failed := rfl

theorem Execution.write_retry (x : Execution) (d : Delivery) :
    (x.write .retry d).status = d.status := by
  simp only [Execution.write]
  split <;> rfl

theorem deliveriesOf_record_some {d : ℕ} (hd : x.delivery = some d) (s : Server)
    (result : Result) (bindingId : ℕ) : (record s x result).deliveriesOf bindingId =
      amend (·.id = d) (x.write result) (s.deliveriesOf bindingId) := by
  unfold record
  rw [hd]
  exact deliveriesOf_amend (x.write_bindingId result) bindingId

theorem deliveriesOf_record_none (hd : x.delivery = none) (s : Server)
    (result : Result) (bindingId : ℕ) :
    ∃ row : Delivery, (result ≠ .delivered → row.status ≠ .delivered) ∧
      (record s x result).deliveriesOf bindingId = s.deliveriesOf bindingId ++
        if x.bindingId = bindingId then [row] else [] := by
  have hrows := deliveriesOf_insert (s.edit x.bindingId (x.edit.getD ⟨none, none, none, none⟩))
    (x.write result ⟨0, x.bindingId, .pending, x.attempts, x.maxAttempts, x.startedAt⟩) bindingId
  rw [Execution.write_bindingId] at hrows
  unfold record
  rw [hd]
  refine ⟨_, fun hne => ?_, hrows⟩
  cases result with
  | delivered => exact absurd rfl hne
  | retry => simp [x.write_retry]
  | failed => simp [x.write_failed]

theorem record_bindings (s : Server) (x : Execution) (result : Result) :
    (record s x result).bindings =
      (s.edit x.bindingId (x.edit.getD ⟨none, none, none, none⟩)).bindings := by
  unfold record
  cases x.delivery with
  | some | none => rfl

theorem quiet_record (s : Server) (x : Execution) (result : Result) :
    s.Quiet (record s x result) := by
  refine (quiet_edit s x.bindingId (x.edit.getD ⟨none, none, none, none⟩)).trans ?_
  unfold record
  cases x.delivery with
  | some d => exact quiet_amendDelivery _ (x.write_id result) (x.write_bindingId result)
  | none => exact quiet_insertDelivery _ _

theorem Server.WellFormed.record (h : s.WellFormed) (x : Execution) (result : Result) :
    (record s x result).WellFormed := by
  have hedit := h.edit x.bindingId (x.edit.getD ⟨none, none, none, none⟩)
  unfold Deploy.record
  cases x.delivery with
  | some d => exact hedit.amendDelivery (x.write_id result)
  | none => exact hedit.insertDelivery _

theorem deliveriesOf_record_other (h : s.WellFormed) (hx : x.Refers s)
    (result : Result) (hne : bindingId ≠ x.bindingId) :
    (record s x result).deliveriesOf bindingId = s.deliveriesOf bindingId := by
  cases hd : x.delivery with
  | some d =>
    obtain ⟨row, hrow, hid, hrb⟩ := hx.delivery d hd
    rw [deliveriesOf_record_some hd, ← deliveriesOf_amend (x.write_bindingId result)]
    refine deliveriesOf_amend_other (x.write_bindingId result) fun r hr hrid hrb' => hne ?_
    rw [← hrb', ← hrb, h.delivery_eq hr hrow (hrid.trans hid.symm)]
  | none =>
    obtain ⟨row, -, hrows⟩ := deliveriesOf_record_none hd s result bindingId
    rw [hrows, if_neg hne.symm, append_nil]

theorem undone_record_none {result : Result} (hd : x.delivery = none)
    (hne : result ≠ .delivered) : Undone ((record s x result).deliveriesOf x.bindingId) := by
  obtain ⟨row, hstatus, hrows⟩ := deliveriesOf_record_none hd s result x.bindingId
  rw [hrows, if_pos rfl]
  exact undone_concat (hstatus hne)

theorem undone_record_failed (hx : x.Refers s)
    (hlast : ∀ d ∈ x.delivery, ∀ last ∈ s.lastDelivery? x.bindingId, last.id = d) :
    Undone ((record s x .failed).deliveriesOf x.bindingId) := by
  cases hd : x.delivery with
  | some d =>
    obtain ⟨row, hrow, -, hrb⟩ := hx.delivery d hd
    have hmem : row ∈ s.deliveriesOf x.bindingId := mem_filter.mpr ⟨hrow, by simpa using hrb⟩
    have hsome := getLast?_eq_some_getLast (ne_nil_of_mem hmem)
    rw [deliveriesOf_record_some hd]
    refine undone_amend_last hsome (hlast d hd _ hsome) fun r => ?_
    rw [x.write_failed]
    decide
  | none => exact undone_record_none hd (by decide)

theorem undone_record_retry (h : s.WellFormed) (hx : x.Refers s)
    (hpending : ∀ d ∈ x.delivery, ∃ row ∈ s.deliveries, row.id = d ∧ row.status = .pending) :
    Undone ((record s x .retry).deliveriesOf x.bindingId) := by
  cases hd : x.delivery with
  | some d =>
    obtain ⟨row, hrow, hid, hstatus⟩ := hpending d hd
    obtain ⟨row', hrow', hid', hrb⟩ := hx.delivery d hd
    have hmem : row ∈ s.deliveriesOf x.bindingId := by
      refine mem_filter.mpr ⟨hrow, ?_⟩
      rw [h.delivery_eq hrow hrow' (hid.trans hid'.symm), hrb]
      exact decide_eq_true rfl
    rw [deliveriesOf_record_some hd]
    refine .inl ⟨x.write .retry row, mem_amend.mpr (.inr ⟨row, hmem, by simpa using hid, rfl⟩), ?_⟩
    rw [x.write_retry, hstatus]
  | none => exact undone_record_none hd (by decide)

/-- What the state has to be when a result is recorded: a failure is that of the last delivery, and
an edit whose push is retried still has its pending delivery. -/
def Server.Timely (s : Server) (x : Execution) : Result → Prop
  | .delivered => True
  | .failed => ∀ d ∈ x.delivery, ∀ last ∈ s.lastDelivery? x.bindingId, last.id = d
  | .retry => x.edit.isSome = true →
      ∀ d ∈ x.delivery, ∃ row ∈ s.deliveries, row.id = d ∧ row.status = .pending

theorem Server.Settled.record (h : s.Settled) {b : Option CrlBinding}
    {result : Result} (hsound : Task.Sound s (.recording x b result))
    (htimely : s.Timely x result) : (record s x result).Settled := by
  have hq := quiet_record s x result
  refine ⟨h.toWellFormed.record x result, fun b' hb' => ?_⟩
  rw [record_bindings] at hb'
  rcases mem_amend.mp hb' with ⟨hmem, hother⟩ | ⟨b₀, hmem, hself, rfl⟩
  · -- a binding that the execution does not concern
    have hne : b'.id ≠ x.bindingId := by simpa using hother
    have hrows := deliveriesOf_record_other h.toWellFormed hsound.1 result hne
    exact (h.settled b' hmem).mono hq.toKeeps (fun hu => hrows.symm ▸ hu) hq.fresh
  · have hid : b₀.id = x.bindingId := by simpa using hself
    intro hlive
    change Undone ((Deploy.record s x result).deliveriesOf b₀.id) ∨
      (Deploy.record s x result).Fresh b₀.id b₀.caId
    cases result with
    | delivered =>
      obtain ⟨caId, -, ⟨b₁, hb₁, hid₁, hca₁⟩, hfresh⟩ := hsound.2 rfl
      have heq := h.binding_eq hb₁ hmem (hid₁.trans hid.symm)
      rw [← hca₁, heq, ← hid] at hfresh
      exact .inr (hq.fresh hfresh)
    | failed =>
      rw [hid]
      exact .inl (undone_record_failed hsound.1 htimely)
    | retry =>
      cases hedit : x.edit with
      | some e =>
        rw [hid]
        exact .inl (undone_record_retry h.toWellFormed hsound.1 (htimely (by rw [hedit]; rfl)))
      | none =>
        -- the binding is as before, and no status is written
        rw [hedit] at hlive
        cases hd : x.delivery with
        | none =>
          rw [hid]
          exact .inl (undone_record_none hd (by decide))
        | some d =>
          refine (h.settled b₀ hmem).mono hq.toKeeps (fun hu => ?_) hq.fresh hlive
          rw [deliveriesOf_record_some hd]
          exact hu.amend_same x.write_retry

/-! ## The other commits -/

theorem Server.Settled.saving (h : s.Settled) {changes : Edit}
    (hsound : Task.Sound s (.saving bindingId changes)) : (s.edit bindingId changes).Settled := by
  refine ⟨h.toWellFormed.edit bindingId changes, fun b hb => ?_⟩
  rcases mem_amend.mp hb with ⟨hmem, -⟩ | ⟨b₀, hmem, hself, rfl⟩
  · exact h.settled b hmem
  · intro hlive
    have hid : b₀.id = bindingId := by simpa using hself
    refine h.settled b₀ hmem ?_
    obtain ⟨b₁, hb₁, hid₁, hoff⟩ := hsound
    rw [h.binding_eq hb₁ hmem (hid₁.trans hid.symm)] at hoff
    have hlive' : changes.enabled.getD b₀.enabled = true ∧ s.targetEnabled b₀.targetId = true := by
      rw [live_eq, Bool.and_eq_true] at hlive
      exact hlive
    rw [live_eq, hlive'.2]
    -- the edit does not enable the binding, since its target is enabled
    cases he : changes.enabled with
    | none => simpa [he] using hlive'.1
    | some on =>
      have hon : on = true := by simpa [he] using hlive'.1
      rw [hoff (he.trans (congrArg some hon))] at hlive'
      exact absurd hlive'.2 (by decide)

def Server.addBinding (s : Server) (b : CrlBinding) : Server :=
  { s with bindings := s.bindings ++ [{ b with id := s.bindings.length }] }

theorem quiet_addBinding (s : Server) (b : CrlBinding) : s.Quiet (s.addBinding b) :=
  { Server.Quiet.refl s with bindings := fun b hb => ⟨b, mem_append_left _ hb, rfl, rfl, rfl⟩ }

theorem Server.WellFormed.addBinding (h : s.WellFormed) (b : CrlBinding) :
    (s.addBinding b).WellFormed := by
  refine ⟨?_, h.deliveryIds, h.handled⟩
  unfold Server.addBinding
  rw [map_append, h.bindingIds, length_append, length_singleton, range_succ]
  rfl

theorem Server.Settled.creating_queued (h : s.Settled) (b : CrlBinding) :
    ((s.addBinding b).insertDelivery (.queued s.bindings.length s.now)).Settled := by
  have hq := (quiet_addBinding s b).trans
    (quiet_insertDelivery _ (.queued s.bindings.length s.now))
  refine ⟨(h.toWellFormed.addBinding b).insertDelivery _,
    forall_mem_concat.mpr ⟨fun b' hmem => ?_, fun _ => ?_⟩⟩
  · exact (h.settled b' hmem).mono hq.toKeeps (undone_insert (queued_status _ _) b'.id) hq.fresh
  · exact .inl (undone_insert_self (queued_status s.bindings.length s.now))

theorem Server.Settled.creating_idle (h : s.Settled) (hb : s.live b = false) :
    (s.addBinding b).Settled := by
  have hq := quiet_addBinding s b
  refine ⟨h.toWellFormed.addBinding b, forall_mem_concat.mpr ⟨fun b' hmem => ?_, fun hlive => ?_⟩⟩
  · exact (h.settled b' hmem).mono hq.toKeeps (fun hu => hu) hq.fresh
  · exact absurd (hb.symm.trans hlive) (by decide)

theorem Server.Settled.amendDelivery (h : s.Settled) (hf : ∀ r, (f r).id = r.id)
    (hf' : ∀ r, (f r).bindingId = r.bindingId)
    (hundone : ∀ rows, Undone rows → Undone (amend (·.id = id) f rows)) :
    (s.amendDelivery id f).Settled := by
  refine h.quiet (quiet_amendDelivery s hf hf') (h.toWellFormed.amendDelivery hf) rfl
    fun bindingId hu => ?_
  rw [deliveriesOf_amend hf']
  exact hundone _ hu

/-! ## Reading and pushing -/

theorem start_sound {r : Request} (h : start s r = some t) : t.Sound s := by
  cases r with
  | handle crlId =>
    simp only [start, Option.bind_eq_bind, Option.bind_eq_some_iff, Option.some.injEq] at h
    obtain ⟨crl, hcrl, rfl⟩ := h
    have hprop := find?_some hcrl
    simp only [Bool.and_eq_true, Bool.not_eq_true'] at hprop
    exact ⟨mem_of_find?_eq_some hcrl, hprop.2⟩
  | create targetId caId crlPath format includeParentCrls enabled =>
    simp only [start] at h
    split at h
    · cases h
      rfl
    · cases h
  | update bindingId edit =>
    simp only [start, Option.bind_eq_bind, Option.bind_eq_some_iff] at h
    obtain ⟨b, hb, h⟩ := h
    have hmem := mem_of_find?_eq_some hb
    have hid : b.id = bindingId := by simpa using find?_some hb
    split at h
    next =>
      split at h
      next =>
        cases h
        refine ⟨fun d hd => ?_, fun b' hb' => ?_⟩
        · obtain ⟨row, hrow, rfl⟩ := Option.map_eq_some_iff.mp hd
          have hprop := find?_some hrow
          simp only [Bool.and_eq_true, decide_eq_true_eq] at hprop
          exact ⟨row, mem_of_find?_eq_some hrow, rfl, hprop.1⟩
        · cases hb'
          exact ⟨b, hmem, hid, rfl⟩
      next hdead =>
        cases h
        refine ⟨b, hmem, hid, fun hon => ?_⟩
        obtain ⟨hon', -⟩ := Option.filter_eq_some_iff.mp hon
        simpa [live_eq, Edit.apply, hon'] using hdead
    next => cases h
  | deployNow bindingId =>
    simp only [start, Option.bind_eq_bind, Option.bind_eq_some_iff, Option.some.injEq] at h
    obtain ⟨b, hb, rfl⟩ := h
    refine ⟨by simp, fun b' hb' => ?_⟩
    cases hb'
    exact ⟨b, mem_of_find?_eq_some hb, by simpa using find?_some hb, rfl⟩
  | retry deliveryId =>
    simp only [start, Option.bind_eq_bind, Option.bind_eq_some_iff] at h
    obtain ⟨d, -, h⟩ := h
    split at h
    · cases h
      trivial
    · cases h
  | pass =>
    simp only [start] at h
    split at h
    · cases h
    · cases h
      trivial

theorem readFiles_sound (h : s.WellFormed) (hx : x.Refers s) : (readFiles s x).Sound s := by
  unfold readFiles
  split
  next => exact ⟨hx, by simp⟩
  next b hb =>
    have hbinding : s.HasBinding x.bindingId b.caId := by
      cases hl : x.loaded with
      | some b' =>
        rw [hl] at hb
        cases hb
        exact hx.loaded b hl
      | none =>
        rw [hl] at hb
        exact ⟨b, mem_of_find?_eq_some hb, by simpa using find?_some hb, rfl⟩
    split
    · split
      next file hfile => exact ⟨hx, hbinding, h.current hfile⟩
      next => exact ⟨hx, by simp⟩
    · exact ⟨hx, by simp⟩

theorem continuePass_sound {pass : Option (List ℕ × ℕ)}
    (h : continuePass pass = some t) : t.Sound s := by
  unfold continuePass at h
  split at h
  · cases h
    trivial
  · cases h

theorem Server.HasBinding.caId_eq (h : s.WellFormed) {caId' : ℕ}
    (hb : s.HasBinding id caId) (hb' : s.HasBinding id caId') : caId = caId' := by
  obtain ⟨b, hmem, hid, rfl⟩ := hb
  obtain ⟨b', hmem', hid', rfl⟩ := hb'
  rw [h.binding_eq hmem hmem' (hid.trans hid'.symm)]

section Push

variable {x : Execution} {b : CrlBinding} {file : File}

def Server.push (s : Server) (bindingId : ℕ) (file : File) : Server :=
  { s with pushed := Function.update s.pushed bindingId (some file) }

theorem keeps_push (s : Server) (bindingId : ℕ) (file : File) : s.Keeps (s.push bindingId file) :=
  { Server.Keeps.refl s with }

theorem fresh_push_self {bindingId caId : ℕ} (h : s.Current caId file) :
    (s.push bindingId file).Fresh bindingId caId :=
  ⟨file, Function.update_self .., h⟩

/-- A push of a current file leaves the file of every binding as current as it was. -/
theorem Server.Fresh.push {bindingId caId : ℕ} (hw : s.WellFormed)
    (hb : s.HasBinding x.bindingId b.caId) (hc : s.Current b.caId file)
    (hb' : s.HasBinding bindingId caId) (h : s.Fresh bindingId caId) :
    (s.push x.bindingId file).Fresh bindingId caId := by
  by_cases hid : bindingId = x.bindingId
  · rw [hid] at hb' ⊢
    rw [hb'.caId_eq hw hb]
    exact fresh_push_self hc
  · refine Server.Fresh.congr ?_ (Function.update_of_ne hid _ _) h
    exact fun _ hc _ => hc

theorem Server.Settled.push (h : s.Settled) (hb : s.HasBinding x.bindingId b.caId)
    (hc : s.Current b.caId file) : (s.push x.bindingId file).Settled := by
  refine ⟨⟨h.bindingIds, h.deliveryIds, h.handled⟩, fun b' hb' => ?_⟩
  refine (h.settled b' hb').mono (keeps_push s _ file) (fun hu => hu) fun hf => ?_
  exact hf.push h.toWellFormed hb hc ⟨b', hb', rfl, rfl⟩

theorem Task.Sound.push {u : Task} (hw : s.WellFormed) (hb : s.HasBinding x.bindingId b.caId)
    (hc : s.Current b.caId file) (h : u.Sound s) : u.Sound (s.push x.bindingId file) :=
  h.mono (keeps_push s _ file) (fun _ _ _ hcur => hcur)
    fun _ _ _ hb' hf => hf.push hw hb hc hb'

theorem afterPush_sound {outcome : Outcome} (hx : x.Refers s) (hb : s.HasBinding x.bindingId b.caId)
    (hf : outcome = .delivered → s.Fresh x.bindingId b.caId) :
    (afterPush x b outcome).Sound s := by
  cases outcome with
  | delivered => exact ⟨hx, fun _ => ⟨b.caId, rfl, hb, hf rfl⟩⟩
  | failed written permanent =>
    refine ⟨hx, fun hdelivered => ?_⟩
    split at hdelivered <;> cases hdelivered

end Push

/-! ## Runs -/

/-- A publication event is handled while no session has read a CRL of this CA and not recorded the
push yet. -/
def Task.Clear (t u : Task) : Prop :=
  match t with
  | .queueing crl _ _ => u.inFlight? ≠ some crl.caId
  | _ => True

/-- What the tables have to be when a session commits. -/
def Task.Timely (s : Server) : Task → Prop
  | .queueing crl plan _ => s.Covers crl.caId plan
  | .recording x _ result => s.Timely x result
  | _ => True

def Orderly (w : World Server Task) : Label Request Input Event → Prop
  | .advance i (.commit true) => ∀ t ∈ w.tasks i,
      t.Timely w.shared ∧ ∀ j, ∀ u ∈ w.tasks j, t.Clear u
  | _ => True

/-- The tables and every task between two steps. -/
structure Consistent (w : World Server Task) : Prop where
  settled : w.shared.Settled
  sound : ∀ i, ∀ t ∈ w.tasks i, t.Sound w.shared

/-- A step of one task: the others stay sound, and so does what it becomes. -/
theorem Consistent.update (h : Consistent w) (hs : s.Settled) (hself : ∀ v ∈ t', v.Sound s)
    (hother : ∀ j, ∀ u ∈ w.tasks j, u.Sound w.shared → u.Sound s) :
    Consistent ⟨s, Function.update w.tasks i t'⟩ := by
  refine ⟨hs, fun j u hu => ?_⟩
  rcases System.update_eq_some hu with ⟨-, hu⟩ | ⟨-, hu⟩
  · exact hself u hu
  · exact hother j u hu (h.sound j u hu)

/-- A commit that leaves the pushed files and the handled events alone. -/
theorem Consistent.quiet (h : Consistent w)
    (hs : s.Settled) (hq : w.shared.Quiet s) (hself : ∀ v ∈ t', v.Sound s) :
    Consistent ⟨s, Function.update w.tasks i t'⟩ :=
  h.update hs hself fun _ _ _ hu => hu.quiet hq

/-- Handling an event makes no CRL of another CA outdated. -/
theorem Task.Sound.handle {u : Task} {crl : Crl}
    (hclear : u.inFlight? ≠ some crl.caId) (h : u.Sound s) :
    u.Sound { plan.foldl (queue queuedAt) s with handled := s.handled ++ [crl] } := by
  have hq := foldl_queue_queued queuedAt plan s
  have hhandled : ∀ caId, u.inFlight? = some caId →
      ∀ c ∈ s.handled ++ [crl], c.caId = caId → c ∈ s.handled := by
    intro caId hca c hc hcc
    rcases mem_concat.mp hc with hc | rfl
    · exact hc
    · exact absurd (hca.trans (congrArg some hcc.symm)) hclear
  refine h.mono ⟨hq.targets, hq.crls, hq.bindings, hq.deliveries⟩ ?_ ?_
  · intro caId file hca hcur
    exact hcur.congr (hhandled caId hca)
  · intro bindingId caId hca _ hf
    exact hf.congr (hhandled caId hca) (congrFun hq.pushed bindingId)

theorem Consistent.commit (h : Consistent w) (ht : t ∈ w.tasks i) (htimely : t.Timely w.shared)
    (hclear : ∀ j, ∀ u ∈ w.tasks j, t.Clear u) (hc : commit w.shared t = some (s, t')) :
    Consistent ⟨s, Function.update w.tasks i t'⟩ := by
  have hsound := h.sound i t ht
  cases t with
  | queueing crl plan queuedAt =>
    cases hc
    refine h.update (h.settled.handle hsound htimely) (by simp) fun j u hu hsu => ?_
    exact hsu.handle (hclear j u hu)
  | creating b queue =>
    simp only [Deploy.commit] at hc
    split at hc
    · cases hc
      cases queue with
      | true =>
        refine h.quiet (h.settled.creating_queued b) ?_ (by simp)
        exact (quiet_addBinding _ b).trans (quiet_insertDelivery _ _)
      | false => exact h.quiet (h.settled.creating_idle hsound.symm) (quiet_addBinding _ b) (by simp)
    · cases hc
      exact h.quiet h.settled (.refl _) (by simp)
  | saving bindingId changes =>
    cases hc
    exact h.quiet (h.settled.saving hsound) (quiet_edit _ _ _) (by simp)
  | requeueing d =>
    cases hc
    refine h.quiet ?_ (quiet_amendDelivery _ (fun _ => rfl) fun _ => rfl) (by simp)
    exact h.settled.amendDelivery (fun _ => rfl) (fun _ => rfl)
      fun _ hu => undone_amend_pending hu fun _ => rfl
  | passing due startedAt =>
    cases due with
    | nil =>
      cases hc
      exact h.quiet h.settled (.refl _) (by simp)
    | cons d rest =>
      have hc : claim w.shared d rest startedAt = (s, t') := Option.some.inj hc
      unfold claim at hc
      split at hc
      next row hrow =>
        split at hc
        · cases hc
          have hq : w.shared.Quiet (w.shared.amendDelivery d fun row => { row with
              attempts := row.attempts + 1, nextAttemptAt := startedAt + claimLease }) :=
            quiet_amendDelivery _ (fun _ => rfl) fun _ => rfl
          refine h.quiet (h.settled.amendDelivery (fun _ => rfl) (fun _ => rfl)
            fun _ hu => hu.amend_same fun _ => rfl) hq fun v hv => ?_
          cases hv
          refine ⟨fun d' hd' => ?_, by simp⟩
          cases hd'
          obtain ⟨r, hr, hid, hb⟩ := hq.deliveries row (mem_of_find?_eq_some hrow)
          exact ⟨r, hr, hid.trans (by simpa using find?_some hrow), hb⟩
        · cases hc
          exact h.quiet h.settled (.refl _) fun v hv => continuePass_sound hv
      next =>
        cases hc
        exact h.quiet h.settled (.refl _) fun v hv => continuePass_sound hv
  | recording x b result =>
    cases hc
    exact h.quiet (h.settled.record hsound htimely) (quiet_record _ x result)
      fun v hv => continuePass_sound hv
  | _ => cases hc

theorem quiet_event (s : Server) (e : Event) : s.Quiet (event s e) := by
  cases e with
  | tick => exact { Server.Quiet.refl s with }
  | publish => exact { Server.Quiet.refl s with crls := fun c hc => mem_append_left _ hc }

theorem Server.Settled.event (h : s.Settled) (e : Event) : (event s e).Settled := by
  have hq := quiet_event s e
  have hhandled : ∀ c ∈ s.handled, c ∈ (Deploy.event s e).crls ∧ c.isDelta = false :=
    fun c hc => ⟨hq.crls c (h.handled c hc).1, (h.handled c hc).2⟩
  cases e with
  | tick | publish => exact ⟨⟨h.bindingIds, h.deliveryIds, hhandled⟩, h.settled⟩

theorem Consistent.advance (h : Consistent w) {input : Input} (ht : t ∈ w.tasks i)
    (hl : Orderly w (.advance i input)) (hadv : advance w.shared t input = some (s, t')) :
    Consistent ⟨s, Function.update w.tasks i t'⟩ := by
  have hsound := h.sound i t ht
  cases input with
  | read =>
    cases t <;> cases hadv
    next x =>
    refine h.quiet h.settled (.refl _) fun v hv => ?_
    cases hv
    exact readFiles_sound h.settled.toWellFormed hsound
  | push outcome =>
    cases t <;> cases hadv
    next x b file =>
    obtain ⟨hx, hb, hcurrent⟩ := hsound
    cases hwritten : outcome.written with
    | true =>
      refine h.update (h.settled.push hb hcurrent) (fun v hv => ?_)
        fun j u hu hsu => hsu.push h.settled.toWellFormed hb hcurrent
      cases hv
      exact afterPush_sound (hx.mono (keeps_push _ _ file)) hb fun _ => fresh_push_self hcurrent
    | false =>
      refine h.quiet h.settled (.refl _) fun v hv => ?_
      cases hv
      refine afterPush_sound hx hb fun hdelivered => ?_
      rw [hdelivered] at hwritten
      cases hwritten
  | commit ok =>
    have hadv' : (Deploy.commit w.shared t).map (fun r => if ok then r else (w.shared, rolledBack t)) =
        some (s, t') := by
      cases t <;> exact hadv
    obtain ⟨r, hr, heq⟩ := Option.map_eq_some_iff.mp hadv'
    cases ok with
    | true =>
      obtain ⟨htimely, hclear⟩ := hl t ht
      exact h.commit ht htimely hclear (hr.trans (congrArg some heq))
    | false =>
      cases heq
      refine h.quiet h.settled (.refl _) fun v hv => ?_
      cases t with
      | recording x b result => exact continuePass_sound hv
      | _ => cases hv

theorem Consistent.step (h : Consistent w)
    {l : Label Request Input Event} (hl : Orderly w l) : Consistent (system.step w l) := by
  have hsteps := system.step_steps w l
  generalize system.step w l = w' at hsteps
  cases hsteps with
  | idle | refused => exact h
  | @event e =>
    exact ⟨h.settled.event e, fun j u hu => (h.sound j u hu).quiet (quiet_event w.shared e)⟩
  | @request i r t hfree hstart =>
    refine h.quiet h.settled (.refl _) fun v hv => ?_
    cases hv
    exact start_sound hstart
  | @advance i input t s t' ht hadv => exact h.advance ht hl hadv

/-- In every orderly run, a live binding that has no pending delivery and whose last one was
delivered has a file with a complete CRL of its CA that is at least as new as every one whose
publication event has been handled. -/
theorem newest_crl_delivered (now : ℕ) (cas : List ℕ) (issuingCa : ℕ → Option ℕ)
    (targets : List Target) {w : World Server Task}
    (hw : Reach system.step Orderly (World.initial (.empty now cas issuingCa targets)) w)
    {b : CrlBinding} (hb : b ∈ w.shared.bindings) (hlive : w.shared.live b = true)
    (hpending : w.shared.pending? b.id = none) {d : Delivery}
    (hlast : w.shared.lastDelivery? b.id = some d) (hdelivered : d.status = .delivered) :
    ∃ file, w.shared.pushed b.id = some file ∧
      ∃ c ∈ file.crls, c.caId = b.caId ∧ c.isDelta = false ∧
        ∀ c' ∈ w.shared.handled, c'.caId = b.caId → c'.newness ≤ c.newness := by
  have hinv : Consistent w := hw.invariant (P := Consistent)
    ⟨⟨⟨rfl, rfl, by simp [World.initial, Server.empty]⟩, by simp [World.initial, Server.empty]⟩,
      by simp [World.initial]⟩
    fun _ _ _ h hl => h.step hl
  rcases hinv.settled.settled b hb hlive with (⟨r, hr, hstatus⟩ | hnone) | hfresh
  · obtain ⟨hmem, hid⟩ := mem_filter.mp hr
    have hmiss := find?_eq_none.mp hpending r hmem
    exact absurd (by simpa [hstatus] using hid) hmiss
  · exact absurd hdelivered (hnone d hlast)
  · exact hfresh

/-! ## One scheduler, and a publication during a push -/

instance (s : Server) (t : Task) : Decidable (t.Timely s) := by
  unfold Task.Timely Server.Covers Server.Timely
  repeat' split
  all_goals infer_instance

/-- One worker takes every step: no push is in flight when an event is handled. -/
def OneWorker (w : World Server Task) (l : Label Request Input Event) : Prop :=
  (∀ k ∈ l.slot?, k = 0) ∧ ∀ t ∈ w.tasks 0, t.Timely w.shared
  deriving Decidable

theorem OneWorker.orderly {s₀ : Server} (h : Reach system.step OneWorker (World.initial s₀) w) :
    Reach system.step Orderly (World.initial s₀) w := by
  refine h.imp fun v l hr hl => ?_
  match l, hl with
  | .advance i (.commit true), hl =>
    have hi : i = 0 := hl.1 i rfl
    subst hi
    intro t ht
    refine ⟨hl.2 t ht, fun j u hu => ?_⟩
    by_cases hj : j = 0
    · -- the task itself has read no CRL
      subst hj
      rw [Option.mem_unique hu ht]
      cases t with
      | queueing crl plan queuedAt => exact Option.some_ne_none _ ∘ Eq.symm
      | _ => trivial
    · rw [system.idle_of_slot (fun _ _ h => h.1) hr hj] at hu
      cases hu
  | .event _, _ | .request _ _, _ | .advance _ .read, _ | .advance _ (.push _), _
  | .advance _ (.commit false), _ => trivial

/-- A CA with one target and a first CRL, whose event has been handled, and a binding for it. -/
def bound : List (Label Request Input Event) :=
  [.event (.publish 1 1 false true true), .request 0 (.handle 0), .advance 0 (.commit true),
    .request 0 (.create 0 1 "/crl.pem" .pem false true), .advance 0 (.commit true)]

def firstServer : World Server Task :=
  .initial (.empty 0 [1] (fun _ => none) [⟨0, true⟩])

/-- A pass that pushes everything that is due, in one slot. -/
def passed (slot : ℕ) : List (Label Request Input Event) :=
  [.request slot .pass, .advance slot (.commit true), .advance slot .read,
    .advance slot (.push .delivered), .advance slot (.commit true)]

/-- The second CRL is handled between two passes and reaches the target with the second. -/
theorem second_crl_delivered :
    let w := exec system.step firstServer (bound ++ passed 0 ++
      [.event (.publish 1 2 false true true), .request 0 (.handle 1), .advance 0 (.commit true)] ++
      passed 0)
    ∃ file, w.shared.pushed 0 = some file ∧
      ∃ c ∈ file.crls, c.caId = 1 ∧ c.isDelta = false ∧
        ∀ c' ∈ w.shared.handled, c'.caId = 1 → c'.newness ≤ c.newness :=
  newest_crl_delivered 0 [1] (fun _ => none) [⟨0, true⟩]
    (OneWorker.orderly (Reach.start.exec (by decide)))
    (b := ⟨0, 0, 1, "/crl.pem", .pem, false, true⟩) (by decide) (by decide) (by decide)
    (d := ⟨1, 0, .delivered, 1, 5, 180⟩) (by decide) rfl

/-- The second CRL is handled while the push of the first is in flight, and merged into its
delivery. The push is then recorded as delivered: nothing is pending, and the target keeps the
first CRL. -/
theorem publication_lost_in_push :
    let w := exec system.step firstServer (bound ++ (passed 0).take 3 ++
      [.event (.publish 1 2 false true true), .request 1 (.handle 1), .advance 1 (.commit true)] ++
      (passed 0).drop 3)
    ∃ b ∈ w.shared.bindings, w.shared.live b = true ∧ w.shared.pending? b.id = none ∧
      (w.shared.lastDelivery? b.id).map Delivery.status = some .delivered ∧
      ∃ newest ∈ w.shared.handled, newest.caId = b.caId ∧
        (w.shared.pushed b.id).map File.crls = some [⟨0, 1, 1, false, true, true⟩] ∧
        (⟨0, 1, 1, false, true, true⟩ : Crl).newness < newest.newness := by
  decide

end UltimateCaManager.Deploy
