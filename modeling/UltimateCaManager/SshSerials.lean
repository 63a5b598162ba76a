import UltimateCaManager.SshRevocation

/-!
# One serial, one SSH certificate

A signing holds the serial that it wrote to the counter until its certificate is stored. As long as
the counter is not moved between its reads and its write, the serials held are below the counter,
apart from each other and from those stored.
-/
namespace UltimateCaManager.Ssh

open List Concurrency Runs Tables

variable {glob : String → String → Bool} {s : Server} {caId : ℕ}

/-- The serial that a request holds, and its CA. -/
def Task.holds : Task → Option (ℕ × ℕ)
  | .increment _ _ _ => none
  | .reread r _ written => some (r.caId, written)
  | .store r _ serial => some (r.caId, serial)
  | .storeImport caId i => some (caId, i.serial)

def Server.Free (s : Server) (caId serial : ℕ) : Prop :=
  ∀ c ∈ s.certificates, c.caId = caId → c.serial ≠ serial

def Server.Passed (s : Server) (caId serial : ℕ) : Prop :=
  ∀ ca, s.ca? caId = some ca → serial ≤ ca.serialCounter

/-- A signing finds the counter as it read it, and then as it wrote it. -/
def Task.Undisturbed (s : Server) : Task → Prop
  | .increment r _ counter => ∀ ca ∈ s.ca? r.caId, ca.serialCounter = counter
  | .reread r _ written => ∀ ca ∈ s.ca? r.caId, ca.serialCounter = written
  | .store _ _ _ => True
  | .storeImport _ _ => True

instance (s : Server) (t : Task) : Decidable (t.Undisturbed s) := by
  unfold Task.Undisturbed
  split <;> infer_instance

/-- An import brings a serial that the counter has passed and that no request in flight holds. -/
def Undisturbed (w : World Server Task) : Label Request Input Event → Prop
  | .event _ => True
  | .request _ (.sign _) => True
  | .request _ (.importCertificate i) => ∀ ca ∈ w.shared.matchedCa i,
      w.shared.Passed ca.id i.serial ∧
        ∀ j u, w.tasks j = some u → u.holds ≠ some (ca.id, i.serial)
  | .advance i _ => ∀ t ∈ w.tasks i, t.Undisturbed w.shared

/-- All serials of a CA are distinct and not above its counter. -/
structure SerialsSound (s : Server) : Prop where
  distinct : (s.certificates.map fun c => (c.caId, c.serial)).Nodup
  passed : ∀ c ∈ s.certificates, s.Passed c.caId c.serial

/-- A serial that is held is free and not above the counter. -/
def Held (s : Server) (t : Task) : Prop :=
  ∀ caId serial, t.holds = some (caId, serial) → s.Free caId serial ∧ s.Passed caId serial

def HoldApart (t u : Task) : Prop := ∀ h, t.holds = some h → u.holds ≠ some h

variable {t : Task} {serial counter i : ℕ} {s' : Server}

theorem HoldApart.symm {u : Task} (h : HoldApart t u) : HoldApart u t :=
  fun x hu ht => h x ht hu

/-! ## What the commits change -/

theorem ca?_setCounter (caId' counter : ℕ) : (s.setCounter caId counter).ca? caId' =
    (s.ca? caId').map fun ca =>
      if ca.id = caId then { ca with serialCounter := counter } else ca := by
  have hid : ∀ ca : SshCa, SshCa.id { ca with serialCounter := counter } = ca.id := fun _ => rfl
  have h := find?_amend (p := fun ca : SshCa => ca.id = caId) hid s.cas caId'
  simpa [Server.ca?, Server.setCounter] using h

theorem Server.Passed.setCounter {caId' : ℕ}
    (hcounter : ∀ ca ∈ s.ca? caId, ca.serialCounter = counter) (h : s.Passed caId' serial) :
    (s.setCounter caId (counter + 1)).Passed caId' serial := by
  intro ca' hca'
  rw [ca?_setCounter] at hca'
  obtain ⟨ca, hca, rfl⟩ := Option.map_eq_some_iff.mp hca'
  have hserial := h ca hca
  split
  · next hid =>
    obtain rfl : caId' = caId := (find?_key hca).2.symm.trans hid
    have := hcounter ca hca
    show serial ≤ counter + 1
    omega
  · exact hserial

theorem passed_setCounter (counter : ℕ) : (s.setCounter caId counter).Passed caId counter := by
  intro ca' hca'
  rw [ca?_setCounter] at hca'
  obtain ⟨ca, hca, rfl⟩ := Option.map_eq_some_iff.mp hca'
  rw [if_pos (find?_key hca).2]

theorem SerialsSound.setCounter (h : SerialsSound s)
    (hcounter : ∀ ca ∈ s.ca? caId, ca.serialCounter = counter) :
    SerialsSound (s.setCounter caId (counter + 1)) where
  distinct := h.distinct
  passed := fun c hc => (h.passed c hc).setCounter hcounter

theorem SerialsSound.addCertificate (h : SerialsSound s) (validTo : ℤ)
    (hfree : s.Free caId serial) (hpassed : s.Passed caId serial) :
    SerialsSound (s.addCertificate caId serial validTo) where
  distinct := by
    refine nodup_concat h.distinct fun c hc heq => ?_
    obtain ⟨hca, hserial⟩ := Prod.mk.inj heq
    exact hfree c hc hca hserial
  passed := forall_mem_concat.mpr ⟨h.passed, hpassed⟩

/-- The serials of all certificates, each with its CA. -/
abbrev Server.serials (s : Server) : List (ℕ × ℕ) := s.certificates.map fun c => (c.caId, c.serial)

/-- Rows that go, or change in other columns, keep the serials apart. -/
theorem SerialsSound.of_sublist (h : SerialsSound s) (hcas : s'.cas = s.cas)
    (hsub : List.Sublist s'.serials s.serials) : SerialsSound s' where
  distinct := h.distinct.sublist hsub
  passed := by
    intro c hc
    obtain ⟨q, hq, heq⟩ := mem_map.mp (hsub.subset (mem_map_of_mem hc))
    obtain ⟨hca, hserial⟩ := Prod.mk.inj heq
    have hpassed := h.passed q hq
    simp only [Server.Passed, Server.ca?] at hpassed ⊢
    rwa [hcas, ← hca, ← hserial]

theorem Held.of_sublist (h : Held s t) (hcas : s'.cas = s.cas)
    (hsub : List.Sublist s'.serials s.serials) : Held s' t := by
  intro caId serial hholds
  obtain ⟨hfree, hpassed⟩ := h caId serial hholds
  refine ⟨?_, ?_⟩
  · intro c hc hca hserial
    obtain ⟨q, hq, heq⟩ := mem_map.mp (hsub.subset (mem_map_of_mem hc))
    obtain ⟨hqca, hqserial⟩ := Prod.mk.inj heq
    exact hfree q hq (hqca.trans hca) (hqserial.trans hserial)
  · simp only [Server.Passed, Server.ca?] at hpassed ⊢
    rwa [hcas]

theorem event_sublist (e : Event) : (s.event e).cas = s.cas ∧
    List.Sublist (s.event e).serials s.serials := by
  cases e with
  | tick seconds => exact ⟨rfl, List.Sublist.refl _⟩
  | revoke certId =>
    show (s.revoke certId).cas = s.cas ∧ List.Sublist ((s.revoke certId).certificates.map _) _
    unfold Server.revoke
    split
    · exact ⟨rfl, List.Sublist.refl _⟩
    · split
      · exact ⟨rfl, List.Sublist.refl _⟩
      · have hmap : (amend (fun c : SshCertificate => c.id = certId)
            (fun c => { c with revoked := true }) s.certificates).map
              (fun c => (c.caId, c.serial)) =
            s.certificates.map fun c => (c.caId, c.serial) := map_amend (by simp) _
        refine ⟨rfl, ?_⟩
        rw [hmap]
  | delete certId =>
    show (s.delete certId).cas = s.cas ∧ List.Sublist ((s.delete certId).certificates.map _) _
    unfold Server.delete
    split
    · exact ⟨rfl, List.Sublist.refl _⟩
    · split
      · exact ⟨rfl, List.Sublist.refl _⟩
      · exact ⟨rfl, filter_sublist.map _⟩

theorem Server.Free.addCertificate {caId' serial' : ℕ} (validTo : ℤ)
    (h : s.Free caId' serial') (hne : (caId, serial) ≠ (caId', serial')) :
    (s.addCertificate caId serial validTo).Free caId' serial' := by
  intro c hc hca hserial
  rcases mem_concat.mp hc with hc | rfl
  · exact h c hc hca hserial
  · exact hne (Prod.ext hca hserial)

theorem Held.addCertificate (validTo : ℤ) (h : Held s t)
    (hne : t.holds ≠ some (caId, serial)) : Held (s.addCertificate caId serial validTo) t := by
  intro caId' serial' hholds
  obtain ⟨hfree, hpassed⟩ := h caId' serial' hholds
  refine ⟨hfree.addCertificate validTo ?_, hpassed⟩
  intro heq
  rw [heq] at hne
  exact hne hholds

/-! ## One step -/

variable {w w' : World Server Task} {l : Label Request Input Event}

/-- The state of all requests: serials sound, held serials free, passed and apart. -/
abbrev Serialized (w : World Server Task) : Prop := System.Holds SerialsSound Held HoldApart w

theorem Serialized.start (h : Serialized w) {r : Request}
    (hl : Undisturbed w (.request i r)) (hstart : w.shared.start glob r = some t) :
    Serialized { w with tasks := Function.update w.tasks i (some t) } := by
  cases r with
  | sign r =>
    -- a signing that has read the counter holds nothing yet
    obtain ⟨ca, -, hask⟩ := Option.bind_eq_some_iff.mp hstart
    have hholds : t.holds = none := by
      split at hask
      · cases hask
        rfl
      · cases hask
    refine h.update HoldApart.symm h.shared ?_ ?_ fun _ hu => h.task hu
    · rintro v ⟨⟩ caId serial hv
      rw [hholds] at hv
      cases hv
    · rintro v j u ⟨⟩ - - x hv
      rw [hholds] at hv
      cases hv
  | importCertificate im =>
    obtain ⟨ca, hca, hask⟩ := Option.bind_eq_some_iff.mp hstart
    obtain ⟨hpassed, hnone⟩ := hl ca hca
    split at hask
    · cases hask
    · next hfree =>
      cases hask
      refine h.update HoldApart.symm h.shared ?_ ?_ fun _ hu => h.task hu
      · rintro v ⟨⟩ caId serial hv
        cases hv
        refine ⟨fun c hc hcaId hserial => hfree ?_, hpassed⟩
        exact any_eq_true.mpr ⟨c, hc, by simp [hcaId, hserial]⟩
      · rintro v j u ⟨⟩ - hu x hv
        cases hv
        exact hnone j u hu

/-- A request that ends, or goes on with the serial it has, while the serials stay sound. -/
theorem Serialized.advance (h : Serialized w) (ht : w.tasks i = some t)
    {t' : Option Task} (hs' : SerialsSound s')
    (hself : ∀ v, t' = some v → Held s' v ∧ (v.holds = t.holds ∨
      ∀ j u, w.tasks j = some u → HoldApart v u))
    (hother : ∀ u, Held w.shared u → HoldApart t u → Held s' u) :
    Serialized ⟨s', Function.update w.tasks i t'⟩ := by
  refine h.update HoldApart.symm hs' (fun hv => (hself _ hv).1) ?_ ?_
  · intro v j u hv hj hu
    rcases (hself v hv).2 with hsame | hnew
    · intro x hx
      rw [hsame] at hx
      exact h.apart hj.symm ht hu x hx
    · exact hnew j u hu
  · intro j u hj hu
    exact hother u (h.task hu) (h.apart hj.symm ht hu)

theorem Serialized.step_advance (h : Serialized w) (ht : w.tasks i = some t)
    (hl : t.Undisturbed w.shared) {pass : Input} {t' : Option Task}
    (hadv : w.shared.advance t pass = some (s', t')) :
    Serialized ⟨s', Function.update w.tasks i t'⟩ := by
  have hheld : Held w.shared t := h.task ht
  have hended : Serialized ⟨w.shared, Function.update w.tasks i none⟩ :=
    h.advance ht h.shared (by simp) fun u hu _ => hu
  cases t with
  | increment r validTo counter =>
    simp only [Server.advance] at hadv
    split at hadv
    · next hpass =>
      cases hadv
      rw [Bool.and_eq_true] at hpass
      obtain ⟨ca, hca⟩ := Option.isSome_iff_exists.mp hpass.2
      have hcounter : ∀ c ∈ w.shared.ca? r.caId, c.serialCounter = counter := hl
      have hnow : ca.serialCounter = counter := hcounter ca hca
      refine h.advance ht (h.shared.setCounter hcounter) ?_ ?_
      · rintro v ⟨⟩
        refine ⟨?_, .inr fun j u hu x hx hux => ?_⟩
        · rintro caId serial ⟨⟩
          refine ⟨?_, passed_setCounter _⟩
          intro c hc hcaId hserial
          have := h.shared.passed c hc ca (by rw [hcaId]; exact hca)
          omega
        · -- a serial held by another request is not above the counter
          cases hx
          have := (h.task hu _ _ hux).2 ca hca
          omega
      · intro u hu _ caId serial hholds
        obtain ⟨hfree, hpassed⟩ := hu caId serial hholds
        exact ⟨hfree, hpassed.setCounter hcounter⟩
    · cases hadv
      exact hended
  | reread r validTo written =>
    cases hadv
    refine h.advance ht h.shared ?_ fun u hu _ => hu
    intro v hv
    split at hv
    · obtain ⟨ca, hca, rfl⟩ := Option.map_eq_some_iff.mp hv
      have hwritten : ca.serialCounter = written := hl ca hca
      have hsame : (Task.store r validTo ca.serialCounter).holds =
          (Task.reread r validTo written).holds := by rw [hwritten]; rfl
      refine ⟨?_, .inl hsame⟩
      intro caId serial hholds
      exact hheld caId serial (hsame.symm.trans hholds)
    · cases hv
  | store r validTo serial =>
    cases hadv
    split
    · obtain ⟨hfree, hpassed⟩ := hheld r.caId serial rfl
      refine h.advance ht (h.shared.addCertificate validTo hfree hpassed) (by simp) ?_
      intro u hu hapart
      exact hu.addCertificate validTo (hapart _ rfl)
    · exact hended
  | storeImport caId im =>
    cases hadv
    split
    · obtain ⟨hfree, hpassed⟩ := hheld caId im.serial rfl
      refine h.advance ht (h.shared.addCertificate im.validTo hfree hpassed) (by simp) ?_
      intro u hu hapart
      exact hu.addCertificate im.validTo (hapart _ rfl)
    · exact hended

theorem Serialized.step (h : Serialized w) (hl : Undisturbed w l) :
    Serialized ((Server.system glob).step w l) := by
  have hsteps := (Server.system glob).step_steps w l
  generalize (Server.system glob).step w l = w' at hsteps
  cases hsteps with
  | idle | refused => exact h
  | @event e =>
    obtain ⟨hcas, hsub⟩ := event_sublist (s := w.shared) e
    exact ⟨h.shared.of_sublist hcas hsub, fun ht => (h.task ht).of_sublist hcas hsub, h.apart⟩
  | request hfree hstart => exact h.start hl hstart
  | advance ht hadv => exact h.step_advance ht (hl _ ht) hadv

/-- In every run where signings find the counter as they left it, and imports bring serials that the
counter has passed and nobody holds, no two certificates of a CA share a serial. -/
theorem serials_distinct {now : ℤ} {cas : List SshCa}
    (h : Reach (Server.system glob).step Undisturbed (World.initial (Server.init now cas)) w) :
    (w.shared.certificates.map fun c => (c.caId, c.serial)).Nodup := by
  have hinit : Serialized (World.initial (Server.init now cas)) :=
    ⟨⟨nodup_nil, by simp [World.initial, Server.init]⟩, by simp [World.initial],
      by simp [World.initial]⟩
  have hw : Serialized w := h.invariant (P := Serialized) hinit fun w l _ hw hl => hw.step hl
  exact hw.shared.distinct

/-- Undisturbed steps without imports. -/
def InTurn (w : World Server Task) : Label Request Input Event → Prop
  | .event _ => True
  | .request _ r => ∀ i, r ≠ .importCertificate i
  | .advance i _ => ∀ t ∈ w.tasks i, t.Undisturbed w.shared

theorem inTurn_sign (w : World Server Task) (task : ℕ) (r : SignRequest) :
    InTurn w (.request task (.sign r)) :=
  fun _ => nofun

instance InTurn.decidable (w : World Server Task) : ∀ l, Decidable (InTurn w l)
  | .event _ => .isTrue trivial
  | .request task (.sign r) => .isTrue (inTurn_sign w task r)
  | .request _ (.importCertificate i) => .isFalse fun h => h i rfl
  | .advance i _ => inferInstanceAs (Decidable (∀ t ∈ w.tasks i, _))

theorem InTurn.undisturbed (h : InTurn w l) : Undisturbed w l := by
  cases l with
  | event e => trivial
  | request i r =>
    cases r with
    | sign r => trivial
    | importCertificate im => exact absurd rfl (h im)
  | advance i pass => exact h

/-- Two signings, and the first certificate is revoked and deleted. -/
def deletedFirst : List (Label Request Input Event) :=
  signed 0 ++ signed 0 ++ [.event (.revoke 0), .event (.delete 0)]

def deletedImport : Import := ⟨"SHA256:ca", 1, 100, none⟩

theorem deletedImport_undisturbed :
    Undisturbed (ran deletedFirst) (.request 0 (.importCertificate deletedImport)) := by
  have hmatched : (ran deletedFirst).shared.matchedCa deletedImport =
      some { openCa with serialCounter := 2 } := by decide
  intro ca hca
  obtain rfl := Option.mem_unique hmatched hca
  constructor
  · show ∀ ca, (ran deletedFirst).shared.ca? 1 = some ca → 1 ≤ ca.serialCounter
    decide
  · -- nobody else is at work
    intro j u hu
    have hnone : (ran deletedFirst).tasks j = none := by
      cases j <;> rfl
    simp [hnone] at hu

/-- The deleted certificate is imported again. -/
theorem serials_distinct_imported :
    let w := ran (deletedFirst ++ [.request 0 (.importCertificate deletedImport), .advance 0 true])
    (w.shared.certificates.map fun c => (c.caId, c.serial)).Nodup ∧
      w.shared.certificates.map SshCertificate.serial = [2, 1] := by
  have hdeleted : Reach (Server.system fun _ _ => true).step InTurn
      (World.initial (Server.init 0 [openCa])) (ran deletedFirst) :=
    Reach.start.exec (by decide)
  have himported := (hdeleted.weaken fun _ _ => InTurn.undisturbed).next _
    deletedImport_undisturbed
  have hrun := himported.next (.advance 0 true) (InTurn.undisturbed (by decide))
  exact ⟨serials_distinct hrun, by decide⟩

/-- Two signings, each with a counter of its own; both read it again once both have written it. -/
def crossed : List (Label Request Input Event) :=
  [.request 0 (.sign anySign), .advance 0 true, .request 1 (.sign anySign), .advance 1 true,
    .advance 0 true, .advance 1 true, .advance 0 true, .advance 1 true]

theorem crossed_signings_share_serial :
    ((ran crossed).shared.certificates.map fun c => (c.caId, c.serial)) = [(1, 2), (1, 2)] := by
  decide

end UltimateCaManager.Ssh
