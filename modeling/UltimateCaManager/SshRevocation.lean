import UltimateCaManager.SshAuthority

/-!
# Revoked SSH certificates stay revoked

A KRL lists what the revoked rows say, so a revocation lasts as long as its row.
-/
namespace UltimateCaManager.Ssh

open List Concurrency Runs Tables

variable {glob : String → String → Bool} {s : Server}

/-- A revoked certificate that can still be used is not deleted. -/
def KeepsRevoked (w : World Server Task) : Label Request Input Event → Prop
  | .event (.delete certId) => ∀ c ∈ w.shared.certificates, c.id = certId → c.revoked = true →
      c.validTo ≤ w.shared.now
  | _ => True

instance (w : World Server Task) (l : Label Request Input Event) : Decidable (KeepsRevoked w l) := by
  unfold KeepsRevoked
  split <;> infer_instance

/-- A revoked row says what was revoked. -/
def Revocation.Listed (r : Revocation) (c : SshCertificate) : Prop :=
  c.revoked = true ∧ c.caId = r.caId ∧ c.serial = r.serial ∧ c.validTo = r.validTo

/-- Every revocation has its row, or the certificate has ended. -/
def RevocationsKept (s : Server) : Prop :=
  ∀ r ∈ s.revocations, r.validTo ≤ s.now ∨ ∃ c ∈ s.certificates, r.Listed c

/-- Rows that stay revoked, while time passes, keep the revocations. -/
theorem RevocationsKept.mono {s' : Server} (h : RevocationsKept s)
    (hrev : s'.revocations = s.revocations) (hnow : s.now ≤ s'.now)
    (hrows : ∀ c ∈ s.certificates, c.revoked = true → c.validTo ≤ s'.now ∨ c ∈ s'.certificates) :
    RevocationsKept s' := by
  intro r hr
  rw [hrev] at hr
  rcases h r hr with hend | ⟨c, hc, hlisted⟩
  · exact .inl (Int.le_trans hend hnow)
  · rcases hrows c hc hlisted.1 with hend | hc'
    · left
      rw [← hlisted.2.2.2]
      exact hend
    · exact .inr ⟨c, hc', hlisted⟩

theorem RevocationsKept.revoke (h : RevocationsKept s) (certId : ℕ) :
    RevocationsKept (s.revoke certId) := by
  unfold Server.revoke
  split
  · exact h
  · next c hfound =>
    split
    · exact h
    · obtain ⟨hc, hid⟩ := find?_key hfound
      intro r hr
      rcases mem_concat.mp hr with hr | rfl
      · rcases h r hr with hend | ⟨q, hq, hlisted⟩
        · exact .inl hend
        · right
          by_cases hqid : q.id = certId
          · refine ⟨{ q with revoked := true }, ?_, rfl, hlisted.2⟩
            exact mem_map.mpr ⟨q, hq, by simp [hqid]⟩
          · exact ⟨q, mem_map.mpr ⟨q, hq, by simp [hqid]⟩, hlisted⟩
      · refine .inr ⟨{ c with revoked := true }, ?_, rfl, rfl, rfl, rfl⟩
        exact mem_map.mpr ⟨c, hc, by simp [hid]⟩

theorem RevocationsKept.delete (h : RevocationsKept s) {certId : ℕ}
    (hkeeps : ∀ c ∈ s.certificates, c.id = certId → c.revoked = true → c.validTo ≤ s.now) :
    RevocationsKept (s.delete certId) := by
  unfold Server.delete
  split
  · exact h
  · split
    · exact h
    · refine h.mono rfl (Int.le_refl _) fun c hc hrevoked => ?_
      by_cases hid : c.id = certId
      · exact .inl (hkeeps c hc hid hrevoked)
      · exact .inr (mem_filter.mpr ⟨hc, by simpa using hid⟩)

theorem RevocationsKept.addCertificate (h : RevocationsKept s) (caId serial : ℕ) (validTo : ℤ) :
    RevocationsKept (s.addCertificate caId serial validTo) :=
  h.mono rfl (Int.le_refl _) fun _ hc _ => .inr (mem_append_left _ hc)

theorem RevocationsKept.advance (h : RevocationsKept s) {t : Task} {pass : Input} {s' : Server}
    {t' : Option Task} (hadv : s.advance t pass = some (s', t')) : RevocationsKept s' := by
  cases t with
  | increment r validTo counter =>
    simp only [Server.advance] at hadv
    split at hadv
    · cases hadv
      exact h
    · cases hadv
      exact h
  | reread r validTo written =>
    simp only [Server.advance, Option.some.injEq, Prod.mk.injEq] at hadv
    rw [← hadv.1]
    exact h
  | store | storeImport =>
    simp only [Server.advance, Option.some.injEq, Prod.mk.injEq] at hadv
    rw [← hadv.1]
    split
    · exact h.addCertificate _ _ _
    · exact h

theorem revocationsKept_inductive : System.Inductive (Server.system glob) KeepsRevoked
    RevocationsKept (fun _ _ => True) (fun _ _ => True) where
  symm := fun _ => trivial
  event := by
    intro w e hguard h
    refine ⟨?_, fun _ => trivial⟩
    cases e with
    | tick seconds =>
      refine h.mono rfl ?_ fun c hc _ => .inr hc
      show w.shared.now ≤ w.shared.now + seconds
      omega
    | revoke certId => exact h.revoke certId
    | delete certId => exact h.delete hguard
  start := fun _ _ _ => ⟨trivial, fun _ => trivial⟩
  advance := fun _ h _ _ hadv =>
    ⟨h.advance hadv, fun _ => ⟨trivial, fun _ _ => trivial⟩, fun _ _ => trivial⟩

/-- In every run that deletes no revoked certificate before its end, every KRL lists the serials of
the CA's certificates that were revoked and have not ended. -/
theorem revoked_serials_listed {now : ℤ} {cas : List SshCa} {w : World Server Task}
    (h : Reach (Server.system glob).step KeepsRevoked (World.initial (Server.init now cas)) w)
    {caId : ℕ} {krl : List ℕ} (hkrl : w.shared.generateKrl caId = some krl) :
    ∀ r ∈ w.shared.revocations, r.caId = caId → w.shared.now < r.validTo → r.serial ∈ krl := by
  intro r hr hca hlive
  have hkept : RevocationsKept w.shared :=
    (revocationsKept_inductive.reach (by simp [RevocationsKept, Server.init]) h).shared
  obtain ⟨ca, hfound, rfl⟩ := Option.map_eq_some_iff.mp hkrl
  rcases hkept r hr with hend | ⟨c, hc, hrevoked, hcaId, hserial, -⟩
  · omega
  · refine mem_map.mpr ⟨c, mem_filter.mpr ⟨hc, ?_⟩, hserial⟩
    simp [hrevoked, hcaId, hca, (find?_key hfound).2]

/-- A CA that signs for anybody, for a day. -/
def openCa : SshCa := ⟨1, "SHA256:ca", "ca", .user, 0, 0, 0, [], [], true, false⟩

def anySign : SignRequest := ⟨1, .user, ["root"], none, none, none⟩

def signed (task : ℕ) : List (Label Request Input Event) :=
  [.request task (.sign anySign), .advance task true, .advance task true, .advance task true]

def ran (ls : List (Label Request Input Event)) : World Server Task :=
  exec (Server.system fun _ _ => true).step (World.initial (Server.init 0 [openCa])) ls

theorem revoked_serial_listed_while_kept :
    (∀ r ∈ (ran (signed 0 ++ [.event (.revoke 0)])).shared.revocations, r.caId = 1 →
      (ran (signed 0 ++ [.event (.revoke 0)])).shared.now < r.validTo → r.serial ∈ [1]) ∧
      (ran (signed 0 ++ [.event (.revoke 0)])).shared.revocations = [⟨1, 1, 86400⟩] :=
  ⟨revoked_serials_listed (Reach.start.exec (by decide)) (by decide), by decide⟩

theorem deleted_certificate_not_listed :
    (ran (signed 0 ++ [.event (.revoke 0), .event (.delete 0)])).shared.revocations =
        [⟨1, 1, 86400⟩] ∧
      (ran (signed 0 ++ [.event (.revoke 0), .event (.delete 0)])).shared.now = 0 ∧
      (ran (signed 0 ++ [.event (.revoke 0), .event (.delete 0)])).shared.generateKrl 1 =
        some [] := by
  decide

end UltimateCaManager.Ssh
