import UltimateCaManager.DnsUpdateListener
import UltimateCaManager.Guards
import Mathlib.Data.List.Dedup

/-!
# A confirmed row was asked for by the holder of its key

The update section is read twice, by the parser and by the prescan; the rows that an UPDATE is
accepted for come from the first reading and its classes from the second, and both read the same
records. An accepted UPDATE is always answered with NOERROR, and nothing else writes a row.
-/
namespace UltimateCaManager.DnsUpdate

open List

open Dns

/-! ## What an accepted UPDATE asks for -/

theorem exists_of_flatten_ok {ε α β : Type} {f : α → Except ε (List β)} {l : List α} {bs : List β}
    (h : (l.mapM f).map List.flatten = .ok bs) {b : β} (hb : b ∈ bs) :
    ∃ a ∈ l, ∃ part, f a = .ok part ∧ b ∈ part := by
  cases hl : l.mapM f with
  | error e => simp [hl, Except.map] at h
  | ok parts =>
    obtain rfl : parts.flatten = bs := by simpa [hl, Except.map] using h
    obtain ⟨part, hpart, hb⟩ := mem_flatten.mp hb
    obtain ⟨a, ha, hfa⟩ := Guards.exists_of_mapM_ok hl hpart
    exact ⟨a, ha, part, hfa, hb⟩

/-- The record adds, at the challenge name of the row, the value that the row expects. -/
structure Asks (rrset : RRset) (recordName value : List Char) : Prop where
  adds : rrset.deleting = none
  txt : rrset.rdtype = RdataType.txt
  challenge : (rrset.name.labels.head?.map fun l => l.map lowerByte) = some challengeLabel
  named : rrset.name.lowerText = recordName
  expected : ∃ rdata ∈ rrset.rdatas, txtValue rdata = some value

theorem mem_matched {rows : List ActiveRecord} {rdata : Rdata} {ids : List ℕ} {id : ℕ}
    (h : matched rows rdata = .ok ids) (hid : id ∈ ids) :
    ∃ row ∈ rows, row.rowId = id ∧ txtValue rdata = some row.txtValue := by
  unfold matched at h
  split at h
  · cases h
  · cases h
    obtain ⟨row, hrow, rfl⟩ := mem_map.mp hid
    obtain ⟨hmem, hvalue⟩ := mem_filter.mp hrow
    exact ⟨row, hmem, rfl, by simpa using hvalue⟩

theorem mem_authorizeRRset {snapshot : ActiveSnapshot} {scope : Option KeyScope} {raises : Bool}
    {rrset : RRset} {ids : List ℕ} {id : ℕ}
    (h : authorizeRRset snapshot scope raises rrset = .ok ids) (hid : id ∈ ids) :
    ∃ row ∈ snapshot.active, row.rowId = id ∧ Asks rrset row.recordName row.txtValue ∧
      ∃ granted ∈ scope, granted.allows row.acmeClientAccountId row.accountId = true := by
  unfold authorizeRRset at h
  split at h
  · cases h
  next hallowed =>
  split at h
  · cases h
    cases hid
  next hadds =>
  split at h
  · cases h
  split at h
  · cases h
  obtain ⟨rdata, hrdata, part, hpart, hid⟩ := exists_of_flatten_ok h hid
  obtain ⟨row, hrow, hrowId, hvalue⟩ := mem_matched hpart hid
  obtain ⟨hnamed, hscope⟩ := mem_filter.mp hrow
  obtain ⟨hactive, hname⟩ := mem_filter.mp hnamed
  have hdeleting : rrset.deleting = none := by simpa using hadds
  have hshape : rrset.rdtype = RdataType.txt ∧
      (rrset.name.labels.head?.map fun l => l.map lowerByte) = some challengeLabel := by
    simpa [isForbidden, hdeleting] using hallowed
  refine ⟨row, hactive, hrowId, ⟨hdeleting, hshape.1, hshape.2, ?_, rdata, hrdata, hvalue⟩, ?_⟩
  · exact (by simpa using hname : row.recordName = _).symm
  · cases scope with
    | none => cases hscope
    | some granted => exact ⟨granted, rfl, hscope⟩

theorem rdclass_of_prescan {zone : Name} {rrs : List RawRecord} (h : prescan zone rrs = none)
    {rr : RawRecord} (hrr : rr ∈ rrs) : rr.rdclass = RdataClass.internet ∨
      rr.rdclass = RdataClass.any ∨ rr.rdclass = RdataClass.none := by
  induction rrs with
  | nil => cases hrr
  | cons first rest ih =>
    unfold prescan at h
    split at h
    · cases h
    split at h
    · next hin =>
      rcases mem_cons.mp hrr with rfl | hrest
      · exact .inl hin
      · exact ih h hrest
    split at h
    · next hdelete =>
      split at h
      · cases h
      rcases mem_cons.mp hrr with rfl | hrest
      · exact .inr hdelete
      · exact ih h hrest
    · cases h

variable {lib : Library} {wire : Bytes} {msg : Message}

/-- An UPDATE is accepted with the response it began with, and for rows that its records ask for. -/
theorem accepted_of_update {view : UpdateView} {r r' : Response} {keyId : ℕ} {zone : List Char}
    {names : List (List Char)} {adds deletes : ℕ} {rowIds : List ℕ}
    (hmsg : lib.fromWire wire = some msg) (hup : isUpdate msg.flags = true)
    (h : update lib view wire msg r keyId = .ok (r', .accepted zone names adds deletes rowIds)) :
    r' = r ∧ ∀ id ∈ rowIds, ∃ rrset ∈ msg.authority, rrset.rdclass = RdataClass.internet ∧
      ∃ row ∈ view.snapshot.active, row.rowId = id ∧ Asks rrset row.recordName row.txtValue ∧
        ∃ scope, view.scope keyId = some scope ∧
          scope.allows row.acmeClientAccountId row.accountId = true := by
  unfold update at h
  split at h
  rotate_left
  · cases h
  next zrr hzone =>
  simp only at h
  iterate 5
    split at h
    · cases h
  split at h
  · cases h
  · cases h
  next ids hids =>
  split at h
  · cases h
  next rrs hrrs =>
  split at h
  · cases h
  next hscan =>
  obtain ⟨rfl, -, -, -, -, rfl⟩ := h
  refine ⟨rfl, fun id hid => ?_⟩
  rw [mem_insertionSort, mem_dedup] at hid
  obtain ⟨rrset, hrrset, part, hpart, hid⟩ := exists_of_flatten_ok hids hid
  obtain ⟨row, hrow, hrowId, hasks, scope, hscope, hallows⟩ := mem_authorizeRRset hpart hid
  obtain ⟨rrs', hrrs', hread⟩ := lib.authority_fromWire hmsg hup
  obtain rfl : rrs = rrs' := Option.mem_unique hrrs hrrs'
  obtain ⟨rr, hrr, hclass, hordinary⟩ := hread rrset hrrset hasks.adds
  refine ⟨rrset, hrrset, ?_, row, hrow, hrowId, hasks, scope, hscope, hallows⟩
  rw [← hclass]
  rcases rdclass_of_prescan hscan hrr with hin | hany | hnone
  · exact hin
  · exact absurd hany hordinary.1
  · exact absurd hnone hordinary.2

/-! ## The stages -/

theorem readRequest_eq_ok
    (h : readRequest lib wire = .ok msg) : lib.fromWire wire = some msg ∧
      (msg.opcode = Opcode.query ∨ msg.opcode = Opcode.update) := by
  unfold readRequest at h
  simp only at h
  iterate 5
    split at h
    · cases h
  split at h
  · cases h
  next hopcode =>
  split at h
  · cases h
  next msg' hmsg =>
  split at h
  · cases h
    rw [Message.opcode, lib.flags_fromWire hmsg]
    refine ⟨hmsg, ?_⟩
    by_cases hquery : opcodeOf (flagsOf wire) = Opcode.query
    · exact .inl hquery
    · by_contra hother
      exact hopcode ⟨hquery, fun hup => hother (.inr hup)⟩
  · cases h

/-- What goes on after the signature check, unless a response ends the request. -/
def Received.Follows (msg : Message) (result : TsigResult) : Received → Prop
  | .reply _ => True
  | .unsigned msg' => msg' = msg ∧ result = .unsigned
  | .signed msg' signer replayed => msg' = msg ∧
      ∃ owner, result = .ok owner signer.key signer.rdata replayed ∧
        signer.replayKey = replayKey owner signer.rdata

theorem settle_follows {d : Delivery} {faults : List Fault} {result : TsigResult} :
    (settle lib d msg faults result).1.Follows msg result := by
  have hreject : ∀ keyname reason render limit,
      (tsigError d msg keyname faults reason render limit).1.Follows msg result := by
    intro keyname reason render limit
    unfold tsigError
    split
    · trivial
    · split <;> trivial
  cases result with
  | formerr => trivial
  | unsigned =>
    simp only [settle]
    split
    · trivial
    · exact ⟨rfl, rfl⟩
  | ok owner key rdata replayed =>
    simp only [settle]
    split
    · trivial
    · exact ⟨rfl, owner, rfl, rfl⟩
  | badkey | badsig | badtime | badtrunc => exact hreject ..

/-- A signed request of the first stage; the stage leaves the tables alone. -/
structure Signed (lib : Library) (s : Listener) (d : Delivery) (faults : List Fault) (msg : Message)
    (signer : Signer) (replayed : Bool) (owner : Name) : Prop where
  message : lib.fromWire d.wire = some msg
  opcode : msg.opcode = Opcode.query ∨ msg.opcode = Opcode.update
  tsig : msg.tsig = some (owner, signer.rdata)
  known : (s.readKeys faults).lookup owner = some signer.key
  authentic : Authentic lib d.wire signer.key signer.rdata
  replayKey : signer.replayKey = DnsUpdate.replayKey owner signer.rdata
  replayed_eq : replayed = s.replay.seen s.now signer.replayKey
  verifies : replayed = false → Verifies lib d.wire d.seconds signer.key signer.rdata

theorem receive_eq_signed {s s' : Listener} {d : Delivery} {faults : List Fault} {signer : Signer}
    {replayed : Bool} (h : s.receive lib d faults = (s', .signed msg signer replayed)) :
    (∃ owner, Signed lib s d faults msg signer replayed owner) ∧
      s'.keys = s.readKeys faults := by
  unfold Listener.receive at h
  split at h
  · cases h
  next msg' hmsg =>
  split at h
  · cases h
  simp only [Prod.mk.injEq] at h
  obtain ⟨hread, hopcode⟩ := readRequest_eq_ok hmsg
  obtain ⟨rfl, owner, hok, hkey⟩ := h.2 ▸ settle_follows
  obtain ⟨htsig, hlookup, hauth, hreplayed, hverifies⟩ := verifies_of_ok hok
  refine ⟨⟨owner, hread, hopcode, htsig, hlookup, hauth, hkey, ?_, hverifies⟩, by rw [← h.1]⟩
  rw [hreplayed, hkey, replayKey?, htsig]
  rfl

section Stages

variable {lib : Library} {s s' : Listener} {d : Delivery} {faults : List Fault} {msg : Message}
  {signer : Signer} {replayed suppress : Bool} {event : Event}

/-- What no stage but the last one writes. -/
def Listener.tablesOf (s : Listener) : List ChallengeRow × KeyTables × ℕ :=
  (s.challenges.rows, s.keyTables, s.now)

theorem receive_tables (lib : Library) (s : Listener) (d : Delivery) (faults : List Fault) :
    (s.receive lib d faults).1.challenges = s.challenges ∧
      (s.receive lib d faults).1.tablesOf = s.tablesOf := by
  unfold Listener.receive
  split
  · exact ⟨rfl, rfl⟩
  · split <;> exact ⟨rfl, rfl⟩

theorem claim_tables (s : Listener) (d : Delivery) (signer : Signer) (replayed : Bool) :
    (s.claim d signer replayed).1.challenges = s.challenges ∧
      (s.claim d signer replayed).1.keys = s.keys ∧
      (s.claim d signer replayed).1.tablesOf = s.tablesOf := by
  unfold Listener.claim
  simp only
  split
  · exact ⟨rfl, rfl, rfl⟩
  · split <;> exact ⟨rfl, rfl, rfl⟩

theorem replayed_of_claim (h : s.claim d signer replayed = (s', .go suppress)) :
    suppress = false → replayed = false := by
  unfold Listener.claim at h
  simp only at h
  split at h
  · cases h
  · split at h
    · cases h
    · obtain rfl := Listener.Claim.go.inj (congrArg Prod.snd h)
      intro hsuppress
      exact (Bool.or_eq_false_iff.mp hsuppress).1

theorem process_rows (lib : Library) (s : Listener) (d : Delivery) (msg : Message)
    (signer : Option Signer) (faults : List Fault) :
    (s.process lib d msg signer faults).1.challenges.rows = s.challenges.rows := by
  have hrefreshed : (s.refreshed faults).challenges.rows = s.challenges.rows :=
    ChallengeStore.rows_ensure ..
  unfold Listener.process
  simp only
  split
  · exact hrefreshed
  · split
    · exact hrefreshed
    · unfold Listener.store
      split <;> exact hrefreshed

theorem close_rows (s : Listener) (d : Delivery) (signer : Signer) (suppress : Bool) (event : Event)
    (faults : List Fault) :
    (s.close d signer suppress event faults).challenges.rows = s.challenges.rows ∨
      ∃ zone names adds deletes rowIds, suppress = false ∧
        event = .accepted zone names adds deletes rowIds ∧
        (s.close d signer suppress event faults).challenges.rows =
          s.challenges.rows.map (ChallengeStore.confirm rowIds d.now) := by
  cases suppress with
  | true => exact .inl rfl
  | false =>
    cases event with
    | none | refused => exact .inl rfl
    | accepted zone names adds deletes rowIds =>
      have htouch : ∀ s' : Listener, (s'.touch signer.key.keyId d.now faults).challenges =
          s'.challenges := by
        intro s'
        unfold Listener.touch
        split <;> rfl
      by_cases hskip : rowIds = [] ∨ .commit ∈ faults
      · simp [Listener.close, Listener.sideEffects, htouch, Listener.confirm, hskip]
      · simp [Listener.close, Listener.sideEffects, htouch, Listener.confirm, hskip]

/-- The octets are a response with the code NOERROR, perhaps with a signature. -/
def IsNoerror (lib : Library) (out : Bytes) : Prop :=
  ∃ r maxSize body, r.rcode = Rcode.noerror ∧ lib.toWire r maxSize = some body ∧
    (out = body ∨ ∃ owner t, out = appendTsig body owner t)

variable {r : Response} {a : Algorithm}

theorem respond_event
    (h : s.respond lib d msg (some signer) faults = .ok (r, event)) (hevent : event ≠ .none) :
    msg.opcode ≠ Opcode.query ∧
      update lib (s.view faults) d.wire msg (skeleton msg) signer.key.keyId = .ok (r, event) := by
  unfold Listener.respond at h
  split at h
  · cases h
    exact absurd rfl hevent
  split at h
  · simp only [Except.map] at h
    split at h
    · cases h
    · cases h
      exact absurd rfl hevent
  next hquery => exact ⟨hquery, h⟩

theorem process_event {out : Option Bytes}
    (h : s.process lib d msg (some signer) faults = (s', event, out)) (hevent : event ≠ .none) :
    ∃ r, (s.refreshed faults).respond lib d msg (some signer) faults = .ok (r, event) ∧
      renderSigned lib r signer.key signer.rdata d.seconds (signedLimit d msg) = .ok out ∧
      s' = (s.refreshed faults).store d (some signer) out := by
  unfold Listener.process at h
  simp only at h
  split at h
  · cases h
    exact absurd rfl hevent
  next r event' hrespond =>
  split at h
  · cases h
    exact absurd rfl hevent
  next out' hrender =>
  obtain ⟨rfl, rfl, rfl⟩ := h
  refine ⟨r, hrespond, ?_, rfl⟩
  unfold Listener.render at hrender
  split at hrender
  · cases hrender
  · exact hrender

theorem response_of_update {view : UpdateView} {wire : Bytes} {r' : Response} {keyId : ℕ}
    (h : update lib view wire msg r keyId = .ok (r', event)) :
    ∃ rcode, r' = { r with rcode := rcode } := by
  unfold update at h
  simp only at h
  repeat' split at h
  all_goals first
    | (cases h; done)
    | (obtain rfl := congrArg Prod.fst (Except.ok.inj h); exact ⟨_, rfl⟩)

theorem signedLimit_ge (d : Delivery) (msg : Message) : ∀ n ∈ signedLimit d msg, 512 ≤ n := by
  intro n hn
  unfold signedLimit at hn
  split at hn
  · cases hn
  · obtain rfl := Option.some.inj hn
    exact Nat.le_max_left ..

theorem renderSigned_of_update {rcode : ℕ}
    (hup : msg.opcode = Opcode.update) (hkey : Algorithm.ofName? signer.key.algorithm = some a)
    (hr : r = { skeleton msg with rcode := rcode }) :
    ∃ body t, lib.toWire r (wireLimit - tsigReserve) = some body ∧
      renderSigned lib r signer.key signer.rdata d.seconds (signedLimit d msg) =
        .ok (some (appendTsig body signer.key.name t)) := by
  have hbare : r.IsBare := by
    rw [hr]
    exact ⟨if_pos hup, rfl, rfl⟩
  exact renderSigned_of_bare lib d.seconds hbare hkey (signedLimit_ge d msg)

/-- A record of the update section asks for the row, and the key has the scope. -/
def Permits (keys : KeyStore) (keyId : ℕ) (msg : Message) (row : ChallengeRow) : Prop :=
  (∃ rrset ∈ msg.authority, rrset.rdclass = RdataClass.internet ∧
    Asks rrset row.recordName row.txtValue) ∧
  ∃ scope, keys.scope keyId = some scope ∧
    scope.allows row.acmeClientAccountId row.accountId = true

theorem accepted_of_process {out : Option Bytes} {zone : List Char} {names : List (List Char)}
    {adds deletes : ℕ} {rowIds : List ℕ}
    (hmsg : lib.fromWire d.wire = some msg)
    (hopcode : msg.opcode = Opcode.query ∨ msg.opcode = Opcode.update)
    (hkey : Algorithm.ofName? signer.key.algorithm = some a)
    (h : s.process lib d msg (some signer) faults =
      (s', .accepted zone names adds deletes rowIds, out)) :
    msg.opcode = Opcode.update ∧ (∃ bytes, out = some bytes ∧ IsNoerror lib bytes) ∧
      ∀ row ∈ s.challenges.rows, row.id ∈ rowIds →
        Permits (s.readKeys faults) signer.key.keyId msg row := by
  obtain ⟨r, hrespond, hrender, -⟩ := process_event h (by simp)
  obtain ⟨hquery, hupdate⟩ := respond_event hrespond (by simp)
  have hup : msg.opcode = Opcode.update := hopcode.resolve_left hquery
  obtain ⟨rfl, hids⟩ := accepted_of_update hmsg (decide_eq_true hup) hupdate
  refine ⟨hup, ?_, ?_⟩
  · obtain ⟨body, t, hbody, ht⟩ := renderSigned_of_update (r := skeleton msg) hup hkey rfl
    exact ⟨_, Except.ok.inj (hrender.symm.trans ht), skeleton msg, _, body, rfl, hbody,
      .inr ⟨_, t, rfl⟩⟩
  · intro row hrow hid
    obtain ⟨rrset, hrrset, hclass, record, hrecord, hrowId, hasks, hscope⟩ := hids row.id hid
    -- the snapshot may be old, but what it says of a row is what the table says
    have hagrees : row.toRecord = record := (s.refreshed faults).challenges.agrees record hrecord row
      (by rw [Listener.refreshed, ChallengeStore.rows_ensure]; exact hrow) hrowId.symm
    subst hagrees
    exact ⟨⟨rrset, hrrset, hclass, hasks⟩, hscope⟩

/-- Steps 7 to 11 change no row, or confirm permitted ones and answer with NOERROR. -/
theorem complete_rows (hmsg : lib.fromWire d.wire = some msg)
    (hopcode : msg.opcode = Opcode.query ∨ msg.opcode = Opcode.update)
    (hkey : Algorithm.ofName? signer.key.algorithm = some a) :
    (s.complete lib d msg signer suppress faults).1.challenges.rows = s.challenges.rows ∨
      suppress = false ∧ msg.opcode = Opcode.update ∧
      (∃ bytes, (s.complete lib d msg signer suppress faults).2 = some bytes ∧ IsNoerror lib bytes) ∧
      ∃ rowIds, (s.complete lib d msg signer suppress faults).1.challenges.rows =
          s.challenges.rows.map (ChallengeStore.confirm rowIds d.now) ∧
        ∀ row ∈ s.challenges.rows, row.id ∈ rowIds →
          Permits (s.readKeys faults) signer.key.keyId msg row := by
  have hrows := process_rows lib s d msg (some signer) faults
  unfold Listener.complete
  generalize hprocess : s.process lib d msg (some signer) faults = result at hrows
  obtain ⟨s', event, out⟩ := result
  rcases close_rows s' d signer suppress event faults with
    hsame | ⟨zone, names, adds, deletes, rowIds, hsuppress, rfl, hconfirmed⟩
  · exact .inl (hsame.trans hrows)
  · obtain ⟨hup, hout, hpermits⟩ := accepted_of_process hmsg hopcode hkey hprocess
    exact .inr ⟨hsuppress, hup, hout, rowIds, hconfirmed.trans (by rw [hrows]), hpermits⟩

end Stages

/-! ## A whole request -/

/-- The message is an UPDATE with a signature that verified under a key of the store whose scope
allows the row, and adds the value of the row at its challenge name. -/
def Confirms (lib : Library) (keys : KeyStore) (wire : Bytes) (now : ℕ) (row : ChallengeRow) :
    Prop :=
  ∃ msg owner rdata key, lib.fromWire wire = some msg ∧ msg.opcode = Opcode.update ∧
    msg.tsig = some (owner, rdata) ∧ keys.lookup owner = some key ∧
    Verifies lib wire now key rdata ∧ Permits keys key.keyId msg row

section Handle

variable (lib : Library) (s : Listener) (wire : Bytes) (transport : Transport) (faults : List Fault)

/-- A request ends early with the rows as they were, or goes on to its processing. -/
theorem handle_cases : (s.handle lib wire transport faults).1.challenges.rows = s.challenges.rows ∨
      ∃ (s' : Listener) (msg : Message) (signer : Signer) (replayed suppress : Bool) (owner : Name),
        Signed lib s ⟨wire, transport, s.now⟩ faults msg signer replayed owner ∧
        (suppress = false → replayed = false) ∧ s'.challenges = s.challenges ∧
        s'.readKeys faults = s.readKeys faults ∧
        s.handle lib wire transport faults =
          s'.complete lib ⟨wire, transport, s.now⟩ msg signer suppress faults := by
  unfold Listener.handle
  generalize (⟨wire, transport, s.now⟩ : Delivery) = d
  have hreceive := receive_tables lib s d faults
  simp only
  split
  next s₁ out hreceived =>
    rw [hreceived] at hreceive
    exact .inl (congrArg ChallengeStore.rows hreceive.1)
  next s₁ msg hreceived =>
    rw [hreceived] at hreceive
    exact .inl ((process_rows lib s₁ d msg none faults).trans
      (congrArg ChallengeStore.rows hreceive.1))
  next s₁ msg signer replayed hreceived =>
  rw [hreceived] at hreceive
  obtain ⟨⟨owner, hsigned⟩, hkeys⟩ := receive_eq_signed hreceived
  split
  next s₂ out hlookUp =>
    obtain rfl := congrArg Prod.fst hlookUp
    exact .inl (congrArg ChallengeStore.rows hreceive.1)
  next s₂ hlookUp =>
  obtain rfl := congrArg Prod.fst hlookUp
  have hclaimed := claim_tables (s₁.lookUp d signer).1 d signer replayed
  split
  next s₃ out hclaim =>
    rw [hclaim] at hclaimed
    exact .inl (congrArg ChallengeStore.rows (hclaimed.1.trans hreceive.1))
  next s₃ suppress hclaim =>
    rw [hclaim] at hclaimed
    refine .inr ⟨s₃, msg, signer, replayed, suppress, owner, hsigned, ?_,
      hclaimed.1.trans hreceive.1, ?_, rfl⟩
    · exact replayed_of_claim hclaim
    · have htables := hclaimed.2.2.trans hreceive.2
      simp only [Listener.tablesOf, Prod.mk.injEq] at htables
      have hstore : s₃.keys = s.readKeys faults := hclaimed.2.1.trans hkeys
      rw [Listener.readKeys, hstore, Listener.tables, htables.2.1, htables.2.2]
      exact KeyStore.ensure_ensure ..

theorem handle_rows :
    let handled := s.handle lib wire transport faults
    handled.1.challenges.rows = s.challenges.rows ∨
      (∃ out, handled.2 = some out ∧ IsNoerror lib out) ∧
      ∃ rowIds, handled.1.challenges.rows =
          s.challenges.rows.map (ChallengeStore.confirm rowIds s.now) ∧
        ∀ row ∈ s.challenges.rows, row.id ∈ rowIds →
          Confirms lib (s.readKeys faults) wire (s.now / second) row := by
  intro handled
  rcases handle_cases lib s wire transport faults with hsame |
    ⟨s', msg, signer, replayed, suppress, owner, hsigned, hnew, hchallenges, hkeys, hhandle⟩
  · exact .inl hsame
  · obtain ⟨a, last, hkey, hauthentic⟩ := hsigned.authentic
    rw [show handled = _ from hhandle, ← hchallenges, ← hkeys]
    rcases complete_rows hsigned.message hsigned.opcode hkey with hsame |
      ⟨hsuppress, hup, hout, rowIds, hrows, hpermits⟩
    · exact .inl hsame
    · refine .inr ⟨hout, rowIds, hrows, ?_⟩
      intro row hrow hid
      refine ⟨msg, owner, signer.rdata, signer.key, hsigned.message, hup, hsigned.tsig, ?_,
        hsigned.verifies (hnew hsuppress), hpermits row hrow hid⟩
      rw [hkeys]
      exact hsigned.known

end Handle

/-- For every message, state of the listener and faults: a row changes only if the request confirms
it, and no row changes unless the response is NOERROR. -/
theorem confirmed_only_if_entitled (lib : Library) (s : Listener) (wire : Bytes)
    (transport : Transport) (faults : List Fault) :
    (∀ row ∈ s.challenges.rows, ∀ row' ∈ (s.handle lib wire transport faults).1.challenges.rows,
      row'.id = row.id → row' ≠ row →
        Confirms lib (s.readKeys faults) wire (s.now / second) row) ∧
    ((¬ ∃ out, (s.handle lib wire transport faults).2 = some out ∧ IsNoerror lib out) →
      (s.handle lib wire transport faults).1.challenges.rows = s.challenges.rows) := by
  have hunique : ∀ row ∈ s.challenges.rows, ∀ row' ∈ s.challenges.rows, row'.id = row.id →
      row' = row :=
    fun row hrow row' hrow' h => inj_on_of_nodup_map s.challenges.unique hrow' hrow h
  rcases handle_rows lib s wire transport faults with hsame | ⟨hout, rowIds, hrows, hconfirms⟩
  · rw [hsame]
    refine ⟨?_, fun _ => rfl⟩
    intro row hrow row' hrow' hid hne
    exact absurd (hunique row hrow row' hrow' hid) hne
  · refine ⟨?_, fun hnot => absurd hout hnot⟩
    intro row hrow row' hrow' hid hne
    rw [hrows] at hrow'
    obtain ⟨old, hold, rfl⟩ := mem_map.mp hrow'
    have hsameId : (ChallengeStore.confirm rowIds s.now old).id = old.id := by
      unfold ChallengeStore.confirm
      split <;> rfl
    obtain rfl : old = row := hunique row hrow old hold (hsameId ▸ hid)
    apply hconfirms old hold
    by_contra hnot
    exact hne (if_neg hnot)

/-! ## An example -/

def plainLabels (wire : Bytes) : ℕ → Reader (List Bytes)
  | 0 => failure
  | fuel + 1 => do
    let count ← uintAt wire 1
    if count = 0 then return []
    let label ← bytesAt wire count
    return label :: (← plainLabels wire fuel)

/-- A name that is not compressed. -/
def plainNameAt (wire : Bytes) : Reader Name := do
  Name.ofLabels? (← plainLabels wire 128)

def tsigAt (wire : Bytes) : Reader Tsig := do
  let algorithm ← plainNameAt wire
  let timeSigned ← uintAt wire 6
  let fudge ← uintAt wire 2
  let mac ← bytesAt wire (← uintAt wire 2)
  let originalId ← uintAt wire 2
  let error ← uintAt wire 2
  let other ← bytesAt wire (← uintAt wire 2)
  return ⟨algorithm, timeSigned, fudge, mac, originalId, error, other⟩

def tsigOf (wire : Bytes) : Option (Name × Tsig) := do
  let last ← lastRrHeader plainNameAt wire
  if last.rdtype ≠ RdataType.tsig then none
  let (t, _) ← tsigAt wire last.start
  some (last.name, t)

/-- A TXT record of one string. -/
def txtRRset (wire : Bytes) (rr : RawRecord) : RRset :=
  ⟨rr.name, rr.rdclass, rr.rdtype, none, [.txt [(wire.drop (rr.start + 1)).take (rr.rdlen - 1)]]⟩

/-- A library that reads and writes just what the examples need: of the update section the records
of class IN, of a response the header. The sum of the octets stands in place of a MAC. -/
def checksumLibrary : Library where
  fromWire wire := do
    let (h, pos) ← headerAt wire 0
    let (question, _) ← repeatAt (questionAt plainNameAt wire) h.qd pos
    let rrs ← updateRrs plainNameAt wire
    some ⟨h.id, flagsOf wire, question, [],
      (rrs.filter (·.rdclass = RdataClass.internet)).map (txtRRset wire), [], none, tsigOf wire⟩
  nameAt := plainNameAt
  fromText _ := none
  toWire r _ := some (uint 2 r.id ++ uint 10 r.rcode)
  toWireForRequest r := some (uint 2 r.id ++ uint 10 r.rcode)
  mac key wire _ _ _ := List.replicate
    (((Algorithm.ofName? key.algorithm).map Algorithm.digestSize).getD 0)
    ((key.secret ++ wire).foldl (· + ·) 0)
  flags_fromWire h := by
    simp only [Option.bind_eq_bind, Option.bind_eq_some_iff, Option.some.injEq] at h
    obtain ⟨_, _, _, _, _, _, rfl⟩ := h
    rfl
  authority_fromWire h _ := by
    simp only [Option.bind_eq_bind, Option.bind_eq_some_iff, Option.some.injEq] at h
    obtain ⟨_, _, _, _, rrs, hrrs, rfl⟩ := h
    refine ⟨rrs, hrrs, fun r hr _ => ?_⟩
    obtain ⟨rr, hrr, rfl⟩ := mem_map.mp hr
    obtain ⟨hmem, hclass⟩ := mem_filter.mp hrr
    have hin : rr.rdclass = RdataClass.internet := by simpa using hclass
    exact ⟨rr, hmem, rfl, by rw [hin]; decide, by rw [hin]; decide⟩
  toWire_bare _ _ := ⟨_, rfl, by simp, by simp⟩
  length_mac _ _ _ _ h := by simp [h]

def exampleZone : Name := ⟨[ascii "example", ascii "org"], by decide⟩

def challengeName : Name := ⟨[ascii "_acme-challenge", ascii "example", ascii "org"], by decide⟩

def keyName : Name := ⟨[ascii "key"], by decide⟩

def exampleKey : TsigKeyMaterial := ⟨1, keyName, Algorithm.hmacSha256.name, ascii "secret"⟩

/-- An UPDATE that adds a TXT record with the value. -/
def updateAdding (value : Bytes) : Bytes :=
  uint 2 7 ++ uint 2 0x2800 ++ uint 2 1 ++ uint 2 0 ++ uint 2 1 ++ uint 2 0 ++
    exampleZone.wire ++ uint 2 6 ++ uint 2 1 ++
    challengeName.wire ++ uint 2 16 ++ uint 2 1 ++ uint 4 60 ++ uint 2 (value.length + 1) ++
    UInt8.ofNat value.length :: value

def signedAt (timeSigned : ℕ) (body : Bytes) : Bytes :=
  match signAndAppend checksumLibrary body exampleKey
    ⟨exampleKey.algorithm, timeSigned, maxFudge, [], 7, 0, []⟩ timeSigned [] with
  | .ok wire => wire
  | .error _ => []

def exampleRow : ChallengeRow :=
  ⟨0, 5, some 3, some ['a'], "_acme-challenge.example.org.".toList, ['v'], "example.org.".toList,
    true, 10 ^ 15, none⟩

def exampleListener : Listener where
  now := 1000 * second
  keyTables := ⟨[⟨1, 3, none, false, some keyName, some exampleKey.algorithm,
    some exampleKey.secret, true⟩], [3], []⟩
  domains := [exampleZone]
  orders := [(5, true)]
  keys := .empty
  zones := .empty
  challenges := ChallengeStore.empty.insert exampleRow
  watermark := []
  replay := .empty
  lastUsedAt := []
  audits := []

def confirmedRow : ChallengeRow := { exampleRow with clientConfirmedAt := some (1000 * second) }

theorem exampleRow_confirmed :
    (exampleListener.handle checksumLibrary (signedAt 1000 (updateAdding (ascii "v"))) .udp
      []).1.challenges.rows = [confirmedRow] ∧
    Confirms checksumLibrary (exampleListener.readKeys []) (signedAt 1000 (updateAdding (ascii "v")))
      1000 exampleRow := by
  have hrows : (exampleListener.handle checksumLibrary (signedAt 1000 (updateAdding (ascii "v"))) .udp
      []).1.challenges.rows = [confirmedRow] := by decide +kernel
  refine ⟨hrows, ?_⟩
  exact (confirmed_only_if_entitled checksumLibrary exampleListener
    (signedAt 1000 (updateAdding (ascii "v"))) .udp []).1 exampleRow (by decide +kernel) confirmedRow
    (by rw [hrows]; exact mem_singleton.mpr rfl) rfl (by decide)

end UltimateCaManager.DnsUpdate
