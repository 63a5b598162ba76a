import UltimateCaManager.AuditCompleteness
import Mathlib.Data.List.TakeWhile

/-!
# What an intact report says about a table that was tampered with

Under the current key, the entries from the first one that it seals on are a run of the entries
that the server wrote, unchanged: a seal cannot be forged, and each entry names the one before it.
The run starts at the first of them, or not after the boundary of a purge that it holds the record
of.
-/
namespace UltimateCaManager.Audit

open List Ascending Runs

variable {S : Sealing} {key : Option ℕ} {k : ℕ} {a b log : AuditLog}
  {rows table : List AuditLog}

/-! ## Assumptions -/

/-- The seals of a key determine what they seal, and are told from other hashes. -/
structure Ideal (S : Sealing) (k : ℕ) : Prop where
  hmac_injective : Function.Injective (S.hmac k)
  dumps_injective : Function.Injective S.dumps
  rotationText_injective : Function.Injective S.rotationText
  isoformat_injective : Function.Injective S.isoformat
  hmac_ne_genesis : ∀ message, S.hmac k message ≠ genesis
  hmac_ne_sha256 : ∀ message data, S.hmac k message ≠ S.sha256 data

/-- Every seal of the key that the table holds is one that the server computed. -/
def Unforged (S : Sealing) (k : ℕ) (written table : List AuditLog) : Prop :=
  ∀ log ∈ table, ∀ message, log.entryHash = some (S.hmac k message) →
    ∃ other ∈ written, underKey S (some k) other ∧ other.entryHash = log.entryHash

/-- The entries from the first one that the key seals on. -/
def keyedPart (S : Sealing) (k : ℕ) (table : List AuditLog) : List AuditLog :=
  table.dropWhile fun log => !log.keyed S (some k)

/-! ## Seals determine entries -/

theorem Json.ofText_injective : Function.Injective Json.ofText := by
  intro a b h
  cases a <;> cases b <;> simp_all [Json.ofText]

theorem Json.ofInt_injective : Function.Injective Json.ofInt := by
  intro a b h
  cases a <;> cases b <;> simp_all [Json.ofInt]

theorem Json.ofBool_injective : Function.Injective Json.ofBool := by
  intro a b h
  cases a <;> cases b <;> simp_all [Json.ofBool]

theorem keyed_spec (h : log.keyed S (some k)) :
    log.hashVersion = some keyedChain ∧
      log.entryHash = some (S.hmac k (S.dumps (log.message S log.prevHash))) := by
  have hc : log.classify S (some k) = some .keyed := by simpa [AuditLog.keyed] using h
  obtain ⟨entryHash, hh⟩ := Walk.exists_entryHash hc (by decide)
  simp only [AuditLog.classify, hh] at hc
  split at hc
  · split at hc <;> cases hc
  · split at hc
    · next hversion =>
      split at hc
      · split at hc
        · next heq =>
          refine ⟨?_, (given_eq_some.mp hh).1.trans (by rw [← heq]; rfl)⟩
          unfold AuditLog.version at hversion
          split at hversion
          · cases hversion
          · next n hn =>
            split at hversion
            · cases hversion
            · rw [hn, hversion]
        · cases hc
      · cases hc
    · cases hc

theorem tip_recomputable (h : log.classify S key = some .recomputable) :
    log.tip = S.sha256 (log.data S log.prevHash) := by
  obtain ⟨entryHash, hh⟩ := Walk.exists_entryHash h (by decide)
  simp only [AuditLog.classify, hh] at h
  split at h
  · split at h
    · next heq => rw [AuditLog.tip, hh, Option.getD_some, ← heq, AuditLog.computeHash]
    · cases h
  · split at h
    · cases key with
      | none => cases h
      | some k =>
        simp only at h
        split at h
        · split at h <;> cases h
        · cases h
    · cases h

/-- Two entries under one seal of the key are the same. -/
theorem eq_of_seal (hideal : Ideal S k) (hkeyed : log.keyed S (some k)) (hb : b.SealedBy S (some k))
    (heq : b.entryHash = log.entryHash) : log = b := by
  obtain ⟨hversion, hhash⟩ := keyed_spec hkeyed
  obtain ⟨p, hp, hne⟩ := hb.prevHash
  have hmessage : log.message S log.prevHash = b.message S b.prevHash := by
    rw [hb.entryHash, hhash, Option.some.injEq] at heq
    exact hideal.dumps_injective (hideal.hmac_injective heq.symm)
  simp only [AuditLog.message, cons.injEq, Json.int.injEq, Json.str.injEq,
    Json.ofText_injective.eq_iff, Json.ofInt_injective.eq_iff, Json.ofBool_injective.eq_iff,
    (Option.map_injective hideal.rotationText_injective).eq_iff,
    (Option.map_injective hideal.isoformat_injective).eq_iff, true_and] at hmessage
  obtain ⟨hkeyId, hid, hstart, hretired, htime, huser, haction, htype, hresource, hname, hdetails,
    haddress, hagent, hsuccess, hlast⟩ := hmessage
  have hprev : log.prevHash = b.prevHash := by
    rw [hp] at hlast
    cases hlp : log.prevHash with
    | none => exact absurd (by simpa [hlp] using hlast.symm) hne
    | some q => simpa [hlp, hp] using hlast
  exact AuditLog.ext hid htime huser haction htype hresource hname hdetails haddress hagent hsuccess
    hprev heq.symm (hversion.trans hb.hashVersion.symm) hkeyId hstart hretired

/-! ## The entries that the server sealed -/

section Written

variable {keys : List ℕ} {records purged : List AuditLog}

/-- The entries that the server sealed under the key, the purged ones included. -/
def sealedRows (S : Sealing) (k : ℕ) (purged rows : List AuditLog) : List AuditLog :=
  (purged ++ rows).filter (underKey S (some k))

variable (h : HonestTable S (some k) keys records purged rows)

include h

theorem sealedBy_of_mem (ha : a ∈ sealedRows S k purged rows) : a.SealedBy S (some k) := by
  obtain ⟨hmem, hunder⟩ := mem_filter.mp ha
  obtain ⟨key', -, hsealed⟩ := h.sealed a hmem
  exact (hsealed.underKey_iff.mp hunder).2 ▸ hsealed

theorem ascends_sealedRows : Ascends AuditLog.id (sealedRows S k purged rows) :=
  List.Pairwise.sublist filter_sublist h.ascending

theorem linked_sealedRows :
    (sealedRows S k purged rows).IsChain fun a b => b.prevHash = a.entryHash := by
  obtain ⟨n, hn⟩ := exists_filter_eq_drop h.lasting
  rw [sealedRows, hn]
  exact h.linked.drop n

theorem plain_sealedRows : (sealedRows S k purged rows).Pairwise fun _ b =>
    b.retiredKeys = none ∧ (b.chainStart ≠ none → b ∈ records) := by
  refine List.Pairwise.imp_of_mem (fun {a b} ha _ hp => hp ?_) (h.plain.sublist filter_sublist)
  exact (mem_filter.mp ha).2

/-- An entry that another one names is the one before it. -/
theorem getLast?_of_names (hideal : Ideal S k) {front back : List AuditLog}
    (heq : sealedRows S k purged rows = front ++ b :: back) (ha : a ∈ sealedRows S k purged rows)
    (hlt : a.id < b.id) (hprev : b.prevHash = a.entryHash) : front.getLast? = some a := by
  have hlinked := linked_sealedRows h
  have hasc := ascends_sealedRows h
  cases hfront : front.getLast? with
  | none =>
    -- the first entry under the key names none of them
    rw [getLast?_eq_none_iff.mp hfront] at heq
    have hle := hasc.head_le (by rw [heq]; rfl) ha
    omega
  | some c =>
    rw [heq, isChain_append] at hlinked
    have hc : b.prevHash = c.entryHash := hlinked.2.2 c hfront b rfl
    have hcmem : c ∈ sealedRows S k purged rows := by
      rw [heq]
      exact mem_append_left _ (mem_of_getLast? hfront)
    have hkeyed : c.keyed S (some k) := by
      simp [AuditLog.keyed, (sealedBy_of_mem h hcmem).classify_self]
    rw [eq_of_seal hideal hkeyed (sealedBy_of_mem h ha) (hprev.symm.trans hc)]

end Written

/-! ## Tables that pass -/

section Tampered

variable {keys : List ℕ} {records purged : List AuditLog} {w : Walk}

theorem head?_keyedPart :
    (keyedPart S k table).head? = table.find? (AuditLog.keyed S (some k)) :=
  (find?_eq_head?_dropWhile_not ..).symm

theorem keyedPart_suffix : keyedPart S k table <:+ table := dropWhile_suffix _

theorem keyed_of_mem (hw : Walked S (some k) table w) (ha : a ∈ keyedPart S k table) :
    a.keyed S (some k) := by
  have hhead : (keyedPart S k table).head? = table.find? (AuditLog.keyed S (some k)) :=
    head?_keyedPart
  have hlasting := hw.lasting.sublist (keyedPart_suffix (S := S) (k := k)).sublist
  cases hpart : keyedPart S k table with
  | nil => simp [hpart] at ha
  | cons g rest =>
    rw [hpart] at ha hhead hlasting
    have hg := find?_some hhead.symm
    rcases mem_cons.mp ha with rfl | ha
    · exact hg
    · exact (pairwise_cons.mp hlasting).1 a ha hg

theorem mem_keyedPart (ha : a ∈ table) (hkeyed : a.keyed S (some k)) : a ∈ keyedPart S k table := by
  rw [← takeWhile_append_dropWhile (p := fun log => !log.keyed S (some k)) (l := table),
    mem_append] at ha
  refine ha.resolve_left fun htake => ?_
  have hnot := mem_takeWhile_imp htake
  simp [hkeyed] at hnot

/-- What a report that the whole table is intact stands on. -/
theorem walked_of_intact (h : (verifyIntegrity S (some k) table none none).status = .intact) :
    Walked S (some k) table (walk S (some k) table) ∧
      ((walk S (some k) table).firstKeyed = none → table = []) ∧
      ((walk S (some k) table).firstKeyed ≠ none → (walk S (some k) table).Attests ∧
        ∀ first, (walk S (some k) table).first = some first →
          ((walk S (some k) table).checkChainStart first).errorCount = 0) := by
  have hall : range table none none = table := by simp [range]
  simp only [verifyIntegrity, verifyChain, hall, Walk.finish,
    Walk.status] at h
  split at h
  · cases h
  · next hcount =>
    rw [not_not] at hcount
    have hw := walked_of_errorCount (Walk.of_errorCount_conclude hcount).1
    have hend := (Walk.of_errorCount_conclude hcount).2
    rw [Walk.conclude_eq_self hcount] at h
    refine ⟨hw, fun hnone => ?_, fun hkeyed => ?_⟩
    · split at h
      · cases h
      · next hcond =>
        by_contra hne
        refine hcond (.inr (.inl ⟨?_, by simp [hnone]⟩))
        rw [hw.checked]
        simpa using hne
    · obtain ⟨hatt, hstart⟩ := hend rfl hkeyed hw.errorsAtFirstKeyed
      exact ⟨hatt, hstart rfl⟩

variable (hideal : Ideal S k) (h : HonestTable S (some k) keys records purged rows)
  (hunforged : Unforged S k (purged ++ rows) table) (hasc : Ascends AuditLog.id table)
  (hw : Walked S (some k) table w)

include hideal h hunforged hw

theorem mem_sealedRows (ha : a ∈ keyedPart S k table) : a ∈ sealedRows S k purged rows := by
  have hkeyed := keyed_of_mem hw ha
  obtain ⟨other, hmem, hunder, heq⟩ :=
    hunforged a (keyedPart_suffix.subset ha) _ (keyed_spec hkeyed).2
  have hother : other ∈ sealedRows S k purged rows := mem_filter.mpr ⟨hmem, hunder⟩
  exact eq_of_seal hideal hkeyed (sealedBy_of_mem h hother) heq ▸ hother

/-- The entry before one that the server sealed is the one that it names. -/
theorem tip_of_follows (hb : b ∈ keyedPart S k table) (hab : Follows a b) : b.prevHash = some a.tip := by
  have hsealed := sealedBy_of_mem h (mem_sealedRows hideal h hunforged hw hb)
  obtain ⟨p, hp, hne⟩ := hsealed.prevHash
  have hhash : given b.entryHash ≠ none := by simp [hsealed.given_entryHash]
  rw [hab hhash p (by rw [hp, given_some hne]), hp]

include hasc

/-- The entries that the key seals are a run of those that the server wrote. -/
theorem keyedPart_part :
    ∃ front back, sealedRows S k purged rows = front ++ keyedPart S k table ++ back := by
  have hpartAsc : Ascends AuditLog.id (keyedPart S k table) := hasc.sublist keyedPart_suffix.sublist
  have hmem : ∀ x ∈ keyedPart S k table, x ∈ sealedRows S k purged rows := fun x hx =>
    mem_sealedRows hideal h hunforged hw hx
  have hfollows : (keyedPart S k table).IsChain Follows := by
    obtain ⟨front, heq⟩ : keyedPart S k table <:+ table := keyedPart_suffix
    have hchain := hw.follows
    rw [← heq] at hchain
    exact hchain.right_of_append
  refine exists_part (R := fun a b => a.id < b.id ∧ b.prevHash = a.entryHash)
    (fun front b back heq a ha hab => getLast?_of_names h hideal heq ha hab.1 hab.2) hmem ?_
  rw [isChain_iff_forall_rel_of_append_cons_cons] at hfollows ⊢
  intro a b front back heq
  have ha : a ∈ keyedPart S k table := by simp [heq]
  have hb : b ∈ keyedPart S k table := by simp [heq]
  have hlt : a.id < b.id := by
    have hpair := hpartAsc
    unfold Ascends at hpair
    rw [heq, pairwise_append] at hpair
    exact (pairwise_cons.mp hpair.2.1).1 b (mem_cons_self ..)
  refine ⟨hlt, ?_⟩
  rw [tip_of_follows hideal h hunforged hw hb (hfollows heq), (sealedBy_of_mem h (hmem a ha)).tip]

/-- If the server sealed an entry before the first one that the key seals, nothing is before it. -/
theorem head?_of_front {front back : List AuditLog} {g : AuditLog} (hatt : w.Attests)
    (heq : sealedRows S k purged rows = front ++ keyedPart S k table ++ back) (hfront : front ≠ [])
    (hg : (keyedPart S k table).head? = some g) : table.head? = some g := by
  obtain ⟨before, hsplit⟩ : keyedPart S k table <:+ table := keyedPart_suffix
  have hgmem : g ∈ keyedPart S k table := mem_of_mem_head? hg
  have hpart : keyedPart S k table = g :: (keyedPart S k table).tail := (cons_head?_tail hg).symm
  cases hlast : before.getLast? with
  | none =>
    rw [← hsplit, getLast?_eq_none_iff.mp hlast, nil_append, hg]
  | some q =>
    -- the entry before it would be sealed like the one that the server wrote
    exfalso
    obtain ⟨c, hc⟩ := Option.ne_none_iff_exists'.mp (mt getLast?_eq_none_iff.mp hfront)
    have hcmem : c ∈ sealedRows S k purged rows := by
      simp [heq, mem_of_getLast? hc]
    have hcg : g.prevHash = c.entryHash := by
      have hlinked := linked_sealedRows h
      rw [heq, hpart, append_assoc, isChain_append] at hlinked
      exact hlinked.2.2 c hc g rfl
    have hqg : Follows q g := by
      have hchain := hw.follows
      rw [← hsplit, isChain_append] at hchain
      exact hchain.2.2 q hlast g hg
    have hqmem : q ∈ table := by
      rw [← hsplit]
      exact mem_append_left _ (mem_of_getLast? hlast)
    have htip : some q.tip = some (S.hmac k (S.dumps (c.message S c.prevHash))) := by
      rw [← tip_of_follows hideal h hunforged hw hgmem hqg, hcg, (sealedBy_of_mem h hcmem).entryHash]
      rfl
    rw [Option.some.injEq] at htip
    have hretired : g.retiredKeys = none := by
      have hplain := plain_sealedRows h
      rw [heq, append_assoc, pairwise_append] at hplain
      exact (hplain.2.2 c (mem_of_getLast? hc) g (by simp [hgmem])).1
    have hfind : table.find? (AuditLog.keyed S (some k)) = some g := head?_keyedPart ▸ hg
    cases hclass : q.classify S (some k) with
    | none => exact hw.classified q hqmem hclass
    | some c' =>
      cases c' with
      | unsealed =>
        rw [AuditLog.tip, Walk.classify_unsealed.mp hclass] at htip
        exact hideal.hmac_ne_genesis _ htip.symm
      | recomputable =>
        rw [tip_recomputable hclass] at htip
        exact hideal.hmac_ne_sha256 _ _ htip.symm
      | foreign =>
        -- an entry under another key is attested by the first entry under the key alone
        obtain ⟨span, hspan, -⟩ := mem_map.mp (hw.spanned rfl q hqmem hclass)
        obtain ⟨limit, hlimit, -⟩ := hatt span hspan
        have hrotation : w.rotation = [] := by
          rw [hw.rotation, hfind]
          simp [hretired]
        cases hid : span.keyId <;> simp [Walk.limitOf, hrotation] at hlimit
      | keyed =>
        have hle := hasc.le_of_find? hfind hqmem (by simp [AuditLog.keyed, hclass])
        have hlt : q.id < g.id := by
          have hpair := hasc
          unfold Ascends at hpair
          rw [← hsplit, pairwise_append] at hpair
          exact hpair.2.2 q (mem_of_getLast? hlast) g hgmem
        omega

end Tampered

theorem ideal_transparent (k : ℕ) : Ideal .transparent k where
  hmac_injective a b h := by simpa [Sealing.transparent] using h
  dumps_injective := flatMap_frame_injective Json.text_injective
  rotationText_injective := by
    have hkeys : Function.Injective fun keys : List (List Char × ℤ) =>
        keys.flatMap fun entry => frame (frame entry.1 ++ signedTally entry.2) := by
      refine flatMap_frame_injective fun a b hab => ?_
      obtain ⟨hkey, hlast⟩ := frame_append_inj hab
      exact Prod.ext hkey (signedTally_injective hlast)
    intro a b h
    obtain ⟨hattested, hlist⟩ := cons.inj h
    obtain ⟨attested, keys⟩ := a
    obtain ⟨attested', keys'⟩ := b
    cases hkeys hlist
    cases attested <;> simp_all
  isoformat_injective := tally_injective
  hmac_ne_genesis message := by simp [Sealing.transparent, genesis]
  hmac_ne_sha256 message data := by simp [Sealing.transparent]

/-- If a table that holds no forged seal is reported intact, its entries from the first one that the
key seals on are a run of those that the server sealed under the key. The run starts with the first
of them, or not after the boundary that a purge record among them names. -/
theorem intact_keeps_sealed {S : Sealing} {k : ℕ} (hideal : Ideal S k) {key₀ : Option ℕ} {s : Ledger}
    (hs : Reach (Ledger.step S) (fun _ _ => True) (Ledger.init key₀) s) (hkey : s.key = some k)
    {table : List AuditLog} (hasc : Ascends AuditLog.id table)
    (hunforged : Unforged S k (s.purged ++ s.committed) table)
    (hintact : (verifyIntegrity S s.key table none none).status = .intact) :
    ∃ front back,
      sealedRows S k s.purged s.committed = front ++ keyedPart S k table ++ back ∧
      (table = [] ∨ front = [] ∨ ∃ first record start,
        (keyedPart S k table).head? = some first ∧ record ∈ keyedPart S k table ∧
        record ∈ s.records ∧ record.chainStart = some start ∧ first.id ≤ start) := by
  have hhonest : Honest S s := hs.invariant (honest_init key₀) fun s ev _ h _ => honest_step h ev
  have htable := hhonest.tables _ s.committed_mem
  rw [hkey] at htable hintact
  obtain ⟨hw, hchecked, hend⟩ := walked_of_intact hintact
  obtain ⟨front, back, heq⟩ := keyedPart_part hideal htable hunforged hasc hw
  refine ⟨front, back, heq, ?_⟩
  by_cases hfront : front = []
  · exact .inr (.inl hfront)
  cases hhead : (keyedPart S k table).head? with
  | none =>
    -- no entry under the key: the table is reported intact only when it is empty
    rw [head?_keyedPart] at hhead
    refine .inl (hchecked ?_)
    rw [hw.firstKeyed, hhead]
    rfl
  | some first =>
    have hkeyed : (walk S (some k) table).firstKeyed ≠ none := by
      rw [hw.firstKeyed, ← head?_keyedPart, hhead]
      simp
    obtain ⟨hatt, hstart⟩ := hend hkeyed
    have hfirst := head?_of_front hideal htable hunforged hasc hw hatt heq hfront hhead
    have hwfirst := hw.first
    rw [hfirst] at hwfirst
    obtain ⟨start, hkeyedStart, hle⟩ := Walk.le_keyedStart hkeyed (hstart _ hwfirst)
    obtain ⟨record, hrecord, hrecordKeyed, hrecordStart⟩ := hw.keyedStart.source start hkeyedStart
    have hmem : record ∈ keyedPart S k table := mem_keyedPart hrecord hrecordKeyed
    refine .inr (.inr ⟨first, record, start, rfl, hmem, ?_, hrecordStart, hle⟩)
    -- the server sealed an entry before it, so only a purge makes it record a start
    obtain ⟨c, hc⟩ := exists_mem_of_ne_nil front hfront
    have hplain := plain_sealedRows htable
    rw [heq, append_assoc, pairwise_append] at hplain
    exact (hplain.2.2 c hc record (by simp [hmem])).2 (by simp [hrecordStart])

/-- Three entries under a key, the first two of which are purged. -/
def purgedLife : List Event :=
  [.append (plainEntry 1) 0, .append (plainEntry 2) 0, .append (plainEntry 3) 0, .commit,
    .purge (plainPurge 3 4)]

def purgedLedger : Ledger := exec (Ledger.step .transparent) (Ledger.init (some 1)) purgedLife

theorem reach_purgedLedger :
    Reach (Ledger.step .transparent) (fun _ _ => True) (Ledger.init (some 1)) purgedLedger :=
  Reach.start.exec (by decide +kernel)

theorem unforged_of_subset {written : List AuditLog} (hsub : table ⊆ written)
    (hunder : ∀ log ∈ table, underKey S (some k) log) : Unforged S k written table :=
  fun log hlog _ _ => ⟨log, hsub hlog, hunder log hlog, rfl⟩

/-- The table after the purge, as the server left it. -/
theorem intact_keeps_sealed_after_purge :
    purgedLedger.committed.map AuditLog.id = [3, 4] ∧ ∃ front back,
      sealedRows .transparent 1 purgedLedger.purged purgedLedger.committed =
        front ++ keyedPart .transparent 1 purgedLedger.committed ++ back ∧
      (purgedLedger.committed = [] ∨ front = [] ∨ ∃ first record start,
        (keyedPart .transparent 1 purgedLedger.committed).head? = some first ∧
        record ∈ keyedPart .transparent 1 purgedLedger.committed ∧
        record ∈ purgedLedger.records ∧ record.chainStart = some start ∧ first.id ≤ start) :=
  ⟨by decide +kernel, intact_keeps_sealed (ideal_transparent 1) reach_purgedLedger (by decide +kernel)
    (by unfold Ascends; decide +kernel)
    (unforged_of_subset (by simp) (by decide +kernel)) (by decide +kernel)⟩

/-- The second entry, which was purged, is put back: the table is reported intact, but it starts
neither with the first entry nor at the boundary of the purge. -/
theorem purged_entry_put_back :
    let table := (purgedLedger.purged ++ purgedLedger.committed).drop 1
    Ideal .transparent 1 ∧
      Reach (Ledger.step .transparent) (fun _ _ => True) (Ledger.init (some 1)) purgedLedger ∧
      Ascends AuditLog.id table ∧
      Unforged .transparent 1 (purgedLedger.purged ++ purgedLedger.committed) table ∧
      (verifyIntegrity .transparent purgedLedger.key table none none).status = .intact ∧
      keyedPart .transparent 1 table = table ∧ table.head?.map AuditLog.id = some 2 ∧
      (sealedRows .transparent 1 purgedLedger.purged purgedLedger.committed).head?.map AuditLog.id =
        some 1 ∧
      purgedLedger.committed.head?.map AuditLog.id = some 3 ∧
      purgedLedger.records.map AuditLog.chainStart = [some 3] :=
  ⟨ideal_transparent 1, reach_purgedLedger, by unfold Ascends; decide +kernel,
    unforged_of_subset (drop_subset _ _) (by decide +kernel), by decide +kernel⟩

end UltimateCaManager.Audit
