import UltimateCaManager.RevocationQuery

/-!
# The entries of a full CRL

What `get_revoked_certificates` hands over: the revoked rows, the first of each serial, and the
persistent records that neither they nor a linked certificate stand for. A record is compared with
the rows by its text first, and a text may be two serials.
-/
namespace UltimateCaManager.Revocation

open List

variable {db : Db} {ints : List ℕ} {columns : List (List Char)} {rows : List Listed}
  {records : List Record}

/-- Two rows of a list have no serial in common. -/
def Listed.Apart (l q : Listed) : Prop := l.serial = none ∨ l.serial ≠ q.serial

theorem dedupeLive_apart (ints : List ℕ) (columns : List (List Char)) (rows : List Listed) :
    (dedupeLive ints columns rows).Pairwise Listed.Apart ∧
      ∀ l ∈ dedupeLive ints columns rows, ∀ n, l.serial = some n → n ∉ ints := by
  induction rows generalizing ints columns with
  | nil => exact ⟨List.Pairwise.nil, fun l hl => by cases hl⟩
  | cons l rest ih =>
    rw [dedupeLive]
    split
    · exact ih ints columns
    · next hseen =>
      obtain ⟨hpairwise, hfresh⟩ := ih (l.serial.toList ++ ints) (l.column.toList ++ columns)
      refine ⟨pairwise_cons.mpr ⟨fun q hq => ?_, hpairwise⟩, forall_mem_cons.mpr
        ⟨fun n hn => by simpa [Listed.seen, hn] using hseen, fun q hq n hn hmem => ?_⟩⟩
      · cases hl : l.serial with
        | none => exact .inl hl
        | some n => exact .inr fun heq => hfresh q hq n (heq ▸ hl) (by simp [hl])
      · exact hfresh q hq n hn (mem_append_right _ hmem)

/-- The first row of a serial is kept. -/
theorem exists_mem_dedupeLive {l : Listed} {m : ℕ} (hl : l ∈ rows) (hm : l.serial = some m) :
    ∃ first ∈ dedupeLive [] [] rows, first.serial = some m := by
  have hfirst := find?_dedupeLive m [] [] rows
  rw [if_neg not_mem_nil] at hfirst
  obtain ⟨first, hfind⟩ := Option.isSome_iff_exists.mp
    ((find?_isSome (p := fun l => l.serial = some m)).mpr ⟨l, hl, by simpa using hm⟩)
  rw [hfind] at hfirst
  exact ⟨first, mem_of_find?_eq_some hfirst, by simpa using find?_some hfirst⟩

theorem filterOrphanSerials_apart (db : Db) (columns : List (List Char)) (ints : List ℕ)
    (records : List Record) :
    ((db.filterOrphanSerials columns ints records).map Record.listed).Pairwise Listed.Apart ∧
      ∀ r ∈ db.filterOrphanSerials columns ints records, ∀ n,
        serialToInt r.serialNumber = some n → n ∉ ints := by
  induction records generalizing columns ints with
  | nil => exact ⟨List.Pairwise.nil, fun r hr => by cases hr⟩
  | cons r rest ih =>
    rw [Db.filterOrphanSerials]
    split
    · exact ih columns ints
    · next hkept =>
      simp only [not_or, not_exists, not_and] at hkept
      obtain ⟨hpairwise, hfresh⟩ :=
        ih (r.serialNumber :: columns) ((serialToInt r.serialNumber).toList ++ ints)
      refine ⟨pairwise_cons.mpr ⟨forall_mem_map.mpr fun q hq => ?_, hpairwise⟩,
        forall_mem_cons.mpr ⟨hkept.2.1, fun q hq n hn hmem => ?_⟩⟩
      · cases hr : serialToInt r.serialNumber with
        | none => exact .inl hr
        | some n => exact .inr fun heq => hfresh q hq n (heq.symm.trans hr) (by simp [hr])
      · exact hfresh q hq n hn (mem_append_right _ hmem)

/-- A record that is left out has its integer or its text listed, or its revocation was lifted. -/
theorem covered_of_mem_records (db : Db) (columns : List (List Char)) (ints : List ℕ) {r : Record}
    (hr : r ∈ records) :
    (∃ n, serialToInt r.serialNumber = some n ∧ (n ∈ ints ∨
      ∃ q ∈ db.filterOrphanSerials columns ints records, serialToInt q.serialNumber = some n)) ∨
    (r.serialNumber ∈ columns ∨
      ∃ q ∈ db.filterOrphanSerials columns ints records, q.serialNumber = r.serialNumber) ∨
    db.lifted r = true := by
  induction records generalizing columns ints with
  | nil => cases hr
  | cons q rest ih =>
    rw [Db.filterOrphanSerials]
    rcases mem_cons.mp hr with rfl | hr
    · split
      · next hdropped =>
        rcases hdropped with hcolumn | ⟨n, hn, hmem⟩ | hlifted
        · exact .inr (.inl (.inl hcolumn))
        · exact .inl ⟨n, hn, .inl hmem⟩
        · exact .inr (.inr hlifted)
      · exact .inr (.inl (.inr ⟨r, mem_cons_self, rfl⟩))
    · split
      · exact ih columns ints hr
      · rcases ih (q.serialNumber :: columns) ((serialToInt q.serialNumber).toList ++ ints) hr with
          ⟨n, hn, hmem | ⟨p, hp, hpn⟩⟩ | (hcolumn | ⟨p, hp, heq⟩) | hlifted
        · refine .inl ⟨n, hn, ?_⟩
          rcases mem_append.mp hmem with hmem | hmem
          · exact .inr ⟨q, mem_cons_self, by simpa using hmem⟩
          · exact .inl hmem
        · exact .inl ⟨n, hn, .inr ⟨p, mem_cons_of_mem q hp, hpn⟩⟩
        · refine .inr (.inl ?_)
          rcases mem_cons.mp hcolumn with heq | hcolumn
          · exact .inr ⟨q, mem_cons_self, heq.symm⟩
          · exact .inl hcolumn
        · exact .inr (.inl (.inr ⟨p, mem_cons_of_mem q hp, heq⟩))
        · exact .inr (.inr hlifted)

/-- No serial is listed twice, each revoked certificate that has not ended is listed, and so is each
record that has not, unless its text is the column of a listed row or its linked certificate, not
revoked, still carries it. -/
theorem getRevokedCertificates_spec (db : Db) (ca : CaRow) (now : ℕ) :
    (db.getRevokedCertificates ca now).Pairwise Listed.Apart ∧
    (∀ row ∈ db.certificates, row.caref ∈ db.sameKeyRefids ca → row.revoked = true →
      notExpired row.validTo now = true →
        ∃ l ∈ db.getRevokedCertificates ca now, l.serial = some row.crt.serial) ∧
    ∀ r ∈ db.records, r.caref ∈ db.sameKeyRefids ca → now < r.validTo →
      (∃ l ∈ db.getRevokedCertificates ca now, ∃ n, l.serial = some n ∧
        serialToInt r.serialNumber = some n) ∨
      (∃ l ∈ db.getRevokedCertificates ca now, l.column = some r.serialNumber) ∨
      db.lifted r = true := by
  simp only [Db.getRevokedCertificates]
  generalize hlive : (db.certificates.filter _).map CertRow.listed ++ _ = live
  have hkept := dedupeLive_apart [] [] live
  refine ⟨?_, fun row hrow hcaref hrevoked hvalid => ?_, fun r hr hcaref hvalid => ?_⟩
  · obtain ⟨hpairwise, hfresh⟩ := filterOrphanSerials_apart db
      ((dedupeLive [] [] live).filterMap Listed.column)
      ((dedupeLive [] [] live).filterMap Listed.serial)
      (db.recordsByDate.filter fun r => r.caref ∈ db.sameKeyRefids ca && now < r.validTo)
    refine pairwise_append.mpr ⟨hkept.1, hpairwise, fun l hl q hq => ?_⟩
    obtain ⟨r, hr, rfl⟩ := mem_map.mp hq
    cases hserial : l.serial with
    | none => exact .inl hserial
    | some n =>
      exact .inr fun heq => hfresh r hr n (heq.symm.trans hserial)
        (mem_filterMap.mpr ⟨l, hl, hserial⟩)
  · have hmem : row.listed ∈ live := by
      rw [← hlive]
      refine mem_append_left _ (mem_map_of_mem (mem_filter.mpr ⟨hrow, ?_⟩))
      simp [hcaref, hrevoked, hvalid]
    obtain ⟨l, hl, hserial⟩ := exists_mem_dedupeLive hmem rfl
    exact ⟨l, mem_append_left _ hl, hserial⟩
  · have hlisted : r ∈ db.recordsByDate.filter fun r =>
        r.caref ∈ db.sameKeyRefids ca && now < r.validTo := by
      refine mem_filter.mpr ⟨(perm_insertionSort _ _).mem_iff.mpr hr, ?_⟩
      simp [hcaref, hvalid]
    rcases covered_of_mem_records db _ _ hlisted with
      ⟨n, hn, hmem | ⟨q, hq, hqn⟩⟩ | (hcolumn | ⟨q, hq, heq⟩) | hlifted
    · obtain ⟨l, hl, hserial⟩ := mem_filterMap.mp hmem
      exact .inl ⟨l, mem_append_left _ hl, n, hserial, hn⟩
    · exact .inl ⟨q.listed, mem_append_right _ (mem_map_of_mem hq), n, hqn, hn⟩
    · obtain ⟨l, hl, hcol⟩ := mem_filterMap.mp hcolumn
      exact .inr (.inl ⟨l, mem_append_left _ hl, hcol⟩)
    · exact .inr (.inl ⟨q.listed, mem_append_right _ (mem_map_of_mem hq), by
        rw [← heq]; rfl⟩)
    · exact .inr (.inr hlifted)

/-- The revoked rows of a CA that have not ended. -/
def Db.liveRows (db : Db) (ca : CaRow) (now : ℕ) : List Listed :=
  (db.certificates.filter fun row =>
      row.caref ∈ db.sameKeyRefids ca && row.revoked && notExpired row.validTo now).map
        CertRow.listed ++
    (db.cas.filter fun child =>
      child.caref = some ca.refid && child.revoked && notExpired child.validTo now).map CaRow.listed

/-- `r` is a record of the CA for the serial `n` that has not ended. -/
def Db.Recorded (db : Db) (ca : CaRow) (now n : ℕ) (r : Record) : Prop :=
  r ∈ db.records ∧ r.caref ∈ db.sameKeyRefids ca ∧ now < r.validTo ∧
    serialToInt r.serialNumber = some n

/-- No certificate of the CA that is not revoked carries the serial. -/
def Db.Uncarried (db : Db) (ca : CaRow) (n : ℕ) : Prop :=
  ∀ row ∈ db.certificates, row.caref ∈ db.sameKeyRefids ca → row.revoked = false →
    row.crt.serial ≠ n

/-- What a full CRL has to list: no serial twice, every revoked certificate and every record of a
serial that no certificate carries. -/
def Db.Complete (db : Db) (ca : CaRow) (now : ℕ) : Prop :=
  (db.getRevokedCertificates ca now).Pairwise Listed.Apart ∧
  (∀ row ∈ db.certificates, row.caref ∈ db.sameKeyRefids ca → row.revoked = true →
    notExpired row.validTo now = true →
      ∃ l ∈ db.getRevokedCertificates ca now, l.serial = some row.crt.serial) ∧
  ∀ r n, db.Recorded ca now n r → db.Uncarried ca n →
    ∃ l ∈ db.getRevokedCertificates ca now, l.serial = some n

/-- The text of the record is the column of the first revoked row of some serial. -/
def Db.Shadowed (db : Db) (ca : CaRow) (now : ℕ) (r : Record) : Prop :=
  ∃ m l, (db.liveRows ca now).find? (fun l => l.serial = some m) = some l ∧
    l.column = some r.serialNumber

/-- The column of a row is read only when the row has no certificate. -/
theorem serial_of_column {ca : CaRow} {now : ℕ} {l : Listed} (hl : l ∈ db.liveRows ca now)
    {c : List Char} (hc : l.column = some c) (hnone : l.serial = none) : serialToInt c = none := by
  rcases mem_append.mp hl with hl | hl
  · obtain ⟨row, -, rfl⟩ := mem_map.mp hl
    cases hnone
  · obtain ⟨child, -, rfl⟩ := mem_map.mp hl
    have hcolumn : child.serialNumber = some c := hc
    cases hcrt : child.crt with
    | some crt => simp [CaRow.listed, hcrt] at hnone
    | none => simpa [CaRow.listed, hcrt, hcolumn] using hnone

/-- A row that is kept is the first one of its serial. -/
theorem find?_of_mem_dedupeLive {l : Listed} {m : ℕ} (hl : l ∈ dedupeLive [] [] rows)
    (hm : l.serial = some m) : rows.find? (fun l => l.serial = some m) = some l := by
  have hfirst := find?_dedupeLive m [] [] rows
  rw [if_neg not_mem_nil] at hfirst
  rw [← hfirst]
  obtain ⟨before, after, hsplit⟩ := append_of_mem hl
  have hapart := (dedupeLive_apart [] [] rows).1
  rw [hsplit] at hapart ⊢
  rw [find?_append, find?_eq_none.mpr, find?_cons_of_pos (by simpa using hm), Option.none_or]
  intro q hq
  have hne := (pairwise_append.mp hapart).2.2 q hq l mem_cons_self
  rcases hne with hnone | hne
  · simp [hnone]
  · simpa [hm] using hne

theorem not_hidden_of_mem_filterOrphanSerials {r : Record}
    (hr : r ∈ db.filterOrphanSerials columns ints records) :
    r ∈ records ∧ r.serialNumber ∉ columns ∧ db.lifted r = false := by
  induction records generalizing columns ints with
  | nil => cases hr
  | cons q rest ih =>
    rw [Db.filterOrphanSerials] at hr
    split at hr
    · obtain ⟨hmem, hrest⟩ := ih hr
      exact ⟨mem_cons_of_mem q hmem, hrest⟩
    · next hkept =>
      simp only [not_or] at hkept
      rcases mem_cons.mp hr with rfl | hr
      · exact ⟨mem_cons_self, hkept.1, by simpa using hkept.2.2⟩
      · obtain ⟨hmem, hcolumn, hlifted⟩ := ih hr
        exact ⟨mem_cons_of_mem q hmem, fun h => hcolumn (mem_cons_of_mem _ h), hlifted⟩

/-- The CRL is complete exactly when the serial of each record that no certificate carries is that
of a revoked row, or of a record whose text no first row has and whose revocation was not lifted. -/
theorem crl_complete_iff (db : Db) (ca : CaRow) (now : ℕ) :
    db.Complete ca now ↔ ∀ r n, db.Recorded ca now n r → db.Uncarried ca n →
      (∃ l ∈ db.liveRows ca now, l.serial = some n) ∨
        ∃ q, db.Recorded ca now n q ∧ ¬ db.Shadowed ca now q ∧ db.lifted q = false := by
  obtain ⟨hapart, hrows, hrecords⟩ := getRevokedCertificates_spec db ca now
  constructor
  · rintro ⟨-, -, hlisted⟩ r n hr hn
    obtain ⟨l, hl, hserial⟩ := hlisted r n hr hn
    rcases mem_append.mp hl with hl | hl
    · exact .inl ⟨l, dedupeLive_subset hl, hserial⟩
    · obtain ⟨q, hq, rfl⟩ := mem_map.mp hl
      obtain ⟨hmem, hcolumn, hlifted⟩ := not_hidden_of_mem_filterOrphanSerials hq
      obtain ⟨hsorted, hdue⟩ := mem_filter.mp hmem
      simp only [Bool.and_eq_true, decide_eq_true_eq] at hdue
      refine .inr ⟨q, ⟨(perm_insertionSort _ _).mem_iff.mp hsorted, hdue.1, hdue.2, hserial⟩,
        ?_, hlifted⟩
      rintro ⟨m, first, hfirst, htext⟩
      have hkept := find?_dedupeLive m [] [] (db.liveRows ca now)
      rw [if_neg not_mem_nil, hfirst] at hkept
      exact hcolumn (mem_filterMap.mpr ⟨first, mem_of_find?_eq_some hkept, htext⟩)
  · intro hcond
    refine ⟨hapart, hrows, fun r n hr hn => ?_⟩
    rcases hcond r n hr hn with ⟨l, hl, hserial⟩ | ⟨q, ⟨hq, hcaref, hvalid, hqn⟩, hshadow, hlifted⟩
    · obtain ⟨first, hfirst, hfirstSerial⟩ := exists_mem_dedupeLive hl hserial
      exact ⟨first, mem_append_left _ hfirst, hfirstSerial⟩
    · rcases hrecords q hq hcaref hvalid with ⟨l, hl, k, hlk, hqk⟩ | ⟨l, hl, htext⟩ | hlift
      · cases hqn.symm.trans hqk
        exact ⟨l, hl, hlk⟩
      · rcases mem_append.mp hl with hkept | hrecord
        · -- a live row with this text resolves to a serial, for which it is the first row
          cases hm : l.serial with
          | none => cases (serial_of_column (dedupeLive_subset hkept) htext hm).symm.trans hqn
          | some m => exact absurd ⟨m, l, find?_of_mem_dedupeLive hkept hm, htext⟩ hshadow
        · obtain ⟨p, hp, rfl⟩ := mem_map.mp hrecord
          have hsame : p.serialNumber = q.serialNumber := Option.some.inj htext
          exact ⟨_, hl, by rw [← hqn, ← hsame]; rfl⟩
      · cases hlifted.symm.trans hlift

/-- A revoked certificate with the serial 22, in hexadecimal, and the record of the serial 16 of a
certificate that was deleted, in decimal: two serials under one text. -/
def textShared : Db where
  cas := []
  certificates := [⟨1, 7, ⟨22, 9⟩, Spelling.lowerHex.write 22, some 9, true, some 1, none⟩]
  records := [⟨1, 7, Spelling.decimal.write 16, 1, none, 9, none⟩]
  recordIds := 2
  crls := []

/-- The CRL leaves the serial 16 out, which the responder answers as revoked. -/
theorem record_hidden_by_text :
    let ca : CaRow := ⟨1, 7, none, 0, none, none, none, false, none, none, true, false, true, false⟩
    serialToInt (Spelling.decimal.write 16) = some 16 ∧
    (textShared.getRevokedCertificates ca 5).map Listed.serial = [some 22] ∧
    textShared.statusForSerial ca 16 = .revoked .unspecified := by
  decide

end UltimateCaManager.Revocation
