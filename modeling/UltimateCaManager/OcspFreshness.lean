import UltimateCaManager.OcspResponder
import UltimateCaManager.RevocationTidy

/-!
# No stale good from the cache

A revocation commits, then clears the cache of the CA record that its certificate is linked to.
A response that was read before the commit and is stored after the cache was cleared outlives the
revocation, and so does one that is stored under another record of the same issuer key.
-/
namespace UltimateCaManager.Ocsp

open List

open Revocation (CaRow CertRow Db Reason Spelling Status rootCa serialToInt serialVariants
  mem_serialVariants symbol_of_mem_write readsBack_decimal cas_revokeCertificate
  certificates_revokeCertificate certificate?_mem)
open Runs Concurrency Tables Numerals

/-- The response is cached for the certificate, under a CA record that answers for it. -/
def CachedResponse.SpeaksFor (db : Db) (g : Settled) (e : CachedResponse) : Prop :=
  (∃ ca ∈ db.cas, ca.id = e.caId ∧ g.caref ∈ db.sameKeyRefids ca) ∧
    ∃ algorithm ∈ HashAlgorithm.all, e.certSerial = cacheKey g.serial algorithm
  deriving Decidable

/-! ## The condition -/

def Task.Prompt (s : Responder) (ok : Bool) : Task → Prop
  -- a good is not stored once a revocation of its certificate has cleared the cache
  | .cacheWrite q status _ _ => status = .good → ∀ g ∈ s.cleared, ¬ g.Concerns s.db q.ca q.serial
  -- the cache is cleared, and no other record of the issuer has a good for the certificate
  | .invalidate g _ caId => ok = true ∧ ∀ e ∈ s.cache, e.status = .good → e.SpeaksFor s.db g →
      caId.all (· = e.caId) = true
  | _ => True

def Prompt (w : World Responder Task) : Label Request Bool Event → Prop
  | .advance i ok => ∀ t ∈ w.tasks i, t.Prompt w.shared ok
  | _ => True

instance (s : Responder) (ok : Bool) (t : Task) : Decidable (t.Prompt s ok) := by
  unfold Task.Prompt
  split <;> infer_instance

instance (w : World Responder Task) (l : Label Request Bool Event) : Decidable (Prompt w l) := by
  unfold Prompt
  split <;> infer_instance

/-! ## Cache keys -/

theorem write_ne_nil (s : Spelling) (n : ℕ) : s.write n ≠ [] := by
  cases s <;> simp [Spelling.write]

/-- The raw reading of a hexadecimal column is the lower-case one. -/
theorem rawSerial_write {s : Spelling} (hs : s ≠ .decimal) (n : ℕ) :
    rawSerial (s.write n) = Nat.toDigits 16 n := by
  have hsymbol := fun c (hc : c ∈ s.write n) => symbol_of_mem_write hc
  have hfilter : (s.write n).filter (· ≠ ':') = s.write n :=
    filter_eq_self.mpr fun c hc => by simp [(hsymbol c hc).1]
  have hlower : (s.write n).map Char.toLower = Nat.toDigits 16 n := by
    have hdigit : ∀ d < 16, d.digitChar.toLower = d.digitChar ∧
        d.digitChar.toUpper.toLower = d.digitChar := by decide
    have hmap : ∀ f : Char → Char, (∀ d < 16, f d.digitChar = d.digitChar) →
        (Nat.toDigits 16 n).map f = Nat.toDigits 16 n := by
      intro f hf
      refine (map_congr_left fun c hc => ?_).trans (map_id _)
      obtain ⟨d, hd, rfl⟩ := mem_toDigits (by omega) hc
      exact hf d hd
    cases s with
    | decimal => exact absurd rfl hs
    | lowerHex => exact hmap _ fun d hd => (hdigit d hd).1
    | upperHex =>
      rw [Spelling.write, map_map]
      exact hmap _ fun d hd => (hdigit d hd).2
  unfold rawSerial
  rw [hfilter, strip_of_forall fun c hc => (hsymbol c hc).2.1, hlower]
  split
  · next rest heq =>
    have hx : 'x' ∈ Spelling.lowerHex.write n := by simp [Spelling.write, heq]
    exact absurd rfl (symbol_of_mem_write hx).2.2.1
  · rfl

/-- The hexadecimal serial is among the forms of each of its spellings. -/
theorem toDigits_mem_cacheKeyForms {n : ℕ} {text : List Char} (h : text ∈ serialVariants n) :
    serialToHex text ≠ [] ∧ Nat.toDigits 16 n ∈ cacheKeyForms text (serialToHex text) := by
  obtain ⟨s, rfl⟩ := mem_serialVariants.mp h
  have hhex : serialToHex (s.write n) ≠ [] := by
    rw [serialToHex, if_neg (write_ne_nil s n)]
    split
    · exact Nat.toDigits_ne_nil
    · simp [write_ne_nil]
  refine ⟨hhex, ?_⟩
  by_cases hs : s = .decimal
  · subst hs
    have hread : serialToInt (Spelling.decimal.write n) = some n := readsBack_decimal n
    simp [cacheKeyForms, serialToHex, write_ne_nil, hread]
  · have hdigits : ∀ c ∈ Nat.toDigits 16 n, c ∈ hexDigits := by
      intro c hc
      have hall : ∀ d < 16, d.digitChar ∈ hexDigits := by decide
      obtain ⟨d, hd, rfl⟩ := mem_toDigits (by omega) hc
      exact hall d hd
    have hcond : Nat.toDigits 16 n ≠ [] ∧ ∀ c ∈ Nat.toDigits 16 n, c ∈ hexDigits :=
      ⟨Nat.toDigits_ne_nil, hdigits⟩
    simp only [cacheKeyForms, rawSerial_write hs, if_pos hcond]
    by_cases hn : n = 0
    · subst hn
      simp
    · have hlead : ∃ c rest, Nat.toDigits 16 n = c :: rest ∧ c ≠ '0' :=
        toDigits_eq_cons (by omega) (by omega) (Nat.pos_of_ne_zero hn)
      obtain ⟨c, rest, heq, hc⟩ := hlead
      simp [heq, hc]

/-- Whichever writer stored the serial, the form it is cached under is among the cleared ones. -/
theorem cached_form_cleared (s : Spelling) (n : ℕ) :
    Nat.toDigits 16 n ∈ cacheKeyForms (s.write n) (serialToHex (s.write n)) :=
  (toDigits_mem_cacheKeyForms (mem_serialVariants.mpr ⟨s, rfl⟩)).2

/-- A key names one serial: no digit is a colon. -/
theorem cacheKey_serial {m n : ℕ} {a b : HashAlgorithm} (h : cacheKey m a = cacheKey n b) :
    m = n := by
  have htake : ∀ (k : ℕ) (c : HashAlgorithm),
      (cacheKey k c).takeWhile (· ≠ ':') = Nat.toDigits 16 k := by
    intro k c
    rw [cacheKey, takeWhile_append_of_pos fun d hd => ?_]
    · simp
    · have hd : d ∈ Spelling.lowerHex.write k := hd
      simpa using (symbol_of_mem_write hd).1
  have hdigits : Nat.toDigits 16 m = Nat.toDigits 16 n := by rw [← htake m a, h, htake]
  have hread : ∀ k, read 16 (Nat.toDigits 16 k) = some k := read_toDigits (by omega) (by omega)
  exact Option.some.inj (by rw [← hread m, hdigits, hread])

theorem not_mem_invalidateCachedResponses {n : ℕ} {text : List Char} {caId : Option ℕ}
    {cache : List CachedResponse} {e : CachedResponse} {algorithm : HashAlgorithm}
    (htext : text ∈ serialVariants n) (hkey : e.certSerial = cacheKey n algorithm)
    (hca : caId.all (· = e.caId) = true) : e ∉ invalidateCachedResponses text caId cache := by
  obtain ⟨hhex, hform⟩ := toDigits_mem_cacheKeyForms htext
  have hlike : e.hasForm (Nat.toDigits 16 n) = true := by
    have hrest : like [':', '%'] (':' :: algorithm.name) = true :=
      like_append [':'] (like_percent algorithm.name)
    rw [CachedResponse.hasForm, hkey, cacheKey, like_append _ hrest, Bool.or_true]
  intro hmem
  simp only [invalidateCachedResponses, if_neg hhex] at hmem
  obtain ⟨-, hkept⟩ := mem_filter.mp hmem
  have hany : ((cacheKeyForms text (serialToHex text)).any fun form => e.hasForm form) = true :=
    any_eq_true.mpr ⟨_, hform, hlike⟩
  rw [hca, hany] at hkept
  cases hkept

theorem invalidateCachedResponses_sublist (text : List Char) (caId : Option ℕ)
    (cache : List CachedResponse) : (invalidateCachedResponses text caId cache).Sublist cache := by
  unfold invalidateCachedResponses
  simp only
  split
  · exact List.Sublist.refl _
  · exact filter_sublist

/-! ## What the tables say -/

def Settled.Stands (g : Settled) (db : Db) : Prop :=
  ∃ row ∈ db.certificates, row.caref = g.caref ∧ row.crt.serial = g.serial ∧
    row.serialNumber ∈ serialVariants g.serial ∧ row.revoked = true

/-- Revoked rows come first, so that no other row of the serial hides the revocation. -/
theorem Settled.Stands.status_ne_good {g : Settled} {db : Db} {ca : CaRow} {serial : ℕ}
    (h : g.Stands db) (hg : g.Concerns db ca serial) : db.statusForSerial ca serial ≠ .good := by
  obtain ⟨row, hrow, hcaref, hserial, htext, hrev⟩ := h
  obtain ⟨hgroup, rfl⟩ := hg
  generalize hrows : (db.certificates.filter fun row =>
    row.caref ∈ db.sameKeyRefids ca && row.serialNumber ∈ serialVariants g.serial) = rows
  have hmem : row ∈ rows.filter CertRow.revoked := by
    rw [← hrows]
    exact mem_filter.mpr ⟨mem_filter.mpr ⟨hrow, by simp [hcaref, hgroup, htext]⟩, hrev⟩
  have hfound : ((rows.filter CertRow.revoked).find? fun row => row.crt.serial = g.serial).isSome :=
    find?_isSome.mpr ⟨row, hmem, by simp [hserial]⟩
  obtain ⟨first, hfirst⟩ := Option.isSome_iff_exists.mp hfound
  have hfirstRev := (mem_filter.mp (mem_of_find?_eq_some hfirst)).2
  have hlookup : db.certificateWithSerial ca g.serial = some first := by
    simp [Db.certificateWithSerial, hrows, hfirst]
  simp [Db.statusForSerial, hlookup, hfirstRev]

/-- A good answer is not for a certificate whose revocation had returned. -/
def Answer.Holds (db : Db) (a : Answer) : Prop :=
  a.status = .good → ∀ g ∈ a.settled, ¬ g.Concerns db a.ca a.serial

structure Responder.Sound (s : Responder) : Prop where
  caIds : (s.db.cas.map CaRow.id).Nodup
  texts : ∀ row ∈ s.db.certificates, row.serialNumber ∈ serialVariants row.crt.serial
  ids : (s.cache.map CachedResponse.id).Nodup
  counted : ∀ e ∈ s.cache, e.id < s.cacheIds
  stands : ∀ g ∈ s.cleared, g.Stands s.db
  clear : ∀ g ∈ s.cleared, ∀ e ∈ s.cache, e.status = .good → ¬ e.SpeaksFor s.db g
  returned : s.returned ⊆ s.cleared
  answers : ∀ a ∈ s.answers, a.Holds s.db

def Query.Kept (s : Responder) (q : Query) : Prop := q.ca ∈ s.db.cas ∧ q.settled ⊆ s.cleared

def Query.Answers (s : Responder) (q : Query) (status : Status) : Prop :=
  Answer.Holds s.db ⟨q.ca, q.serial, status, q.settled⟩

def Task.Kept (s : Responder) : Task → Prop
  | .lookup q | .resolve q | .readStatus q _ => q.Kept s
  | .sign q _ status | .cacheFind q status _ => q.Kept s ∧ q.Answers s status
  | .cacheWrite q status _ existing => q.Kept s ∧ q.Answers s status ∧
      ∀ id ∈ existing, id < s.cacheIds ∧ ∀ e ∈ s.cache, e.id = id →
        e.caId = q.ca.id ∧ e.certSerial = cacheKey q.serial q.algorithm
  | .multiResolve _ _ settled => settled ⊆ s.cleared
  | .multi _ _ answers settled => settled ⊆ s.cleared ∧ ∀ a ∈ answers, a.Holds s.db
  | .revokeClock .. | .revokeCommit .. => True
  | .invalidate g serial _ => g.Stands s.db ∧ serial ∈ serialVariants g.serial
  | .returning g => g ∈ s.cleared

/-- What no step of another request takes away. -/
structure Grows (s s' : Responder) : Prop where
  cas : s'.db.cas = s.db.cas
  cleared : s.cleared ⊆ s'.cleared
  stands : ∀ g : Settled, g.Stands s.db → g.Stands s'.db
  cacheIds : s.cacheIds ≤ s'.cacheIds
  entries : ∀ e' ∈ s'.cache, e'.id < s.cacheIds →
    ∃ e ∈ s.cache, e.id = e'.id ∧ e.caId = e'.caId ∧ e.certSerial = e'.certSerial

section Grows

variable {s s' : Responder} {t : Task} {db db' : Db} {g : Settled} {e : CachedResponse}

theorem speaksFor_congr (h : db'.cas = db.cas) : e.SpeaksFor db' g ↔ e.SpeaksFor db g := by
  simp [CachedResponse.SpeaksFor, Db.sameKeyRefids, h]

theorem Answer.Holds.congr {a : Answer} (h : db'.cas = db.cas) (ha : a.Holds db) : a.Holds db' := by
  simpa only [Answer.Holds, Settled.Concerns, Db.sameKeyRefids, h] using ha

theorem Task.Kept.mono (h : Grows s s') (ht : t.Kept s) : t.Kept s' := by
  have hquery : ∀ {q : Query}, q.Kept s → q.Kept s' :=
    fun hq => ⟨h.cas ▸ hq.1, List.Subset.trans hq.2 h.cleared⟩
  have hanswers : ∀ {a : Answer}, a.Holds s.db → a.Holds s'.db := fun ha => ha.congr h.cas
  cases t with
  | lookup q | resolve q | readStatus q signer => exact hquery ht
  | sign q signer status | cacheFind q status nextUpdate =>
    exact ⟨hquery ht.1, hanswers ht.2⟩
  | cacheWrite q status nextUpdate existing =>
    obtain ⟨hq, ha, hexisting⟩ := ht
    refine ⟨hquery hq, hanswers ha, fun id hid => ?_⟩
    obtain ⟨hlt, hentries⟩ := hexisting id hid
    refine ⟨hlt.trans_le h.cacheIds, fun e' he' hsame => ?_⟩
    obtain ⟨e, he, heid, hca, hkey⟩ := h.entries e' he' (by omega)
    rw [← hca, ← hkey]
    exact hentries e he (heid.trans hsame)
  | multiResolve ca serials settled => exact List.Subset.trans ht h.cleared
  | multi ca pending answers settled =>
    exact ⟨List.Subset.trans ht.1 h.cleared, fun a ha => hanswers (ht.2 a ha)⟩
  | revokeClock | revokeCommit => trivial
  | invalidate g serial caId => exact ⟨h.stands g ht.1, ht.2⟩
  | returning g => exact h.cleared ht

theorem Grows.of_sublist (hdb : s'.db = s.db) (hcleared : s.cleared ⊆ s'.cleared)
    (hids : s'.cacheIds = s.cacheIds) (hcache : s'.cache.Sublist s.cache) : Grows s s' :=
  ⟨by rw [hdb], hcleared, fun g hg => hdb ▸ hg, hids.ge,
    fun e he _ => ⟨e, hcache.subset he, rfl, rfl, rfl⟩⟩

theorem Grows.refl (s : Responder) : Grows s s :=
  .of_sublist rfl (List.Subset.refl _) rfl (List.Sublist.refl _)

end Grows

/-! ## Every run -/

section Steps

variable {s s' : Responder} {t : Task} {t' : Option Task} {q : Query} {status : Status}

theorem Responder.Sound.addAnswers (h : s.Sound) {answers : List Answer}
    (ha : ∀ a ∈ answers, a.Holds s.db) : { s with answers := s.answers ++ answers }.Sound :=
  { h with answers := forall_mem_append.mpr ⟨h.answers, ha⟩ }

theorem Responder.Sound.answer (h : s.Sound) (ha : q.Answers s status) :
    (s.answer q status).Sound :=
  h.addAnswers fun a hmem => by rw [mem_singleton.mp hmem]; exact ha

theorem Responder.Sound.sublist (h : s.Sound) {cache : List CachedResponse}
    (hcache : cache.Sublist s.cache) : { s with cache := cache }.Sound :=
  { h with
    ids := h.ids.sublist (hcache.map _)
    counted := fun e he => h.counted e (hcache.subset he)
    clear := fun g hg e he => h.clear g hg e (hcache.subset he) }

/-- A cached good is not for a certificate that was settled when the request came in. -/
theorem Responder.Sound.cached (h : s.Sound) (hq : q.Kept s) {e : CachedResponse}
    (he : s.cached? q = some e) : q.Answers s e.status := by
  intro hgood g hg hconcerns
  obtain ⟨hca, hsettled⟩ := hq
  have hmatch := find?_some he
  simp only [Bool.and_eq_true, decide_eq_true_eq] at hmatch
  refine h.clear g (hsettled hg) e (mem_of_find?_eq_some he) hgood ⟨⟨q.ca, hca, ?_⟩, ?_⟩
  · exact ⟨hmatch.1.symm, hconcerns.1⟩
  · refine ⟨q.algorithm, by cases q.algorithm <;> simp [HashAlgorithm.all], ?_⟩
    rw [hconcerns.2]
    exact hmatch.2

theorem Responder.Sound.reads (h : s.Sound) {ca : CaRow} {serial : ℕ} {settled : List Settled}
    (hsettled : settled ⊆ s.cleared) :
    Answer.Holds s.db ⟨ca, serial, s.db.statusForSerial ca serial, settled⟩ :=
  fun hgood g hg hconcerns => (h.stands g (hsettled hg)).status_ne_good hconcerns hgood

theorem Responder.Sound.cacheResponse (h : s.Sound) {nextUpdate : ℕ} {existing : Option ℕ}
    (ht : Task.Kept s (.cacheWrite q status nextUpdate existing))
    (hguard : status = .good → ∀ g ∈ s.cleared, ¬ g.Concerns s.db q.ca q.serial) :
    (s.cacheResponse q status nextUpdate existing).Sound ∧
      Grows s (s.cacheResponse q status nextUpdate existing) := by
  obtain ⟨⟨hca, -⟩, -, hexisting⟩ := ht
  -- the response that is stored speaks for no certificate whose revocation cleared the cache
  have hnew : ∀ g ∈ s.cleared, status = .good → ∀ e : CachedResponse, e.caId = q.ca.id →
      e.certSerial = cacheKey q.serial q.algorithm → ¬ e.SpeaksFor s.db g := by
    rintro g hg hgood e hcaId hkey ⟨⟨ca, hmem, hid, hgroup⟩, algorithm, -, hkey'⟩
    have hsame : ca = q.ca := eq_of_key h.caIds hmem hca (hid.trans hcaId)
    have hserial : g.serial = q.serial := cacheKey_serial (hkey'.symm.trans hkey)
    exact hguard hgood g hg ⟨hsame ▸ hgroup, hserial⟩
  cases existing with
  | none =>
    refine ⟨⟨h.caIds, h.texts, ?_, ?_, h.stands, fun g hg => ?_, h.returned, h.answers⟩,
      ⟨rfl, List.Subset.refl _, fun _ hg => hg, Nat.le_succ _, ?_⟩⟩
    · exact nodup_concat h.ids fun e he hid => by
        have hlt := h.counted e he
        simp only at hid
        omega
    · exact forall_mem_concat.mpr ⟨fun e he => (h.counted e he).trans (Nat.lt_succ_self _),
        Nat.lt_succ_self _⟩
    · exact forall_mem_concat.mpr ⟨h.clear g hg, fun hgood => hnew g hg hgood _ rfl rfl⟩
    · exact forall_mem_concat.mpr ⟨fun e he _ => ⟨e, he, rfl, rfl, rfl⟩,
        fun hlt => absurd hlt (Nat.lt_irrefl _)⟩
  | some id =>
    obtain ⟨-, hentries⟩ := hexisting id rfl
    refine ⟨⟨h.caIds, h.texts, nodup_amend (fun _ => rfl) h.ids,
      forall_mem_amend h.counted fun _ _ _ hlt => hlt, h.stands, fun g hg => ?_, h.returned,
      h.answers⟩, ⟨rfl, List.Subset.refl _, fun _ hg => hg, Nat.le_refl _, ?_⟩⟩
    · refine forall_mem_amend (h.clear g hg) fun old hold hid _ hgood => ?_
      obtain ⟨hcaId, hkey⟩ := hentries old hold (by simpa using hid)
      exact hnew g hg hgood _ hcaId hkey
    · exact forall_mem_amend (fun e he _ => ⟨e, he, rfl, rfl, rfl⟩)
        fun e he _ _ _ => ⟨e, he, rfl, rfl, rfl⟩

theorem Responder.Sound.revokeCommit (h : s.Sound) {id instant : ℕ} {row : CertRow}
    (hrow : s.db.certificate? id = some row) (reason : Reason) :
    { s with db := s.db.revokeCertificate id reason instant }.Sound ∧
      Grows s { s with db := s.db.revokeCertificate id reason instant } ∧
      Settled.Stands ⟨row.caref, row.crt.serial⟩ (s.db.revokeCertificate id reason instant) := by
  have hcas : (s.db.revokeCertificate id reason instant).cas = s.db.cas :=
    cas_revokeCertificate reason
  have hrows : (s.db.revokeCertificate id reason instant).certificates =
      (s.db.setCertificate id fun row => { row with
        revoked := true, revokedAt := some instant, revokeReason := some reason }).certificates :=
    certificates_revokeCertificate reason hrow
  obtain ⟨hmem, hid⟩ := certificate?_mem hrow
  have hstands : ∀ g : Settled, g.Stands s.db →
      g.Stands (s.db.revokeCertificate id reason instant) := by
    rintro g ⟨q, hq, hcaref, hserial, htext, hrev⟩
    rw [Settled.Stands, hrows]
    by_cases hqid : q.id = id
    · exact ⟨_, mem_amend.mpr (.inr ⟨q, hq, by simpa using hqid, rfl⟩), hcaref, hserial, htext, rfl⟩
    · exact ⟨q, mem_amend.mpr (.inl ⟨hq, by simpa using hqid⟩), hcaref, hserial, htext, hrev⟩
  refine ⟨⟨?_, ?_, h.ids, h.counted, fun g hg => hstands g (h.stands g hg), ?_, h.returned, ?_⟩,
    ⟨hcas, List.Subset.refl _, hstands, Nat.le_refl _, fun e he _ => ⟨e, he, rfl, rfl, rfl⟩⟩, ?_⟩
  · rw [hcas]
    exact h.caIds
  · rw [hrows]
    exact forall_mem_amend h.texts fun _ _ _ htext => htext
  · exact fun g hg e he hgood hspeaks => h.clear g hg e he hgood ((speaksFor_congr hcas).mp hspeaks)
  · exact fun a ha => (h.answers a ha).congr hcas
  · rw [Settled.Stands, hrows]
    exact ⟨_, mem_amend.mpr (.inr ⟨row, hmem, by simpa using hid, rfl⟩), rfl, rfl, h.texts row hmem,
      rfl⟩

theorem Responder.Sound.invalidate (h : s.Sound) {g : Settled} {serial : List Char}
    {caId : Option ℕ} (hstands : g.Stands s.db) (htext : serial ∈ serialVariants g.serial)
    (hguard : ∀ e ∈ s.cache, e.status = .good → e.SpeaksFor s.db g →
      caId.all (· = e.caId) = true) :
    { s with cache := invalidateCachedResponses serial caId s.cache,
             cleared := g :: s.cleared }.Sound := by
  have hsub := invalidateCachedResponses_sublist serial caId s.cache
  refine ⟨h.caIds, h.texts, h.ids.sublist (hsub.map _), fun e he => h.counted e (hsub.subset he),
    ?_, ?_, List.Subset.trans h.returned (subset_cons_self _ _), h.answers⟩
  · exact forall_mem_cons.mpr ⟨hstands, h.stands⟩
  · intro g' hg' e he hgood hspeaks
    rcases mem_cons.mp hg' with rfl | hold
    · obtain ⟨algorithm, -, hkey⟩ := hspeaks.2
      exact not_mem_invalidateCachedResponses htext hkey
        (hguard e (hsub.subset he) hgood hspeaks) he
    · exact h.clear g' hold e (hsub.subset he) hgood hspeaks

theorem advance_sound {ok : Bool} (h : s.Sound) (hguard : t.Prompt s ok) (ht : t.Kept s)
    (hadv : s.advance t ok = some (s', t')) :
    s'.Sound ∧ Grows s s' ∧ ∀ v ∈ t', v.Kept s' := by
  have hread : ∀ {u : Task}, u.Kept s → s.Sound ∧ Grows s s ∧ ∀ v ∈ some u, v.Kept s := by
    rintro u hu
    exact ⟨h, .refl s, fun v hv => Option.some.inj hv ▸ hu⟩
  cases t with
  | lookup q =>
    simp only [Responder.advance] at hadv
    split at hadv
    · next e he =>
      split at hadv <;> cases hadv
      · exact hread ht
      · exact ⟨h.answer (h.cached ht he), { Grows.refl s with }, by simp⟩
    · cases hadv
      exact hread ht
  | resolve q =>
    cases hadv
    refine ⟨h, .refl s, fun v hv => ?_⟩
    obtain ⟨signer, -, rfl⟩ := Option.map_eq_some_iff.mp hv
    exact ht
  | readStatus q signer =>
    cases hadv
    exact hread ⟨ht, h.reads ht.2⟩
  | sign q signer status =>
    simp only [Responder.advance] at hadv
    split at hadv <;> cases hadv
    · exact ⟨h.answer ht.2, { Grows.refl s with }, by simp⟩
    · exact hread ht
  | cacheFind q status nextUpdate =>
    cases hadv
    refine hread ⟨ht.1, ht.2, fun id hid => ?_⟩
    obtain ⟨e, he, rfl⟩ := Option.map_eq_some_iff.mp hid
    have hmem := mem_of_find?_eq_some he
    refine ⟨h.counted e hmem, fun e' he' hsame => ?_⟩
    rw [eq_of_key h.ids he' hmem hsame]
    simpa using find?_some he
  | cacheWrite q status nextUpdate existing =>
    cases hadv
    obtain ⟨hsound, hgrows⟩ := h.cacheResponse ht hguard
    refine ⟨?_, ?_, by simp⟩
    · cases ok with
      | true => exact hsound.answer (ht.2.1.congr hgrows.cas)
      | false => exact h.answer ht.2.1
    · cases ok with
      | true => exact { hgrows with }
      | false => exact { Grows.refl s with }
  | multiResolve ca serials settled =>
    cases hadv
    refine ⟨h, .refl s, fun v hv => ?_⟩
    obtain ⟨signer, -, rfl⟩ := Option.map_eq_some_iff.mp hv
    exact ⟨ht, by simp⟩
  | multi ca pending answers settled =>
    cases pending with
    | nil =>
      cases hadv
      exact ⟨h.addAnswers ht.2, { Grows.refl s with }, by simp⟩
    | cons serial rest =>
      cases hadv
      exact hread ⟨ht.1, forall_mem_concat.mpr ⟨ht.2, h.reads ht.1⟩⟩
  | revokeClock id reason =>
    cases hadv
    exact hread trivial
  | revokeCommit id reason instant =>
    simp only [Responder.advance] at hadv
    split at hadv
    · cases hadv
      exact ⟨h, .refl s, by simp⟩
    · next row hrow =>
      split at hadv <;> cases hadv
      · obtain ⟨hsound, hgrows, hstands⟩ := h.revokeCommit hrow reason
        refine ⟨hsound, hgrows, ?_⟩
        rintro v ⟨⟩
        exact ⟨hstands, h.texts row (certificate?_mem hrow).1⟩
      · exact ⟨h, .refl s, by simp⟩
  | invalidate g serial caId =>
    cases hadv
    obtain ⟨hok, hcached⟩ := hguard
    rw [if_pos hok]
    refine ⟨h.invalidate ht.1 ht.2 hcached, .of_sublist rfl (subset_cons_self _ _) rfl
      (invalidateCachedResponses_sublist serial caId s.cache), ?_⟩
    rintro v ⟨⟩
    exact mem_cons_self
  | returning g =>
    cases hadv
    exact ⟨{ h with returned := cons_subset.mpr ⟨ht, h.returned⟩ }, { Grows.refl s with }, by simp⟩

theorem findCaByIssuer_mem {db : Db} {item : CertId} {ca : CaRow}
    (h : findCaByIssuer db item = some ca) : ca ∈ db.cas := by
  rcases mem_append.mp (mem_of_find?_eq_some h) with hmem | hmem <;> exact mem_of_mem_filter hmem

theorem start_kept {r : Request} (h : s.Sound) (hstart : s.start r = some t) : t.Kept s := by
  cases r with
  | ask items nonce =>
    cases items with
    | nil => cases hstart
    | cons item rest =>
      obtain ⟨ca, hca, hstart⟩ := Option.bind_eq_some_iff.mp hstart
      split at hstart
      · split at hstart
        · cases hstart
          have hq : Query.Kept s ⟨ca, item.serial, item.algorithm, nonce, s.returned⟩ :=
            ⟨findCaByIssuer_mem hca, h.returned⟩
          cases nonce with
          | true | false => exact hq
        · cases hstart
          exact h.returned
      · cases hstart
  | revoke id reason =>
    obtain ⟨row, -, hstart⟩ := Option.bind_eq_some_iff.mp hstart
    split at hstart <;> cases hstart
    trivial

end Steps

theorem sound_inductive : Responder.system.Inductive Prompt Responder.Sound
    (fun s t => t.Kept s) (fun _ _ => True) where
  symm _ := trivial
  event := by
    intro w e _ h
    cases e with
    | tick | configure =>
      exact ⟨{ h with },
        Task.Kept.mono (.of_sublist rfl (List.Subset.refl _) rfl (List.Sublist.refl _))⟩
    | invalidateCaCache | cleanupExpiredResponses =>
      exact ⟨h.sublist filter_sublist,
        Task.Kept.mono (.of_sublist rfl (List.Subset.refl _) rfl filter_sublist)⟩
  start := fun _ h hstart => ⟨start_kept h hstart, fun _ => trivial⟩
  advance := by
    intro w i ok t s' t' hguard h ht hQ hadv
    obtain ⟨hsound, hgrows, hnext⟩ := advance_sound h (hguard t ht) hQ hadv
    exact ⟨hsound, fun hv => ⟨hnext _ hv, fun _ _ => trivial⟩, fun hu _ => hu.mono hgrows⟩

/-- In every such run, no request that was received after a revocation had returned is answered
good for the revoked certificate, whichever record of the issuer key answers. -/
theorem no_stale_good (now validity : ℕ) (enabled : List ℕ) (signers : List Signer) (db : Db)
    (hids : (db.cas.map CaRow.id).Nodup)
    (htexts : ∀ row ∈ db.certificates, row.serialNumber ∈ serialVariants row.crt.serial)
    (w : World Responder Task)
    (hw : Reach Responder.system.step Prompt
      (World.initial (Responder.init now validity enabled signers db)) w)
    (a : Answer) (ha : a ∈ w.shared.answers) (g : Settled) (hg : g ∈ a.settled)
    (hconcerns : g.Concerns w.shared.db a.ca a.serial) : a.status ≠ .good := by
  have hstart : (Responder.init now validity enabled signers db).Sound := by
    refine ⟨hids, htexts, ?_, ?_, ?_, ?_, ?_, ?_⟩ <;> simp [Responder.init]
  have hsound := (sound_inductive.reach hstart hw).shared
  exact fun hgood => hsound.answers a ha hgood g hg hconcerns

/-- A cross-certificate of the key of `rootCa`, in a record of its own. -/
def crossCa : CaRow :=
  ⟨2, 12, none, 5, some ⟨⟨78, 1000⟩, 5, 1, 8, 9, none⟩, none, some 1000, false, none, none, true,
    false, true, true⟩

/-- A responder for `rootCa`, with one certificate that is linked to the given record. -/
def oneCertificate (caref : ℕ) : Responder :=
  .init 0 100 [1] [⟨1, none⟩]
    ⟨[rootCa, crossCa], [⟨1, caref, ⟨26, 900⟩, ['1', 'a'], some 900, false, none, none⟩], [], 0, []⟩

/-- The next steps of one task, with no other step between them. -/
def finish (task steps : ℕ) : List (Label Request Bool Event) :=
  List.replicate steps (.advance task true)

def askFor (task : ℕ) : Label Request Bool Event :=
  .request task (.ask [⟨5, 1, 26, .sha1⟩] false)

def beforeAndAfter : List (Label Request Bool Event) :=
  askFor 0 :: finish 0 6 ++ .request 1 (.revoke 1 .keyCompromise) :: finish 1 4 ++
    askFor 2 :: finish 2 6

theorem no_stale_good_before_and_after :
    let w := exec Responder.system.step (World.initial (oneCertificate 10)) beforeAndAfter
    w.shared.answers.map Answer.status = [.good, .revoked .keyCompromise] ∧
      ∃ a ∈ w.shared.answers, ∃ g ∈ a.settled, g.Concerns w.shared.db a.ca a.serial ∧
        a.status ≠ .good := by
  intro w
  have hasked : ∃ a ∈ w.shared.answers, ∃ g ∈ a.settled, g.Concerns w.shared.db a.ca a.serial := by
    decide
  obtain ⟨a, ha, g, hg, hconcerns⟩ := hasked
  exact ⟨by decide, a, ha, g, hg, hconcerns, no_stale_good 0 100 [1] [⟨1, none⟩] _ (by decide)
    (by decide) w (Reach.start.exec (by decide)) a ha g hg hconcerns⟩

/-- A good that was read before the commit is stored after the cache was cleared. -/
theorem good_cached_after_revocation :
    let w := exec Responder.system.step (World.initial (oneCertificate 10))
      (askFor 0 :: finish 0 3 ++ .request 1 (.revoke 1 .keyCompromise) :: finish 1 4 ++
        finish 0 3 ++ askFor 2 :: finish 2 1)
    ∃ a ∈ w.shared.answers, ∃ g ∈ a.settled, g.Concerns w.shared.db a.ca a.serial ∧
      a.status = .good := by
  decide

/-- The certificate is linked to the cross-certificate: the good of the root record stays. -/
example :
    let w := exec Responder.system.step (World.initial (oneCertificate 12)) beforeAndAfter
    w.shared.answers.map Answer.status = [.good, .good] := by
  decide

end UltimateCaManager.Ocsp
