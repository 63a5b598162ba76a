import UltimateCaManager.AcmeOrderStates
import UltimateCaManager.Base64

/-!
# Orders that replace a certificate

`services/acme/ari.py` and the `replaces` field of `newOrder`. The server runs as before; beside
it stand the column `replaces` of its orders and the values that orders not yet committed will
carry. A CertID names a certificate by octets, and one certificate has many CertIDs, since the
serial is read as a number. The column is compared as text.
-/
namespace UltimateCaManager.Acme

open List Runs Tables Transactions

/-! ## CertIDs -/

/-- The key identifier of the issuer and the serial. -/
abbrev CertKey := List UInt8 × ℕ

/-- The two symbols in which the URL-safe alphabet differs, on decoding. -/
def fromUrlSymbol (c : Char) : Char := if c = '-' then '+' else if c = '_' then '/' else c

def toUrlSymbol (c : Char) : Char := if c = '+' then '-' else if c = '/' then '_' else c

/-- `base64.urlsafe_b64encode(…).rstrip(b'=')`. -/
def b64urlEncode (bytes : List UInt8) : List Char :=
  ((((Base64.encode bytes).map toUrlSymbol).reverse.dropWhile (· = '='))).reverse

/-- `_b64url_decode`: canonical and unpadded, or refused. -/
def b64urlDecode (segment : List Char) : Option (List UInt8) :=
  if segment ≠ [] ∧ segment.all fun c => c.isAlphanum || c = '_' || c = '-' then do
    let pad := List.replicate ((4 - segment.length % 4) % 4) '='
    let decoded ← Base64.decode ((segment ++ pad).map fromUrlSymbol)
    if b64urlEncode decoded = segment then some decoded else none
  else none

/-- The octets of the two parts of a CertID. -/
def certidOctets (certid : List Char) : Option (List UInt8 × List UInt8) :=
  match certid.splitOn '.' with
  | [akiPart, serialPart] => do
    let aki ← b64urlDecode akiPart
    let serial ← b64urlDecode serialPart
    if aki ≠ [] ∧ serial ≠ [] then some (aki, serial) else none
  | _ => none

/-- `int.from_bytes(…, 'big')`. -/
def fromBytes (bytes : List UInt8) : ℕ := bytes.foldl (fun n b => 256 * n + b.toNat) 0

def parseCertid (certid : List Char) : Option CertKey :=
  (certidOctets certid).map fun octets => (octets.1, fromBytes octets.2)

/-! ## The state -/

/-- A value of `replaces` that the order of a request under way will carry. -/
structure Staged where
  slot : ℕ
  orderId : ℕ
  certid : List Char

/-- The server with the column `replaces` of its orders. -/
structure Renewals where
  server : World
  replaces : ℕ → Option (List Char)
  staged : List Staged

/-- An order that counts as a replacement: not invalid, and valid or not expired. -/
def Order.counts (o : Order) (now : ℕ) : Bool :=
  o.status ≠ .invalid && (o.status = .valid || now < o.expires)

/-- `find_certificate`; `keys` gives the key identifier and serial that a stored certificate
has. -/
def findCertificate (keys : ℕ → CertKey) (db : Db) (key : CertKey) : Option ℕ :=
  (db.certificates.find? fun c => keys c.certificateId = key).map Certificate.certificateId

def certidIsOwnedByAccount (keys : ℕ → CertKey) (db : Db) (certid : List Char)
    (accountId : ℕ) : Bool :=
  match (parseCertid certid).bind (findCertificate keys db) with
  | none => false
  | some certificateId =>
    db.orders.any fun o => o.accountId = accountId && o.certificateId = some certificateId

def Renewals.hasValidReplacement (s : Renewals) (certid : List Char) : Bool :=
  s.server.db.orders.any fun o => s.replaces o.orderId = some certid && o.counts s.server.now

/-- What `newOrder` makes of a `replaces` field: refused, or accepted with the value to record. -/
inductive Verdict
  | refused (errorType detail : String)
  | accepted (recorded : Option (List Char))

def Verdict.isAccepted : Verdict → Bool
  | .accepted _ => true
  | .refused _ _ => false

def Renewals.judge (keys : ℕ → CertKey) (s : Renewals) (accountId : ℕ) (certid : List Char) :
    Verdict :=
  if (parseCertid certid).isNone then
    .refused "malformed" "Malformed replacement certificate identifier"
  -- a certificate that the account does not hold: as if the field were omitted
  else if !certidIsOwnedByAccount keys s.server.db certid accountId then .accepted none
  else if s.hasValidReplacement certid then
    .refused "alreadyReplaced" "The certificate named by \"replaces\" has already been replaced"
  else .accepted (some certid)

/-! ## Steps -/

inductive Renewal
  | serve (l : Label)
  | newOrder (slot orderId accountId : ℕ) (identifiers : List Identifier) (certid : List Char)

def Renewals.unstage (s : Renewals) (slot : ℕ) : List Staged := s.staged.filter (·.slot ≠ slot)

/-- What a step of a request does to the column: when its order appears, the value is stored with
it. -/
def Renewals.record (s : Renewals) (slot : ℕ) (server : World) : Renewals :=
  match s.staged.find? (·.slot = slot) with
  | none => { s with server := server }
  | some e =>
    if (s.server.db.order? e.orderId).isNone ∧ (server.db.order? e.orderId).isSome then
      ⟨server, Function.update s.replaces e.orderId (some e.certid), s.unstage slot⟩
    else if (server.tasks slot).isNone then ⟨server, s.replaces, s.unstage slot⟩
    else { s with server := server }

def renewalStep (text : Text) (keys : ℕ → CertKey) (s : Renewals) : Renewal → Renewals
  | .serve l =>
    match l with
    | .advance slot input => s.record slot (step text s.server (.advance slot input))
    | l => { s with server := step text s.server l }
  | .newOrder slot orderId accountId identifiers certid =>
    if (s.server.tasks slot).isSome then s
    else match s.judge keys accountId certid with
      | .refused _ _ => s
      | .accepted recorded =>
        { s with
          server := step text s.server (.request slot (.newOrder orderId accountId identifiers))
          staged := s.unstage slot ++ (recorded.map (⟨slot, orderId, ·⟩)).toList }

def noRenewals (settings : Settings) (now : ℕ) : Renewals :=
  ⟨initial settings now, fun _ => none, []⟩

/-! ## The octets determine the text -/

theorem b64urlEncode_of_decode {segment : List Char} {bytes : List UInt8}
    (h : b64urlDecode segment = some bytes) : b64urlEncode bytes = segment := by
  unfold b64urlDecode at h
  split at h
  · simp only [Option.bind_eq_bind, Option.bind_eq_some_iff] at h
    obtain ⟨decoded, -, h⟩ := h
    split at h
    next hsame =>
      cases h
      exact hsame
    next => cases h
  · cases h

variable {certid : List Char} {orderId accountId : ℕ} {o : Order}

theorem certid_of_octets {octets : List UInt8 × List UInt8}
    (h : certidOctets certid = some octets) :
    certid = b64urlEncode octets.1 ++ '.' :: b64urlEncode octets.2 := by
  unfold certidOctets at h
  split at h
  next akiPart serialPart hsplit =>
    simp only [Option.bind_eq_bind, Option.bind_eq_some_iff] at h
    obtain ⟨aki, haki, serial, hserial, h⟩ := h
    split at h
    next =>
      cases h
      rw [b64urlEncode_of_decode haki, b64urlEncode_of_decode hserial]
      have hjoin : List.intercalate ['.'] (certid.splitOn '.') = certid := intercalate_splitOn '.'
      rw [hsplit] at hjoin
      simpa using hjoin.symm
    next => cases h
  next => cases h

/-! ## Orders that count keep counting or stop for good -/

def Task.sets : Task → List (ℕ × OrderStatus)
  | .committing writes _ _ => writes.filterMap fun
    | .setOrderStatus orderId status => some (orderId, status)
    | _ => none
  | _ => []

variable {text : Text} {keys : ℕ → CertKey} {db db' : Db}

theorem order?_applyAll (ws : List Write) (h : db.order? orderId = some o) :
    ∃ o', (store.applyAll db ws).order? orderId = some o' ∧ o'.expires = o.expires ∧
      (o'.status = o.status ∨ .setOrderStatus orderId o'.status ∈ ws) := by
  induction ws generalizing db o with
  | nil => exact ⟨o, h, rfl, .inl rfl⟩
  | cons w ws ih =>
    have hid : o.orderId = orderId := (order?_mem h).2
    obtain ⟨o', h', hexpires, hcase⟩ := ih (order?_apply (w := w) h)
    have hfixed : (o.after w).expires = o.expires := by
      have := Order.after_fixed w o
      simp only [Order.fixed, Prod.mk.injEq] at this
      exact this.2.2.2
    refine ⟨o', h', hexpires.trans hfixed, ?_⟩
    rcases hcase with heq | hmem
    · rcases after_status w o with hsame | hset
      · exact .inl (heq.trans hsame)
      · rw [hid, ← heq] at hset
        exact .inr (hset ▸ mem_cons_self)
    · exact .inr (mem_cons_of_mem w hmem)

/-- A step leaves the status of an order, claims the order or commits a status, and leaves its
expiry. -/
theorem advances_order {settings : Settings} {now : ℕ} {t : Task} {input : Input} {t' : Option Task}
    (h : Advances text settings now db t input db' t') (ho : db.order? orderId = some o) :
    ∃ o', db'.order? orderId = some o' ∧ o'.expires = o.expires ∧
      (o'.status = o.status ∨ o.status = .ready ∧ o'.status = .processing ∨
        input.commits = true ∧ (orderId, o'.status) ∈ t.sets) := by
  cases h with
  | @claim id csr problem hready =>
    obtain ⟨o', h', hexpires, hcase⟩ := order?_applyAll [.setOrderStatus id .processing] ho
    refine ⟨o', h', hexpires, ?_⟩
    rcases hcase with heq | hmem
    · exact .inl heq
    · obtain ⟨rfl, hstatus⟩ := Write.setOrderStatus.inj (mem_singleton.mp hmem)
      simp only [Db.status?, ho, Option.map_some, Option.some.injEq] at hready
      exact .inr (.inl ⟨hready, hstatus⟩)
  | @committed writes reads next problem hacc =>
    obtain ⟨o', h', hexpires, hcase⟩ := order?_applyAll writes ho
    refine ⟨o', h', hexpires, ?_⟩
    rcases hcase with heq | hmem
    · exact .inl heq
    · exact .inr (.inr ⟨rfl, mem_filterMap.mpr ⟨_, hmem, rfl⟩⟩)
  | _ => exact ⟨o, ho, rfl, .inl rfl⟩

/-- A commit revives no invalid order and makes no expired order valid. -/
def Lawful (w : World) : Label → Prop
  | .advance i input => input.commits = true → ∀ t ∈ w.tasks i, ∀ r ∈ t.sets,
      ∀ o ∈ w.db.order? r.1, (r.2 ≠ .invalid → o.status ≠ .invalid) ∧
        (r.2 = .valid → w.now < o.expires)
  | _ => True

/-- In a lawful step an order that counts afterwards is new or counted before. -/
theorem counts_of_step (text : Text) {w : World} {l : Label} (hl : Lawful w l)
    (ho : w.db.order? orderId = some o) :
    ∃ o', (step text w l).db.order? orderId = some o' ∧
      (o'.counts (step text w l).now = true → o.counts w.now = true) := by
  have hsteps := step_steps text w l
  generalize step text w l = w' at hsteps
  cases hsteps with
  | idle | configure | request => exact ⟨o, ho, id⟩
  | @tick seconds =>
    refine ⟨o, ho, fun h => ?_⟩
    simp only [Order.counts, Bool.and_eq_true, Bool.or_eq_true, decide_eq_true_eq] at h ⊢
    exact ⟨h.1, h.2.imp_right fun hlt => by omega⟩
  | @advance i input t db' t' ht hadv =>
    obtain ⟨o', ho', hexpires, hcase⟩ := advances_order hadv ho
    refine ⟨o', ho', fun h => ?_⟩
    simp only [Order.counts, Bool.and_eq_true, Bool.or_eq_true, decide_eq_true_eq, hexpires]
      at h ⊢
    rcases hcase with heq | ⟨hready, hproc⟩ | ⟨hcommit, hset⟩
    · rwa [heq] at h
    · rw [hproc] at h
      rw [hready]
      exact ⟨by decide, .inr (h.2.resolve_left (by decide))⟩
    · obtain ⟨hinvalid, hvalid⟩ := hl hcommit t ht _ hset o ho
      exact ⟨hinvalid h.1, .inr (h.2.elim hvalid id)⟩

/-! ## The invariant -/

/-- Commits are lawful. A `replaces` field comes when no other order for the same certificate is
under way, and in the spelling that the orders for this certificate were recorded with. -/
def Orderly (s : Renewals) : Renewal → Prop
  | .serve l => Lawful s.server l
  | .newOrder _ _ _ _ certid =>
    (∀ e ∈ s.staged, parseCertid e.certid ≠ parseCertid certid) ∧
      ∀ o ∈ s.server.db.orders, ∀ c ∈ s.replaces o.orderId,
        parseCertid c = parseCertid certid → c = certid

/-- At most one order that counts is recorded for a certificate, and none while another one is
under way. -/
structure Sole (s : Renewals) : Prop where
  known : ∀ x c, s.replaces x = some c → ∃ o, s.server.db.order? x = some o
  staged : ∀ e ∈ s.staged, ∀ x o c, s.server.db.order? x = some o → s.replaces x = some c →
    parseCertid c = parseCertid e.certid → o.counts s.server.now = false
  apart : ∀ e ∈ s.staged, ∀ e' ∈ s.staged, parseCertid e.certid = parseCertid e'.certid → e = e'
  recorded : ∀ x y o o' c c', s.server.db.order? x = some o → s.server.db.order? y = some o' →
    s.replaces x = some c → s.replaces y = some c' → parseCertid c = parseCertid c' →
    o.counts s.server.now = true → o'.counts s.server.now = true → x = y

variable {s : Renewals}

theorem Sole.initial (settings : Settings) (now : ℕ) : Sole (noRenewals settings now) := by
  constructor <;> simp [noRenewals]

theorem Sole.of_subset (h : Sole s) {staged : List Staged} (hsub : staged ⊆ s.staged) :
    Sole { s with staged := staged } :=
  { h with
    staged := fun e he => h.staged e (hsub he)
    apart := fun e he e' he' => h.apart e (hsub he) e' (hsub he') }

theorem Sole.serve (h : Sole s) (text : Text) {l : Label} (hl : Lawful s.server l) :
    Sole { s with server := step text s.server l } := by
  -- an order with a recorded value was there before the step
  have hback : ∀ x o' c, (step text s.server l).db.order? x = some o' → s.replaces x = some c →
      ∃ o, s.server.db.order? x = some o ∧
        (o'.counts (step text s.server l).now = true → o.counts s.server.now = true) := by
    intro x o' c ho' hc
    obtain ⟨o, ho⟩ := h.known x c hc
    obtain ⟨o'', ho'', hcounts⟩ := counts_of_step text hl ho
    rw [ho'] at ho''
    cases ho''
    exact ⟨o, ho, hcounts⟩
  refine ⟨fun x c hc => ?_, fun e he x o' c ho' hc hkey => ?_, h.apart, ?_⟩
  · obtain ⟨o, ho⟩ := h.known x c hc
    obtain ⟨o', ho', -⟩ := counts_of_step text hl ho
    exact ⟨o', ho'⟩
  · obtain ⟨o, ho, hcounts⟩ := hback x o' c ho' hc
    have hnot := h.staged e he x o c ho hc hkey
    rw [← Bool.not_eq_true] at hnot ⊢
    exact fun hc' => hnot (hcounts hc')
  · intro x y ox oy cx cy hox hoy hcx hcy hkey hcountx hcounty
    obtain ⟨ox₀, hox₀, hx⟩ := hback x ox cx hox hcx
    obtain ⟨oy₀, hoy₀, hy⟩ := hback y oy cy hoy hcy
    exact h.recorded x y ox₀ oy₀ cx cy hox₀ hoy₀ hcx hcy hkey (hx hcountx) (hy hcounty)

theorem unstage_subset (s : Renewals) (slot : ℕ) : s.unstage slot ⊆ s.staged :=
  filter_sublist.subset

/-- When an order appears with its value, no other order for the certificate counts. -/
theorem Sole.store (h : Sole s) {e : Staged} (he : e ∈ s.staged)
    (ho : s.server.db.order? e.orderId = some o) :
    Sole ⟨s.server, Function.update s.replaces e.orderId (some e.certid), s.unstage e.slot⟩ := by
  have hcases : ∀ {x c}, Function.update s.replaces e.orderId (some e.certid) x = some c →
      x = e.orderId ∧ c = e.certid ∨ s.replaces x = some c := by
    intro x c hc
    by_cases hx : x = e.orderId
    · rw [hx, Function.update_self] at hc
      exact .inl ⟨hx, (Option.some.inj hc).symm⟩
    · rw [Function.update_of_ne hx] at hc
      exact .inr hc
  refine ⟨fun x c hc => ?_, fun e' he' x o' c ho' hc hkey => ?_, ?_, ?_⟩
  · rcases hcases hc with ⟨rfl, -⟩ | hc
    · exact ⟨o, ho⟩
    · exact h.known x c hc
  · have hmem := unstage_subset s e.slot he'
    rcases hcases hc with ⟨-, rfl⟩ | hc
    · have hsame := h.apart e he e' hmem hkey
      have hslot : e'.slot ≠ e.slot := by simpa using (mem_filter.mp he').2
      exact absurd (congrArg Staged.slot hsame).symm hslot
    · exact h.staged e' hmem x o' c ho' hc hkey
  · exact (h.of_subset (unstage_subset s e.slot)).apart
  · intro x y ox oy cx cy hox hoy hcx hcy hkey hcountx hcounty
    rcases hcases hcx with ⟨rfl, rfl⟩ | hcx <;> rcases hcases hcy with ⟨rfl, rfl⟩ | hcy
    · rfl
    · rw [h.staged e he y oy cy hoy hcy hkey.symm] at hcounty
      cases hcounty
    · rw [h.staged e he x ox cx hox hcx hkey] at hcountx
      cases hcountx
    · exact h.recorded x y ox oy cx cy hox hoy hcx hcy hkey hcountx hcounty

theorem Sole.record (h : Sole s) {slot : ℕ} {input : Input}
    (hl : Lawful s.server (.advance slot input)) :
    Sole (s.record slot (step text s.server (.advance slot input))) := by
  have hserve := h.serve text hl
  unfold Renewals.record
  split
  next => exact hserve
  next e he =>
    have hmem : e ∈ s.staged := mem_of_find?_eq_some he
    have hslot : e.slot = slot := by simpa using find?_some he
    split
    next happears =>
      obtain ⟨o, ho⟩ := Option.isSome_iff_exists.mp happears.2
      rw [← hslot]
      rw [← hslot] at hserve ho
      exact Sole.store hserve hmem ho
    next =>
      split
      · exact hserve.of_subset (unstage_subset s slot)
      · exact hserve

theorem judge_recorded {c : List Char} (h : s.judge keys accountId certid = .accepted (some c)) :
    c = certid ∧ s.hasValidReplacement certid = false := by
  unfold Renewals.judge at h
  split at h
  · cases h
  split at h
  · cases h
  split at h
  · cases h
  next hno =>
    cases h
    exact ⟨rfl, by simpa using hno⟩

theorem Sole.stage (h : Sole s) {slot : ℕ} {identifiers : List Identifier}
    (hg : Orderly s (.newOrder slot orderId accountId identifiers certid))
    (hno : s.hasValidReplacement certid = false) :
    Sole { s with staged := s.unstage slot ++ [⟨slot, orderId, certid⟩] } := by
  obtain ⟨hflight, hspelling⟩ := hg
  have hsub := unstage_subset s slot
  refine ⟨h.known, fun e he x o c ho hc hkey => ?_, fun e he e' he' hkey => ?_, h.recorded⟩
  · rcases mem_concat.mp he with he | rfl
    · exact h.staged e (hsub he) x o c ho hc hkey
    · obtain ⟨hmem, rfl⟩ := order?_mem ho
      rw [hspelling o hmem c hc hkey] at hc
      have hrow := any_eq_false.mp hno o hmem
      rw [Bool.and_eq_true, not_and] at hrow
      simpa using hrow (by simpa using hc)
  · rcases mem_concat.mp he with he | rfl <;> rcases mem_concat.mp he' with he' | rfl
    · exact h.apart e (hsub he) e' (hsub he') hkey
    · exact absurd hkey (hflight e (hsub he))
    · exact absurd hkey.symm (hflight e' (hsub he'))
    · rfl

theorem Sole.step (h : Sole s) {l : Renewal} (hg : Orderly s l) :
    Sole (renewalStep text keys s l) := by
  cases l with
  | serve l =>
    cases l with
    | advance slot input => exact h.record hg
    | _ => exact h.serve text hg
  | newOrder slot orderId accountId identifiers certid =>
    simp only [renewalStep]
    split
    · exact h
    split
    next => exact h
    next recorded hjudge =>
      cases recorded with
      | none =>
        rw [Option.map_none, Option.toList_none, append_nil]
        exact (h.of_subset (unstage_subset s slot)).serve text trivial
      | some c =>
        obtain ⟨rfl, hno⟩ := judge_recorded hjudge
        exact (h.stage hg hno).serve text trivial

/-- The decision looks at the text only where it asks for a recorded replacement. -/
theorem isAccepted_judge (accountId : ℕ) (certid : List Char) :
    (s.judge keys accountId certid).isAccepted = ((parseCertid certid).isSome &&
      !(certidIsOwnedByAccount keys s.server.db certid accountId &&
        s.hasValidReplacement certid)) := by
  unfold Renewals.judge
  cases parseCertid certid <;>
    cases certidIsOwnedByAccount keys s.server.db certid accountId <;>
    cases s.hasValidReplacement certid <;> rfl

theorem isAccepted_judge_eq_iff {c c' : List Char} (h : parseCertid c = parseCertid c') :
    (s.judge keys accountId c).isAccepted = (s.judge keys accountId c').isAccepted ↔
      (certidIsOwnedByAccount keys s.server.db c accountId = true →
        s.hasValidReplacement c = s.hasValidReplacement c') := by
  have howned : certidIsOwnedByAccount keys s.server.db c' accountId =
      certidIsOwnedByAccount keys s.server.db c accountId := by
    unfold certidIsOwnedByAccount
    rw [h]
  rw [isAccepted_judge, isAccepted_judge, howned, ← h]
  cases hparse : parseCertid c with
  | none =>
    have hnot : certidIsOwnedByAccount keys s.server.db c accountId = false := by
      unfold certidIsOwnedByAccount
      rw [hparse]
      rfl
    simp [hnot]
  | some key =>
    cases certidIsOwnedByAccount keys s.server.db c accountId <;>
      cases s.hasValidReplacement c <;> simp

/-- In every orderly run two valid orders that replace one certificate are one order. Whether
`newOrder` accepts is the same for two CertIDs of a certificate that the account holds just when
both or neither stand in an order that counts; and for the same octets there is one CertID. -/
theorem one_replacement (text : Text) (keys : ℕ → CertKey) (settings : Settings) (now : ℕ)
    (s : Renewals) (h : Reach (renewalStep text keys) Orderly (noRenewals settings now) s) :
    (∀ x y o o' c c', s.server.db.order? x = some o → s.server.db.order? y = some o' →
      o.status = .valid → o'.status = .valid → s.replaces x = some c → s.replaces y = some c' →
      parseCertid c = parseCertid c' → x = y) ∧
    (∀ accountId c c', parseCertid c = parseCertid c' →
      ((s.judge keys accountId c).isAccepted = (s.judge keys accountId c').isAccepted ↔
        (certidIsOwnedByAccount keys s.server.db c accountId = true →
          s.hasValidReplacement c = s.hasValidReplacement c'))) ∧
    ∀ c c' octets, certidOctets c = some octets → certidOctets c' = some octets → c = c' := by
  have hvalid : ∀ o : Order, o.status = .valid → o.counts s.server.now = true := by
    intro o ho
    simp [Order.counts, ho]
  refine ⟨?_, fun accountId c c' hkey => isAccepted_judge_eq_iff hkey, fun c c' octets hc hc' => ?_⟩
  · intro x y o o' c c' ho ho' hs hs' hc hc' hkey
    have hsole := h.invariant (Sole.initial settings now) fun _ _ _ hs hg => hs.step hg
    exact hsole.recorded x y o o' c c' ho ho' hc hc' hkey (hvalid o hs) (hvalid o' hs')
  · rw [certid_of_octets hc, certid_of_octets hc']

instance (w : World) (l : Label) : Decidable (Lawful w l) := by
  induction l using Label.casesOn <;> unfold Lawful <;> infer_instance

instance (s : Renewals) (l : Renewal) : Decidable (Orderly s l) := by
  unfold Orderly
  split <;> infer_instance

def aExample : Identifier := ⟨.dns, "a.example", ""⟩

/-- Order 1 of account 7 is authorized by challenge 11. -/
def firstOrder : List Renewal :=
  [.request 0 (.newOrder 1 7 [aExample]), .advance 0 (.tokens (10 + ·)),
    .advance 0 (.commit true ⟨"", ""⟩), .advance 0 (.tokens (20 + ·)),
    .advance 0 (.commit true ⟨"", ""⟩), .request 1 (.respondToChallenge 7 11),
    .advance 1 (.answer true ⟨"", ""⟩), .advance 1 (.commit true ⟨"", ""⟩)].map .serve

/-- The order is finalized into a certificate. -/
def issued (slot orderId certificateId : ℕ) : List Renewal :=
  [.request slot (.finalize 7 orderId ⟨[], some [.dns "a.example"]⟩),
    .advance slot (.commit true ⟨"", ""⟩), .advance slot (.checks none none),
    .advance slot (.sign (.signed certificateId)), .advance slot (.commit true ⟨"", ""⟩)].map .serve

/-- An order with a `replaces` field, whose authorization is reused. -/
def replacement (slot orderId : ℕ) (certid : String) : List Renewal :=
  [.newOrder slot orderId 7 [aExample] certid.toList,
    .serve (.advance slot (.tokens (100 * orderId + ·))),
    .serve (.advance slot (.tokens (100 * orderId + 50 + ·))),
    .serve (.advance slot (.commit true ⟨"", ""⟩))]

/-- Certificate 50 has key identifier 01 and serial 2. -/
def exampleKeys (certificateId : ℕ) : CertKey := if certificateId = 50 then ([1], 2) else ([], 0)

def replacedOnce : List Renewal :=
  firstOrder ++ issued 2 1 50 ++ replacement 3 2 "AQ.Ag" ++ issued 4 2 51

theorem one_replacement_issued :
    let s := exec (renewalStep ⟨id, fun _ => none⟩ exampleKeys) (noRenewals ⟨[], [], false⟩ 0)
      replacedOnce
    s.server.db.status? 2 = some .valid ∧ s.replaces 2 = some "AQ.Ag".toList ∧
      (s.judge exampleKeys 7 "AQ.Ag".toList).isAccepted = false ∧
      ∀ y o o' c', s.server.db.order? 2 = some o → s.server.db.order? y = some o' →
        o.status = .valid → o'.status = .valid → s.replaces y = some c' →
        parseCertid "AQ.Ag".toList = parseCertid c' → 2 = y := by
  intro s
  have hsole := one_replacement ⟨id, fun _ => none⟩ exampleKeys ⟨[], [], false⟩ 0 s
    (Reach.start.exec (by decide))
  refine ⟨by decide, by decide, by decide, fun y o o' c' ho ho' hs hs' hc' hkey => ?_⟩
  exact hsole.1 2 y o o' _ c' ho ho' hs hs' (by decide) hc' hkey

/-- With a leading zero octet in the serial the same certificate is replaced once more. -/
theorem replaced_by_two_orders :
    let s := exec (renewalStep ⟨id, fun _ => none⟩ exampleKeys) (noRenewals ⟨[], [], false⟩ 0)
      (replacedOnce ++ replacement 5 3 "AQ.AAI" ++ issued 6 3 52)
    s.server.db.status? 2 = some .valid ∧ s.server.db.status? 3 = some .valid ∧
      s.replaces 2 = some "AQ.Ag".toList ∧ s.replaces 3 = some "AQ.AAI".toList ∧
      parseCertid "AQ.Ag".toList = some ([1], 2) ∧ parseCertid "AQ.AAI".toList = some ([1], 2) := by
  decide

end UltimateCaManager.Acme
