import AttestationChain.Dcap.Soundness

/-!
# Dcap/Bounds — which documents keep the handler within its blocks

The handler decodes three texts and reads the identity and the signature off what they decode to,
at fixed places, with one length in 32 bits.  It checks none of the lengths: `withinBlocks_iff` says
which documents are answered nevertheless, and answered 200 only where there is something to read.
-/

namespace Dcap

open JSON

variable {Double BigNum Key : Type}

/-! ## The texts of a request -/

/-- The text of a member, and the document, which now has that member. -/
def memberText (doc : JSON Double) (key : String) : Except Fault (Bytes × JSON Double) := do
  let (v, doc) ← doc.index (ascii key)
  let text ← v.toString
  .ok (text, doc)

/-- The evidence that the texts of a request make up. -/
def evidenceOf (pSig quoteHexstr accountId : Bytes) : Except Fault (Option Evidence) :=
  match hexstringToBytes quoteHexstr with
  | none => .error .outOfBounds
  | some pQuote =>
    let quoteSz := quoteHexstr.length / 2 % uint32Size
    if h : quoteSz + accountId.length < uint32Size then
      .ok (some ⟨pSig, pQuote, quoteSz, accountId, h⟩)
    else .error .outOfBounds

/-- **The handler reads one text after the other.** -/
theorem readEvidence_eq (doc : JSON Double) : readEvidence doc = (do
    let (sig, doc) ← memberText doc "sig"
    match hexstringToBytes sig with
    | none => .ok none
    | some pSig => do
      let (quote, doc) ← memberText doc "quote"
      let (account, _) ← memberText doc "account"
      evidenceOf pSig quote account) := by
  rw [readEvidence, memberText]
  rcases doc.index (ascii "sig") with fault | ⟨sig, doc⟩
  · rfl
  change (sig.toString >>= _) = ((sig.toString >>= _) >>= _)
  rcases sig.toString with fault | sig
  · rfl
  change (match hexstringToBytes sig with | none => _ | some pSig => _) =
    (match hexstringToBytes sig with | none => _ | some pSig => _)
  rcases hexstringToBytes sig with _ | pSig
  · rfl
  dsimp only
  rw [memberText]
  rcases doc.index (ascii "quote") with fault | ⟨quote, doc⟩
  · rfl
  change (quote.toString >>= _) = ((quote.toString >>= _) >>= _)
  rcases quote.toString with fault | quote
  · rfl
  change (doc.index (ascii "account") >>= _) = (memberText doc "account" >>= _)
  rw [memberText]
  rcases doc.index (ascii "account") with fault | ⟨account, doc⟩
  · rfl
  change (account.toString >>= _) = ((account.toString >>= _) >>= _)
  rcases account.toString with fault | account
  · rfl
  · rfl

/-! ## Within the blocks -/

/-- The layout of a quote, with its report data at the end of the report body, and the size of a
signature. -/
structure Layout (sdk : Sdk) : Prop where
  mrEnclaveAt : sdk.mrEnclaveAt = 112
  reportDataAt : sdk.reportDataAt = 368
  signatureSize : sdk.signatureSize = 64

/-- How far the header and the report body of a quote reach. -/
def quoteHead : ℕ := 432

/-- **The handler keeps within its blocks**: it answers with one of its three statuses, with 200
only where there is an identity and a signature to read, and the length of what was signed is the
length of the quote and the account. -/
def WithinBlocks (lib : Libraries Double BigNum Key) (body : Bytes) (doc : JSON Double) : Prop :=
  (∃ res, entryNetwork lib body = .ok res ∧
    (res.status = 200 ∨ res.status = 400 ∨ res.status = 500) ∧
    (res.status = 200 → ∃ e, readEvidence doc = .ok (some e) ∧ quoteHead ≤ e.quote.length ∧
      64 ≤ e.sig.length)) ∧
  ∀ e, readEvidence doc = .ok (some e) → e.sigData.length = e.quote.length + e.account.length

/-- **The documents that keep it there**: the signature text is odd, or it spells a signature, the
quote text spells the head of a quote at least, and the quote and the account are shorter together
than 4 GiB. -/
def Measured (doc : JSON Double) : Prop :=
  match memberText doc "sig" with
  | .error _ => False
  | .ok (sig, doc) => sig.length % 2 = 1 ∨
    match memberText doc "quote" with
    | .error _ => False
    | .ok (quote, doc) =>
      match memberText doc "account" with
      | .error _ => False
      | .ok (account, _) => 128 ≤ sig.length ∧ quote.length % 2 = 0 ∧
        2 * quoteHead ≤ quote.length ∧ quote.length / 2 + account.length < uint32Size

section Bounds

variable {lib : Libraries Double BigNum Key} {body : Bytes} {doc : JSON Double}

theorem not_withinBlocks {fault : Fault} (h : entryNetwork lib body = .error fault) :
    ¬ WithinBlocks lib body doc := by
  rintro ⟨⟨res, hres, -⟩, -⟩
  rw [h] at hres
  cases hres

/-- What is left once there is evidence. -/
theorem withinBlocks_iff_of_evidence (hlayout : Layout lib.sdk)
    (hload : JSON.load lib.doubles body = .ok (doc, .success)) {e : Evidence}
    (he : readEvidence doc = .ok (some e)) : WithinBlocks lib body doc ↔
      64 ≤ e.sig.length ∧ quoteHead ≤ e.quote.length ∧
        e.sigData.length = e.quote.length + e.account.length := by
  have hread : lib.sdk.reportDataAt + 64 ≤ e.quote.length ∧
    lib.sdk.mrEnclaveAt + 32 ≤ e.quote.length ↔
      quoteHead ≤ e.quote.length := by
    rw [hlayout.reportDataAt, hlayout.mrEnclaveAt, quoteHead]
    omega
  by_cases hquote : quoteHead ≤ e.quote.length
  swap
  · have hfault : readIdentity lib.sdk e = .error .outOfBounds := dif_neg (mt hread.1 hquote)
    exact iff_of_false (not_withinBlocks (entryNetwork_identity_fault hload he hfault))
      fun h => hquote h.2.1
  obtain ⟨i, hi⟩ : ∃ i, readIdentity lib.sdk e = .ok i := ⟨_, dif_pos (hread.2 hquote)⟩
  have hcarries : Carries lib body e i := ⟨doc, hload, he, hi⟩
  by_cases hsig : 64 ≤ e.sig.length
  swap
  · exact iff_of_false (not_withinBlocks (entryNetwork_shortSignature hcarries
      (by rw [hlayout.signatureSize]; omega))) fun h => hsig h.1
  have hsig' : lib.sdk.signatureSize ≤ e.sig.length := hlayout.signatureSize ▸ hsig
  constructor
  · exact fun h => ⟨hsig, hquote, h.2 e he⟩
  · rintro ⟨-, -, hlen⟩
    refine ⟨?_, fun e' he' => ?_⟩
    · by_cases hpass : Passes lib e i
      · exact ⟨_, entryNetwork_passes hcarries hsig' hpass, .inl rfl,
          fun _ => ⟨e, he, hquote, hsig⟩⟩
      · obtain ⟨r, -, hres⟩ := entryNetwork_fails hcarries hsig' hpass
        exact ⟨_, hres, .inr (.inr rfl), fun _ => ⟨e, he, hquote, hsig⟩⟩
    · rw [he] at he'
      cases he'
      exact hlen

/-- The length of what was signed is the true one unless it wraps. -/
theorem length_sigData_evidenceOf {pSig quote account : Bytes} {e : Evidence}
    (h : evidenceOf pSig quote account = .ok (some e)) :
    e.sig = pSig ∧ quote.length % 2 = 0 ∧ e.quote.length = quote.length / 2 ∧ e.account = account ∧
      (e.sigData.length = e.quote.length + e.account.length ↔
        quote.length / 2 + account.length < uint32Size) := by
  rw [evidenceOf] at h
  split at h
  · cases h
  · rename_i pQuote hquote
    obtain ⟨heven, hlen⟩ := length_hexstringToBytes hquote
    dsimp only at h
    split_ifs at h with hsz
    cases h
    refine ⟨rfl, heven, hlen, rfl, ?_⟩
    simp only [Evidence.sigData, List.length_append, List.length_take, hlen,
      Nat.add_right_cancel_iff]
    have hle := Nat.mod_le (quote.length / 2) uint32Size
    rw [min_eq_left hle]
    refine ⟨fun h => by omega, fun h => Nat.mod_eq_of_lt (by omega)⟩

theorem evidenceOf_cases (pSig quote account : Bytes) :
    (∃ e, evidenceOf pSig quote account = .ok (some e)) ∨
      (evidenceOf pSig quote account = .error .outOfBounds ∧
        ¬ (quote.length % 2 = 0 ∧ quote.length / 2 + account.length < uint32Size)) := by
  rw [evidenceOf]
  rcases hquote : hexstringToBytes quote with _ | pQuote
  · refine .inr ⟨rfl, fun h => ?_⟩
    rw [hexstringToBytes, if_neg (by omega)] at hquote
    cases hquote
  · dsimp only
    split_ifs with hsz
    · exact .inl ⟨_, rfl⟩
    · refine .inr ⟨rfl, fun h => hsz ?_⟩
      rw [Nat.mod_eq_of_lt (by omega)]
      exact h.2

/-- **Malformed identities.**  A document that was accepted keeps the handler within its blocks if
and only if its signature text is odd, or its texts spell a signature and the head of a quote that,
with the account, is shorter than 4 GiB. -/
theorem withinBlocks_iff (hlayout : Layout lib.sdk)
    (hload : JSON.load lib.doubles body = .ok (doc, .success)) :
    WithinBlocks lib body doc ↔ Measured doc := by
  have hread := readEvidence_eq doc
  have hfault : ∀ {fault}, readEvidence doc = .error fault → ¬ WithinBlocks lib body doc :=
    fun h => not_withinBlocks (entryNetwork_evidence_fault hload h)
  rw [Measured]
  rcases hsig : memberText doc "sig" with fault | ⟨sig, doc₁⟩ <;> rw [hsig] at hread
  · exact iff_of_false (hfault hread) id
  change readEvidence doc = (match hexstringToBytes sig with | none => _ | some pSig => _) at hread
  dsimp only
  rcases hdec : hexstringToBytes sig with _ | pSig <;> rw [hdec] at hread
  · -- The signature is a NULL: the handler gives up.
    have hodd : sig.length % 2 = 1 := by
      by_contra heven
      rw [hexstringToBytes, if_neg (by omega)] at hdec
      cases hdec
    refine iff_of_true ⟨⟨_, entryNetwork_noEvidence hload hread, .inr (.inl rfl), fun h => ?_⟩,
      fun e he => ?_⟩ (.inl hodd)
    · cases h
    · rw [hread] at he
      cases he
  obtain ⟨heven, hlen⟩ := length_hexstringToBytes hdec
  have hodd : ∀ p, (sig.length % 2 = 1 ∨ p) ↔ p := fun p => or_iff_right (by omega)
  rw [hodd]
  change readEvidence doc = (memberText doc₁ "quote" >>= _) at hread
  rcases hquote : memberText doc₁ "quote" with fault | ⟨quote, doc₂⟩ <;> rw [hquote] at hread
  · exact iff_of_false (hfault hread) id
  change readEvidence doc = (memberText doc₂ "account" >>= _) at hread
  dsimp only
  rcases haccount : memberText doc₂ "account" with fault | ⟨account, doc₃⟩ <;>
    rw [haccount] at hread
  · exact iff_of_false (hfault hread) id
  change readEvidence doc = evidenceOf pSig quote account at hread
  dsimp only
  rcases evidenceOf_cases pSig quote account with ⟨e, he⟩ | ⟨he, hno⟩
  · rw [he] at hread
    obtain ⟨rfl, heven', hlen', rfl, hsz⟩ := length_sigData_evidenceOf he
    rw [withinBlocks_iff_of_evidence hlayout hload hread, hsz, hlen, hlen', quoteHead]
    omega
  · rw [he] at hread
    exact iff_of_false (hfault hread) fun h => hno ⟨h.2.1, h.2.2.2⟩

/-- The texts of a written request, with a signature and the head of a quote. -/
theorem measured_requestJson {sig quote account : Bytes} (hsig : sig.length = 64)
    (hquote : quote.length = quoteHead)
    (haccount : quoteHead + (escaped account).length < uint32Size) :
    Measured (requestJson sig quote account : JSON Double) := by
  have hsize : quoteHead = 432 ∧ uint32Size = 4294967296 := ⟨rfl, rfl⟩
  have hle := length_le_length_escaped account
  have htext : ∀ (key : String) (v : Bytes) (text : Bytes),
      (requestJson sig quote account : JSON Double).index (ascii key) =
        .ok (.string v, requestJson sig quote account) →
      (JSON.string v : JSON Double).toString = .ok text →
      memberText (requestJson sig quote account : JSON Double) key =
        .ok (text, requestJson sig quote account) := by
    intro key v text hindex htext
    rw [memberText, hindex]
    change ((JSON.string v : JSON Double).toString >>= _) = _
    rw [htext]
    rfl
  rw [Measured, htext "sig" _ _ rfl (toString_hexstring (by omega))]
  dsimp only
  rw [htext "quote" _ _ rfl (toString_hexstring (by omega))]
  dsimp only
  rw [htext "account" _ _ rfl (if_pos (by omega))]
  dsimp only
  rw [length_hexstring, length_hexstring]
  omega

set_option maxRecDepth 4096 in
/-- A request with a signature and the head of a quote. -/
theorem withinBlocks_plain : WithinBlocks (plainLibraries 1) (plainRequest (ascii "alice"))
    (requestJson plainSig plainQuote (ascii "alice")) :=
  (withinBlocks_iff ⟨rfl, rfl, rfl⟩ (load_request _ plainSig plainQuote (by decide))).2
    (measured_requestJson length_plainSig length_plainQuote (by decide))

/-- A quote of no bytes: the identity is read off behind its block. -/
theorem read_behind_quote : ¬ ∀ (lib : Libraries Unit Unit Unit), Layout lib.sdk →
    ∀ body doc, JSON.load lib.doubles body = .ok (doc, .success) → WithinBlocks lib body doc := by
  intro h
  have hload : JSON.load (plainLibraries 1).doubles (ascii "\x7b  \x7d") =
      .ok (.object [], .success) :=
    rfl
  obtain ⟨⟨res, hres, -⟩, -⟩ := h (plainLibraries 1) ⟨rfl, rfl, rfl⟩ _ _ hload
  have hfault : entryNetwork (plainLibraries 1) (ascii "\x7b  \x7d") = .error .outOfBounds := rfl
  rw [hfault] at hres
  cases hres

end Bounds

end Dcap
