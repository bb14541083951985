import AttestationChain.Verifier.Decoding
import AttestationChain.Verifier.Worker

/-!
# Verifier/Identity — what identity the worker reads out of a response

`parse_result` finds the three texts where a reader of JSON would, and casts each character to a
byte.  The bytes are the text's encoding exactly where it is ASCII (`parseResult_faithful_iff`);
anywhere else a character is cut down to another one.

The worker then decodes the account.  It reads pairs of digits, with a `+` in front of a single one,
and stops listening after thirty-two bytes, so a text has to be exactly the spelling of the account
it is decoded to — or be turned away — for the decoding to be canonical (`account_canonical_iff`).
-/

namespace Verifier

open JsonText Hexadecimal

/-! ## The three texts -/

/-- **A response that carries an identity**: an object whose first message is an object whose first
pubkey, mrenclave and account are these texts. -/
def CarriesIdentity (s pubkey mrenclave account : List Char) : Prop :=
  ∃ obj ms, Text s (.object obj) ∧ findMember obj "message".toList = some (.object ms) ∧
    findMember ms "pubkey".toList = some (.string pubkey) ∧
    findMember ms "mrenclave".toList = some (.string mrenclave) ∧
    findMember ms "account".toList = some (.string account)

/-- A text of ASCII characters. -/
def AsciiText (s : List Char) : Prop := ∀ c ∈ s, c.toNat < 128

instance (s : List Char) : Decidable (AsciiText s) :=
  List.decidableBAll (fun c : Char => c.toNat < 128) s

theorem CarriesIdentity.unique {s p m a p' m' a' : List Char} (h : CarriesIdentity s p m a)
    (h' : CarriesIdentity s p' m' a') : p = p' ∧ m = m' ∧ a = a' := by
  obtain ⟨obj, ms, htext, hmessage, hp, hm, ha⟩ := h
  obtain ⟨obj', ms', htext', hmessage', hp', hm', ha'⟩ := h'
  cases htext.unique htext'
  rw [hmessage] at hmessage'
  cases hmessage'
  rw [hp] at hp'
  rw [hm] at hm'
  rw [ha] at ha'
  cases hp'
  cases hm'
  cases ha'
  exact ⟨rfl, rfl, rfl⟩

theorem parseObject_eq_some {v : Value} {key : List Char} {b : Bytes} :
    parseObject v key = some b ↔
      ∃ ms s, v = .object ms ∧ findMember ms key = some (.string s) ∧ charBytes s = b := by
  constructor
  · intro h
    rw [parseObject.eq_def] at h
    split at h
    · split at h
      · exact ⟨_, _, rfl, ‹_›, Option.some.inj h⟩
      · cases h
    · cases h
  · rintro ⟨ms, s, rfl, hfind, rfl⟩
    simp only [parseObject, hfind]

/-- **`parse_result` reads an identity exactly where there is one**, and casts its texts. -/
theorem parseResult_iff_carriesIdentity {parseJson : List Char → Option Value}
    (hparse : ∀ s v, parseJson s = some v ↔ Text s v) {s : List Char} {v : List Bytes} :
    parseResult parseJson s = some v ↔ ∃ pubkey mrenclave account,
      CarriesIdentity s pubkey mrenclave account ∧
        v = [charBytes pubkey, charBytes mrenclave, charBytes account] := by
  rw [parseResult_eq_some]
  constructor
  · rintro ⟨obj, w, bp, bm, ba, htext, hmessage, hpubkey, hmrenclave, haccount, rfl⟩
    obtain ⟨ms, p, rfl, hp, rfl⟩ := parseObject_eq_some.1 hpubkey
    obtain ⟨ms', m, hms, hm, rfl⟩ := parseObject_eq_some.1 hmrenclave
    cases hms
    obtain ⟨ms', a, hms, ha, rfl⟩ := parseObject_eq_some.1 haccount
    cases hms
    exact ⟨p, m, a, ⟨obj, ms, (hparse _ _).1 htext, hmessage, hp, hm, ha⟩, rfl⟩
  · rintro ⟨p, m, a, ⟨obj, ms, htext, hmessage, hp, hm, ha⟩, rfl⟩
    exact ⟨obj, .object ms, _, _, _, (hparse _ _).2 htext, hmessage,
      parseObject_eq_some.2 ⟨ms, p, rfl, hp, rfl⟩, parseObject_eq_some.2 ⟨ms, m, rfl, hm, rfl⟩,
      parseObject_eq_some.2 ⟨ms, a, rfl, ha, rfl⟩, rfl⟩

/-- **The cast is the encoding exactly of an ASCII text**: of any other the encoding is longer. -/
theorem charBytes_eq_utf8_iff {s : List Char} : charBytes s = utf8 s ↔ AsciiText s := by
  constructor
  · intro h
    refine ascii_of_length_utf8 ?_
    rw [← h, charBytes, List.length_map]
  · intro h
    induction s with
    | nil => rfl
    | cons c s ih =>
      rw [utf8_cons, utf8EncodeChar_ascii (h c List.mem_cons_self),
        ← ih fun d hd => h d (List.mem_cons_of_mem _ hd)]
      rfl

/-- **`parse_result` is exact, and faithful to ASCII.**  It reads an identity out of exactly the
texts that carry one.  What it reads is the encoding of the three texts if and only if they are
ASCII; and two such identities that differ are never read alike. -/
theorem parseResult_faithful_iff {parseJson : List Char → Option Value}
    (hparse : ∀ s v, parseJson s = some v ↔ Text s v) (s : List Char) :
    ((∃ v, parseResult parseJson s = some v) ↔ ∃ p m a, CarriesIdentity s p m a) ∧
    ((∀ p m a, CarriesIdentity s p m a →
        parseResult parseJson s = some [utf8 p, utf8 m, utf8 a]) ↔
      ∀ p m a, CarriesIdentity s p m a → AsciiText p ∧ AsciiText m ∧ AsciiText a) ∧
    ∀ s' p m a p' m' a', CarriesIdentity s p m a → CarriesIdentity s' p' m' a' →
      (AsciiText p ∧ AsciiText m ∧ AsciiText a) → (AsciiText p' ∧ AsciiText m' ∧ AsciiText a') →
      parseResult parseJson s = parseResult parseJson s' → p = p' ∧ m = m' ∧ a = a' := by
  have hread : ∀ {s p m a}, CarriesIdentity s p m a →
      parseResult parseJson s = some [charBytes p, charBytes m, charBytes a] := fun h =>
    (parseResult_iff_carriesIdentity hparse).2 ⟨_, _, _, h, rfl⟩
  refine ⟨⟨?_, ?_⟩, ⟨fun h p m a hs => ?_, fun h p m a hs => ?_⟩, ?_⟩
  · rintro ⟨v, hv⟩
    obtain ⟨p, m, a, h, -⟩ := (parseResult_iff_carriesIdentity hparse).1 hv
    exact ⟨p, m, a, h⟩
  · rintro ⟨p, m, a, h⟩
    exact ⟨_, hread h⟩
  · have heq := h p m a hs
    rw [hread hs, Option.some.injEq, List.cons.injEq, List.cons.injEq, List.cons.injEq] at heq
    exact ⟨charBytes_eq_utf8_iff.1 heq.1, charBytes_eq_utf8_iff.1 heq.2.1,
      charBytes_eq_utf8_iff.1 heq.2.2.1⟩
  · obtain ⟨hp, hm, ha⟩ := h p m a hs
    rw [hread hs, charBytes_eq_utf8_iff.2 hp, charBytes_eq_utf8_iff.2 hm,
      charBytes_eq_utf8_iff.2 ha]
  · rintro s' p m a p' m' a' hs hs' ⟨hp, hm, ha⟩ ⟨hp', hm', ha'⟩ heq
    rw [hread hs, hread hs', charBytes_eq_utf8_iff.2 hp, charBytes_eq_utf8_iff.2 hm,
      charBytes_eq_utf8_iff.2 ha, charBytes_eq_utf8_iff.2 hp', charBytes_eq_utf8_iff.2 hm',
      charBytes_eq_utf8_iff.2 ha', Option.some.injEq, List.cons.injEq, List.cons.injEq,
      List.cons.injEq] at heq
    exact ⟨utf8_injective heq.1, utf8_injective heq.2.1, utf8_injective heq.2.2.1⟩

/-- An answer of the service carries the identity it is written for. -/
theorem carriesIdentity_answer {account mrenclave pubkey : List Char}
    (ha : PlainText account) (hm : PlainText mrenclave) (hp : PlainText pubkey) :
    CarriesIdentity (answerText account mrenclave pubkey) pubkey mrenclave account :=
  ⟨_, _, text_answerText ha hm hp, rfl, rfl, rfl, rfl⟩

/-- An answer of the service is read as the texts it carries. -/
theorem parseResult_faithful_answer :
    parseResult decode (answerText "ab".toList "cd".toList "ef".toList)
      = some [utf8 "ef".toList, utf8 "cd".toList, utf8 "ab".toList] := by
  have hs : CarriesIdentity (answerText "ab".toList "cd".toList "ef".toList) "ef".toList
      "cd".toList "ab".toList := carriesIdentity_answer (by decide) (by decide) (by decide)
  refine (parseResult_faithful_iff (fun _ _ => decode_eq_some) _).2.1.2 (fun p m a h => ?_) _ _ _ hs
  obtain ⟨rfl, rfl, rfl⟩ := hs.unique h
  exact ⟨by decide, by decide, by decide⟩

/-- The account `Ł` is read as `A`, and so is the account `A`. -/
theorem parseResult_confuses :
    ¬ ∀ (parseJson : List Char → Option Value), (∀ s v, parseJson s = some v ↔ Text s v) →
      ∀ s s' p m a p' m' a', CarriesIdentity s p m a → CarriesIdentity s' p' m' a' →
        parseResult parseJson s = some [utf8 p, utf8 m, utf8 a] ∧
        (parseResult parseJson s = parseResult parseJson s' → p = p' ∧ m = m' ∧ a = a') := by
  intro h
  have hread : ∀ account : List Char, PlainText account →
      parseResult decode (answerText account [] []) = some [[], [], charBytes account] :=
    fun account haccount => parseResult_answerText (fun _ _ => decode_eq_some) haccount (by decide)
      (by decide)
  have hsame : parseResult decode (answerText ['Ł'] [] []) =
      parseResult decode (answerText ['A'] [] []) := by
    rw [hread ['Ł'] (by decide), hread ['A'] (by decide)]
    rfl
  have heq := (h decode (fun _ _ => decode_eq_some) _ _ _ _ _ _ _ _
    (carriesIdentity_answer (by decide) (by decide) (by decide))
    (carriesIdentity_answer (by decide) (by decide) (by decide))).2 hsame
  exact absurd heq.2.2 (by decide)

/-! ## The account -/

/-- A digit is an ASCII character. -/
theorem lt_of_mem_spell {b : Bytes} : ∀ c ∈ spell b, c < 128 := by
  have hdigit : ∀ n : Fin 16, digit n < 128 := by decide
  intro c hc
  obtain ⟨v, -, hv⟩ := List.mem_flatMap.1 hc
  have hlt := v.toNat_lt
  rcases List.mem_pair.1 hv with rfl | rfl
  · exact hdigit ⟨v.toNat / 16, by omega⟩
  · exact hdigit ⟨v.toNat % 16, by omega⟩

theorem toLower_eq_iff {c : Char} {d : UInt8} (hd : d < 128) :
    c.toLower = Char.ofNat d.toNat ↔ c.toNat < 128 ∧ lower c.toNat.toUInt8 = d := by
  have hlower : ∀ n : Fin 128, (Char.ofNat n).toLower.toNat = (lower n.val.toUInt8).toNat := by
    decide +kernel
  rw [← Char.toNat_inj, toNat_ofNat_toNat]
  by_cases hc : c.toNat < 128
  · have hchar : (Char.ofNat c.toNat) = c := Char.ofNat_toNat c
    have := hlower ⟨c.toNat, hc⟩
    rw [hchar] at this
    rw [this, UInt8.toNat_inj]
    exact ⟨fun h => ⟨hc, h⟩, And.right⟩
  · have hsame : c.toLower = c := by
      refine dif_neg ?_
      rintro ⟨-, hle⟩
      have : c.toNat ≤ 90 := UInt32.le_iff_toNat_le.1 hle
      omega
    rw [hsame]
    have := UInt8.lt_iff_toNat_lt.1 hd
    exact ⟨fun h => absurd (h ▸ this) hc, fun h => absurd h.1 hc⟩

/-- A text is a spelling, up to case, if its bytes are. -/
theorem map_toLower_eq_iff {s : List Char} {d : Bytes} (hd : ∀ c ∈ d, c < 128) :
    s.map Char.toLower = chars d ↔ AsciiText s ∧ (charBytes s).map lower = d := by
  induction s generalizing d with
  | nil => cases d <;> simp [charBytes, chars, AsciiText]
  | cons c s ih =>
    cases d with
    | nil => simp [charBytes, chars]
    | cons v d =>
      have ih' := ih fun c hc => hd c (List.mem_cons_of_mem _ hc)
      simp only [chars, List.map_cons, List.cons.injEq, charBytes, AsciiText,
        List.forall_mem_cons] at ih' ⊢
      rw [toLower_eq_iff (hd v List.mem_cons_self), ih']
      exact and_and_and_comm

/-- `AccountId32`. -/
def AccountId32 : Type := { b : Bytes // b.length = 32 }

/-- `AccountId32::decode`: the first 32 bytes. -/
def AccountId32.decode (b : Bytes) : Option AccountId32 :=
  if h : 32 ≤ b.length then some ⟨b.take 32, List.length_take_of_le h⟩ else none

/-- **A text that spells an account**: in lower case, the hexadecimal spelling of its bytes. -/
def Spells (account : List Char) (who : AccountId32) : Prop :=
  account.map Char.toLower = chars (spell who.val)

/-- A spelling is decoded to what it spells. -/
theorem Spells.decode {account : List Char} {who : AccountId32} (h : Spells account who) :
    fromUtf8 (charBytes account) = some account ∧ decodePairs (charBytes account) = some who.val ∧
      AccountId32.decode who.val = some who := by
  obtain ⟨hascii, hlower⟩ := (map_toLower_eq_iff lt_of_mem_spell).1 h
  refine ⟨fromUtf8_eq_some.2 (charBytes_eq_utf8_iff.2 hascii),
    (decodePairs_eq_some_iff.2 hlower).1, ?_⟩
  rw [AccountId32.decode, dif_pos who.property.ge]
  exact congrArg some (Subtype.ext (List.take_of_length_le who.property.le))

section Account

variable {Public Signature : Type}

/-- **A canonical outcome**: what is signed names the account the text spells, and for a text that
spells none an error is returned. -/
def Canonical (account : List Char) (o : Outcome AccountId32 Public Signature) : Prop :=
  (∀ payload signature, o.signed = some (payload, signature) → Spells account payload.who) ∧
  ((¬ ∃ who, Spells account who) → ∃ e, o.result = .ok (.error e))

/-- **The account texts the worker decodes canonically**: the spellings, the texts whose bytes are
no text, and the shorter ones it can decode. -/
def CanonicalText (account : List Char) : Prop :=
  (∃ who, Spells account who) ∨ fromUtf8 (charBytes account) = none ∨
    (HexText (charBytes account) ∧ account.length < 64)

variable {env : Env AccountId32} {host : Host AccountId32 Public Signature} {evidence : Bytes}
  {pubkey mrenclave : Bytes} {account : List Char}

/-- What is signed for a message is signed for the account it is decoded to. -/
theorem who_of_signed (hdecode : env.decodeAccountId = AccountId32.decode)
    (hm : resolveEvidence env host evidence = .ok [pubkey, mrenclave, charBytes account])
    {cs : List Char} (hcs : fromUtf8 (charBytes account) = some cs) {bs : Bytes}
    (hbs : decodePairs (charBytes account) = some bs) {who : AccountId32}
    (hwho : AccountId32.decode bs = some who) {applier : AccountId32} {n : ℕ}
    {payload : RegisterPayload Public AccountId32} {signature : Signature}
    (h : (resolveEvidenceAndSendUnsignedForAnyAccount env host applier evidence n).signed
      = some (payload, signature)) : payload.who = who := by
  rw [signed_of_message env host hm hcs hbs (hdecode ▸ hwho)] at h
  obtain ⟨k, -, hk⟩ := List.exists_of_findSome?_eq_some h
  obtain ⟨sig, -, hpair⟩ := Option.map_eq_some_iff.1 hk
  rw [← (Prod.mk.inj hpair).1]

theorem canonical_of_canonicalText (hdecode : env.decodeAccountId = AccountId32.decode)
    (hm : resolveEvidence env host evidence = .ok [pubkey, mrenclave, charBytes account])
    (h : CanonicalText account) (applier : AccountId32) (n : ℕ) :
    Canonical account
      (resolveEvidenceAndSendUnsignedForAnyAccount env host applier evidence n) := by
  rcases h with ⟨who, hwho⟩ | hno | ⟨hhex, hlen⟩
  · obtain ⟨hcs, hbs, hdec⟩ := hwho.decode
    refine ⟨fun payload signature h => ?_, fun hno => absurd ⟨who, hwho⟩ hno⟩
    rw [who_of_signed hdecode hm hcs hbs hdec h]
    exact hwho
  · have hout : resolveEvidenceAndSendUnsignedForAnyAccount env host applier evidence n
        = ⟨.ok (.error "Invalid account id"), none⟩ := by
      simp only [resolveEvidenceAndSendUnsignedForAnyAccount, hm, hno]
    rw [hout]
    exact ⟨by simp, fun _ => ⟨_, rfl⟩⟩
  · obtain ⟨bs, hbs⟩ := Option.isSome_iff_exists.1 ((hexText_iff _).1 hhex)
    have hshort : AccountId32.decode bs = none := by
      have := length_of_decodePairs hbs
      rw [charBytes, List.length_map] at this
      exact dif_neg (by omega)
    have hout : ∃ e, resolveEvidenceAndSendUnsignedForAnyAccount env host applier evidence n
        = ⟨.ok (.error e), none⟩ := by
      rcases hcs : fromUtf8 (charBytes account) with _ | cs
      · refine ⟨"Invalid account id", ?_⟩
        simp only [resolveEvidenceAndSendUnsignedForAnyAccount, hm, hcs]
      · refine ⟨"Resolve account id failed", ?_⟩
        simp only [resolveEvidenceAndSendUnsignedForAnyAccount, hm, hcs, decodeHex_eq_ok.2 hbs,
          hdecode, hshort]
    obtain ⟨e, hout⟩ := hout
    rw [hout]
    exact ⟨by simp, fun _ => ⟨_, rfl⟩⟩

/-- A host that can sign shows whether a text is decoded canonically. -/
theorem canonicalText_of_canonical (hdecode : env.decodeAccountId = AccountId32.decode)
    (hm : resolveEvidence env host evidence = .ok [pubkey, mrenclave, charBytes account])
    {key : Public} {keys : List Public} (hkeys : host.keys = key :: keys)
    (hsign : ∀ payload, (host.sign payload).isSome) {applier : AccountId32} {n : ℕ}
    (h : Canonical account
      (resolveEvidenceAndSendUnsignedForAnyAccount env host applier evidence n)) :
    CanonicalText account := by
  by_cases hspells : ∃ who, Spells account who
  · exact .inl hspells
  rcases hcs : fromUtf8 (charBytes account) with _ | cs
  · exact .inr (.inl hcs)
  -- The walk over a text that is no spelling has to come to its end…
  obtain ⟨e, he⟩ := h.2 hspells
  have hhex : HexText (charBytes account) := by
    refine exists_decodeHex_iff.1 ?_
    rcases hdec : decodeHex (charBytes account) with panic | e | bs
    · simp [resolveEvidenceAndSendUnsignedForAnyAccount, hm, hcs, hdec] at he
    · simp [resolveEvidenceAndSendUnsignedForAnyAccount, hm, hcs, hdec] at he
    · exact ⟨bs, rfl⟩
  refine .inr (.inr ⟨hhex, ?_⟩)
  -- …and to less than an account, or the account would be signed for.
  obtain ⟨bs, hbs⟩ := Option.isSome_iff_exists.1 ((hexText_iff _).1 hhex)
  by_contra hlen
  have hlong : 32 ≤ bs.length := by
    have := length_of_decodePairs hbs
    rw [charBytes, List.length_map] at this
    omega
  have hdec : AccountId32.decode bs = some ⟨bs.take 32, List.length_take_of_le hlong⟩ :=
    dif_pos hlong
  have hsigned := signed_of_message env host hm hcs hbs (hdecode ▸ hdec) applier n
  obtain ⟨sig, hsig⟩ := Option.isSome_iff_exists.1
    (hsign ⟨mrenclave, ⟨bs.take 32, List.length_take_of_le hlong⟩, pubkey, key⟩)
  rw [hkeys, List.findSome?_cons, hsig, Option.map_some] at hsigned
  exact hspells ⟨_, h.1 _ _ hsigned⟩

end Account

/-- **Account texts are decoded canonically** — what is signed names the account the text spells,
and any other text makes the worker return an error — if and only if the text is such a spelling, or
its bytes are no text, or it is shorter and can be decoded.  Two texts that spell one account differ
in letter case alone. -/
theorem account_canonical_iff {Public Signature : Type} [Inhabited Public] [Inhabited Signature]
    {env : Env AccountId32} (hparse : ∀ s v, env.parseJson s = some v ↔ Text s v)
    (hdecode : env.decodeAccountId = AccountId32.decode) {body : Bytes}
    {s pubkey mrenclave account : List Char} (hbody : fromUtf8 body = some s)
    (hs : CarriesIdentity s pubkey mrenclave account) :
    ((∀ (host : Host AccountId32 Public Signature) evidence applier n,
        host.http evidence = .response 200 body → Canonical account
          (resolveEvidenceAndSendUnsignedForAnyAccount env host applier evidence n)) ↔
      CanonicalText account) ∧
    ∀ account' who, Spells account who → Spells account' who →
      account.map Char.toLower = account'.map Char.toLower := by
  have hm : ∀ (host : Host AccountId32 Public Signature) evidence,
      host.http evidence = .response 200 body → resolveEvidence env host evidence =
        .ok [charBytes pubkey, charBytes mrenclave, charBytes account] := fun host evidence hhttp =>
    (resolveEvidence_eq_ok env host).2 ⟨body, s, hhttp, hbody,
      (parseResult_iff_carriesIdentity hparse).2 ⟨_, _, _, hs, rfl⟩⟩
  refine ⟨⟨fun h => ?_, fun h host evidence applier n hhttp =>
    canonical_of_canonicalText hdecode (hm host evidence hhttp) h applier n⟩,
    fun account' who h h' => h.trans h'.symm⟩
  let host : Host AccountId32 Public Signature :=
    ⟨fun _ => .response 200 body, [default], fun _ => some default, fun _ => .ok ()⟩
  let applier : AccountId32 := ⟨List.replicate 32 0, List.length_replicate⟩
  exact canonicalText_of_canonical hdecode (hm host [] rfl) rfl (fun _ => rfl)
    (h host [] applier 0 rfl)

/-- The worker of a node with one key, over a reader of standard JSON. -/
noncomputable def accountEnv : Env AccountId32 := ⟨decode, AccountId32.decode, Iteration.id _⟩

/-- A service that answers with an account text and empty keys, and a key that signs. -/
def accountHost (account : List Char) : Host AccountId32 ℕ ℕ :=
  ⟨fun _ => .response 200 (utf8 (answerText account [] [])), [0], fun _ => some 0, fun _ => .ok ()⟩

/-- Sixty-four zeros are decoded canonically. -/
theorem account_canonical_plain :
    Canonical (List.replicate 64 '0') (resolveEvidenceAndSendUnsignedForAnyAccount accountEnv
      (accountHost (List.replicate 64 '0')) ⟨List.replicate 32 0, rfl⟩ (ascii "quote") 6) := by
  have hspells : Spells (List.replicate 64 '0') ⟨List.replicate 32 0, rfl⟩ := by
    change (List.replicate 64 '0').map Char.toLower = chars (spell (List.replicate 32 0))
    decide
  exact (account_canonical_iff (fun _ _ => decode_eq_some) rfl (fromUtf8_eq_some.2 rfl)
    (carriesIdentity_answer (by decide) (by decide) (by decide))).1.2
    (.inl ⟨_, hspells⟩) _ _ _ _ rfl

/-- Sixty-six zeros are decoded to the account that sixty-four spell. -/
theorem account_overlong :
    ¬ ∀ (env : Env AccountId32), (∀ s v, env.parseJson s = some v ↔ Text s v) →
      env.decodeAccountId = AccountId32.decode →
      ∀ body s pubkey mrenclave account, fromUtf8 body = some s →
        CarriesIdentity s pubkey mrenclave account →
        ∀ (host : Host AccountId32 ℕ ℕ) evidence applier n,
          host.http evidence = .response 200 body → Canonical account
            (resolveEvidenceAndSendUnsignedForAnyAccount env host applier evidence n) := by
  intro h
  have hcarries : CarriesIdentity (answerText (List.replicate 66 '0') [] []) [] []
      (List.replicate 66 '0') := carriesIdentity_answer (by decide) (by decide) (by decide)
  have hcanonical := h accountEnv (fun _ _ => decode_eq_some) rfl _ _ _ _ _ (fromUtf8_eq_some.2 rfl)
    hcarries (accountHost (List.replicate 66 '0')) [] ⟨List.replicate 32 0, rfl⟩ 0 rfl
  have hm : resolveEvidence accountEnv (accountHost (List.replicate 66 '0')) [] =
      .ok [charBytes [], charBytes [], charBytes (List.replicate 66 '0')] :=
    (resolveEvidence_eq_ok _ _).2 ⟨_, _, rfl, fromUtf8_eq_some.2 rfl,
      (parseResult_iff_carriesIdentity fun _ _ => decode_eq_some).2 ⟨_, _, _, hcarries, rfl⟩⟩
  rcases canonicalText_of_canonical rfl hm rfl (fun _ => rfl) hcanonical with
    ⟨who, hwho⟩ | hno | ⟨-, hlen⟩
  · have hlength := congrArg List.length hwho
    rw [List.length_map, chars, List.length_map, length_spell, who.property] at hlength
    simp at hlength
  · rw [fromUtf8_eq_some.2 (charBytes_eq_utf8_iff.2 (by decide))] at hno
    cases hno
  · simp at hlen

end Verifier
