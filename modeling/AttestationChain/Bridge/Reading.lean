import AttestationChain.Dcap.Soundness
import AttestationChain.Verifier.Response

/-!
# Bridge/Reading — what the chain reads in an answer of the service

The service escapes an account, dumps it escaped again, and takes every backslash out of what it
sends; the chain reads a JSON text.  So an account goes through as it is only if it needs no escape
and is ASCII (`identity_read_iff`): with a quote in it, it ends its own string, and what follows it
is read as the service's (`identity_injected`).
-/

namespace Bridge

open Dcap Dcap.JSON JsonText Verifier

/-! ## The account on the wire -/

theorem wireAccount_cons (c : UInt8) (s : Bytes) :
    wireAccount (c :: s) = wire (escapeByte c) ++ wireAccount s := by
  rw [wireAccount, escaped_cons, wire_append, ← wireAccount]

/-- No account grows on the wire. -/
theorem length_wireAccount_le (s : Bytes) : (wireAccount s).length ≤ s.length := by
  have hbyte : ∀ c, (wire (escapeByte c)).length ≤ 1 := forall_byte (by decide +kernel)
  induction s with
  | nil => exact Nat.zero_le 0
  | cons c s ih =>
    have := hbyte c
    rw [wireAccount_cons, List.length_append, List.length_cons]
    omega

theorem escape_not_mem_wire (s : Bytes) : (92 : UInt8) ∉ wire s := by
  simp [wire, removeChar]

theorem wireAccount_plain {s : Bytes} (h : ∀ c ∈ s, PlainByte c) : wireAccount s = s := by
  rw [wireAccount, escaped_plain h, wire_plain h]

/-! ## Reading a string without backslashes -/

/-- **A string that meets no backslash before its end** spells itself: its characters are what
stands there, and there is no quote and no control character among them. -/
theorem prefix_of_chars {s v r : List Char} (h : Chars s v r) :
    ∀ {w z : Bytes}, utf8 s = w ++ 34 :: z → (92 : UInt8) ∉ w →
      utf8 v <+: w ∧ ∀ c ∈ v, ' ' ≤ c ∧ c ≠ '"' := by
  -- An escape would be a backslash.
  have hno : ∀ {s : List Char} {w z : Bytes}, utf8 ('\\' :: s) = w ++ 34 :: z →
      (92 : UInt8) ∉ w → False := by
    intro s w z hs hw
    change (92 : UInt8) :: utf8 s = _ at hs
    cases w with
    | nil => exact absurd (List.cons.inj hs).1 (by decide)
    | cons b w => exact hw ((List.cons.inj hs).1 ▸ List.mem_cons_self)
  induction h with
  | close => exact fun _ _ => ⟨List.nil_prefix, by simp⟩
  | @plain c s v r hc hquote hescape h ih =>
    intro w z hs hw
    have hmem : (34 : UInt8) ∉ String.utf8EncodeChar c := fun hm =>
      hquote (Char.toNat_inj.1 (toNat_of_mem_utf8EncodeChar hm (by decide)))
    rw [utf8_cons] at hs
    obtain ⟨w', rfl, hs'⟩ : ∃ w', w = String.utf8EncodeChar c ++ w' ∧ utf8 s = w' ++ 34 :: z := by
      obtain ⟨a, ha, hz⟩ | ⟨a, ha, hz⟩ := List.append_eq_append_iff.1 hs
      · exact ⟨a, ha, hz⟩
      · cases a with
        | nil => exact ⟨[], by rw [ha, List.append_nil, List.append_nil], hz.symm⟩
        | cons b a =>
          rw [ha, ← (List.cons.inj hz).1] at hmem
          exact absurd (by simp) hmem
    obtain ⟨hfront, hv⟩ := ih hs' fun h => hw (List.mem_append_right _ h)
    refine ⟨?_, List.forall_mem_cons.2 ⟨⟨hc, hquote⟩, hv⟩⟩
    rw [utf8_cons]
    exact (List.prefix_append_right_inj _).2 hfront
  | escape => exact fun hs hw => (hno hs hw).elim
  | unicode => exact fun hs hw => (hno hs hw).elim
  | surrogates => exact fun hs hw => (hno hs hw).elim

/-- **An account that is read back is plain**: it comes out no longer than it went in, so nothing
was taken out of it, and every character of it is one byte. -/
theorem plain_of_read {account z : Bytes} {s v r : List Char} (h : Chars s v r)
    (hs : utf8 s = wireAccount account ++ 34 :: z) (hv : charBytes v = account) :
    ∀ c ∈ account, PlainByte c := by
  obtain ⟨hfront, hplain⟩ := prefix_of_chars h hs (escape_not_mem_wire _)
  have hlen : v.length = account.length := by rw [← hv, charBytes, List.length_map]
  have hle := length_le_length_utf8 v
  have hwire := length_wireAccount_le account
  have hascii : ∀ c ∈ v, c.toNat < 128 :=
    ascii_of_length_utf8 (by have := hfront.length_le; omega)
  have hself : utf8 v = wireAccount account :=
    hfront.eq_of_length (by have := hfront.length_le; omega)
  intro c hc
  rw [← hv, charBytes] at hc
  obtain ⟨d, hd, rfl⟩ := List.mem_map.1 hc
  obtain ⟨hspace, hquote⟩ := hplain d hd
  have hlt := hascii d hd
  have hmem : d.toNat.toUInt8 ∈ utf8 v := by
    refine List.mem_flatMap.2 ⟨d, hd, ?_⟩
    rw [utf8EncodeChar_ascii hlt]
    exact List.mem_singleton_self _
  have hnat : d.toNat.toUInt8.toNat = d.toNat := by simp; omega
  refine ⟨?_, ?_, ?_, ?_⟩
  · rw [UInt8.le_iff_toNat_le, hnat]
    exact hspace
  · rw [UInt8.lt_iff_toNat_lt, hnat]
    exact hlt
  · intro h34
    exact hquote (Char.toNat_inj.1 (hnat.symm.trans (congrArg UInt8.toNat h34)))
  · intro h92
    rw [h92, hself] at hmem
    exact escape_not_mem_wire _ hmem

/-! ## The front of an answer -/

/-- The first member of an object, where its name is plain. -/
theorem members_head {s r y : List Char} {ms : List (List Char × Value)} (k : List Char)
    (h : Members s ms r) (hk : PlainText k) (hs : skipWs s = '"' :: (k ++ '"' :: y)) :
    ∃ w v x ms', skipWs y = ':' :: w ∧ Reads (skipWs w) v x ∧ ms = (k, v) :: ms' := by
  have hname := chars_plain k y hk
  cases h with
  | last hquote hk' hcolon hv hend =>
    rw [hs] at hquote
    cases hquote
    obtain ⟨rfl, rfl⟩ := hname.unique hk'
    exact ⟨_, _, _, _, hcolon, hv, rfl⟩
  | cons hquote hk' hcolon hv hcomma hms =>
    rw [hs] at hquote
    cases hquote
    obtain ⟨rfl, rfl⟩ := hname.unique hk'
    exact ⟨_, _, _, _, hcolon, hv, rfl⟩

/-- What starts with a brace and a quote is an object with members. -/
theorem reads_object {s t r : List Char} {v : Value} (h : Reads ('{' :: s) v r)
    (hs : skipWs s = '"' :: t) : ∃ ms, v = .object ms ∧ Members s ms r := by
  cases h with
  | object h => exact ⟨_, rfl, h⟩
  | emptyObject h =>
    rw [hs] at h
    cases h
  | number h => exact absurd (scanNumber_ne h) (by decide)

theorem reads_string {s r : List Char} {v : Value} (h : Reads ('"' :: s) v r) :
    ∃ cs, v = .string cs ∧ Chars s cs r := by
  cases h with
  | string h => exact ⟨_, rfl, h⟩
  | number h => exact absurd (scanNumber_ne h) (by decide)

/-- **The front of an answer**: its first member is the message, whose first member is the account —
whatever follows. -/
theorem text_answerHead {t : List Char} {v : Value} (h : Text (answerHead ++ t) v) :
    ∃ account r ms ms', Chars t account r ∧
      v = .object
        (("message".toList, .object (("account".toList, .string account) :: ms)) :: ms') := by
  obtain ⟨r, hread, -⟩ := h
  have hhead : Reads ('{' :: ("  \"message\" : \x7b    \"account\" : \"".toList ++ t)) v r := hread
  obtain ⟨ms, rfl, hms⟩ :=
    reads_object (t := "message\" : \x7b    \"account\" : \"".toList ++ t) hhead rfl
  obtain ⟨w, message, x, ms', hw, hmessage, rfl⟩ := members_head "message".toList
    (y := " : \x7b    \"account\" : \"".toList ++ t) hms (by decide) rfl
  obtain rfl : " \x7b    \"account\" : \"".toList ++ t = w := (List.cons.inj hw).2
  have hmessage' : Reads ('{' :: ("    \"account\" : \"".toList ++ t)) message x := hmessage
  obtain ⟨ms, rfl, hms'⟩ := reads_object (t := "account\" : \"".toList ++ t) hmessage' rfl
  obtain ⟨w, account, x, ms'', hw, haccount, rfl⟩ := members_head "account".toList
    (y := " : \"".toList ++ t) hms' (by decide) rfl
  obtain rfl : " \"".toList ++ t = w := (List.cons.inj hw).2
  have haccount' : Reads ('"' :: t) account x := haccount
  obtain ⟨cs, rfl, hcs⟩ := reads_string haccount'
  exact ⟨cs, x, ms'', ms', hcs, rfl⟩

/-! ## What is read -/

theorem lt_of_plain {s : Bytes} (h : ∀ c ∈ s, PlainByte c) : ∀ c ∈ s, c < 128 :=
  fun c hc => (h c hc).2.1

theorem plainText_chars {s : Bytes} (h : ∀ c ∈ s, PlainByte c) : PlainText (chars s) := by
  intro d hd
  obtain ⟨c, hc, rfl⟩ := List.mem_map.1 hd
  obtain ⟨hspace, -, hquote, hescape⟩ := h c hc
  have hnat := toNat_ofNat_toNat c
  refine ⟨?_, ?_, ?_⟩
  · change ' '.toNat ≤ (Char.ofNat c.toNat).toNat
    rw [hnat]
    exact UInt8.le_iff_toNat_le.1 hspace
  · intro h34
    exact hquote (UInt8.toNat_inj.1 (hnat.symm.trans (congrArg Char.toNat h34)))
  · intro h92
    exact hescape (UInt8.toNat_inj.1 (hnat.symm.trans (congrArg Char.toNat h92)))

theorem charBytes_chars (s : Bytes) : charBytes (chars s) = s := by
  rw [charBytes, chars, List.map_map]
  refine (List.map_congr_left fun c _ => ?_).trans (List.map_id s)
  rw [Function.comp_apply, toNat_ofNat_toNat]
  simp

/-- The encoding of two texts between quotes, piece by piece. -/
theorem utf8_pieces (x m y p z w : List Char) :
    utf8 ('"' :: ',' :: (x ++ (m ++ '"' :: ',' :: (y ++ (p ++ '"' :: (z ++ w)))))) =
      34 :: 44 :: utf8 x ++ utf8 m ++ (34 :: 44 :: utf8 y) ++ utf8 p ++
      34 :: (utf8 z ++ utf8 w) := by
  have hquote : ∀ s, utf8 ('"' :: s) = 34 :: utf8 s := fun _ => rfl
  have hcomma : ∀ s, utf8 (',' :: s) = 44 :: utf8 s := fun _ => rfl
  simp only [utf8_append, hquote, hcomma, List.append_assoc, List.cons_append]

/-- **What stands behind the account** is the same, character by character and byte by byte. -/
theorem identityTail_eq (i : Identity) : identityTail i =
    utf8 (answerTail (chars (hexstring i.mrEnclave)) (chars (hexstring i.reportData))) := by
  have hhex : ∀ b, utf8 (chars (hexstring b)) = hexstring b := fun b =>
    utf8_chars (lt_of_plain (plain_hexstring b))
  have hmrenclave : ascii "\",    \"mrenclave\" : \"" =
      34 :: 44 :: utf8 "    \"mrenclave\" : \"".toList := by decide
  have hpubkey : ascii "\",    \"pubkey\" : \"" =
      34 :: 44 :: utf8 "    \"pubkey\" : \"".toList := by decide
  have hstatus : ascii "\"  \x7d,  \"status_code\" : 200\x7d" =
      34 :: (utf8 "  \x7d".toList ++ utf8 statusTail) := by decide
  have hpieces := utf8_pieces "    \"mrenclave\" : \"".toList (chars (hexstring i.mrEnclave))
    "    \"pubkey\" : \"".toList (chars (hexstring i.reportData)) "  \x7d".toList statusTail
  rw [hhex, hhex] at hpieces
  rw [identityTail, hmrenclave, hpubkey, hstatus]
  exact hpieces.symm

/-- **An answer is a text** where its account is one. -/
theorem identityBody_eq {i : Identity} {a : List Char} (h : wireAccount i.account = utf8 a) :
    identityBody i = utf8 (answerText a (chars (hexstring i.mrEnclave))
      (chars (hexstring i.reportData))) := by
  have hhead : ascii "\x7b  \"message\" : \x7b    \"account\" : \"" = utf8 answerHead := by decide
  rw [identityBody, hhead, h, identityTail_eq, answerText, utf8_append, utf8_append]

/-- **An answer that is a text** is one from its front on. -/
theorem eq_answerHead_append {i : Identity} {t : List Char} (h : identityBody i = utf8 t) :
    ∃ s z, t = answerHead ++ s ∧ utf8 s = wireAccount i.account ++ 34 :: z := by
  have hhead : chars (ascii "\x7b  \"message\" : \x7b    \"account\" : \"") = answerHead := by
    decide
  obtain ⟨z, hz⟩ : ∃ z, identityTail i = 34 :: z := by
    rw [identityTail_eq]
    exact ⟨_, rfl⟩
  obtain ⟨s, hs, hrest⟩ := eq_chars_append
    (p := ascii "\x7b  \"message\" : \x7b    \"account\" : \"")
    (forall_mem_of_all (by decide)) (h.symm.trans rfl)
  exact ⟨s, z, by rw [hs, hhead], by rw [hrest, hz]⟩

section Read

variable {parseJson : List Char → Option Value} {Double BigNum Key : Type}

/-- **The account that is read is the first string of the answer.** -/
theorem plain_of_parseResult (hparse : ∀ s v, parseJson s = some v ↔ Text s v) {i : Identity}
    {t : List Char} {pubkey mrenclave : Bytes} (hbody : identityBody i = utf8 t)
    (h : parseResult parseJson t = some [pubkey, mrenclave, i.account]) :
    ∀ c ∈ i.account, PlainByte c := by
  obtain ⟨s, z, rfl, hs⟩ := eq_answerHead_append hbody
  obtain ⟨obj, v, _, _, account, hjson, hfind, -, -, haccount, hresult⟩ := parseResult_eq_some.1 h
  obtain ⟨chars, r, ms, ms', hchars, hobj⟩ := text_answerHead ((hparse _ _).1 hjson)
  cases hobj
  have hmessage : some (Value.object (("account".toList, .string chars) :: ms)) = some v := hfind
  cases hmessage
  have hread : some (charBytes chars) = some account := haccount
  cases hread
  obtain ⟨-, -, hlast⟩ : _ ∧ _ ∧ i.account = charBytes chars := by simpa using hresult
  exact plain_of_read hchars hs hlast.symm

/-- **What the chain reads in an answer** is the identity the service put there, exactly if the
account needs no escape and is ASCII. -/
theorem identity_read_iff (hparse : ∀ s v, parseJson s = some v ↔ Text s v)
    (lib : Libraries Double BigNum Key) {body : Bytes} {res : Response}
    (h : entryNetwork lib body = .ok res) (hstatus : res.status = 200) :
    ∃ e i, Carries lib body e i ∧ ((∃ t, fromUtf8 res.body = some t ∧ parseResult parseJson t =
      some [hexstring i.reportData, hexstring i.mrEnclave, i.account]) ↔
        ∀ c ∈ i.account, PlainByte c) := by
  obtain ⟨e, i, hcarries, hbody⟩ := identityBody_of_answered h hstatus
  refine ⟨e, i, hcarries, ?_, fun hplain => ?_⟩
  · rintro ⟨t, ht, hread⟩
    rw [hbody] at ht
    exact plain_of_parseResult hparse (fromUtf8_eq_some.1 ht) hread
  · refine ⟨answerText (chars i.account) (chars (hexstring i.mrEnclave))
      (chars (hexstring i.reportData)), ?_, ?_⟩
    · rw [hbody]
      refine fromUtf8_eq_some.2 (identityBody_eq ?_)
      rw [wireAccount_plain hplain, utf8_chars (lt_of_plain hplain)]
    · rw [parseResult_answerText hparse (plainText_chars hplain)
        (plainText_chars (plain_hexstring _)) (plainText_chars (plain_hexstring _)),
        charBytes_chars, charBytes_chars, charBytes_chars]

end Read

/-- A request whose evidence is good. -/
theorem entryNetwork_plainRequest (account : Bytes) (h : Untagged account)
    (hlen : account.length < uint32Size) (hsz : 432 + (escaped account).length < uint32Size) :
    entryNetwork (plainLibraries 1) (plainRequest account) =
      .ok ⟨200, identityBody (plainIdentity account)⟩ := by
  obtain ⟨e, hcarries, hsig⟩ := carries_plainRequest 1 account h hlen hsz
  have hvalid : ecdsaVerify (plainLibraries 1) e (plainIdentity account) = 1 := rfl
  refine entryNetwork_passes hcarries ?_ ⟨by rw [hvalid]; decide, rfl, rfl⟩
  rw [hsig, length_plainSig]
  decide

/-- At an account that goes through. -/
theorem plain_identity_read_iff :
    ∃ res, entryNetwork (plainLibraries 1) (plainRequest (ascii "alice")) = .ok res ∧
      ∃ e i, Carries (plainLibraries 1) (plainRequest (ascii "alice")) e i ∧
        ((∃ t, fromUtf8 res.body = some t ∧ parseResult decode t =
          some [hexstring i.reportData, hexstring i.mrEnclave, i.account]) ↔
            ∀ c ∈ i.account, PlainByte c) := by
  have hres := entryNetwork_plainRequest (ascii "alice") (by decide) (by decide) (by decide)
  exact ⟨_, hres, identity_read_iff (fun _ _ => decode_eq_some) (plainLibraries 1) hres rfl⟩

/-- An account that ends its own string, and goes on with a public key. -/
def injection : Bytes := ascii "alice\",\"pubkey\" : \"mallory"

theorem chars_injection : chars injection =
    "alice".toList ++ '"' :: ',' :: ("\"pubkey\" : \"".toList ++ "mallory".toList) := by decide

/-- What stands behind the account of that answer, from its closing quote on. -/
def injectedTail (mrenclave pubkey : List Char) : List Char :=
  '"' :: ',' :: ("\"pubkey\" : \"".toList ++ ("mallory".toList ++ answerTail mrenclave pubkey))

theorem parseResult_injected {mrenclave pubkey : List Char} (hm : PlainText mrenclave)
    (hp : PlainText pubkey) :
    parseResult decode (answerHead ++ ("alice".toList ++ injectedTail mrenclave pubkey)) =
      some [ascii "mallory", charBytes mrenclave, ascii "alice"] := by
  have hpubkey : Members ("\"pubkey\" : \"".toList ++ ("mallory".toList ++
      answerTail mrenclave pubkey)) _ statusTail :=
    members_string_cons "pubkey".toList "mallory".toList (mrenclaveTail mrenclave pubkey)
      (by decide)
      (by decide) rfl (members_mrenclaveTail hm hp)
  have hmessage := text_of_message ("alice".toList ++ injectedTail mrenclave pubkey)
    (members_string_cons "account".toList "alice".toList ("\"pubkey\" : \"".toList ++
      ("mallory".toList ++ answerTail mrenclave pubkey)) (by decide) (by decide) rfl hpubkey)
  exact parseResult_eq_some.2 ⟨_, _, _, _, _, decode_eq_some.2 hmessage, rfl, rfl, rfl, rfl, rfl⟩

/-- **An account that changes the public key**: the request is answered 200, and the chain reads
another key in the answer than the one the quote holds. -/
theorem identity_injected :
    ∃ res t, entryNetwork (plainLibraries 1) (plainRequest injection) = .ok res ∧
    res.status = 200 ∧ fromUtf8 res.body = some t ∧
    parseResult decode t =
      some [ascii "mallory", hexstring (plainIdentity injection).mrEnclave, ascii "alice"] ∧
    ascii "mallory" ≠ hexstring (plainIdentity injection).reportData := by
  have hres := entryNetwork_plainRequest injection (by decide) (by decide) (by decide)
  have hwire : wireAccount (plainIdentity injection).account = utf8 (chars injection) := by
    rw [utf8_chars (forall_mem_of_all (by decide))]
    decide
  have hhex := plainText_chars (plain_hexstring (plainIdentity injection).mrEnclave)
  have hhex' := plainText_chars (plain_hexstring (plainIdentity injection).reportData)
  refine ⟨_, _, hres, rfl, fromUtf8_eq_some.2 (identityBody_eq hwire), ?_, fun h => ?_⟩
  · have hread := parseResult_injected hhex hhex'
    rw [charBytes_chars] at hread
    rw [← hread, answerText, chars_injection, injectedTail]
    simp only [List.append_assoc, List.cons_append]
  · have hlen := congrArg List.length h
    rw [length_hexstring, Identity.length_reportData] at hlen
    exact absurd hlen (by decide)

end Bridge
