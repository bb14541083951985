import AttestationChain.Http.Client

/-!
# Http/Framing — where a response ends
-/

namespace Http

open Segments

/-! ## Headers, written and read back -/

/-- A header that is written on a line of its own, and read back under its key. -/
structure Clean (field : Bytes × Bytes) : Prop where
  key : ∀ c ∈ field.1, c ≠ 0 ∧ c ≠ 10 ∧ c ≠ 58
  val : (10 : UInt8) ∉ cstr field.2

/-- The line of a header, without its end. -/
def headerText (field : Bytes × Bytes) : Bytes := cstr field.1 ++ ascii ": " ++ cstr field.2

theorem writeHeaders_eq (headers : Headers) : writeHeaders headers =
    ((headers.insertionSort keyLe).map headerText).flatMap (· ++ crlf) ++ crlf := by
  rw [writeHeaders, List.flatMap_map]
  rfl

/-- The value of a header, as it is read back. -/
def rereadValue (val : Bytes) : Bytes :=
  ((32 :: cstr val).rdropWhile isSpaceOrTab).dropWhile isSpaceOrTab

/-- **A header is read back under its key**, if at all. -/
theorem parseHeader_headerText {field : Bytes × Bytes} (h : Clean field) :
    parseHeader (headerText field) =
      if rereadValue field.2 = [] then none
      else some (field.1, decodeUrl (rereadValue field.2)) := by
  have hkey : cstr field.1 = field.1 :=
    List.takeWhile_eq_self_iff.2 fun c hc => decide_eq_true (h.key c hc).1
  have hne : ∀ c ∈ field.1, decide (c ≠ 58) = true := fun c hc => decide_eq_true (h.key c hc).2.2
  have htext : (headerText field).rdropWhile isSpaceOrTab =
      field.1 ++ 58 :: (32 :: cstr field.2).rdropWhile isSpaceOrTab := by
    rw [headerText, hkey, List.append_assoc]
    exact rdropWhile_append_cons rfl _ _
  simp only [parseHeader, htext, List.takeWhile_append_of_pos hne, List.dropWhile_append_of_pos hne]
  simp [rereadValue]

theorem headerText_line {field : Bytes × Bytes} (h : Clean field) :
    headerText field ≠ [] ∧ (10 : UInt8) ∉ headerText field := by
  refine ⟨by simp [headerText, ascii], ?_⟩
  rw [headerText, List.mem_append, List.mem_append]
  rintro ((hkey | hsep) | hval)
  · exact (h.key 10 ((List.takeWhile_prefix _).subset hkey)).2.1 rfl
  · exact absurd hsep (by decide)
  · exact h.val hval

/-- Headers, as they are read back. -/
def reread (headers : Headers) : Headers :=
  (headers.insertionSort keyLe).filterMap fun field => parseHeader (headerText field)

/-- **Headers are read back.** -/
theorem yields_writeHeaders {headers : Headers} (h : ∀ field ∈ headers, Clean field)
    {strm : Incoming UInt8} {more : List (Option UInt8)}
    (hflat : flat strm = (writeHeaders headers).map some ++ more) :
    Yields (readHeaders [] strm) (true, reread headers) more := by
  have htexts : ∀ text ∈ (headers.insertionSort keyLe).map headerText,
      text ≠ [] ∧ (10 : UInt8) ∉ text := by
    intro text htext
    obtain ⟨field, hfield, rfl⟩ := List.mem_map.1 htext
    exact headerText_line (h field ((List.mem_insertionSort keyLe).1 hfield))
  rw [writeHeaders_eq] at hflat
  have hread : Yields (readHeaders [] strm) (true, [] ++ _) more :=
    yields_readHeaders htexts hflat
  rwa [List.filterMap_map] at hread

/-- What is read back of a key, comes from a header of that key. -/
theorem exists_of_mem_reread {headers : Headers} (h : ∀ field ∈ headers, Clean field)
    {field : Bytes × Bytes} (hfield : field ∈ reread headers) :
    ∃ field' ∈ headers, field'.1 = field.1 ∧ field.2 = decodeUrl (rereadValue field'.2) := by
  obtain ⟨field', hmem, hread⟩ := List.mem_filterMap.1 hfield
  have hmem := (List.mem_insertionSort keyLe).1 hmem
  rw [parseHeader_headerText (h field' hmem)] at hread
  split_ifs at hread
  cases hread
  exact ⟨field', hmem, rfl, rfl⟩

/-- A key that no header has is not read back. -/
theorem hasHeader_reread {headers : Headers} (h : ∀ field ∈ headers, Clean field) {key : String}
    (hkey : ∀ field ∈ headers, sameKey (ascii key) field.1 = false) :
    hasHeader (reread headers) key = false := by
  refine List.any_eq_false.2 fun field hfield => ?_
  obtain ⟨field', hmem, hfst, -⟩ := exists_of_mem_reread h hfield
  rw [← hfst, hkey field' hmem]
  exact Bool.false_ne_true

theorem getHeaderValue_reread {headers : Headers} (h : ∀ field ∈ headers, Clean field)
    {key : String} (hkey : ∀ field ∈ headers, sameKey (ascii key) field.1 = false) :
    getHeaderValue (reread headers) key = [] := by
  have hnone : (reread headers).find? (sameKey (ascii key) ·.1) = none :=
    List.find?_eq_none.2 (List.any_eq_false.1 (hasHeader_reread h hkey))
  rw [getHeaderValue, hnone]
  rfl

theorem rereadValue_toDecimal (n : ℕ) : rereadValue (toDecimal n) = toDecimal n := by
  have hblank := not_blank_toDecimal n
  have hright : (32 :: toDecimal n).rdropWhile isSpaceOrTab = 32 :: toDecimal n := by
    refine List.rdropWhile_eq_self_iff.2 fun hne' => ?_
    rw [List.getLast_cons (toDecimal_spec n).1]
    exact hblank _ (List.getLast_mem (toDecimal_spec n).1)
  rw [rereadValue, cstr_toDecimal, hright, List.dropWhile_cons_of_pos rfl]
  exact List.dropWhile_eq_self_iff.2 fun hpos => hblank _ (List.getElem_mem hpos)

/-- **A length is read back.** -/
theorem getHeaderNumber_reread {headers : Headers} (h : ∀ field ∈ headers, Clean field) {n : ℕ}
    (hn : n ≤ ulongMax) {key : String} (hsome : ∃ field ∈ headers, sameKey (ascii key) field.1)
    (hall : ∀ field ∈ headers, sameKey (ascii key) field.1 → field.2 = toDecimal n) :
    hasHeader (reread headers) key = true ∧ getHeaderNumber (reread headers) key = n := by
  obtain ⟨field, hmem, hkey⟩ := hsome
  have hread : (field.1, toDecimal n) ∈ reread headers := by
    refine List.mem_filterMap.2 ⟨field, (List.mem_insertionSort keyLe).2 hmem, ?_⟩
    rw [parseHeader_headerText (h field hmem), hall field hmem hkey, rereadValue_toDecimal,
      decodeUrl_toDecimal, if_neg (toDecimal_spec n).1]
  have hhas : hasHeader (reread headers) key = true := List.any_eq_true.2 ⟨_, hread, hkey⟩
  refine ⟨hhas, ?_⟩
  have hfind : ((reread headers).find? (sameKey (ascii key) ·.1)).isSome :=
    List.find?_isSome.2 ⟨_, hread, hkey⟩
  obtain ⟨found, hfound⟩ := Option.isSome_iff_exists.1 hfind
  obtain ⟨field', hmem', hfst, hval⟩ := exists_of_mem_reread h (List.mem_of_find?_eq_some hfound)
  have hsame : sameKey (ascii key) field'.1 = true := by
    rw [hfst]
    simpa using List.find?_some hfound
  rw [hall field' hmem' hsame, rereadValue_toDecimal, decodeUrl_toDecimal] at hval
  rw [getHeaderNumber, getHeaderValue, hfound, Option.map_some, Option.getD_some, hval,
    cstr_toDecimal, strtoul_toDecimal hn, Option.getD_some]

/-! ## Responses that end -/

/-- A header that says nothing of a body but how long it may be. -/
structure Plain (field : Bytes × Bytes) : Prop extends Clean field where
  transfer : sameKey (ascii "Transfer-Encoding") field.1 = false
  content : sameKey (ascii "Content-Encoding") field.1 = false

/-- **A response that says where it ends**, by the length of its body. -/
structure Framed (res : Response) : Prop where
  plain : ∀ field ∈ res.headers, Plain field
  length : ∃ field ∈ res.headers, sameKey (ascii "Content-Length") field.1
  length_eq : ∀ field ∈ res.headers, sameKey (ascii "Content-Length") field.1 →
    field.2 = toDecimal res.body.length

/-- A body that headers say nothing of is neither packed nor chunked. -/
theorem plain_reread {headers : Headers} (h : ∀ field ∈ headers, Plain field) :
    isChunkedTransferEncoding (reread headers) = false ∧
      unsupported (getHeaderValue (reread headers) "Content-Encoding") = false := by
  have hclean := fun field hmem => (h field hmem).toClean
  rw [isChunkedTransferEncoding, getHeaderValue_reread hclean fun field hmem =>
    (h field hmem).transfer, getHeaderValue_reread hclean fun field hmem => (h field hmem).content]
  decide

/-- **Up to its body**, a response is read back. -/
theorem readResponse_eq {n : ℕ} (hlo : 100 < n) (hhi : n < 1000) {headers : Headers}
    (hclean : ∀ field ∈ headers, Clean field) {strm : Incoming UInt8}
    {more : List (Option UInt8)}
    (h : flat strm = (statusLine n ++ writeHeaders headers).map some ++ more) :
    ∃ rest, flat rest = more ∧ readResponse strm = readResponseBody n (reread headers) rest := by
  have htext : (10 : UInt8) ∉ statusText n := fun hmem => (statusText_line n 10 hmem).2 rfl
  have hstatus := parseStatusLine_statusLine (Nat.le_of_lt hlo) hhi
  have hgo : (n : ℤ) ≠ 100 := by omega
  rw [List.map_append, List.append_assoc, statusLine_eq] at h
  obtain ⟨behind, hline, hbehind⟩ := (yields_getline.2 (h ▸ firstLine_crlf htext _)).exists
  obtain ⟨rest, hheaders, hrest⟩ := (yields_writeHeaders hclean hbehind).exists
  rw [← statusLine_eq] at hline
  have hround : responseLineRound.read () strm = (.inr (some n), behind) := by
    simp only [responseLineRound, hline, hstatus, if_pos hgo]
  refine ⟨rest, hrest, ?_⟩
  rw [readResponse, readResponseLine, Round.loop_inr hround]
  simp only [hheaders]

/-- **A framed response is read back** to its end and no further. -/
theorem yields_readResponse {res : Response} (hres : Framed res)
    (hlen : res.body.length ≤ ulongMax) {n : ℕ} (hlo : 100 < n) (hhi : n < 1000) (hn : n ≠ 204)
    {strm : Incoming UInt8} {more : List (Option UInt8)}
    (h : flat strm = (statusLine n ++ writeHeaders res.headers ++ res.body).map some ++ more) :
    Yields (readResponse strm) (some ⟨n, reread res.headers, res.body⟩) more := by
  have hclean := fun field hmem => (hres.plain field hmem).toClean
  rw [List.map_append, List.append_assoc] at h
  obtain ⟨behind, hbehind, hread⟩ := readResponse_eq hlo hhi hclean h
  obtain ⟨hchunked, hsupported⟩ := plain_reread hres.plain
  obtain ⟨hhas, hnumber⟩ := getHeaderNumber_reread hclean hlen hres.length hres.length_eq
  obtain ⟨rest, hbody, rfl⟩ := ((yields_readContentWithLength (s := ([] : Bytes))
    joins_append).2 ⟨res.body, rfl, rfl, hbehind⟩).exists
  have hcontent : (n : ℤ) ≠ 204 := by omega
  rw [hread, readResponseBody, if_neg hcontent]
  simp only [readContent, receiveContent, hsupported, hchunked, hhas, hnumber, hbody,
    Bool.false_eq_true, not_true, if_false]
  exact ⟨rfl, rfl⟩

/-! ## The headers of an answer -/

/-- **A response that does not say where it ends.** -/
def Silent (res : Response) : Prop :=
  ∀ field ∈ res.headers, Plain field ∧ sameKey (ascii "Content-Length") field.1 = false

/-- A key that says nothing of a body. -/
def OtherKey (key : String) : Prop :=
  ((ascii key).all fun c => c ≠ 0 ∧ c ≠ 10 ∧ c ≠ 58) = true ∧
    ∀ framing ∈ ["Transfer-Encoding", "Content-Encoding", "Content-Length"],
      sameKey (ascii framing) (ascii key) = false

instance (key : String) : Decidable (OtherKey key) := inferInstanceAs (Decidable (_ ∧ _))

theorem OtherKey.plain {key : String} (h : OtherKey key) {val : Bytes}
    (hval : (10 : UInt8) ∉ cstr val) :
    Plain (ascii key, val) ∧ sameKey (ascii "Content-Length") (ascii key) = false :=
  ⟨⟨⟨forall_mem_of_all h.1, hval⟩, h.2 _ (by simp), h.2 _ (by simp)⟩, h.2 _ (by simp)⟩

@[simp] theorem body_setHeader (res : Response) (key : String) (val : Bytes) :
    (res.setHeader key val).body = res.body := by
  rw [Response.setHeader]
  split_ifs <;> rfl

@[simp] theorem status_setHeader (res : Response) (key : String) (val : Bytes) :
    (res.setHeader key val).status = res.status := by
  rw [Response.setHeader]
  split_ifs <;> rfl

/-- A header that is set is a line. -/
theorem setHeader_cases (res : Response) (key : String) (val : Bytes) :
    res.setHeader key val = res ∨ ((10 : UInt8) ∉ cstr val ∧
      res.setHeader key val = { res with headers := res.headers ++ [(ascii key, val)] }) := by
  rw [Response.setHeader]
  split_ifs with h
  · exact .inl rfl
  · refine .inr ⟨fun hmem => h (.inr ?_), rfl⟩
    exact List.any_eq_true.2 ⟨10, hmem, by decide⟩

theorem Silent.setHeader {res : Response} (h : Silent res) {key : String} (hkey : OtherKey key)
    (val : Bytes) : Silent (res.setHeader key val) := by
  obtain heq | ⟨hval, heq⟩ := setHeader_cases res key val <;> rw [heq]
  · exact h
  · exact List.forall_mem_append.2 ⟨h, List.forall_mem_singleton.2 (hkey.plain hval)⟩

theorem Framed.setHeader {res : Response} (h : Framed res) {key : String} (hkey : OtherKey key)
    (val : Bytes) : Framed (res.setHeader key val) := by
  obtain heq | ⟨hval, heq⟩ := setHeader_cases res key val <;> rw [heq]
  · exact h
  · obtain ⟨hplain, hother⟩ := hkey.plain hval
    obtain ⟨field, hmem, hlength⟩ := h.length
    refine ⟨List.forall_mem_append.2 ⟨h.plain, List.forall_mem_singleton.2 hplain⟩,
      ⟨field, List.mem_append_left _ hmem, hlength⟩, List.forall_mem_append.2 ⟨h.length_eq,
        List.forall_mem_singleton.2 fun hsame => absurd hsame (by rw [hother]; decide)⟩⟩

theorem hasCrlf_toDecimal (n : ℕ) : hasCrlf (toDecimal n) = false := by
  refine Bool.eq_false_iff.2 fun h => ?_
  obtain ⟨c, hc, hcrlf⟩ := List.any_eq_true.1 h
  have hdigit := (toDecimal_spec n).2.1 c ((List.takeWhile_prefix _).subset hc)
  obtain rfl | rfl := of_decide_eq_true hcrlf <;> revert hdigit <;> decide

/-- A response is framed by the length of its body. -/
theorem Silent.framed {res : Response} (h : Silent res) :
    Framed (res.setHeader "Content-Length" (toDecimal res.body.length)) := by
  have hcrlf : ¬ (hasCrlf (ascii "Content-Length") ∨ hasCrlf (toDecimal res.body.length)) := by
    rw [hasCrlf_toDecimal]
    decide
  have hline : (10 : UInt8) ∉ cstr (toDecimal res.body.length) := fun hmem => by
    have hdigit := (toDecimal_spec _).2.1 _ ((List.takeWhile_prefix _).subset hmem)
    exact (plain_of_isDigit hdigit).2.2.1 rfl
  have hkey : ((ascii "Content-Length").all fun c => c ≠ 0 ∧ c ≠ 10 ∧ c ≠ 58) = true ∧
      sameKey (ascii "Transfer-Encoding") (ascii "Content-Length") = false ∧
      sameKey (ascii "Content-Encoding") (ascii "Content-Length") = false := by
    decide
  have hplain : Plain (ascii "Content-Length", toDecimal res.body.length) :=
    ⟨⟨forall_mem_of_all hkey.1, hline⟩, hkey.2.1, hkey.2.2⟩
  rw [Response.setHeader, if_neg hcrlf]
  refine ⟨List.forall_mem_append.2 ⟨fun field hmem => (h field hmem).1,
      List.forall_mem_singleton.2 hplain⟩, ⟨_, List.mem_append_right _ (List.mem_singleton_self _),
      decide_eq_true rfl⟩, List.forall_mem_append.2 ⟨fun field hmem hsame => ?_,
        List.forall_mem_singleton.2 fun _ => rfl⟩⟩
  rw [(h field hmem).2] at hsame
  cases hsame

theorem Framed.hasHeader {res : Response} (h : Framed res) :
    hasHeader res.headers "Content-Length" = true :=
  List.any_eq_true.2 h.length

theorem Silent.hasHeader {res : Response} (h : Silent res) :
    hasHeader res.headers "Content-Length" = false :=
  List.any_eq_false.2 fun field hmem => by rw [(h field hmem).2]; decide

/-- The headers that are added to every response, but for the length. -/
theorem otherKeys : ∀ key ∈ ["Connection", "Keep-Alive", "Content-Type", "Accept-Ranges",
    "Content-Range", "EXCEPTION_WHAT"], OtherKey key := by
  decide

/-- Headers are completed by setting some. -/
theorem completeHeaders_induct {p : Response → Prop}
    (hset : ∀ res key val, p res → p (res.setHeader key val)) {res : Response} (h : p res)
    (closeConnection : Bool) (req : Request) : p (completeHeaders closeConnection req res) := by
  unfold completeHeaders
  extract_lets res₁ res₂ res₃
  have h₁ : p res₁ := by
    unfold res₁
    split_ifs <;> exact hset _ _ _ h
  have h₂ : p res₂ := by
    unfold res₂
    split_ifs
    exacts [hset _ _ _ h₁, h₁]
  have h₃ : p res₃ := by
    unfold res₃
    split_ifs
    exacts [hset _ _ _ h₂, h₂]
  split_ifs
  exacts [hset _ _ _ h₃, h₃]

@[simp] theorem body_completeHeaders (closeConnection : Bool) (req : Request) (res : Response) :
    (completeHeaders closeConnection req res).body = res.body :=
  completeHeaders_induct (p := fun res' => res'.body = res.body)
    (fun _ _ _ h => (body_setHeader _ _ _).trans h) rfl closeConnection req

@[simp] theorem status_completeHeaders (closeConnection : Bool) (req : Request) (res : Response) :
    (completeHeaders closeConnection req res).status = res.status :=
  completeHeaders_induct (p := fun res' => res'.status = res.status)
    (fun _ _ _ h => (status_setHeader _ _ _).trans h) rfl closeConnection req

/-- A framed response stays framed… -/
theorem Framed.completeHeaders {res : Response} (h : Framed res) (closeConnection : Bool)
    (req : Request) : Framed (completeHeaders closeConnection req res) := by
  unfold Http.completeHeaders
  extract_lets res₁ res₂ res₃
  have h₁ : Framed res₁ := by
    unfold res₁
    split_ifs <;> exact h.setHeader (otherKeys _ (by simp)) _
  have h₂ : Framed res₂ := by
    unfold res₂
    split_ifs
    · exact h₁.setHeader (otherKeys _ (by simp)) _
    · exact h₁
  have h₃ : Framed res₃ := by
    unfold res₃
    rw [if_neg fun hno => hno.1 h₂.hasHeader]
    exact h₂
  split_ifs
  · exact h₃.setHeader (otherKeys _ (by simp)) _
  · exact h₃

/-- …one without a body is framed… -/
theorem Silent.completeHeaders_nil {res : Response} (h : Silent res) (hbody : res.body = [])
    (closeConnection : Bool) (req : Request) :
    Framed (completeHeaders closeConnection req res) := by
  unfold Http.completeHeaders
  extract_lets res₁ res₂ res₃
  have h₁ : Silent res₁ ∧ res₁.body = [] := by
    unfold res₁
    split_ifs <;> exact ⟨h.setHeader (otherKeys _ (by simp)) _, by simp [hbody]⟩
  have h₂ : Silent res₂ ∧ res₂.body = [] := by
    unfold res₂
    rw [if_neg fun hne => hne.2 h₁.2]
    exact h₁
  have h₃ : Framed res₃ := by
    have hframed := h₂.1.framed
    unfold res₃
    rw [if_pos ⟨by rw [h₂.1.hasHeader]; decide, h₂.2⟩]
    rwa [h₂.2] at hframed
  split_ifs
  · exact h₃.setHeader (otherKeys _ (by simp)) _
  · exact h₃

/-- …and one with a body stays silent. -/
theorem Silent.completeHeaders_ne_nil {res : Response} (h : Silent res) (hbody : res.body ≠ [])
    (closeConnection : Bool) (req : Request) :
    Silent (completeHeaders closeConnection req res) := by
  unfold Http.completeHeaders
  extract_lets res₁ res₂ res₃
  have h₁ : Silent res₁ ∧ res₁.body ≠ [] := by
    unfold res₁
    split_ifs <;> exact ⟨h.setHeader (otherKeys _ (by simp)) _, by simp [hbody]⟩
  have h₂ : Silent res₂ ∧ res₂.body ≠ [] := by
    unfold res₂
    split_ifs
    · exact ⟨h₁.1.setHeader (otherKeys _ (by simp)) _, by simp [h₁.2]⟩
    · exact h₁
  have h₃ : Silent res₃ := by
    unfold res₃
    rw [if_neg fun hnil => h₂.2 hnil.2]
    exact h₂.1
  split_ifs
  · exact h₃.setHeader (otherKeys _ (by simp)) _
  · exact h₃

theorem silent_empty (status : ℤ) : Silent { Response.empty with status } :=
  fun _ hmem => absurd hmem List.not_mem_nil

theorem Silent.setContent {res : Response} (h : Silent res) (s : Bytes) (contentType : String) :
    Silent (res.setContent s contentType) :=
  Silent.setHeader (fun field hmem => h field (List.mem_of_mem_filter hmem))
    (otherKeys _ (by simp)) _

theorem body_setContent (res : Response) (s : Bytes) (contentType : String) :
    (res.setContent s contentType).body = s := body_setHeader _ _ _

theorem status_setContent (res : Response) (s : Bytes) (contentType : String) :
    (res.setContent s contentType).status = res.status := status_setHeader _ _ _

/-! ## The ranges of an answer -/

theorem Silent.setMultipart {res : Response} (h : Silent res) {boundary : Bytes}
    (hboundary : (10 : UInt8) ∉ boundary) (req : Request) :
    Silent (setMultipart boundary req res) := by
  have hval : (10 : UInt8) ∉ cstr (ascii "multipart/byteranges; boundary=" ++ boundary) := by
    intro hmem
    obtain hmem | hmem := List.mem_append.1 ((List.takeWhile_prefix _).subset hmem)
    · exact absurd hmem (by decide)
    · exact hboundary hmem
  unfold Http.setMultipart
  split_ifs
  · refine List.forall_mem_append.2 ⟨fun field hmem => h field (List.mem_of_mem_eraseP hmem), ?_⟩
    exact List.forall_mem_singleton.2 ((otherKeys _ (by simp)).plain hval)
  · exact h

/-- Ranges cut the body, and no more than that. -/
theorem cutRanges_cases (boundary contentType : Bytes) (req : Request) (res : Response) :
    ∃ val body status, (status = res.status ∨ status = 416) ∧
      (cutRanges boundary contentType req res = { res with body, status } ∨
        cutRanges boundary contentType req res =
          { res.setHeader "Content-Range" val with body, status }) := by
  unfold cutRanges
  obtain _ | ⟨r, _ | ⟨r', ranges⟩⟩ := req.ranges
  · exact ⟨[], _, _, .inl rfl, .inl rfl⟩
  · dsimp only
    split_ifs
    · exact ⟨_, _, _, .inl (status_setHeader _ _ _), .inr rfl⟩
    · exact ⟨_, _, _, .inr rfl, .inr rfl⟩
  · dsimp only
    cases makeMultipartRangesData (r :: r' :: ranges) boundary contentType res.body with
    | none => exact ⟨[], _, _, .inr rfl, .inl rfl⟩
    | some data => exact ⟨[], _, _, .inl rfl, .inl rfl⟩

/-- **What ranges make of a response**: one with a body is framed, whatever is left of it. -/
theorem applyRanges_spec {res : Response} (h : Silent res) {boundary : Bytes}
    (hboundary : (10 : UInt8) ∉ boundary) (req : Request) :
    ((applyRanges boundary req res).status = res.status ∨
      (applyRanges boundary req res).status = 416) ∧
    (Silent (applyRanges boundary req res) ∧ (applyRanges boundary req res).body = [] ∨
      Framed (applyRanges boundary req res)) := by
  have hsame : (setMultipart boundary req res).body = res.body ∧
      (setMultipart boundary req res).status = res.status := by
    unfold setMultipart
    split_ifs <;> exact ⟨rfl, rfl⟩
  have hmulti := h.setMultipart hboundary req
  unfold applyRanges
  extract_lets contentType res₁ res₂
  split_ifs with hbody
  · exact ⟨.inl hsame.2, .inl ⟨hmulti, hbody⟩⟩
  · obtain ⟨val, body, status, hstatus, heq⟩ := cutRanges_cases boundary contentType req res₁
    have hsilent : Silent res₂ := by
      obtain heq | heq := heq <;> unfold res₂ <;> rw [heq]
      · exact hmulti
      · exact hmulti.setHeader (otherKeys _ (by simp)) val
    refine ⟨?_, .inr hsilent.framed⟩
    rw [status_setHeader, ← hsame.2]
    obtain heq | heq := heq <;> unfold res₂ <;> rw [heq] <;> exact hstatus

/-- Without ranges, the body stays whole. -/
theorem applyRanges_nil {req : Request} (h : req.ranges = []) (boundary : Bytes) (res : Response) :
    (applyRanges boundary req res).status = res.status ∧
      (applyRanges boundary req res).body = res.body := by
  have hwhole : ∀ contentType, cutRanges boundary contentType req res = res := fun contentType => by
    rw [cutRanges, h]
  have hsingle : setMultipart boundary req res = res := by
    rw [setMultipart, h]
    rfl
  rw [applyRanges, hsingle]
  split_ifs
  · exact ⟨rfl, rfl⟩
  · simp [hwhole]

/-- Where no ranges are asked for, a response is finished as it is. -/
theorem finish_returned {req : Request} (hranges : req.ranges = []) (boundary : Bytes)
    {res : Response} (hstatus : res.status ≠ -1) :
    ∃ res', finish boundary req (.returned res) = some res' ∧ res'.status = res.status ∧
      res'.body = res.body := by
  have hfinal : finalStatus req res.status = res.status := if_neg hstatus
  obtain ⟨hstatus', hbody⟩ := applyRanges_nil hranges boundary
    { res with status := finalStatus req res.status }
  exact ⟨_, rfl, hstatus'.trans hfinal, hbody⟩

/-- What a handler comes to, is written. -/
theorem conclude_ok {boundary : Bytes} {closeConnection closed : Bool} {head full : Request}
    {handler : Handler} {res : Response} (h : finish boundary full (handler full) = some res) :
    (conclude boundary closeConnection closed head (.ok (full, handler))).handled = some full ∧
      (conclude boundary closeConnection closed head (.ok (full, handler))).written =
        interim head ++ writeResponse closeConnection full res := by
  rw [conclude, h]
  exact ⟨rfl, rfl⟩

/-! ## Answers -/

/-- **Bytes that are read back as a response**, whatever arrives behind them. -/
def ReadsBack (bytes : Bytes) (status : ℤ) (body : Bytes) : Prop :=
  ∀ strm more, flat strm = bytes.map some ++ more →
    ∃ headers, Yields (readResponse strm) (some ⟨status, headers, body⟩) more

/-- A status that is written with three digits, and goes with a body. -/
def BodyStatus (status : ℤ) : Prop := 100 < status ∧ status < 1000 ∧ status ≠ 204

instance (status : ℤ) : Decidable (BodyStatus status) := inferInstanceAs (Decidable (_ ∧ _))

/-- A response is read behind one that only says to go on. -/
theorem readResponse_interim (req : Request) {bytes : Bytes} {strm : Incoming UInt8}
    {more : List (Option UInt8)} (h : flat strm = (interim req ++ bytes).map some ++ more) :
    ∃ rest, flat rest = bytes.map some ++ more ∧ readResponse strm = readResponse rest := by
  rw [interim] at h
  split_ifs at h
  · have hlines : flat strm = (ascii "HTTP/1.1 100 Continue" ++ crlf).map some ++
        (crlf.map some ++ (bytes.map some ++ more)) := by
      rw [h]
      simp
    obtain ⟨behind, hline, hbehind⟩ :=
      (yields_getline.2 (hlines ▸ firstLine_crlf (by decide) _)).exists
    obtain ⟨rest, hblank, hrest⟩ := (yields_getline.2 (hbehind ▸ firstLine_blank _)).exists
    have hstatus : parseStatusLine (ascii "HTTP/1.1 100 Continue" ++ crlf) = some 100 := by decide
    have hround : responseLineRound.read () strm = (.inl (), rest) := by
      simp only [responseLineRound, hline, hstatus, hblank, not_true, if_false, ne_eq]
    refine ⟨rest, hrest, ?_⟩
    rw [readResponse, readResponseLine, Round.loop_inl hround, ← readResponseLine, ← readResponse]
  · exact ⟨strm, h, rfl⟩

theorem ReadsBack.interim {bytes body : Bytes} {status : ℤ} (h : ReadsBack bytes status body)
    (req : Request) : ReadsBack (interim req ++ bytes) status body := by
  intro strm more hflat
  obtain ⟨rest, hrest, hread⟩ := readResponse_interim req hflat
  rw [hread]
  exact h rest more hrest

theorem readsBack_of_framed {closeConnection : Bool} {req : Request} {res : Response}
    (h : Framed (completeHeaders closeConnection req res)) (hlen : res.body.length ≤ ulongMax)
    (hstatus : BodyStatus res.status) (hmethod : req.method ≠ ascii "HEAD") :
    ReadsBack (writeResponse closeConnection req res) res.status res.body := by
  intro strm more hflat
  obtain ⟨n, hn⟩ := Int.eq_ofNat_of_zero_le (show 0 ≤ res.status by have := hstatus.1; omega)
  obtain ⟨hlo, hhi, hcontent⟩ := hstatus
  rw [hn] at hlo hhi hcontent ⊢
  rw [writeResponse, if_neg hmethod, status_completeHeaders, body_completeHeaders, hn,
    ← body_completeHeaders closeConnection req res] at hflat
  have hread := yields_readResponse h (by rwa [body_completeHeaders]) (by omega) (by omega)
    (by omega) hflat
  rw [body_completeHeaders] at hread
  exact ⟨_, hread⟩

/-- **What a handler returns is read back**, whatever ranges of it are asked for. -/
theorem readsBack_of_returned {boundary : Bytes} (hboundary : (10 : UInt8) ∉ boundary)
    (closeConnection : Bool) (head : Request) {req : Request} (hmethod : req.method ≠ ascii "HEAD")
    {res res' : Response} (hres : Silent res) (hstatus : res.status = -1 ∨ BodyStatus res.status)
    (hfinish : finish boundary req (.returned res) = some res')
    (hlen : res'.body.length ≤ ulongMax) :
    ReadsBack (interim head ++ writeResponse closeConnection req res') res'.status res'.body := by
  obtain rfl := Option.some.inj hfinish
  have hset : Silent { res with status := finalStatus req res.status } := hres
  obtain ⟨hkept, hends⟩ := applyRanges_spec hset hboundary req
  refine ReadsBack.interim (readsBack_of_framed ?_ hlen ?_ hmethod) head
  · obtain ⟨hsilent, hnil⟩ | hframed := hends
    · exact hsilent.completeHeaders_nil hnil _ _
    · exact hframed.completeHeaders _ _
  · have hok : BodyStatus (finalStatus req res.status) := by
      rw [finalStatus]
      split_ifs with hopen
      · decide
      · decide
      · exact hstatus.resolve_left hopen
    obtain heq | heq := hkept <;> rw [heq]
    · exact hok
    · decide

/-- A body that is said nothing of goes on as long as anything arrives: it is not read up to a
pause. -/
theorem not_readsBack_of_silent {closeConnection : Bool} (head : Request) {req : Request}
    {res : Response} (h : Silent (completeHeaders closeConnection req res))
    (hstatus : BodyStatus res.status) (hmethod : req.method ≠ ascii "HEAD") :
    ¬ ReadsBack (interim head ++ writeResponse closeConnection req res) res.status res.body := by
  intro hreads
  obtain ⟨n, hn⟩ := Int.eq_ofNat_of_zero_le (show 0 ≤ res.status by have := hstatus.1; omega)
  obtain ⟨hlo, hhi, hcontent⟩ := hstatus
  rw [hn] at hlo hhi hcontent
  have hplain := fun field hmem => (h field hmem).1
  have hclean := fun field hmem => (hplain field hmem).toClean
  obtain ⟨strm, hflat⟩ : ∃ strm : Incoming UInt8,
      flat strm = (interim head ++ writeResponse closeConnection req res).map some ++ [none] :=
    ⟨putBack _ [.pause], flat_putBack _ _⟩
  obtain ⟨headers, hyields, -⟩ := hreads strm _ hflat
  obtain ⟨behind, hbehind, hskip⟩ := readResponse_interim head hflat
  rw [writeResponse, if_neg hmethod, status_completeHeaders, body_completeHeaders, hn,
    List.map_append, List.append_assoc] at hbehind
  obtain ⟨rest, hrest, hread⟩ := readResponse_eq (by omega) (by omega) hclean hbehind
  obtain ⟨hchunked, hsupported⟩ := plain_reread hplain
  have hhas := hasHeader_reread hclean fun field hmem => (h field hmem).2
  have hnone := (receiveAll_eq recvBufsiz_pos joins_append ([] : Bytes) rest).1
  rw [hrest, toEnd_map_some] at hnone
  rcases hreceive : readContentWithoutLength (fun body piece => some (body ++ piece)) [] rest with
    ⟨read, last⟩
  rw [← readContentWithoutLength, hreceive] at hnone
  obtain rfl : read = none := hnone
  rw [hskip, hread, readResponseBody, if_neg hcontent] at hyields
  simp only [readContent, receiveContent, hsupported, hchunked, hhas, hreceive,
    Bool.false_eq_true, if_false, not_false_iff, if_true] at hyields
  cases hyields

/-- **What a handler left that threw is read back** if and only if there is no body. -/
theorem readsBack_of_threw_iff {boundary what : Bytes} (closeConnection : Bool) (head : Request)
    {req : Request} (hmethod : req.method ≠ ascii "HEAD") {res res' : Response} (hres : Silent res)
    (hfinish : finish boundary req (.threw what res) = some res')
    (hlen : res'.body.length ≤ ulongMax) :
    ReadsBack (interim head ++ writeResponse closeConnection req res') res'.status res'.body ↔
      res'.body = [] := by
  obtain rfl := Option.some.inj hfinish
  have hset : Silent { res with status := 500 } := hres
  have hsilent := hset.setHeader (otherKeys "EXCEPTION_WHAT" (by simp)) what
  have hok : BodyStatus 500 := by decide
  have hstatus :
      BodyStatus ({ res with status := 500 }.setHeader "EXCEPTION_WHAT" what).status := by
    rwa [status_setHeader]
  constructor
  · intro hreads
    by_contra hne
    exact not_readsBack_of_silent head (hsilent.completeHeaders_ne_nil hne _ _) hstatus hmethod
      hreads
  · intro hnil
    exact ReadsBack.interim
      (readsBack_of_framed (hsilent.completeHeaders_nil hnil _ _) hlen hstatus hmethod) head

/-! ## What a client reads -/

/-- A reply whose headers leave the length to the server. -/
def Reply.Ordinary : Reply → Prop
  | .returned res => Silent res ∧ (res.status = -1 ∨ BodyStatus res.status)
  | .threw _ res => Silent res
  | .undefined => True

/-- **An answer says where it ends**, unless its handler threw and had set a body: but for that, a
client on the same connection reads the answer and no further. -/
theorem concluded_readsBack_iff {boundary : Bytes} (hboundary : (10 : UInt8) ∉ boundary)
    (closeConnection closed : Bool) (head : Request) {full : Request}
    (hmethod : full.method ≠ ascii "HEAD") {handler : Handler} (hreply : (handler full).Ordinary)
    {res : Response} (hfinish : finish boundary full (handler full) = some res)
    (hlen : res.body.length ≤ ulongMax) :
    ReadsBack (conclude boundary closeConnection closed head (.ok (full, handler))).written
      res.status res.body ↔ (∃ left, handler full = .returned left) ∨ res.body = [] := by
  rw [(conclude_ok hfinish).2]
  cases hcase : handler full with
  | returned left =>
    rw [hcase] at hreply hfinish
    exact iff_of_true
      (readsBack_of_returned hboundary closeConnection head hmethod hreply.1 hreply.2 hfinish hlen)
      (.inl ⟨left, rfl⟩)
  | threw what left =>
    rw [hcase] at hreply hfinish
    rw [readsBack_of_threw_iff closeConnection head hmethod hreply hfinish hlen]
    simp
  | undefined =>
    rw [hcase] at hfinish
    cases hfinish

/-- `/hello`. -/
theorem concluded_readsBack_iff_hello :
    let hello : Handler := fun _ =>
      .returned (Response.empty.setContent (ascii "Hello World!") "text/plain")
    let full := { Request.empty with method := ascii "GET" }
    let res := applyRanges [] full
      { Response.empty.setContent (ascii "Hello World!") "text/plain" with status := 200 }
    ReadsBack (conclude [] false false full (.ok (full, hello))).written res.status res.body ↔
      (∃ left, hello full = .returned left) ∨ res.body = [] := by
  intro hello full res
  have hsilent : Silent (Response.empty.setContent (ascii "Hello World!") "text/plain") :=
    (silent_empty (-1)).setContent _ _
  have hreply : (hello full).Ordinary := ⟨hsilent, .inl (status_setContent _ _ _)⟩
  refine concluded_readsBack_iff List.not_mem_nil false false full (show ascii "GET" ≠ _ by decide)
    hreply rfl ?_
  rw [(applyRanges_nil rfl [] _).2]
  decide

end Http
