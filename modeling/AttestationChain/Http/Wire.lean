import AttestationChain.Http.Content
import AttestationChain.Http.Server

/-!
# Http/Wire — requests, as a client sends them

A client puts a request on the wire: its line, its fields, and a content of a length or in chunks.
The server reads the fields so sent, and the content where it fits them, to its last byte and no
further.
-/

namespace Http

open Segments

/-! ## Lines and fields -/

/-- A word of a request line. -/
def IsWord (s : Bytes) : Prop := s ≠ [] ∧ ∀ c ∈ s, c ≠ 0 ∧ c ≠ 9 ∧ c ≠ 10 ∧ c ≠ 32

instance (s : Bytes) : Decidable (IsWord s) :=
  decidable_of_iff (s ≠ [] ∧ s.all fun c => c ≠ 0 ∧ c ≠ 9 ∧ c ≠ 10 ∧ c ≠ 32)
    (and_congr_right fun _ => by simp)

/-- A field of a request: its value has no blanks around it. -/
structure Field where
  key : Bytes
  val : Bytes
  key_line : (10 : UInt8) ∉ key ∧ (58 : UInt8) ∉ key
  val_line : (10 : UInt8) ∉ val
  val_ne : val ≠ []
  val_trimmed : trim val = val

/-- The line of a field, without its end. -/
def Field.text (field : Field) : Bytes := field.key ++ ascii ": " ++ field.val

/-- A field as the server has it. -/
def Field.read (field : Field) : Bytes × Bytes := (field.key, decodeUrl field.val)

/-- What is left as it is, has no blanks on either side. -/
theorem trim_eq_self {s : Bytes} :
    trim s = s ↔ s.dropWhile isSpaceOrTab = s ∧ s.rdropWhile isSpaceOrTab = s := by
  refine ⟨fun h => ?_, fun ⟨hleft, hright⟩ => by rw [trim, hleft, hright]⟩
  have hle := (List.rdropWhile_prefix isSpaceOrTab (s.dropWhile isSpaceOrTab)).length_le
  rw [← trim, h] at hle
  have hleft := (List.dropWhile_suffix isSpaceOrTab).eq_of_length_le hle
  rw [trim, hleft] at h
  exact ⟨hleft, h⟩

theorem trim_unblank {s : Bytes} (h : ∀ c ∈ s, ¬ isSpaceOrTab c) : trim s = s :=
  trim_eq_self.2 ⟨List.dropWhile_eq_self_iff.2 fun hpos => h _ (List.getElem_mem hpos),
    List.rdropWhile_eq_self_iff.2 fun hne => h _ (List.getLast_mem hne)⟩

theorem trim_word {s : Bytes} (h : IsWord s) : trim s = s :=
  trim_unblank fun c hc => by simp [isSpaceOrTab, (h.2 c hc).2.1, (h.2 c hc).2.2.2]

theorem split_words {a b c : Bytes} (ha : IsWord a) (hb : IsWord b) (hc : IsWord c) :
    split 32 (a ++ 32 :: (b ++ 32 :: c)) = [a, b, c] := by
  have hblank : ∀ {s}, IsWord s → (32 : UInt8) ∉ s := fun h hmem => (h.2 _ hmem).2.2.2 rfl
  rw [split, List.splitOn_append_cons_self_of_not_mem (hblank ha),
    List.splitOn_append_cons_self_of_not_mem (hblank hb), List.splitOn_eq_singleton (hblank hc)]
  simp [trim_word ha, trim_word hb, trim_word hc, ha.1, hb.1, hc.1]

/-- **A field is read off its line.** -/
theorem parseHeader_text (field : Field) : parseHeader field.text = some field.read := by
  obtain ⟨hleft, hright⟩ := trim_eq_self.1 field.val_trimmed
  have htext : field.text = field.key ++ 58 :: 32 :: field.val := by
    rw [Field.text, List.append_assoc]
    rfl
  have hkey : ∀ c ∈ field.key, decide (c ≠ 58) = true := fun c hc =>
    decide_eq_true fun h => field.key_line.2 (h ▸ hc)
  have hlast : field.text.rdropWhile isSpaceOrTab = field.text := by
    refine List.rdropWhile_eq_self_iff.2 fun hne => ?_
    rw [List.getLast_congr _ (by simp [field.val_ne]) (Field.text.eq_1 field),
      List.getLast_append_of_ne_nil _ field.val_ne]
    exact List.rdropWhile_eq_self_iff.1 hright field.val_ne
  have hval : (field.text.dropWhile (· ≠ 58)).tail.dropWhile isSpaceOrTab = field.val := by
    rw [htext, List.dropWhile_append_of_pos hkey]
    simp [isSpaceOrTab, hleft]
  have htake : field.text.takeWhile (· ≠ 58) = field.key := by
    rw [htext, List.takeWhile_append_of_pos hkey]
    simp
  simp only [parseHeader, hlast, hval, htake, if_neg field.val_ne, Field.read]

theorem not_mem_text (field : Field) : (10 : UInt8) ∉ field.text := by
  rw [Field.text, List.mem_append, List.mem_append]
  rintro ((hkey | hsep) | hval)
  · exact field.key_line.1 hkey
  · exact absurd hsep (by decide)
  · exact field.val_line hval

theorem endWithCrlf_append (line : Bytes) : endWithCrlf (line ++ crlf) = true :=
  List.isSuffixOf_iff_suffix.2 (List.suffix_append line crlf)

theorem firstLine_blank (more : List (Option UInt8)) :
    FirstLine (crlf.map some ++ more) crlf more :=
  @firstLine_crlf [] List.not_mem_nil more

/-- **Headers are read** line by line, up to the empty one. -/
theorem yields_readHeaders {texts : List Bytes}
    (htexts : ∀ text ∈ texts, text ≠ [] ∧ (10 : UInt8) ∉ text) {headers : Headers}
    {strm : Incoming UInt8} {more : List (Option UInt8)}
    (h : flat strm = (texts.flatMap (· ++ crlf) ++ crlf).map some ++ more) :
    Yields (readHeaders headers strm) (true, headers ++ texts.filterMap parseHeader) more := by
  induction texts generalizing headers strm with
  | nil =>
    obtain ⟨rest, hread, rfl⟩ := (yields_getline.2 (h ▸ firstLine_blank more)).exists
    have hend : endWithCrlf crlf = true := endWithCrlf_append []
    rw [readHeaders, Round.loop_inr (by simp only [headersRound, hread, hend]; rfl)]
    exact ⟨by simp, rfl⟩
  | cons text texts ih =>
    obtain ⟨⟨hne, htext⟩, htexts⟩ := List.forall_mem_cons.1 htexts
    rw [List.flatMap_cons, List.append_assoc, List.map_append, List.append_assoc] at h
    obtain ⟨rest, hread, hrest⟩ := (yields_getline.2 (h ▸ firstLine_crlf htext _)).exists
    have hlong : (text ++ crlf).length ≠ 2 := by
      have := List.length_pos_iff.2 hne
      rw [List.length_append, crlf, List.length_cons, List.length_singleton]
      omega
    have htake : (text ++ crlf).take ((text ++ crlf).length - 2) = text := by
      simp [crlf]
    have hround : headersRound.read headers strm =
        (.inl (headers ++ (parseHeader text).toList), rest) := by
      simp only [headersRound, hread, endWithCrlf_append, not_true, if_false, if_neg hlong, htake]
    have hheaders : Yields (readHeaders (headers ++ (parseHeader text).toList) rest) _ more :=
      ih htexts hrest
    have hfilter : (text :: texts).filterMap parseHeader =
        (parseHeader text).toList ++ texts.filterMap parseHeader := by
      rw [List.filterMap_cons]
      cases parseHeader text <;> rfl
    rw [readHeaders, Round.loop_inl hround, hfilter, ← List.append_assoc]
    exact hheaders

/-- **Fields are read** as they were sent. -/
theorem yields_readFields (fields : List Field) {strm : Incoming UInt8}
    {more : List (Option UInt8)}
    (h : flat strm = (fields.flatMap (·.text ++ crlf) ++ crlf).map some ++ more) :
    Yields (readHeaders [] strm) (true, fields.map Field.read) more := by
  have htexts : ∀ text ∈ fields.map Field.text, text ≠ [] ∧ (10 : UInt8) ∉ text := by
    intro text htext
    obtain ⟨field, -, rfl⟩ := List.mem_map.1 htext
    exact ⟨by simp [Field.text, field.val_ne], not_mem_text field⟩
  have hread : (fields.map Field.text).filterMap parseHeader = fields.map Field.read := by
    rw [List.filterMap_map, ← List.filterMap_eq_map]
    exact List.filterMap_congr fun field _ => parseHeader_text field
  rw [← hread]
  exact yields_readHeaders htexts (by rwa [List.flatMap_map])

/-! ## Contents -/

/-- A chunk: a line with its length, and its data. -/
structure Chunk where
  size : Bytes
  data : Bytes
  size_line : (10 : UInt8) ∉ size
  length_eq : chunkLength (size ++ crlf) = some data.length
  data_ne : data ≠ []

def Chunk.bytes (chunk : Chunk) : Bytes := chunk.size ++ crlf ++ chunk.data ++ crlf

/-- The chunk behind the last. -/
structure LastChunk where
  size : Bytes
  size_line : (10 : UInt8) ∉ size
  length_eq : chunkLength (size ++ crlf) = some 0

def LastChunk.bytes (last : LastChunk) : Bytes := last.size ++ crlf ++ crlf

/-- How a client delimits a content. -/
inductive Content
  | none
  | length (body : Bytes)
  | chunked (chunks : List Chunk) (last : LastChunk)

namespace Content

def bytes : Content → Bytes
  | .none => []
  | .length body => body
  | .chunked chunks last => chunks.flatMap Chunk.bytes ++ last.bytes

def body : Content → Bytes
  | .none => []
  | .length body => body
  | .chunked chunks _ => chunks.flatMap Chunk.data

end Content

/-- **A request takes a content**, and it is none that is unpacked or taken apart. -/
structure TakesContent (req : Request) : Prop where
  expects : expectContent req = true
  plain : isMultipartFormData req = false
  supported : unsupported (getHeaderValue req.headers "Content-Encoding") = false

/-- **A content fits a request** if it has one as its method says, delimited as its headers say. -/
def Content.Fits (req : Request) : Content → Prop
  | .none => expectContent req = false
  | .length body => TakesContent req ∧ isChunkedTransferEncoding req.headers = false ∧
    hasHeader req.headers "Content-Length" = true ∧
    getHeaderNumber req.headers "Content-Length" = body.length
  | .chunked _ _ => TakesContent req ∧ isChunkedTransferEncoding req.headers = true ∧
    req.method ≠ ascii "DELETE"

/-- The ranges of a request have no part in it. -/
theorem Content.Fits.ranged {req : Request} {content : Content} (h : content.Fits req)
    (ranges : List Range) : content.Fits { req with ranges } := by
  cases content with
  | none => exact h
  | length body => exact ⟨⟨h.1.expects, h.1.plain, h.1.supported⟩, h.2⟩
  | chunked chunks last => exact ⟨⟨h.1.expects, h.1.plain, h.1.supported⟩, h.2⟩

/-- **Chunks are chunked.** -/
theorem chunked_bytes (chunks : List Chunk) (last : LastChunk) (more : List (Option UInt8)) :
    Chunked ((Content.chunked chunks last).bytes.map some ++ more)
      (Content.chunked chunks last).body more := by
  induction chunks with
  | nil =>
    have hlast := firstLine_crlf last.size_line (crlf.map some ++ more)
    rw [← List.append_assoc, ← List.map_append] at hlast
    exact .last hlast last.length_eq (firstLine_blank more) rfl
  | cons chunk chunks ih =>
    have hsize := firstLine_crlf chunk.size_line (chunk.data.map some ++ (crlf.map some ++
      ((Content.chunked chunks last).bytes.map some ++ more)))
    have hbytes : (Content.chunked (chunk :: chunks) last).bytes.map some ++ more =
        (chunk.size ++ crlf).map some ++ (chunk.data.map some ++ (crlf.map some ++
          ((Content.chunked chunks last).bytes.map some ++ more))) := by
      simp [Content.bytes, Chunk.bytes]
    rw [← hbytes] at hsize
    exact .chunk chunk.data_ne hsize chunk.length_eq (firstLine_blank _) rfl ih

theorem yields_receiveContent {req : Request} {content : Content} (hfits : content.Fits req)
    (hexpect : expectContent req = true) {strm : Incoming UInt8} {more : List (Option UInt8)}
    (h : flat strm = content.bytes.map some ++ more) :
    Yields (receiveContent req.headers (fun body piece => some (body ++ piece)) [] strm)
      (some content.body) more := by
  cases content with
  | none =>
    rw [Content.Fits, hexpect] at hfits
    cases hfits
  | length body =>
    obtain ⟨-, hchunked, hlength, hnumber⟩ := hfits
    rw [receiveContent, hchunked, hlength, hnumber]
    exact (yields_readContentWithLength joins_append).2 ⟨body, rfl, rfl, h⟩
  | chunked chunks last =>
    obtain ⟨-, hchunked, -⟩ := hfits
    rw [receiveContent, if_pos hchunked]
    exact (readContentChunked_iff joins_append).2 ⟨_, rfl, h ▸ chunked_bytes chunks last more⟩

/-- What takes a content, and fits it, does not skip it. -/
theorem not_skips {req : Request} {content : Content} (hfits : content.Fits req)
    (hexpect : expectContent req = true) :
    TakesContent req ∧
      ¬ (req.method = ascii "DELETE" ∧ ¬ hasHeader req.headers "Content-Length") := by
  cases content with
  | none =>
    rw [Content.Fits, hexpect] at hfits
    cases hfits
  | length body => exact ⟨hfits.1, fun h => h.2 hfits.2.2.1⟩
  | chunked chunks last => exact ⟨hfits.1, fun h => hfits.2.2 h.1⟩

/-- **A content is read** to its end and no further. -/
theorem yields_readContent (srv : Server) {req : Request} {content : Content}
    (hfits : content.Fits req) (hexpect : expectContent req = true) {strm : Incoming UInt8}
    {more : List (Option UInt8)} (h : flat strm = content.bytes.map some ++ more) :
    Yields (srv.readContent req strm) (.ok { req with body := content.body }) more := by
  obtain ⟨htakes, hskips⟩ := not_skips hfits hexpect
  obtain ⟨rest, hread, rfl⟩ := (yields_receiveContent hfits hexpect h).exists
  simp only [Server.readContent, htakes.plain, Bool.false_eq_true, if_false, if_neg hskips,
    readContent, htakes.supported, hread]
  exact ⟨rfl, rfl⟩

/-- **A request is routed** with its content. -/
theorem yields_routing (srv : Server) {req : Request} {content : Content}
    (hfits : content.Fits req) (hbody : req.body = []) {strm : Incoming UInt8}
    {more : List (Option UInt8)} (h : flat strm = content.bytes.map some ++ more) :
    Yields (srv.routing req strm)
      ((srv.handlerOf req).map fun handler => ({ req with body := content.body }, handler))
      more := by
  by_cases hexpect : expectContent req = true
  · obtain ⟨rest, hread, rfl⟩ := (yields_readContent srv hfits hexpect h).exists
    rw [Server.routing, if_pos hexpect, hread]
    exact ⟨rfl, rfl⟩
  · rw [Server.routing, if_neg hexpect]
    cases content with
    | none => exact ⟨by rw [Content.body, ← hbody], h⟩
    | length body => exact absurd hfits.1.expects hexpect
    | chunked chunks last => exact absurd hfits.1.expects hexpect

end Http
