import AttestationChain.Http.Text
import AttestationChain.Machinery.Segments

/-!
# Http/Stream — what the server reads off a connection

A line, the headers, and a content: in chunks, of a length, or up to the end of the connection.  The
content goes to a receiver piece by piece, as it arrives.  None of it depends on the segments
(`alike_readContent`), where the receiver joins its pieces.
-/

namespace Http

open Segments

variable {σ : Type}

/-! ## Lines -/

/-- The end of a line. -/
def endsLine (c : UInt8) : Bool := c = 10

/-- `getline`. -/
def getline (strm : Incoming UInt8) : Option Bytes × Incoming UInt8 := receiveUntil endsLine [] strm

def crlf : Bytes := [13, 10]

/-- `end_with_crlf`. -/
def endWithCrlf (line : Bytes) : Bool := crlf.isSuffixOf line

theorem alike_getline {strm strm' : Incoming UInt8} (h : flat strm = flat strm') :
    Alike (getline strm) (getline strm') := alike_receiveUntil _ _ h

/-- **The first line** of what arrives, its end included, and what is behind it. -/
def FirstLine (strm : List (Option UInt8)) (line : Bytes) (more : List (Option UInt8)) : Prop :=
  line ≠ [] ∧ strm = line.map some ++ more ∧ Ended endsLine line more

/-- **The line that is read** is the first. -/
theorem yields_getline {strm : Incoming UInt8} {line : Bytes} {more : List (Option UInt8)} :
    Yields (getline strm) (some line) more ↔ FirstLine (flat strm) line more :=
  yields_receiveUntil

/-- A text without a line break is a line, when one follows. -/
theorem firstLine_crlf {line : Bytes} (hline : (10 : UInt8) ∉ line) (more : List (Option UInt8)) :
    FirstLine ((line ++ crlf).map some ++ more) (line ++ crlf) more := by
  refine ⟨by simp [crlf], rfl, ?_⟩
  rw [crlf, ← List.singleton_append, ← List.append_assoc]
  refine ended_append rfl (fun b hb => decide_eq_false fun h10 => ?_) more
  subst h10
  exact hline (by simpa using hb)

/-! ## Headers -/

/-- `Headers`: the fields, of those with one key the first that came first. -/
abbrev Headers := List (Bytes × Bytes)

/-- Keys are compared without their case. -/
def sameKey (key key' : Bytes) : Bool := key.map Hexadecimal.lower = key'.map Hexadecimal.lower

/-- `has_header`. -/
def hasHeader (headers : Headers) (key : String) : Bool := headers.any (sameKey (ascii key) ·.1)

/-- `get_header_value`: the first value, up to its first NUL. -/
def getHeaderValue (headers : Headers) (key : String) : Bytes :=
  ((headers.find? (sameKey (ascii key) ·.1)).map fun field => cstr field.2).getD []

/-- `get_header_value<uint64_t>`. -/
def getHeaderNumber (headers : Headers) (key : String) : ℕ :=
  (strtoul 10 (getHeaderValue headers key)).getD 0

/-- `parse_header`: the field in a line without its end, if its value is not empty. -/
def parseHeader (line : Bytes) : Option (Bytes × Bytes) :=
  let line := line.rdropWhile isSpaceOrTab
  let value := (line.dropWhile (· ≠ 58)).tail.dropWhile isSpaceOrTab
  if value = [] then none else some (line.takeWhile (· ≠ 58), decodeUrl value)

/-- One line of `read_headers`. -/
def headersRound : Round UInt8 Headers (Bool × Headers) where
  read := fun headers strm =>
    match getline strm with
    | (none, rest) => (.inr (false, headers), rest)
    | (some line, rest) =>
      -- A line that does not end as one is skipped.
      if ¬ endWithCrlf line then (.inl headers, rest)
      else if line.length = 2 then (.inr (true, headers), rest)
      else (.inl (headers ++ (parseHeader (line.take (line.length - 2))).toList), rest)
  length_read := by
    intro headers headers' strm rest h
    split at h
    · cases h
    · next hline =>
      split_ifs at h <;> cases h <;> exact length_receiveUntil hline

/-- `read_headers`: whether they came to their end, and what was read of them. -/
def readHeaders (headers : Headers) (strm : Incoming UInt8) : (Bool × Headers) × Incoming UInt8 :=
  headersRound.loop headers strm

theorem alike_readHeaders (headers : Headers) {strm strm' : Incoming UInt8}
    (h : flat strm = flat strm') :
    Alike (readHeaders headers strm) (readHeaders headers strm') := by
  refine Round.alike_loop (fun headers strm strm' h => ?_) headers h
  obtain ⟨_ | line, rest, rest', hread, hread', hrest⟩ := (alike_getline h).exists <;>
    simp only [headersRound, hread, hread']
  · exact ⟨rfl, hrest⟩
  · split_ifs <;> exact ⟨rfl, hrest⟩

/-! ## Contents -/

/-- `CPPHTTPLIB_RECV_BUFSIZ`. -/
def recvBufsiz : ℕ := 4096

theorem recvBufsiz_pos : 0 < recvBufsiz := Nat.succ_pos _

/-- `read_content_with_length`. -/
def readContentWithLength (out : σ → Bytes → Option σ) (len : ℕ) (s : σ)
    (strm : Incoming UInt8) : Option σ × Incoming UInt8 :=
  receive recvBufsiz recvBufsiz_pos out len s strm

theorem yields_readContentWithLength {f : σ → Bytes → σ} (hf : Joins f) {len : ℕ} {s s' : σ}
    {strm : Incoming UInt8} {more : List (Option UInt8)} :
    Yields (readContentWithLength (fun s piece => some (f s piece)) len s strm) (some s') more ↔
      ∃ piece : Bytes, piece.length = len ∧ f s piece = s' ∧ flat strm = piece.map some ++ more :=
  yields_receive recvBufsiz_pos hf

theorem length_readContentWithLength {out : σ → Bytes → Option σ} {len : ℕ} {s : σ} {r : Option σ}
    {strm rest : Incoming UInt8} (h : readContentWithLength out len s strm = (r, rest)) :
    (flat rest).length ≤ (flat strm).length := by
  have hle := length_receive_le recvBufsiz_pos out len s strm
  rwa [← readContentWithLength, h] at hle

/-- `read_content_without_length`. -/
def readContentWithoutLength (out : σ → Bytes → Option σ) (s : σ) (strm : Incoming UInt8) :
    Option σ × Incoming UInt8 :=
  receiveAll recvBufsiz recvBufsiz_pos out s strm

/-- The length at the start of a chunk; `ULONG_MAX` is none. -/
def chunkLength (line : Bytes) : Option ℕ := (strtoul 16 (cstr line)).filter (· ≠ ulongMax)

/-- One chunk of `read_content_chunked`: a line with its length, its data, and an empty line. -/
def chunkRound (out : σ → Bytes → Option σ) : Round UInt8 σ (Option σ) where
  read := fun s strm =>
    match getline strm with
    | (none, rest) => (.inr none, rest)
    | (some line, rest) =>
      match chunkLength line with
      | none => (.inr none, rest)
      | some chunkLen =>
        if chunkLen = 0 then
          -- `Reader terminator after chunks`
          match getline rest with
          | (line, rest) => (.inr (if line.map cstr = some crlf then some s else none), rest)
        else
          match readContentWithLength out chunkLen s rest with
          | (none, rest) => (.inr none, rest)
          | (some s, rest) =>
            match getline rest with
            | (none, rest) => (.inr none, rest)
            | (some line, rest) =>
              -- Behind data that is not followed by an empty line, the content is over.
              if cstr line = crlf then (.inl s, rest) else (.inr (some s), rest)
  length_read := by
    intro s s' strm rest h
    split at h
    · cases h
    · next hsize =>
      split at h
      · cases h
      · split at h
        · cases h
        · split at h
          · cases h
          · next hdata =>
            split at h
            · cases h
            · next hend =>
              split_ifs at h <;> cases h
              have hle := length_readContentWithLength hdata
              exact ((length_receiveUntil hend).trans_le hle).trans (length_receiveUntil hsize)

/-- `read_content_chunked`. -/
def readContentChunked (out : σ → Bytes → Option σ) (s : σ) (strm : Incoming UInt8) :
    Option σ × Incoming UInt8 :=
  (chunkRound out).loop s strm

/-- `is_chunked_transfer_encoding`. -/
def isChunkedTransferEncoding (headers : Headers) : Bool :=
  sameCase (getHeaderValue headers "Transfer-Encoding") (ascii "chunked")

/-- The content encodings that this build of the server does not support. -/
def unsupported (encoding : Bytes) : Bool :=
  encoding = ascii "gzip" ∨ encoding = ascii "deflate" ∨ ascii "br" <:+: encoding

/-- The part of `read_content` that reads. -/
def receiveContent (headers : Headers) (out : σ → Bytes → Option σ) (s : σ)
    (strm : Incoming UInt8) : Option σ × Incoming UInt8 :=
  if isChunkedTransferEncoding headers then readContentChunked out s strm
  else if ¬ hasHeader headers "Content-Length" then readContentWithoutLength out s strm
  else readContentWithLength out (getHeaderNumber headers "Content-Length") s strm

/-- `read_content`: what the receiver made of the content, or the status it failed with. -/
def readContent (headers : Headers) (out : σ → Bytes → Option σ) (s : σ)
    (strm : Incoming UInt8) : Except ℤ σ × Incoming UInt8 :=
  if unsupported (getHeaderValue headers "Content-Encoding") then (.error 415, strm)
  else
    match receiveContent headers out s strm with
    | (none, rest) => (.error 400, rest)
    | (some s, rest) => (.ok s, rest)

end Http
