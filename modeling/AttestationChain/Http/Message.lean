import AttestationChain.Http.Stream
import Mathlib.Data.List.Sort

/-!
# Http/Message — requests and responses

A request line is read into a request, and a response is written: its line, its headers, and its
body, or the ranges of the body that the request asks for.
-/

namespace Http

/-! ## Ranges -/

/-- `Range`: the first byte and the last, where they are given. -/
structure Range where
  first : Option ℕ
  last : Option ℕ
  deriving DecidableEq

/-- Digits, a dash and digits. -/
def splitRange (s : Bytes) : Option (Bytes × Bytes) :=
  let last := s.dropWhile (isDigit 10)
  if last.head? = some 45 ∧ last.tail.all (isDigit 10) then
    some (s.takeWhile (isDigit 10), last.tail)
  else none

/-- A bound of a range, which may be missing; `std::stoll` throws where it is too large. -/
def rangeBound (ds : Bytes) : Option (Option ℕ) :=
  if ds = [] then some none
  else if digitsValue 10 ds < 2 ^ 63 then some (some (digitsValue 10 ds))
  else none

/-- A range does not end before it starts. -/
def Range.valid (r : Range) : Bool := r.first.all fun first => r.last.all (first ≤ ·)

/-- `parse_range_header`. -/
def parseRangeHeader (s : Bytes) : Option (List Range) := do
  guard (ascii "bytes=" <+: s)
  let parts := (s.drop 6).splitOn 44
  -- Blanks may stand before any range but the first.
  let texts ← (parts.take 1 ++ (parts.drop 1).map (·.dropWhile isSpace)).mapM splitRange
  let ranges ← texts.mapM fun (first, last) => do
    return (⟨← rangeBound first, ← rangeBound last⟩ : Range)
  guard (ranges.all Range.valid)
  return ranges

/-- A `size_t`. -/
def sizeT (n : ℤ) : ℕ := (n % 2 ^ 64).toNat

/-- `get_range_offset_and_length`. -/
def rangeOffsetAndLength (r : Range) (contentLength : ℕ) : ℕ × ℕ :=
  if r.first = none ∧ r.last = none then (0, contentLength)
  else
    let slen : ℤ := contentLength
    let first := r.first.elim (max 0 (slen - (r.last.getD 0 : ℕ))) Int.ofNat
    let last := if r.first = none then slen - 1 else r.last.elim (slen - 1) Int.ofNat
    (sizeT first, sizeT (last - first + 1))

/-! ## Requests -/

/-- `Request`: what is read of its line, its headers and its body. -/
structure Request where
  method : Bytes
  target : Bytes
  version : Bytes
  path : Bytes
  headers : Headers
  ranges : List Range
  body : Bytes

def Request.empty : Request := ⟨[], [], [], [], [], [], []⟩

def methods : List Bytes :=
  ["GET", "HEAD", "POST", "PUT", "DELETE", "CONNECT", "OPTIONS", "TRACE", "PATCH", "PRI"].map ascii

/-- `parse_request_line`: whether it is one, and what was read of it. -/
def parseRequestLine (line : Bytes) : Bool × Request :=
  let s := cstr line
  if ¬ endWithCrlf s then (false, .empty)
  else
    let parts := split 32 (s.take (s.length - 2))
    let req : Request :=
      { Request.empty with
        method := parts.getD 0 []
        target := parts.getD 1 []
        version := parts.getD 2 [] }
    if parts.length ≠ 3 then (false, req)
    else if req.method ∉ methods then (false, req)
    else if req.version ≠ ascii "HTTP/1.1" ∧ req.version ≠ ascii "HTTP/1.0" then (false, req)
    else
      let parts := split 63 req.target
      (parts.length ≤ 2, { req with path := decodeUrl (parts.getD 0 []) })

/-- `has_crlf`. -/
def hasCrlf (s : Bytes) : Bool := (cstr s).any fun c => c = 13 ∨ c = 10

/-- `set_header`, of a request: behind the headers that are there. -/
def Request.setHeader (req : Request) (key : String) (val : Bytes) : Request :=
  if hasCrlf (ascii key) ∨ hasCrlf val then req
  else { req with headers := req.headers ++ [(ascii key, val)] }

/-- Whether a request is of one of some methods. -/
def Request.isOf (req : Request) (methods : List String) : Bool := req.method ∈ methods.map ascii

/-- `expect_content`. -/
def expectContent (req : Request) : Bool := req.isOf ["POST", "PUT", "PATCH", "PRI", "DELETE"]

/-! ## Responses -/

/-- `Response`; its status is `-1` until something sets it. -/
structure Response where
  status : ℤ
  headers : Headers
  body : Bytes

def Response.empty : Response := ⟨-1, [], []⟩

/-- `set_header`: a header that would break its line is left out. -/
def Response.setHeader (res : Response) (key : String) (val : Bytes) : Response :=
  if hasCrlf (ascii key) ∨ hasCrlf val then res
  else { res with headers := res.headers ++ [(ascii key, val)] }

/-- `set_content`. -/
def Response.setContent (res : Response) (s : Bytes) (contentType : String) : Response :=
  let headers := res.headers.filter fun field => ¬ sameKey (ascii "Content-Type") field.1
  { res with headers, body := s }.setHeader "Content-Type" (ascii contentType)

/-- The cases of `status_message`. -/
def statusMessages : List (ℤ × String) :=
  [(100, "Continue"), (101, "Switching Protocol"), (102, "Processing"), (103, "Early Hints"),
    (200, "OK"), (201, "Created"), (202, "Accepted"), (203, "Non-Authoritative Information"),
    (204, "No Content"), (205, "Reset Content"), (206, "Partial Content"), (207, "Multi-Status"),
    (208, "Already Reported"), (226, "IM Used"), (300, "Multiple Choice"),
    (301, "Moved Permanently"), (302, "Found"), (303, "See Other"), (304, "Not Modified"),
    (305, "Use Proxy"), (306, "unused"), (307, "Temporary Redirect"),
    (308, "Permanent Redirect"), (400, "Bad Request"), (401, "Unauthorized"),
    (402, "Payment Required"), (403, "Forbidden"), (404, "Not Found"),
    (405, "Method Not Allowed"), (406, "Not Acceptable"), (407, "Proxy Authentication Required"),
    (408, "Request Timeout"), (409, "Conflict"), (410, "Gone"), (411, "Length Required"),
    (412, "Precondition Failed"), (413, "Payload Too Large"), (414, "URI Too Long"),
    (415, "Unsupported Media Type"), (416, "Range Not Satisfiable"), (417, "Expectation Failed"),
    (418, "I'm a teapot"), (421, "Misdirected Request"), (422, "Unprocessable Entity"),
    (423, "Locked"), (424, "Failed Dependency"), (425, "Too Early"), (426, "Upgrade Required"),
    (428, "Precondition Required"), (429, "Too Many Requests"),
    (431, "Request Header Fields Too Large"), (451, "Unavailable For Legal Reasons"),
    (501, "Not Implemented"), (502, "Bad Gateway"), (503, "Service Unavailable"),
    (504, "Gateway Timeout"), (505, "HTTP Version Not Supported"),
    (506, "Variant Also Negotiates"), (507, "Insufficient Storage"), (508, "Loop Detected"),
    (510, "Not Extended"), (511, "Network Authentication Required")]

/-- `status_message`. -/
def statusMessage (status : ℤ) : String :=
  ((statusMessages.find? (·.1 = status)).map Prod.snd).getD "Internal Server Error"

/-- `make_content_range_header_field`. -/
def makeContentRangeHeaderField (offset length contentLength : ℕ) : Bytes :=
  ascii "bytes " ++ toDecimal offset ++ ascii "-" ++ toDecimal (sizeT (offset + length - 1)) ++
    ascii "/" ++ toDecimal contentLength

/-- One part of `make_multipart_ranges_data`; there is none for a range behind the body. -/
def multipartRange (boundary contentType body : Bytes) (r : Range) : Option Bytes :=
  let (offset, length) := rangeOffsetAndLength r body.length
  if offset < body.length then
    some (ascii "--" ++ boundary ++ crlf ++
      (if contentType = [] then [] else ascii "Content-Type: " ++ contentType ++ crlf) ++
      ascii "Content-Range: " ++ makeContentRangeHeaderField offset length body.length ++
      crlf ++ crlf ++ (body.drop offset).take length ++ crlf)
  else none

/-- `make_multipart_ranges_data`. -/
def makeMultipartRangesData (ranges : List Range) (boundary contentType body : Bytes) :
    Option Bytes := do
  let parts ← ranges.mapM (multipartRange boundary contentType body)
  return parts.flatten ++ ascii "--" ++ boundary ++ ascii "--" ++ crlf

/-- The content type of a response of several ranges. -/
def setMultipart (boundary : Bytes) (req : Request) (res : Response) : Response :=
  if 1 < req.ranges.length then
    let headers := res.headers.eraseP (sameKey (ascii "Content-Type") ·.1)
    let field := ascii "multipart/byteranges; boundary=" ++ boundary
    { res with headers := headers ++ [(ascii "Content-Type", field)] }
  else res

/-- The ranges of a body: all of it, a part, or parts; or nothing, behind its end. -/
def cutRanges (boundary contentType : Bytes) (req : Request) (res : Response) : Response :=
  match req.ranges with
  | [] => res
  | [r] =>
    let (offset, length) := rangeOffsetAndLength r res.body.length
    let res := res.setHeader "Content-Range"
      (makeContentRangeHeaderField offset length res.body.length)
    if offset < res.body.length then { res with body := (res.body.drop offset).take length }
    else { res with body := [], status := 416 }
  | ranges =>
    match makeMultipartRangesData ranges boundary contentType res.body with
    | some data => { res with body := data }
    | none => { res with body := [], status := 416 }

/-- `apply_ranges`, for a body that is all there and is not compressed; the boundary is random. -/
def applyRanges (boundary : Bytes) (req : Request) (res : Response) : Response :=
  let contentType := (res.headers.find? (sameKey (ascii "Content-Type") ·.1)).elim [] Prod.snd
  let res := setMultipart boundary req res
  if res.body = [] then res
  else
    let res := cutRanges boundary contentType req res
    res.setHeader "Content-Length" (toDecimal res.body.length)

/-- The headers that `write_response_core` adds. -/
def completeHeaders (closeConnection : Bool) (req : Request) (res : Response) : Response :=
  let res :=
    if closeConnection ∨ getHeaderValue req.headers "Connection" = ascii "close" then
      res.setHeader "Connection" (ascii "close")
    else res.setHeader "Keep-Alive" (ascii "timeout=5, max=5")
  let res :=
    if ¬ hasHeader res.headers "Content-Type" ∧ res.body ≠ [] then
      res.setHeader "Content-Type" (ascii "text/plain")
    else res
  let res :=
    if ¬ hasHeader res.headers "Content-Length" ∧ res.body = [] then
      res.setHeader "Content-Length" (ascii "0")
    else res
  if ¬ hasHeader res.headers "Accept-Ranges" ∧ req.method = ascii "HEAD" then
    res.setHeader "Accept-Ranges" (ascii "bytes")
  else res

/-- The order headers are written in. -/
def keyLe (a b : Bytes × Bytes) : Prop :=
  ¬ b.1.map Hexadecimal.lower < a.1.map Hexadecimal.lower

instance : DecidableRel keyLe := fun _ _ => inferInstanceAs (Decidable (¬ _))

/-- `write_headers`. -/
def writeHeaders (headers : Headers) : Bytes :=
  (headers.insertionSort keyLe).flatMap (fun (key, val) =>
    cstr key ++ ascii ": " ++ cstr val ++ crlf) ++ crlf

/-- The first line of a response. -/
def statusLine (status : ℤ) : Bytes :=
  ascii "HTTP/1.1 " ++ ascii (toString status) ++ ascii " " ++ ascii (statusMessage status) ++ crlf

/-- `write_response_core`, for ranges that are applied before. -/
def writeResponse (closeConnection : Bool) (req : Request) (res : Response) : Bytes :=
  let res := completeHeaders closeConnection req res
  statusLine res.status ++ writeHeaders res.headers ++
    if req.method = ascii "HEAD" then [] else res.body

end Http
