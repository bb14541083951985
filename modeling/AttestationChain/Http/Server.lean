import AttestationChain.Http.Message

/-!
# Http/Server — a connection, request by request

A request is read and answered, up to five times on one connection: its line, its headers, its
content if it is of a method that has one, and then a handler is called, or none.  What is read
wrong, or not at all, is answered all the same, and the connection goes on behind it.
-/

namespace Http

open Segments

/-! ## Servers -/

/-- What a handler comes to: it returns or throws, and there may be no telling what it does. -/
inductive Reply
  | returned (res : Response)
  | threw (what : Bytes) (res : Response)
  | undefined

/-- A handler, given an empty response. -/
abbrev Handler := Request → Reply

/-- `MultipartFormDataParser`: it starts with a boundary and takes pieces. -/
structure Multipart where
  State : Type
  start : Bytes → State
  parse : State → Bytes → Option State
  isValid : State → Bool

/-- `Server`: the handlers of `Get` and `Post`, by path; and the boundaries it makes up. -/
structure Server where
  getHandlers : List (Bytes × Handler)
  postHandlers : List (Bytes × Handler)
  multipart : Multipart
  boundary : ℕ → Bytes

variable (srv : Server)

/-! ## Contents -/

/-- `is_multipart_form_data`. -/
def isMultipartFormData (req : Request) : Bool :=
  ascii "multipart/form-data" <+: getHeaderValue req.headers "Content-Type"

/-- What stands behind the first place a text is found at. -/
def behind (text : Bytes) : Bytes → Option Bytes
  | [] => if text = [] then some [] else none
  | c :: s => if text <+: c :: s then some ((c :: s).drop text.length) else behind text s

/-- `parse_multipart_boundary`: quotes around it are left out. -/
def parseMultipartBoundary (contentType : Bytes) : Option Bytes := do
  let boundary ← behind (ascii "boundary=") contentType
  let boundary :=
    if 2 ≤ boundary.length ∧ boundary.head? = some 34 ∧ boundary.getLast? = some 34 then
      boundary.tail.dropLast
    else boundary
  guard (boundary ≠ [])
  return boundary

/-- `read_content_core`, into the body of the request; a multipart content goes elsewhere. -/
def Server.readContent (req : Request) (strm : Incoming UInt8) :
    Except ℤ Request × Incoming UInt8 :=
  let skips := req.method = ascii "DELETE" ∧ ¬ hasHeader req.headers "Content-Length"
  if isMultipartFormData req then
    match parseMultipartBoundary (getHeaderValue req.headers "Content-Type") with
    | none => (.error 400, strm)
    | some boundary =>
      if skips then (.ok req, strm)
      else
        match Http.readContent req.headers srv.multipart.parse (srv.multipart.start boundary)
            strm with
        | (.error status, rest) => (.error status, rest)
        | (.ok parser, rest) =>
          (if srv.multipart.isValid parser then .ok req else .error 400, rest)
  else if skips then (.ok req, strm)
  else
    match Http.readContent req.headers (fun body piece => some (body ++ piece)) [] strm with
    | (.error status, rest) => (.error status, rest)
    | (.ok body, rest) => (.ok { req with body }, rest)

/-! ## Routing -/

/-- `dispatch_request`: the first handler whose pattern the path matches; none is 404. -/
def dispatchRequest (path : Bytes) (handlers : List (Bytes × Handler)) : Except ℤ Handler :=
  ((handlers.find? (·.1 = path)).map Prod.snd).elim (.error 404) .ok

/-- The handlers of a method; there are none but of `Get` and `Post`. -/
def Server.handlerOf (req : Request) : Except ℤ Handler :=
  if req.isOf ["GET", "HEAD"] then dispatchRequest req.path srv.getHandlers
  else if req.method = ascii "POST" then dispatchRequest req.path srv.postHandlers
  else if req.isOf ["PUT", "DELETE", "OPTIONS", "PATCH"] then dispatchRequest req.path []
  else .error 400

/-- `routing`: the handler of a request, and the request it is called with. -/
def Server.routing (req : Request) (strm : Incoming UInt8) :
    Except ℤ (Request × Handler) × Incoming UInt8 :=
  if expectContent req then
    match srv.readContent req strm with
    | (.error status, rest) => (.error status, rest)
    | (.ok req, rest) => ((srv.handlerOf req).map fun handler => (req, handler), rest)
  else ((srv.handlerOf req).map fun handler => (req, handler), strm)

/-! ## Requests -/

/-- One request and its answer: the request as its line and its headers have it, with those the
server sets, unless they are wrong; the request that a handler was called with; and what is
written. -/
structure Exchange where
  request : Option Request
  handled : Option Request
  written : Bytes
  /-- `connection_closed`. -/
  closed : Bool

/-- The answer of a status and nothing else. -/
def refusal (closeConnection : Bool) (req : Request) (status : ℤ) : Bytes :=
  writeResponse closeConnection req { Response.empty with status }

/-- A status that was left open is 200, or 206. -/
def finalStatus (req : Request) (status : ℤ) : ℤ :=
  if status = -1 then if req.ranges = [] then 200 else 206 else status

/-- The response a handler comes to, with its ranges; but without them where it throws, whatever it
left in the body. -/
def finish (boundary : Bytes) (req : Request) : Reply → Option Response
  | .returned res =>
    some (applyRanges boundary req { res with status := finalStatus req res.status })
  | .threw what res => some ({ res with status := 500 }.setHeader "EXCEPTION_WHAT" what)
  | .undefined => none

/-- Whether the client wants the connection closed. -/
def connectionClosed (req : Request) : Bool :=
  let connection := getHeaderValue req.headers "Connection"
  connection = ascii "close" ∨ (req.version = ascii "HTTP/1.0" ∧ connection ≠ ascii "Keep-Alive")

/-- The ranges a request asks for: all of it, without a `Range`. -/
def requestRanges (req : Request) : Option (List Range) :=
  if hasHeader req.headers "Range" then parseRangeHeader (getHeaderValue req.headers "Range")
  else some []

/-- What is written before the content is read. -/
def interim (req : Request) : Bytes :=
  if getHeaderValue req.headers "Expect" = ascii "100-continue" then
    ascii "HTTP/1.1 100 Continue" ++ crlf ++ crlf
  else []

/-- What becomes of a request that was routed, or was not; `closed` is whether its client wants the
connection closed. -/
def conclude (boundary : Bytes) (closeConnection closed : Bool) (req : Request) :
    Except ℤ (Request × Handler) → Exchange
  | .error status => ⟨some req, none, interim req ++ refusal closeConnection req status, closed⟩
  | .ok (full, handler) =>
    match finish boundary full (handler full) with
    | some res =>
      ⟨some req, some full, interim req ++ writeResponse closeConnection full res, closed⟩
    | none => ⟨some req, some full, interim req, true⟩

/-- The other end of a connection: `remote_addr` and `remote_port`. -/
structure Remote where
  addr : Bytes
  port : ℤ

/-- A request, with the headers that the server sets in it. -/
def Remote.setHeaders (remote : Remote) (req : Request) : Request :=
  (req.setHeader "REMOTE_ADDR" remote.addr).setHeader "REMOTE_PORT" (ascii (toString remote.port))

/-- `process_request`, from the end of the headers on. -/
def Server.handleRequest (remote : Remote) (boundary : Bytes) (closeConnection : Bool)
    (req : Request) (strm : Incoming UInt8) : Exchange × Incoming UInt8 :=
  let closed := connectionClosed req
  let req := remote.setHeaders req
  match requestRanges req with
  | none => (⟨some req, none, refusal closeConnection req 416, closed⟩, strm)
  | some ranges =>
    match srv.routing { req with ranges } strm with
    | (routed, rest) => (conclude boundary closeConnection closed req routed, rest)

/-- `CPPHTTPLIB_REQUEST_URI_MAX_LENGTH`. -/
def requestUriMaxLength : ℕ := 8192

/-- `process_request`: nothing, where no line arrives. -/
def Server.processRequest (remote : Remote) (boundary : Bytes) (closeConnection : Bool)
    (strm : Incoming UInt8) : Option Exchange × Incoming UInt8 :=
  match getline strm with
  | (none, rest) => (none, rest)
  | (some line, rest) =>
    if requestUriMaxLength < line.length then
      (some ⟨none, none, refusal closeConnection .empty 414, false⟩, (readHeaders [] rest).2)
    else if ¬ (parseRequestLine line).1 then
      (some ⟨none, none, refusal closeConnection (parseRequestLine line).2 400, false⟩, rest)
    else
      match readHeaders [] rest with
      | ((complete, headers), rest) =>
        let req := { (parseRequestLine line).2 with headers }
        if ¬ complete then (some ⟨none, none, refusal closeConnection req 400, false⟩, rest)
        else
          match srv.handleRequest remote boundary closeConnection req rest with
          | (exchange, rest) => (some exchange, rest)

/-! ## Connections -/

/-- `process_server_socket_core`: so many requests at most, the last of which closes the connection.
(`keep_alive` gives up where nothing arrives, as reading a line does.) -/
def Server.serve (remote : Remote) : ℕ → Incoming UInt8 → List Exchange
  | 0, _ => []
  | count + 1, strm =>
    match srv.processRequest remote (srv.boundary count) (count = 0) strm with
    | (none, _) => []
    | (some exchange, rest) =>
      exchange :: if exchange.closed then [] else Server.serve remote count rest

end Http
