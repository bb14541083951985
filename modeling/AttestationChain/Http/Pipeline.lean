import AttestationChain.Http.Wire

/-!
# Http/Pipeline — a connection, as the requests on it

Requests that are sent one behind the other are served one by one, each with its own content, in
whatever segments they arrive (`served_as_sent`): the server that reads bytes refines one that is
handed requests (`Server.converse`).
-/

namespace Http

open Segments

/-! ## Requests -/

/-- The head of a request: its line and its fields. -/
structure Head where
  method : Bytes
  target : Bytes
  version : Bytes
  fields : List Field
  method_mem : method ∈ methods
  target_word : IsWord target
  target_parts : (split 63 target).length ≤ 2
  version_mem : version = ascii "HTTP/1.1" ∨ version = ascii "HTTP/1.0"
  short : method.length + target.length + version.length + 4 ≤ requestUriMaxLength

namespace Head

variable (head : Head)

/-- Its line, without the end of it. -/
def line : Bytes := head.method ++ 32 :: (head.target ++ 32 :: head.version)

def bytes : Bytes := head.line ++ crlf ++ (head.fields.flatMap (·.text ++ crlf) ++ crlf)

/-- What the server has of a line. -/
def start : Request where
  method := head.method
  target := head.target
  version := head.version
  path := decodeUrl ((split 63 head.target).getD 0 [])
  headers := []
  ranges := []
  body := []

/-- What the server has of a head. -/
def request : Request := { head.start with headers := head.fields.map Field.read }

theorem words : IsWord head.method ∧ IsWord head.target ∧ IsWord head.version := by
  have hmethods : ∀ method ∈ methods, IsWord method := by decide
  refine ⟨hmethods _ head.method_mem, head.target_word, ?_⟩
  obtain h | h := head.version_mem <;> rw [h] <;> decide

theorem mem_line {c : UInt8} (h : c ∈ head.line) : c ≠ 0 ∧ c ≠ 10 := by
  have hword : ∀ {s}, IsWord s → c ∈ s → c ≠ 0 ∧ c ≠ 10 := fun hs hc =>
    ⟨(hs.2 c hc).1, (hs.2 c hc).2.2.1⟩
  obtain ⟨hmethod, htarget, hversion⟩ := head.words
  rw [line, List.mem_append, List.mem_cons, List.mem_append, List.mem_cons] at h
  obtain h | rfl | h | rfl | h := h
  · exact hword hmethod h
  · decide
  · exact hword htarget h
  · decide
  · exact hword hversion h

/-- **The line of a request is read.** -/
theorem parseRequestLine_line : parseRequestLine (head.line ++ crlf) = (true, head.start) := by
  obtain ⟨hmethod, htarget, hversion⟩ := head.words
  have hcstr : cstr (head.line ++ crlf) = head.line ++ crlf := by
    refine List.takeWhile_eq_self_iff.2 fun c hc => decide_eq_true ?_
    obtain hc | hc := List.mem_append.1 hc
    · exact (head.mem_line hc).1
    · rintro rfl
      exact absurd hc (by decide)
  have htake : (head.line ++ crlf).take ((head.line ++ crlf).length - 2) = head.line := by
    simp [crlf]
  have hsplit : split 32 head.line = [head.method, head.target, head.version] :=
    split_words hmethod htarget hversion
  have hversion : ¬ (head.version ≠ ascii "HTTP/1.1" ∧ head.version ≠ ascii "HTTP/1.0") :=
    fun h => head.version_mem.elim h.1 h.2
  simp only [parseRequestLine, hcstr, endWithCrlf_append, htake, hsplit]
  simp [head.method_mem, hversion, head.target_parts, start, Request.empty]

end Head

/-! ## The fields of the server -/

section Remote

variable (remote : Remote) (req : Request)

/-- The server's fields stand behind those that were sent. -/
theorem headers_setHeaders : ∃ added : Headers,
    (remote.setHeaders req).headers = req.headers ++ added ∧
      ∀ field ∈ added, field.1 = ascii "REMOTE_ADDR" ∨ field.1 = ascii "REMOTE_PORT" := by
  have hset : ∀ (req : Request) (key : String) (val : Bytes), ∃ added : Headers,
      (req.setHeader key val).headers = req.headers ++ added ∧
        ∀ field ∈ added, field.1 = ascii key := by
    intro req key val
    rw [Request.setHeader]
    split_ifs
    · exact ⟨[], (List.append_nil _).symm, List.forall_mem_nil _⟩
    · exact ⟨_, rfl, List.forall_mem_singleton.2 rfl⟩
  obtain ⟨addr, haddr, hkey⟩ := hset req "REMOTE_ADDR" remote.addr
  obtain ⟨port, hport, hkey'⟩ := hset (req.setHeader "REMOTE_ADDR" remote.addr) "REMOTE_PORT"
    (ascii (toString remote.port))
  refine ⟨addr ++ port, ?_, fun field hmem => ?_⟩
  · rw [Remote.setHeaders, hport, haddr, List.append_assoc]
  · exact (List.mem_append.1 hmem).imp (hkey field) (hkey' field)

variable {remote req} {key : String}

/-- What is asked for under another key, is what was sent. -/
theorem find?_setHeaders (haddr : ¬ sameKey (ascii key) (ascii "REMOTE_ADDR"))
    (hport : ¬ sameKey (ascii key) (ascii "REMOTE_PORT")) :
    (remote.setHeaders req).headers.find? (sameKey (ascii key) ·.1) =
      req.headers.find? (sameKey (ascii key) ·.1) := by
  obtain ⟨added, heq, hadded⟩ := headers_setHeaders remote req
  have hnone : added.find? (sameKey (ascii key) ·.1) = none := by
    refine List.find?_eq_none.2 fun field hmem => ?_
    obtain h | h := hadded field hmem <;> rw [h]
    · exact haddr
    · exact hport
  rw [heq, List.find?_append, hnone, Option.or_none]

theorem getHeaderValue_setHeaders (haddr : ¬ sameKey (ascii key) (ascii "REMOTE_ADDR"))
    (hport : ¬ sameKey (ascii key) (ascii "REMOTE_PORT")) :
    getHeaderValue (remote.setHeaders req).headers key = getHeaderValue req.headers key := by
  rw [getHeaderValue, find?_setHeaders haddr hport, getHeaderValue]

theorem hasHeader_setHeaders (haddr : ¬ sameKey (ascii key) (ascii "REMOTE_ADDR"))
    (hport : ¬ sameKey (ascii key) (ascii "REMOTE_PORT")) :
    hasHeader (remote.setHeaders req).headers key = hasHeader req.headers key := by
  rw [hasHeader, ← List.isSome_find?, find?_setHeaders haddr hport, List.isSome_find?, hasHeader]

variable (remote req)

theorem setHeaders_eq :
    remote.setHeaders req = { req with headers := (remote.setHeaders req).headers } := by
  have hset : ∀ (req : Request) (key : String) (val : Bytes),
      req.setHeader key val = { req with headers := (req.setHeader key val).headers } := by
    intro req key val
    rw [Request.setHeader]
    split_ifs <;> rfl
  rw [Remote.setHeaders, hset (req.setHeader _ _), hset req]

/-- They ask for no ranges. -/
theorem requestRanges_setHeaders : requestRanges (remote.setHeaders req) = requestRanges req := by
  rw [requestRanges, hasHeader_setHeaders (by decide) (by decide),
    getHeaderValue_setHeaders (by decide) (by decide), requestRanges]

/-- They say nothing of a content. -/
theorem Content.Fits.setHeaders {req : Request} {content : Content} (h : content.Fits req) :
    content.Fits (remote.setHeaders req) := by
  have hmethod : (remote.setHeaders req).method = req.method := by
    rw [setHeaders_eq remote req]
  have hexpects : expectContent (remote.setHeaders req) = expectContent req := by
    rw [setHeaders_eq remote req]
    rfl
  have hchunked : isChunkedTransferEncoding (remote.setHeaders req).headers =
      isChunkedTransferEncoding req.headers := by
    rw [isChunkedTransferEncoding, getHeaderValue_setHeaders (by decide) (by decide),
      isChunkedTransferEncoding]
  have htakes : TakesContent req → TakesContent (remote.setHeaders req) := fun htakes =>
    ⟨hexpects.trans htakes.expects,
      by rw [isMultipartFormData, getHeaderValue_setHeaders (by decide) (by decide)]
         exact htakes.plain,
      by rw [getHeaderValue_setHeaders (by decide) (by decide)]
         exact htakes.supported⟩
  cases content with
  | none => exact hexpects.trans h
  | length body =>
    refine ⟨htakes h.1, hchunked.trans h.2.1, ?_, ?_⟩
    · rw [hasHeader_setHeaders (by decide) (by decide)]
      exact h.2.2.1
    · rw [getHeaderNumber, getHeaderValue_setHeaders (by decide) (by decide)]
      exact h.2.2.2
  | chunked chunks last => exact ⟨htakes h.1, hchunked.trans h.2.1, hmethod ▸ h.2.2⟩

end Remote

/-- **A request as a client sends it**: its content fits its head, and so do its ranges. -/
structure Sent extends Head where
  content : Content
  ranges : List Range
  fits : content.Fits toHead.request
  ranges_eq : requestRanges toHead.request = some ranges

namespace Sent

variable (sent : Sent) (remote : Remote)

def bytes : Bytes := sent.toHead.bytes ++ sent.content.bytes

/-- What the server has of its head. -/
def head : Request := remote.setHeaders sent.toHead.request

/-- What the server has of it in the end. -/
def full : Request := { sent.head remote with ranges := sent.ranges, body := sent.content.body }

end Sent

/-! ## Requests, one by one -/

variable (srv : Server) (remote : Remote)

/-- What becomes of a request that is handed over as it is. -/
def Server.exchange (boundary : Bytes) (closeConnection : Bool) (sent : Sent) : Exchange :=
  conclude boundary closeConnection (connectionClosed sent.toHead.request) (sent.head remote)
    ((srv.handlerOf (sent.full remote)).map fun handler => (sent.full remote, handler))

/-- **A server of requests**: each is served on its own, until one closes the connection. -/
def Server.converse : ℕ → List Sent → List Exchange
  | 0, _ => []
  | _, [] => []
  | count + 1, sent :: sents =>
    let exchange := srv.exchange remote (srv.boundary count) (count = 0) sent
    exchange :: if exchange.closed then [] else Server.converse count sents

theorem yields_handleRequest (boundary : Bytes) (closeConnection : Bool) (sent : Sent)
    {strm : Incoming UInt8} {more : List (Option UInt8)}
    (h : flat strm = sent.content.bytes.map some ++ more) :
    Yields (srv.handleRequest remote boundary closeConnection sent.toHead.request strm)
      (srv.exchange remote boundary closeConnection sent) more := by
  have hbody : (sent.head remote).body = [] := by
    rw [Sent.head, setHeaders_eq]
    rfl
  have hranges : requestRanges (remote.setHeaders sent.toHead.request) = some sent.ranges :=
    (requestRanges_setHeaders remote _).trans sent.ranges_eq
  obtain ⟨rest, hread, rfl⟩ :=
    (yields_routing srv ((sent.fits.setHeaders remote).ranged sent.ranges) hbody h).exists
  simp only [Server.handleRequest, hranges, hread]
  exact ⟨rfl, rfl⟩

/-- **A request is served as it was sent**, and what is behind it is left. -/
theorem yields_processRequest (boundary : Bytes) (closeConnection : Bool) (sent : Sent)
    {strm : Incoming UInt8} {more : List (Option UInt8)}
    (h : flat strm = sent.bytes.map some ++ more) :
    Yields (srv.processRequest remote boundary closeConnection strm)
      (some (srv.exchange remote boundary closeConnection sent)) more := by
  have hline : (10 : UInt8) ∉ sent.line := fun hmem => (sent.toHead.mem_line hmem).2 rfl
  have hshort : ¬ requestUriMaxLength < (sent.line ++ crlf).length := by
    have := sent.short
    simp only [Head.line, crlf, List.length_append, List.length_cons, List.length_nil]
    omega
  rw [Sent.bytes, Head.bytes, List.append_assoc (sent.line ++ crlf), List.map_append,
    List.append_assoc] at h
  obtain ⟨rest, hread, hrest⟩ := (yields_getline.2 (h ▸ firstLine_crlf hline _)).exists
  rw [List.map_append, List.append_assoc] at hrest
  obtain ⟨behind, hheaders, hbehind⟩ := (yields_readFields sent.fields hrest).exists
  obtain ⟨last, hhandle, rfl⟩ :=
    (yields_handleRequest srv remote boundary closeConnection sent hbehind).exists
  have hparse := sent.toHead.parseRequestLine_line
  have hreq : { sent.toHead.start with headers := sent.fields.map Field.read } =
      sent.toHead.request := rfl
  simp only [Server.processRequest, hread, if_neg hshort, hparse, hheaders, not_true, if_false,
    hreq, hhandle]
  exact ⟨rfl, rfl⟩

/-- What is behind the requests: the end of the connection, or a pause. -/
def Quiet (more : List (Option UInt8)) : Prop := ∀ a ∈ more.head?, a = none

theorem processRequest_quiet (boundary : Bytes) (closeConnection : Bool) {strm : Incoming UInt8}
    (h : Quiet (flat strm)) :
    (srv.processRequest remote boundary closeConnection strm).1 = none := by
  obtain ⟨hread, -⟩ := receiveUntil_eq endsLine [] strm
  have hnone : (getline strm).1 = none := by
    refine hread.trans ?_
    rcases hflat : flat strm with _ | ⟨a, more⟩
    · rfl
    · obtain rfl := h a (by rw [hflat]; rfl)
      rfl
  rw [Server.processRequest, ← Prod.mk.eta (p := getline strm), hnone]

/-- **A connection is its requests.** -/
theorem serve_converse (count : ℕ) (sents : List Sent) {strm : Incoming UInt8}
    {more : List (Option UInt8)} (hmore : Quiet more)
    (h : flat strm = (sents.flatMap Sent.bytes).map some ++ more) :
    srv.serve remote count strm = srv.converse remote count sents := by
  induction count generalizing sents strm with
  | zero =>
    cases sents <;> rfl
  | succ count ih =>
    cases sents with
    | nil =>
      have hquiet : Quiet (flat strm) := by rwa [h]
      have hnone := processRequest_quiet srv remote (srv.boundary count) (count = 0) hquiet
      rw [Server.serve, ← Prod.mk.eta (p := srv.processRequest remote _ _ strm), hnone]
      rfl
    | cons sent sents =>
      rw [List.flatMap_cons, List.map_append, List.append_assoc] at h
      obtain ⟨rest, hread, hrest⟩ :=
        (yields_processRequest srv remote (srv.boundary count) (count = 0) sent h).exists
      have htail := ih sents hrest
      rw [Server.serve, hread, Server.converse]
      dsimp only
      rw [htail]

/-- What becomes of requests, is what becomes of each. -/
theorem exists_of_getElem?_converse {count : ℕ} {sents : List Sent} {k : ℕ} {exchange : Exchange}
    (h : (srv.converse remote count sents)[k]? = some exchange) :
    ∃ sent boundary closeConnection, sents[k]? = some sent ∧
      exchange = srv.exchange remote boundary closeConnection sent := by
  induction count generalizing sents k with
  | zero => cases sents <;> cases h
  | succ count ih =>
    cases sents with
    | nil => cases h
    | cons sent sents =>
      rw [Server.converse] at h
      cases k with
      | zero => exact ⟨sent, _, _, rfl, (Option.some.inj h).symm⟩
      | succ k =>
        rw [List.getElem?_cons_succ] at h
        split_ifs at h
        · cases h
        · obtain ⟨sent', boundary, closeConnection, hsent, heq⟩ := ih h
          exact ⟨sent', boundary, closeConnection, hsent, heq⟩

/-- A handler is called with the request that was sent, if at all. -/
theorem exchange_spec (boundary : Bytes) (closeConnection : Bool) (sent : Sent) :
    (srv.exchange remote boundary closeConnection sent).request = some (sent.head remote) ∧
      ∀ full, (srv.exchange remote boundary closeConnection sent).handled = some full →
        full = sent.full remote := by
  unfold Server.exchange
  rcases srv.handlerOf (sent.full remote) with status | handler
  · exact ⟨rfl, fun full h => nomatch h⟩
  · simp only [Except.map, conclude]
    rcases finish boundary (sent.full remote) (handler (sent.full remote)) with _ | res <;>
      exact ⟨rfl, fun full h => (Option.some.inj h).symm⟩

theorem newest_version :
    ascii "HTTP/1.1" = ascii "HTTP/1.1" ∨ ascii "HTTP/1.1" = ascii "HTTP/1.0" := .inl rfl

/-- A request without fields, and without a content. -/
def plainSent : Sent where
  method := ascii "GET"
  target := ascii "/hello"
  version := ascii "HTTP/1.1"
  fields := []
  method_mem := by decide
  target_word := by decide
  target_parts := by decide
  version_mem := newest_version
  short := by decide
  content := .none
  ranges := []
  fits := rfl
  ranges_eq := rfl

/-- A client on the same machine. -/
def loopback : Remote := ⟨ascii "127.0.0.1", 40000⟩

/-- A server without handlers. -/
def plainServer : Server where
  getHandlers := []
  postHandlers := []
  multipart := ⟨Unit, fun _ => (), fun _ _ => none, fun _ => true⟩
  boundary := fun _ => []

end Http
