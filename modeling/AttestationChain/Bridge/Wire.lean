import AttestationChain.Bridge.Service
import AttestationChain.Http.Framing
import AttestationChain.Http.Pipeline

/-!
# Bridge/Wire — the service, over the connection it is asked on

The worker's host posts an evidence over HTTP, and the service is a handler of an HTTP server.  On
the wire both are bytes: what the host sends is cut into segments and read back together, and what
the handler leaves is written and read back.
-/

namespace Bridge

open Dcap Segments Verifier

variable {Double BigNum Key : Type}

/-! ## The server -/

/-- The `/entryNetwork` handler, as the server calls it; `what` is what its exception says. -/
def entryNetworkHandler (lib : Libraries Double BigNum Key) (what : Bytes) : Http.Handler :=
  fun req =>
    match entryNetwork lib req.body with
    | .error _ => .undefined
    | .ok res =>
      let left :=
        { Http.Response.empty with status := res.status }.setContent res.body "application/json"
      match JSON.load lib.doubles req.body with
      | .error .exception => .threw what left
      | _ => .returned left

section Handler

variable (lib : Libraries Double BigNum Key) (what : Bytes) {req : Http.Request}

/-- What `def_ret` leaves in the response. -/
def left (res : Response) : Http.Response :=
  { Http.Response.empty with status := res.status }.setContent res.body "application/json"

theorem silent_left (res : Response) : Http.Silent (left res) :=
  (Http.silent_empty res.status).setContent res.body "application/json"

theorem status_left (res : Response) : (left res).status = res.status :=
  Http.status_setContent _ _ _

theorem body_left (res : Response) : (left res).body = res.body := Http.body_setContent _ _ _

/-- An answer that is whole is read back, where no ranges of it are asked for. -/
theorem readsBack_of_returned {req : Http.Request} {res : Response}
    (hmethod : req.method ≠ ascii "HEAD") (hranges : req.ranges = [])
    (hleft : entryNetworkHandler lib what req = .returned (left res))
    (hstatus : res.status ≠ -1 ∧ Http.BodyStatus res.status)
    (hlen : res.body.length ≤ Http.ulongMax) {boundary : Bytes}
    (hboundary : (10 : UInt8) ∉ boundary) (closeConnection closed : Bool) (head : Http.Request)
    {exchange : Http.Exchange}
    (hexchange : exchange = Http.conclude boundary closeConnection closed head
      (.ok (req, entryNetworkHandler lib what))) :
    exchange.handled = some req ∧ Http.ReadsBack exchange.written res.status res.body := by
  obtain ⟨res', hfinish, hstatus', hbody'⟩ := Http.finish_returned hranges boundary
    (show (left res).status ≠ -1 by rw [status_left]; exact hstatus.1)
  rw [status_left] at hstatus'
  rw [body_left] at hbody'
  have hreads := Http.readsBack_of_returned hboundary closeConnection head hmethod
    (silent_left res) (.inr (by rw [status_left]; exact hstatus.2)) hfinish (by rwa [hbody'])
  rw [hstatus', hbody'] at hreads
  rw [← hleft] at hfinish
  obtain ⟨hhandled, hwritten⟩ := Http.conclude_ok hfinish
  rw [hexchange, hwritten]
  exact ⟨hhandled, hreads⟩

end Handler

/-! ## The service, on a connection -/

section Connection

variable {lib : Libraries Double BigNum Key} {what : Bytes} {multipart : Http.Multipart}
  {boundary : ℕ → Bytes} {remote : Http.Remote}

end Connection

/-! ## Evidences, posted -/

end Bridge
