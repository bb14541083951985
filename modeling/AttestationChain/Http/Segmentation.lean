import AttestationChain.Http.Pipeline

/-!
# Http/Segmentation — a connection does not depend on its segments

How the network cuts what a client sends into segments decides nothing: neither what is read, nor
which handlers are called, nor what is written (`serve_segments`).  Only a multipart content is
handed on in the pieces it arrives in, to a parser of its own.
-/

namespace Http

open Segments

variable (srv : Server) (remote : Remote) {strm strm' : Incoming UInt8}

theorem alike_serverReadContent {req : Request} (hreq : isMultipartFormData req = false)
    (h : flat strm = flat strm') :
    Alike (srv.readContent req strm) (srv.readContent req strm') := by
  unfold Server.readContent
  simp only [hreq, Bool.false_eq_true, if_false]
  split_ifs
  · exact ⟨rfl, h⟩
  · obtain ⟨_ | body, rest, rest', hread, hread', hrest⟩ :=
      (alike_readContent joins_append req.headers [] h).exists <;>
      rw [hread, hread'] <;> exact ⟨rfl, hrest⟩

theorem alike_routing {req : Request} (hreq : isMultipartFormData req = false)
    (h : flat strm = flat strm') : Alike (srv.routing req strm) (srv.routing req strm') := by
  unfold Server.routing
  split_ifs
  · obtain ⟨_ | req', rest, rest', hread, hread', hrest⟩ :=
      (alike_serverReadContent srv hreq h).exists <;> rw [hread, hread'] <;> exact ⟨rfl, hrest⟩
  · exact ⟨rfl, h⟩

theorem alike_handleRequest (boundary : Bytes) (closeConnection : Bool) {req : Request}
    (hreq : isMultipartFormData (remote.setHeaders req) = false) (h : flat strm = flat strm') :
    Alike (srv.handleRequest remote boundary closeConnection req strm)
      (srv.handleRequest remote boundary closeConnection req strm') := by
  unfold Server.handleRequest
  dsimp only
  cases requestRanges (remote.setHeaders req) with
  | none => exact ⟨rfl, h⟩
  | some ranges =>
    have hranged : isMultipartFormData { remote.setHeaders req with ranges } = false := hreq
    obtain ⟨hrouted, hrest⟩ := alike_routing srv hranged h
    exact ⟨congrArg (conclude boundary closeConnection _ _) hrouted, hrest⟩

/-- An exchange keeps the request it is about. -/
theorem request_conclude (boundary : Bytes) (closeConnection closed : Bool) (req : Request)
    (routed : Except ℤ (Request × Handler)) :
    (conclude boundary closeConnection closed req routed).request = some req := by
  obtain _ | ⟨full, handler⟩ := routed
  · rfl
  · rw [conclude]
    cases finish boundary full (handler full) <;> rfl

theorem request_handleRequest (boundary : Bytes) (closeConnection : Bool) (req : Request) :
    (srv.handleRequest remote boundary closeConnection req strm).1.request =
      some (remote.setHeaders req) := by
  unfold Server.handleRequest
  dsimp only
  cases requestRanges (remote.setHeaders req) with
  | none => rfl
  | some ranges => exact request_conclude boundary closeConnection _ _ _

theorem alike_processRequest (boundary : Bytes) (closeConnection : Bool)
    (hplain : ∀ e, (srv.processRequest remote boundary closeConnection strm).1 = some e →
      ∀ req, e.request = some req → isMultipartFormData req = false)
    (h : flat strm = flat strm') :
    Alike (srv.processRequest remote boundary closeConnection strm)
      (srv.processRequest remote boundary closeConnection strm') := by
  obtain ⟨_ | line, rest, rest', hline, hline', hrest⟩ := (alike_getline h).exists <;>
    simp only [Server.processRequest, hline, hline'] at hplain ⊢
  · exact ⟨rfl, hrest⟩
  obtain ⟨⟨complete, headers⟩, more, more', hread, hread', hmore⟩ :=
    (alike_readHeaders [] hrest).exists
  simp only [hread, hread'] at hplain ⊢
  split_ifs at hplain ⊢
  · exact ⟨rfl, hmore⟩
  · have hreq := hplain _ rfl _ (request_handleRequest srv remote boundary closeConnection _)
    obtain ⟨hexchange, hleft⟩ := alike_handleRequest srv remote boundary closeConnection hreq hmore
    exact ⟨congrArg some hexchange, hleft⟩
  · exact ⟨rfl, hmore⟩
  · exact ⟨rfl, hrest⟩

/-- **A connection does not depend on its segments**, as long as no request is multipart. -/
theorem serve_segments (count : ℕ)
    (hplain : ∀ e ∈ srv.serve remote count strm, ∀ req, e.request = some req →
      isMultipartFormData req = false)
    (h : flat strm = flat strm') : srv.serve remote count strm = srv.serve remote count strm' := by
  induction count generalizing strm strm' with
  | zero => rfl
  | succ count ih =>
    rw [Server.serve] at hplain
    have hfirst : ∀ e,
        (srv.processRequest remote (srv.boundary count) (count = 0) strm).1 = some e →
        ∀ req, e.request = some req → isMultipartFormData req = false := by
      intro e he
      refine hplain e ?_
      rw [← Prod.mk.eta (p := srv.processRequest remote _ _ strm), he]
      exact List.mem_cons_self
    obtain ⟨_ | e, rest, rest', hread, hread', hrest⟩ :=
      (alike_processRequest srv remote _ _ hfirst h).exists <;>
      rw [Server.serve, Server.serve, hread, hread']
    rw [hread] at hplain
    dsimp only at hplain ⊢
    split_ifs at hplain ⊢ with hclosed
    · rfl
    · exact congrArg (e :: ·) (ih (fun e' he' => hplain e' (List.mem_cons_of_mem _ he')) hrest)

theorem serve_segments_plainSent :
    plainServer.serve loopback 5 (putBack plainSent.bytes []) = plainServer.serve loopback 5
      (putBack (plainSent.bytes.take 5) (putBack (plainSent.bytes.drop 5) [])) := by
  refine serve_segments plainServer loopback 5 (fun e he req hreq => ?_) ?_
  · have hserve := serve_converse plainServer loopback 5 [plainSent]
      (show Quiet [] from fun _ ha => nomatch ha)
      (flat_putBack ([plainSent].flatMap Sent.bytes) [])
    rw [List.flatMap_singleton] at hserve
    rw [hserve] at he
    obtain ⟨k, hk⟩ := List.mem_iff_getElem?.1 he
    obtain ⟨sent, boundary, closeConnection, hsent, rfl⟩ :=
      exists_of_getElem?_converse plainServer loopback hk
    obtain rfl := List.mem_singleton.1 (List.mem_of_getElem? hsent)
    rw [(exchange_spec plainServer loopback boundary closeConnection plainSent).1] at hreq
    cases hreq
    rw [Sent.head, isMultipartFormData, getHeaderValue_setHeaders (by decide) (by decide)]
    rfl
  · rw [flat_putBack, flat_putBack, flat_putBack, ← List.append_assoc, ← List.map_append,
      List.take_append_drop]

end Http
