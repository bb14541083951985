import AttestationChain.Http.Stream

/-!
# Http/Content — what the server takes for a content
-/

namespace Http

open Segments

variable {σ : Type} {f : σ → Bytes → σ}

/-! ## Segments -/

theorem alike_chunk (hf : Joins f) (s : σ) {strm strm' : Incoming UInt8}
    (h : flat strm = flat strm') :
    Alike ((chunkRound fun s piece => some (f s piece)).read s strm)
      ((chunkRound fun s piece => some (f s piece)).read s strm') := by
  obtain ⟨_ | size, rest, rest', hsize, hsize', hrest⟩ := (alike_getline h).exists <;>
    simp only [chunkRound, hsize, hsize']
  · exact ⟨rfl, hrest⟩
  rcases chunkLength size with _ | len <;> dsimp only
  · exact ⟨rfl, hrest⟩
  by_cases hlen : len = 0
  · obtain ⟨line, more, more', hlast, hlast', hmore⟩ := (alike_getline hrest).exists
    rw [if_pos hlen, if_pos hlen, hlast, hlast']
    exact ⟨rfl, hmore⟩
  rw [if_neg hlen, if_neg hlen]
  obtain ⟨_ | s', more, more', hdata, hdata', hmore⟩ :=
    (alike_receive recvBufsiz_pos hf len s hrest).exists <;>
    simp only [readContentWithLength, hdata, hdata']
  · exact ⟨rfl, hmore⟩
  obtain ⟨_ | blank, last, last', hblank, hblank', hlast⟩ := (alike_getline hmore).exists <;>
    simp only [hblank, hblank']
  · exact ⟨rfl, hlast⟩
  · split_ifs <;> exact ⟨rfl, hlast⟩

theorem alike_receiveContent (hf : Joins f) (headers : Headers) (s : σ)
    {strm strm' : Incoming UInt8} (h : flat strm = flat strm') :
    Alike (receiveContent headers (fun s piece => some (f s piece)) s strm)
      (receiveContent headers (fun s piece => some (f s piece)) s strm') := by
  unfold receiveContent
  split_ifs
  · exact Round.alike_loop (fun s _ _ => alike_chunk hf s) s h
  · exact alike_receive recvBufsiz_pos hf _ s h
  · exact alike_receiveAll recvBufsiz_pos hf s h

/-- **A content does not depend on the segments.** -/
theorem alike_readContent (hf : Joins f) (headers : Headers) (s : σ) {strm strm' : Incoming UInt8}
    (h : flat strm = flat strm') :
    Alike (readContent headers (fun s piece => some (f s piece)) s strm)
      (readContent headers (fun s piece => some (f s piece)) s strm') := by
  obtain ⟨_ | s', rest, rest', hread, hread', hrest⟩ := (alike_receiveContent hf headers s h).exists
  all_goals
    rw [readContent, readContent, hread, hread']
    split_ifs
    · exact ⟨rfl, h⟩
    · exact ⟨rfl, hrest⟩

/-! ## Chunks -/

/-- **A chunked content**, and what is behind it.  It ends with a chunk of no data; and it ends
where the data of a chunk is not followed by an empty line. -/
inductive Chunked : List (Option UInt8) → Bytes → List (Option UInt8) → Prop
  | last {strm rest more size blank} (hsize : FirstLine strm size rest)
      (hlen : chunkLength size = some 0) (hblank : FirstLine rest blank more)
      (hend : cstr blank = crlf) : Chunked strm [] more
  | chunk {strm rest more size blank} {data body : Bytes} {next} (hne : data ≠ [])
      (hsize : FirstLine strm size (data.map some ++ rest))
      (hlen : chunkLength size = some data.length) (hblank : FirstLine rest blank next)
      (hend : cstr blank = crlf) (hnext : Chunked next body more) : Chunked strm (data ++ body) more
  | cut {strm rest more size line} {data : Bytes} (hne : data ≠ [])
      (hsize : FirstLine strm size (data.map some ++ rest))
      (hlen : chunkLength size = some data.length) (hline : FirstLine rest line more)
      (hend : cstr line ≠ crlf) : Chunked strm data more

theorem read_last {s : σ} {strm : Incoming UInt8} {rest more : List (Option UInt8)}
    {size blank : Bytes} (hsize : FirstLine (flat strm) size rest)
    (hlen : chunkLength size = some 0) (hblank : FirstLine rest blank more)
    (hend : cstr blank = crlf) :
    Yields ((chunkRound fun s piece => some (f s piece)).read s strm) (.inr (some s)) more := by
  obtain ⟨rest, hline, rfl⟩ := (yields_getline.2 hsize).exists
  obtain ⟨more, hlast, rfl⟩ := (yields_getline.2 hblank).exists
  simp [chunkRound, hline, hlen, hlast, hend, Yields]

theorem read_data (hf : Joins f) {s : σ} {strm : Incoming UInt8} {rest more : List (Option UInt8)}
    {size data line : Bytes} (hne : data ≠ [])
    (hsize : FirstLine (flat strm) size (data.map some ++ rest))
    (hlen : chunkLength size = some data.length) (hline : FirstLine rest line more) :
    Yields ((chunkRound fun s piece => some (f s piece)).read s strm)
      (if cstr line = crlf then .inl (f s data) else .inr (some (f s data))) more := by
  obtain ⟨behind, hread, hbehind⟩ := (yields_getline.2 hsize).exists
  obtain ⟨rest, hdata, rfl⟩ :=
    ((yields_readContentWithLength (s := s) hf).2 ⟨data, rfl, rfl, hbehind⟩).exists
  obtain ⟨more, hlast, rfl⟩ := (yields_getline.2 hline).exists
  have hpos : data.length ≠ 0 := fun h => hne (List.length_eq_zero_iff.1 h)
  simp only [chunkRound, hread, hlen, if_neg hpos, hdata, hlast]
  split_ifs <;> exact ⟨rfl, rfl⟩

/-- **What a round reads**, where it does not fail. -/
theorem read_cases (hf : Joins f) {s : σ} {strm rest : Incoming UInt8} {r : σ ⊕ Option σ}
    (h : (chunkRound fun s piece => some (f s piece)).read s strm = (r, rest))
    (hr : r ≠ .inr none) :
    (r = .inr (some s) ∧ ∃ size blank between, FirstLine (flat strm) size between ∧
      chunkLength size = some 0 ∧ FirstLine between blank (flat rest) ∧ cstr blank = crlf) ∨
    ∃ size data line between, data ≠ [] ∧
      FirstLine (flat strm) size (data.map some ++ between) ∧
      chunkLength size = some data.length ∧ FirstLine between line (flat rest) ∧
      r = if cstr line = crlf then .inl (f s data) else .inr (some (f s data)) := by
  rcases hsize : getline strm with ⟨_ | size, behind⟩
  · simp only [chunkRound, hsize] at h
    exact absurd (congrArg Prod.fst h).symm hr
  rcases hlen : chunkLength size with _ | len
  · simp only [chunkRound, hsize, hlen] at h
    exact absurd (congrArg Prod.fst h).symm hr
  have hfirst := yields_getline.1 (yields_of_eq hsize)
  by_cases hzero : len = 0
  · rcases hblank : getline behind with ⟨blank, rest'⟩
    simp only [chunkRound, hsize, hlen, if_pos hzero, hblank] at h
    obtain ⟨rfl, rfl⟩ := Prod.mk.inj h
    split_ifs at hr ⊢ with hend
    · obtain ⟨line, rfl, hcrlf⟩ := Option.map_eq_some_iff.1 hend
      exact .inl ⟨rfl, size, line, _, hfirst, hzero ▸ hlen, yields_getline.1 (yields_of_eq hblank),
        hcrlf⟩
    · exact absurd rfl hr
  rcases hdata : readContentWithLength (fun s piece => some (f s piece)) len s behind with
    ⟨_ | s', behind'⟩
  · simp only [chunkRound, hsize, hlen, if_neg hzero, hdata] at h
    exact absurd (congrArg Prod.fst h).symm hr
  obtain ⟨data, rfl, rfl, hbehind⟩ := (yields_readContentWithLength hf).1 (yields_of_eq hdata)
  rcases hline : getline behind' with ⟨_ | line, rest'⟩
  · simp only [chunkRound, hsize, hlen, if_neg hzero, hdata, hline] at h
    exact absurd (congrArg Prod.fst h).symm hr
  have hread := read_data hf (s := s) (fun h => hzero (by rw [h]; rfl)) (hbehind ▸ hfirst) hlen
    (yields_getline.1 (yields_of_eq hline))
  rw [h] at hread
  exact .inr ⟨size, data, line, _, fun h => hzero (by rw [h]; rfl), hbehind ▸ hfirst, hlen,
    hread.2 ▸ yields_getline.1 (yields_of_eq hline), hread.1⟩

/-- What is chunked is read. -/
theorem yields_of_chunked (hf : Joins f) {strm : List (Option UInt8)} {body : Bytes}
    {more : List (Option UInt8)} (h : Chunked strm body more) {s : σ} {socket : Incoming UInt8}
    (hflat : flat socket = strm) :
    Yields (readContentChunked (fun s piece => some (f s piece)) s socket) (some (f s body))
      more := by
  induction h generalizing s socket with
  | last hsize hlen hblank hend =>
    subst hflat
    obtain ⟨rest, hread, rfl⟩ := (read_last (f := f) (s := s) hsize hlen hblank hend).exists
    rw [readContentChunked, Round.loop_inr hread, hf.nil]
    exact ⟨rfl, rfl⟩
  | chunk hne hsize hlen hblank hend hnext ih =>
    subst hflat
    obtain ⟨rest, hread, hrest⟩ := (read_data hf (s := s) hne hsize hlen hblank).exists
    rw [if_pos hend] at hread
    rw [readContentChunked, Round.loop_inl hread, hf.append]
    exact ih hrest
  | cut hne hsize hlen hline hend =>
    subst hflat
    obtain ⟨rest, hread, rfl⟩ := (read_data hf (s := s) hne hsize hlen hline).exists
    rw [if_neg hend] at hread
    rw [readContentChunked, Round.loop_inr hread]
    exact ⟨rfl, rfl⟩

/-- What is read is chunked. -/
theorem chunked_of_yields (hf : Joins f) {s s' : σ} {strm : Incoming UInt8}
    {more : List (Option UInt8)}
    (h : Yields (readContentChunked (fun s piece => some (f s piece)) s strm) (some s') more) :
    ∃ body, f s body = s' ∧ Chunked (flat strm) body more := by
  rcases hread : (chunkRound fun s piece => some (f s piece)).read s strm with ⟨next | r, rest⟩
  · have hshorter := (chunkRound _).length_read hread
    rw [readContentChunked, Round.loop_inl hread] at h
    obtain ⟨h', -⟩ | ⟨size, data, blank, between, hne, hsize, hlen, hblank, hnext⟩ :=
      read_cases hf hread Sum.inl_ne_inr
    · cases h'
    split_ifs at hnext with hend
    cases hnext
    obtain ⟨body, rfl, hbody⟩ := chunked_of_yields hf h
    exact ⟨data ++ body, hf.append s data body, .chunk hne hsize hlen hblank hend hbody⟩
  · rw [readContentChunked, Round.loop_inr hread] at h
    obtain ⟨rfl, rfl⟩ := h
    obtain ⟨hs, size, blank, between, hsize, hlen, hblank, hend⟩ |
      ⟨size, data, line, between, hne, hsize, hlen, hline, hnext⟩ := read_cases hf hread (by simp)
    · cases hs
      exact ⟨[], hf.nil s, .last hsize hlen hblank hend⟩
    · split_ifs at hnext with hend
      cases hnext
      exact ⟨data, rfl, .cut hne hsize hlen hline hend⟩
termination_by (flat strm).length

/-- **A chunked content is read** as what is chunked, and as nothing else. -/
theorem readContentChunked_iff (hf : Joins f) {s s' : σ} {strm : Incoming UInt8}
    {more : List (Option UInt8)} :
    Yields (readContentChunked (fun s piece => some (f s piece)) s strm) (some s') more ↔
      ∃ body, f s body = s' ∧ Chunked (flat strm) body more := by
  refine ⟨chunked_of_yields hf, ?_⟩
  rintro ⟨body, rfl, hbody⟩
  exact yields_of_chunked hf hbody rfl

/-- **The grammar of a chunked content.**  A body is read, and so much is left behind it, just where
the chunks say so. -/
theorem chunked_content_iff {strm : Incoming UInt8} {body : Bytes} {more : List (Option UInt8)} :
    Yields (readContentChunked (fun body piece => some (body ++ piece)) [] strm) (some body) more ↔
      Chunked (flat strm) body more := by
  rw [readContentChunked_iff joins_append]
  simp

end Http
