import Mathlib.Data.List.Basic
import Mathlib.Tactic.Common

/-!
# Machinery/Segments — what arrives on a connection, and the loops that read it

A peer sends elements one after another, and pauses now and then for longer than one waits for it; a
connection hands them over in segments, of whatever lengths.  `flat` forgets the segments.

What reads a connection is a loop of rounds, each of which reads something or is the last
(`Round.loop`).  Three of them read it until an element that ends a line (`receiveUntil`), up to a
length (`receive`) and to its end (`receiveAll`).  Each does to what is flat what its counterpart
there does (`lineOf`, `takeSome`, `toEnd`), so nothing they read depends on the segments — as long
as it is fed to a receiver that takes two pieces as it takes them joined (`Joins`).
-/

namespace Segments

variable {α β σ : Type*}

/-! ## Connections -/

/-- What arrives: a segment, which is not empty, or nothing for as long as one waits. -/
inductive Arrival (α : Type*)
  | segment (head : α) (tail : List α)
  | pause

/-- What is to arrive on a connection, up to its end. -/
abbrev Incoming (α : Type*) := List (Arrival α)

/-- What one `recv` yields. -/
inductive Received (α : Type*)
  | data (piece : List α)
  | closed
  | nothing

/-- What is left of a segment, before what arrives behind it. -/
def putBack : List α → Incoming α → Incoming α
  | [], strm => strm
  | head :: tail, strm => .segment head tail :: strm

/-- `recv`: of the segment at hand, as much as there is room for. -/
def recv (size : ℕ) : Incoming α → Received α × Incoming α
  | [] => (.closed, [])
  | .pause :: strm => (.nothing, strm)
  | .segment head tail :: strm =>
    (.data ((head :: tail).take size), putBack ((head :: tail).drop size) strm)

/-- What is to arrive, the segments forgotten: the elements, and `none` for a pause. -/
def flat : Incoming α → List (Option α)
  | [] => []
  | .pause :: strm => none :: flat strm
  | .segment head tail :: strm => (head :: tail).map some ++ flat strm

theorem flat_putBack (piece : List α) (strm : Incoming α) :
    flat (putBack piece strm) = piece.map some ++ flat strm := by
  cases piece <;> rfl

/-- **What `recv` yields**, with room for something. -/
theorem recv_cases {size : ℕ} (hsize : 0 < size) (strm : Incoming α) :
    (recv size strm = (.closed, []) ∧ flat strm = []) ∨
    (∃ rest, recv size strm = (.nothing, rest) ∧ flat strm = none :: flat rest) ∨
    ∃ piece rest, piece ≠ [] ∧ piece.length ≤ size ∧ recv size strm = (.data piece, rest) ∧
      flat strm = piece.map some ++ flat rest := by
  rcases strm with _ | ⟨⟨head, tail⟩ | _, strm⟩
  · exact .inl ⟨rfl, rfl⟩
  · refine .inr (.inr ⟨_, _, ?_, List.length_take_le _ _, rfl, ?_⟩)
    · simpa using Nat.ne_of_gt hsize
    · rw [flat_putBack, ← List.append_assoc, ← List.map_append, List.take_append_drop, flat]
  · exact .inr (.inl ⟨strm, rfl, rfl⟩)

/-- A piece that was read is not there any more. -/
theorem length_flat_recv {size : ℕ} (hsize : 0 < size) {strm rest : Incoming α} {piece : List α}
    (h : recv size strm = (.data piece, rest)) : (flat rest).length < (flat strm).length := by
  rcases recv_cases hsize strm with ⟨hrecv, -⟩ | ⟨rest', hrecv, -⟩ |
    ⟨piece', rest', hne, -, hrecv, hflat⟩ <;> rw [hrecv] at h
  · cases h
  · cases h
  · cases h
    have := List.length_pos_iff.2 hne
    rw [hflat, List.length_append, List.length_map]
    omega

/-- Nothing arrives by reading. -/
theorem length_flat_recv_le {size : ℕ} (hsize : 0 < size) {strm rest : Incoming α}
    {received : Received α} (h : recv size strm = (received, rest)) :
    (flat rest).length ≤ (flat strm).length := by
  rcases recv_cases hsize strm with ⟨hrecv, hflat⟩ | ⟨rest', hrecv, hflat⟩ |
    ⟨piece, rest', -, -, hrecv, hflat⟩ <;> rw [hrecv] at h <;> cases h <;> rw [hflat]
  · exact Nat.le_refl _
  · exact Nat.le_succ _
  · exact (List.sublist_append_right _ _).length_le

/-! ## Loops -/

/-- **A round of a loop**: it ends the loop, or it reads something and hands a state on. -/
structure Round (α σ β : Type*) where
  read : σ → Incoming α → (σ ⊕ β) × Incoming α
  length_read : ∀ {s s' strm rest}, read s strm = (.inl s', rest) →
    (flat rest).length < (flat strm).length

/-- The loop of a round. -/
def Round.loop (round : Round α σ β) (s : σ) (strm : Incoming α) : β × Incoming α :=
  match h : round.read s strm with
  | (.inl s', rest) =>
    have := round.length_read h
    round.loop s' rest
  | (.inr b, rest) => (b, rest)
termination_by (flat strm).length

namespace Round

variable {round : Round α σ β} {s s' : σ} {b : β} {strm strm' rest : Incoming α}

theorem loop_inl (h : round.read s strm = (.inl s', rest)) :
    round.loop s strm = round.loop s' rest := by
  rw [loop]
  split <;> simp_all

theorem loop_inr (h : round.read s strm = (.inr b, rest)) : round.loop s strm = (b, rest) := by
  rw [loop]
  split <;> simp_all

/-- A loop leaves no more than there was, if its last round does. -/
theorem length_loop_le (hlast : ∀ {s b strm rest}, round.read s strm = (.inr b, rest) →
    (flat rest).length ≤ (flat strm).length) (s : σ) (strm : Incoming α) :
    (flat (round.loop s strm).2).length ≤ (flat strm).length := by
  rcases hread : round.read s strm with ⟨s' | b, rest⟩
  · have hshorter := round.length_read hread
    rw [loop_inl hread]
    exact Nat.le_trans (length_loop_le hlast s' rest) (Nat.le_of_lt hshorter)
  · rw [loop_inr hread]
    exact hlast hread
termination_by (flat strm).length

end Round

/-- **A reading yields** what it read, and leaves what is flat as that. -/
def Yields (reading : β × Incoming α) (b : β) (more : List (Option α)) : Prop :=
  reading.1 = b ∧ flat reading.2 = more

theorem Yields.exists {reading : β × Incoming α} {b : β} {more : List (Option α)}
    (h : Yields reading b more) : ∃ rest, reading = (b, rest) ∧ flat rest = more :=
  ⟨reading.2, Prod.ext h.1 rfl, h.2⟩

theorem yields_of_eq {reading : β × Incoming α} {b : β} {rest : Incoming α}
    (h : reading = (b, rest)) : Yields reading b (flat rest) :=
  ⟨congrArg Prod.fst h, congrArg (fun r => flat r.2) h⟩

/-- **Two readings are alike** if they read the same and leave the same, the segments forgotten. -/
def Alike (a b : β × Incoming α) : Prop := Yields a b.1 (flat b.2)

theorem Alike.exists {a b : β × Incoming α} (h : Alike a b) :
    ∃ read rest rest', a = (read, rest) ∧ b = (read, rest') ∧ flat rest = flat rest' :=
  ⟨b.1, a.2, b.2, Prod.ext h.1 rfl, rfl, h.2⟩

theorem Round.alike_loop {round : Round α σ β}
    (hround : ∀ s strm strm', flat strm = flat strm' →
      Alike (round.read s strm) (round.read s strm'))
    (s : σ) {strm strm' : Incoming α} (h : flat strm = flat strm') :
    Alike (round.loop s strm) (round.loop s strm') := by
  obtain ⟨s' | b, rest, rest', hread, hread', hrest⟩ := (hround s strm strm' h).exists
  · have hshorter := round.length_read hread
    rw [loop_inl hread, loop_inl hread']
    exact alike_loop hround s' hrest
  · rw [loop_inr hread, loop_inr hread']
    exact ⟨rfl, hrest⟩
termination_by (flat strm).length

/-! ## Up to a length -/

/-- As many elements, up to a pause or the end. -/
def takeSome : ℕ → List (Option α) → Option (List α) × List (Option α)
  | 0, strm => (some [], strm)
  | _ + 1, [] => (none, [])
  | _ + 1, none :: strm => (none, strm)
  | n + 1, some a :: strm => ((takeSome n strm).1.map (a :: ·), (takeSome n strm).2)

/-- **Reading up to a length**, through a buffer: each piece goes to a receiver, which may refuse
it. -/
def receiveRound (bufsiz : ℕ) (hbuf : 0 < bufsiz) (out : σ → List α → Option σ) :
    Round α (ℕ × σ) (Option σ) where
  read := fun (len, s) strm =>
    if len = 0 then (.inr (some s), strm)
    else
      match recv (min len bufsiz) strm with
      | (.data piece, rest) =>
        match out s piece with
        | none => (.inr none, rest)
        | some s => (.inl (len - piece.length, s), rest)
      | (.closed, rest) => (.inr none, rest)
      | (.nothing, rest) => (.inr none, rest)
  length_read := by
    rintro ⟨len, s⟩ s' strm rest h
    dsimp only at h
    split at h
    · cases h
    · next hlen =>
      split at h
      · next hrecv =>
        split at h <;> cases h
        exact length_flat_recv (Nat.lt_min.2 ⟨Nat.pos_of_ne_zero hlen, hbuf⟩) hrecv
      · cases h
      · cases h

def receive (bufsiz : ℕ) (hbuf : 0 < bufsiz) (out : σ → List α → Option σ) (len : ℕ) (s : σ)
    (strm : Incoming α) : Option σ × Incoming α :=
  (receiveRound bufsiz hbuf out).loop (len, s) strm

section Receive

variable {bufsiz : ℕ} (hbuf : 0 < bufsiz) (out : σ → List α → Option σ) {len : ℕ} (s : σ)
  {strm rest : Incoming α}

theorem receive_zero : receive bufsiz hbuf out 0 s strm = (some s, strm) :=
  Round.loop_inr rfl

theorem receive_data (hlen : len ≠ 0) {piece : List α}
    (h : recv (min len bufsiz) strm = (.data piece, rest)) {s' : σ} (hout : out s piece = some s') :
    receive bufsiz hbuf out len s strm =
      receive bufsiz hbuf out (len - piece.length) s' rest :=
  Round.loop_inl (by simp [receiveRound, hlen, h, hout])

theorem receive_ends (hlen : len ≠ 0)
    (h : recv (min len bufsiz) strm = (.closed, rest) ∨
      recv (min len bufsiz) strm = (.nothing, rest)) :
    receive bufsiz hbuf out len s strm = (none, rest) :=
  Round.loop_inr (by rcases h with h | h <;> simp [receiveRound, hlen, h])

end Receive

/-- A receiver that takes two pieces as it takes them joined. -/
structure Joins (f : σ → List α → σ) : Prop where
  nil : ∀ s, f s [] = s
  append : ∀ s a b, f s (a ++ b) = f (f s a) b

theorem joins_append : Joins fun s piece : List α => s ++ piece :=
  ⟨List.append_nil, fun s a b => (List.append_assoc s a b).symm⟩

theorem takeSome_nil {n : ℕ} (hn : n ≠ 0) : takeSome n ([] : List (Option α)) = (none, []) := by
  cases n with
  | zero => exact absurd rfl hn
  | succ n => rfl

theorem takeSome_none {n : ℕ} (hn : n ≠ 0) (strm : List (Option α)) :
    takeSome n (none :: strm) = (none, strm) := by
  cases n with
  | zero => exact absurd rfl hn
  | succ n => rfl

theorem takeSome_map_some (piece : List α) (n : ℕ) (strm : List (Option α)) :
    takeSome (piece.length + n) (piece.map some ++ strm) =
      ((takeSome n strm).1.map (piece ++ ·), (takeSome n strm).2) := by
  induction piece with
  | nil => simp
  | cons a piece ih =>
    rw [List.length_cons, Nat.add_right_comm, List.map_cons, List.cons_append, takeSome, ih]
    cases (takeSome n strm).1 <;> rfl

/-- **What is read up to a length** is what comes first, of that length. -/
theorem takeSome_eq_some {n : ℕ} {piece : List α} {strm more : List (Option α)} :
    takeSome n strm = (some piece, more) ↔ piece.length = n ∧ strm = piece.map some ++ more := by
  constructor
  · intro h
    induction n generalizing piece strm with
    | zero =>
      cases h
      exact ⟨rfl, rfl⟩
    | succ n ih =>
      obtain _ | ⟨_ | a, strm⟩ := strm
      · cases h
      · cases h
      · obtain ⟨hread, hmore⟩ := Prod.mk.inj h
        obtain ⟨piece', hpiece, rfl⟩ := Option.map_eq_some_iff.1 hread
        obtain ⟨rfl, rfl⟩ := ih (Prod.ext hpiece hmore)
        exact ⟨rfl, rfl⟩
  · rintro ⟨rfl, rfl⟩
    rw [← Nat.add_zero piece.length, takeSome_map_some, takeSome]
    simp

/-- **Reading does not depend on the segments.** -/
theorem receive_eq {bufsiz : ℕ} (hbuf : 0 < bufsiz) {f : σ → List α → σ} (hf : Joins f) (len : ℕ)
    (s : σ) (strm : Incoming α) :
    (receive bufsiz hbuf (fun s piece => some (f s piece)) len s strm).1 =
      (takeSome len (flat strm)).1.map (f s) ∧
    flat (receive bufsiz hbuf (fun s piece => some (f s piece)) len s strm).2 =
      (takeSome len (flat strm)).2 := by
  by_cases hlen : len = 0
  · subst hlen
    rw [receive_zero]
    exact ⟨congrArg some (hf.nil s).symm, rfl⟩
  have hsize : 0 < min len bufsiz := Nat.lt_min.2 ⟨Nat.pos_of_ne_zero hlen, hbuf⟩
  rcases recv_cases hsize strm with ⟨h, hflat⟩ | ⟨rest, h, hflat⟩ |
    ⟨piece, rest, hne, hle, h, hflat⟩
  · rw [receive_ends hbuf _ s hlen (.inl h), hflat, takeSome_nil hlen]
    exact ⟨rfl, rfl⟩
  · rw [receive_ends hbuf _ s hlen (.inr h), hflat, takeSome_none hlen]
    exact ⟨rfl, rfl⟩
  · have hshorter := length_flat_recv hsize h
    obtain ⟨n, rfl⟩ := Nat.exists_eq_add_of_le (Nat.le_trans hle (Nat.min_le_left _ _))
    obtain ⟨hread, hrest⟩ := receive_eq hbuf hf n (f s piece) rest
    rw [receive_data hbuf _ s hlen h rfl, Nat.add_sub_cancel_left, hread, hrest, hflat,
      takeSome_map_some]
    refine ⟨?_, rfl⟩
    cases (takeSome n (flat rest)).1 with
    | none => rfl
    | some more => exact congrArg some (hf.append s piece more).symm
termination_by (flat strm).length

/-- **What is read up to a length**, the segments forgotten. -/
theorem yields_receive {bufsiz : ℕ} (hbuf : 0 < bufsiz) {f : σ → List α → σ} (hf : Joins f)
    {len : ℕ} {s s' : σ} {strm : Incoming α} {more : List (Option α)} :
    Yields (receive bufsiz hbuf (fun s piece => some (f s piece)) len s strm) (some s') more ↔
      ∃ piece, piece.length = len ∧ f s piece = s' ∧ flat strm = piece.map some ++ more := by
  obtain ⟨hread, hrest⟩ := receive_eq hbuf hf len s strm
  rw [Yields, hread, hrest, Option.map_eq_some_iff]
  constructor
  · rintro ⟨⟨piece, htake, hs'⟩, hmore⟩
    obtain ⟨hlen, hflat⟩ := takeSome_eq_some.1 (Prod.ext htake hmore)
    exact ⟨piece, hlen, hs', hflat⟩
  · rintro ⟨piece, hlen, hs', hflat⟩
    have htake := takeSome_eq_some.2 ⟨hlen, hflat⟩
    exact ⟨⟨piece, congrArg Prod.fst htake, hs'⟩, congrArg Prod.snd htake⟩

theorem alike_receive {bufsiz : ℕ} (hbuf : 0 < bufsiz) {f : σ → List α → σ} (hf : Joins f)
    (len : ℕ) (s : σ) {strm strm' : Incoming α} (h : flat strm = flat strm') :
    Alike (receive bufsiz hbuf (fun s piece => some (f s piece)) len s strm)
      (receive bufsiz hbuf (fun s piece => some (f s piece)) len s strm') := by
  obtain ⟨hread, hrest⟩ := receive_eq hbuf hf len s strm
  obtain ⟨hread', hrest'⟩ := receive_eq hbuf hf len s strm'
  exact ⟨by rw [hread, hread', h], by rw [hrest, hrest', h]⟩

/-- Reading up to a length leaves no more than there was. -/
theorem length_receive_le {bufsiz : ℕ} (hbuf : 0 < bufsiz) (out : σ → List α → Option σ) (len : ℕ)
    (s : σ) (strm : Incoming α) :
    (flat (receive bufsiz hbuf out len s strm).2).length ≤ (flat strm).length := by
  refine Round.length_loop_le (fun {s b strm rest} h => ?_) _ _
  simp only [receiveRound] at h
  split at h
  · cases h
    exact Nat.le_refl _
  · next hlen =>
    have hsize : 0 < min s.1 bufsiz := Nat.lt_min.2 ⟨Nat.pos_of_ne_zero hlen, hbuf⟩
    split at h
    · next hrecv =>
      split at h <;> cases h
      exact length_flat_recv_le hsize hrecv
    · next hrecv =>
      cases h
      exact length_flat_recv_le hsize hrecv
    · next hrecv =>
      cases h
      exact length_flat_recv_le hsize hrecv

/-! ## To the end -/

/-- The elements up to the end, if there is no pause before it. -/
def toEnd : List (Option α) → Option (List α) × List (Option α)
  | [] => (some [], [])
  | none :: strm => (none, strm)
  | some a :: strm => ((toEnd strm).1.map (a :: ·), (toEnd strm).2)

/-- **Reading to the end**, through a buffer. -/
def receiveAllRound (bufsiz : ℕ) (hbuf : 0 < bufsiz) (out : σ → List α → Option σ) :
    Round α σ (Option σ) where
  read := fun s strm =>
    match recv bufsiz strm with
    | (.data piece, rest) =>
      match out s piece with
      | none => (.inr none, rest)
      | some s => (.inl s, rest)
    | (.closed, rest) => (.inr (some s), rest)
    | (.nothing, rest) => (.inr none, rest)
  length_read := by
    intro s s' strm rest h
    split at h
    · next hrecv =>
      split at h <;> cases h
      exact length_flat_recv hbuf hrecv
    · cases h
    · cases h

def receiveAll (bufsiz : ℕ) (hbuf : 0 < bufsiz) (out : σ → List α → Option σ) (s : σ)
    (strm : Incoming α) : Option σ × Incoming α :=
  (receiveAllRound bufsiz hbuf out).loop s strm

section ReceiveAll

variable {bufsiz : ℕ} (hbuf : 0 < bufsiz) (out : σ → List α → Option σ) (s : σ)
  {strm rest : Incoming α}

theorem receiveAll_data {piece : List α} (h : recv bufsiz strm = (.data piece, rest)) {s' : σ}
    (hout : out s piece = some s') :
    receiveAll bufsiz hbuf out s strm = receiveAll bufsiz hbuf out s' rest :=
  Round.loop_inl (by simp [receiveAllRound, h, hout])

theorem receiveAll_closed (h : recv bufsiz strm = (.closed, rest)) :
    receiveAll bufsiz hbuf out s strm = (some s, rest) :=
  Round.loop_inr (by simp [receiveAllRound, h])

theorem receiveAll_nothing (h : recv bufsiz strm = (.nothing, rest)) :
    receiveAll bufsiz hbuf out s strm = (none, rest) :=
  Round.loop_inr (by simp [receiveAllRound, h])

end ReceiveAll

theorem toEnd_map_some (piece : List α) (strm : List (Option α)) :
    toEnd (piece.map some ++ strm) = ((toEnd strm).1.map (piece ++ ·), (toEnd strm).2) := by
  induction piece with
  | nil => simp
  | cons a piece ih =>
    rw [List.map_cons, List.cons_append, toEnd, ih]
    cases (toEnd strm).1 <;> rfl

/-- **Reading to the end does not depend on the segments.** -/
theorem receiveAll_eq {bufsiz : ℕ} (hbuf : 0 < bufsiz) {f : σ → List α → σ} (hf : Joins f) (s : σ)
    (strm : Incoming α) :
    (receiveAll bufsiz hbuf (fun s piece => some (f s piece)) s strm).1 =
      (toEnd (flat strm)).1.map (f s) ∧
    flat (receiveAll bufsiz hbuf (fun s piece => some (f s piece)) s strm).2 =
      (toEnd (flat strm)).2 := by
  rcases recv_cases hbuf strm with ⟨h, hflat⟩ | ⟨rest, h, hflat⟩ | ⟨piece, rest, -, -, h, hflat⟩
  · rw [receiveAll_closed hbuf _ s h, hflat]
    exact ⟨congrArg some (hf.nil s).symm, rfl⟩
  · rw [receiveAll_nothing hbuf _ s h, hflat]
    exact ⟨rfl, rfl⟩
  · have hshorter := length_flat_recv hbuf h
    obtain ⟨hread, hrest⟩ := receiveAll_eq hbuf hf (f s piece) rest
    rw [receiveAll_data hbuf _ s h rfl, hread, hrest, hflat, toEnd_map_some]
    refine ⟨?_, rfl⟩
    cases (toEnd (flat rest)).1 with
    | none => rfl
    | some more => exact congrArg some (hf.append s piece more).symm
termination_by (flat strm).length

theorem alike_receiveAll {bufsiz : ℕ} (hbuf : 0 < bufsiz) {f : σ → List α → σ} (hf : Joins f)
    (s : σ) {strm strm' : Incoming α} (h : flat strm = flat strm') :
    Alike (receiveAll bufsiz hbuf (fun s piece => some (f s piece)) s strm)
      (receiveAll bufsiz hbuf (fun s piece => some (f s piece)) s strm') := by
  obtain ⟨hread, hrest⟩ := receiveAll_eq hbuf hf s strm
  obtain ⟨hread', hrest'⟩ := receiveAll_eq hbuf hf s strm'
  exact ⟨by rw [hread, hread', h], by rw [hrest, hrest', h]⟩

/-! ## Until the end of a line -/

/-- The elements up to the first that ends a line, or to the end; none if there is no element, or a
pause before. -/
def lineOf (ends : α → Bool) (line : List α) : List (Option α) → Option (List α) × List (Option α)
  | [] => (if line = [] then none else some line, [])
  | none :: strm => (none, strm)
  | some a :: strm => if ends a then (some (line ++ [a]), strm) else lineOf ends (line ++ [a]) strm

/-- **Reading a line**, element by element. -/
def lineRound (ends : α → Bool) : Round α (List α) (Option (List α)) where
  read := fun line strm =>
    match recv 1 strm with
    | (.data piece, rest) =>
      if piece.any ends then (.inr (some (line ++ piece)), rest) else (.inl (line ++ piece), rest)
    | (.closed, rest) => (.inr (if line = [] then none else some line), rest)
    | (.nothing, rest) => (.inr none, rest)
  length_read := by
    intro line line' strm rest h
    split at h
    · next hrecv =>
      split_ifs at h <;> cases h
      exact length_flat_recv Nat.one_pos hrecv
    · cases h
    · cases h

def receiveUntil (ends : α → Bool) (line : List α) (strm : Incoming α) :
    Option (List α) × Incoming α :=
  (lineRound ends).loop line strm

section ReceiveUntil

variable (ends : α → Bool) (line : List α) {strm rest : Incoming α}

theorem receiveUntil_data {a : α} (h : recv 1 strm = (.data [a], rest)) :
    receiveUntil ends line strm =
      if ends a then (some (line ++ [a]), rest) else receiveUntil ends (line ++ [a]) rest := by
  split_ifs with ha
  · exact Round.loop_inr (by simp [lineRound, h, ha])
  · exact Round.loop_inl (by simp [lineRound, h, ha])

theorem receiveUntil_closed (h : recv 1 strm = (.closed, rest)) :
    receiveUntil ends line strm = (if line = [] then none else some line, rest) :=
  Round.loop_inr (by simp [lineRound, h])

theorem receiveUntil_nothing (h : recv 1 strm = (.nothing, rest)) :
    receiveUntil ends line strm = (none, rest) :=
  Round.loop_inr (by simp [lineRound, h])

end ReceiveUntil

/-- **A line does not depend on the segments.** -/
theorem receiveUntil_eq (ends : α → Bool) (line : List α) (strm : Incoming α) :
    (receiveUntil ends line strm).1 = (lineOf ends line (flat strm)).1 ∧
    flat (receiveUntil ends line strm).2 = (lineOf ends line (flat strm)).2 := by
  rcases recv_cases Nat.one_pos strm with ⟨h, hflat⟩ | ⟨rest, h, hflat⟩ |
    ⟨piece, rest, hne, hle, h, hflat⟩
  · rw [receiveUntil_closed ends line h, hflat]
    exact ⟨rfl, rfl⟩
  · rw [receiveUntil_nothing ends line h, hflat]
    exact ⟨rfl, rfl⟩
  · have hshorter := length_flat_recv Nat.one_pos h
    obtain ⟨a, rfl⟩ : ∃ a, piece = [a] := by
      rw [← List.length_eq_one_iff]
      have := List.length_pos_iff.2 hne
      omega
    rw [receiveUntil_data ends line h, hflat]
    simp only [List.map_cons, List.map_nil, List.cons_append, List.nil_append, lineOf]
    split_ifs
    · exact ⟨rfl, rfl⟩
    · exact receiveUntil_eq ends (line ++ [a]) rest
termination_by (flat strm).length

theorem alike_receiveUntil (ends : α → Bool) (line : List α) {strm strm' : Incoming α}
    (h : flat strm = flat strm') :
    Alike (receiveUntil ends line strm) (receiveUntil ends line strm') := by
  obtain ⟨hread, hrest⟩ := receiveUntil_eq ends line strm
  obtain ⟨hread', hrest'⟩ := receiveUntil_eq ends line strm'
  exact ⟨by rw [hread, hread', h], by rw [hrest, hrest', h]⟩

/-- What is read of a line, is not there any more. -/
theorem length_lineOf (ends : α → Bool) (line : List α) (strm : List (Option α)) :
    (lineOf ends line strm).2.length ≤ strm.length ∧
    (strm ≠ [] → (lineOf ends line strm).2.length < strm.length) := by
  induction strm generalizing line with
  | nil => exact ⟨Nat.le_refl _, fun h => absurd rfl h⟩
  | cons a strm ih =>
    have hlt : (lineOf ends line (a :: strm)).2.length < (a :: strm).length := by
      rcases a with _ | a
      · exact Nat.lt_succ_self _
      · rw [lineOf]
        split_ifs
        · exact Nat.lt_succ_self _
        · exact Nat.lt_succ_of_le (ih _).1
    exact ⟨Nat.le_of_lt hlt, fun _ => hlt⟩

/-- A line that was read left less to read. -/
theorem length_receiveUntil {ends : α → Bool} {strm rest : Incoming α} {line : List α}
    (h : receiveUntil ends [] strm = (some line, rest)) :
    (flat rest).length < (flat strm).length := by
  obtain ⟨hread, hrest⟩ := receiveUntil_eq ends [] strm
  rw [h] at hread hrest
  rw [hrest]
  refine (length_lineOf ends [] (flat strm)).2 fun hnil => ?_
  rw [hnil] at hread
  cases hread

/-- **A line is ended** by its last element, and by none before, or by the end of what there is. -/
def Ended (ends : α → Bool) : List α → List (Option α) → Prop
  | [], more => more = []
  | a :: line, more => if ends a then line = [] else Ended ends line more

theorem ended_append {ends : α → Bool} {line : List α} {a : α} (ha : ends a = true)
    (hline : ∀ b ∈ line, ends b = false) (more : List (Option α)) :
    Ended ends (line ++ [a]) more := by
  induction line with
  | nil => simp [Ended, ha]
  | cons b line ih =>
    obtain ⟨hb, hline⟩ := List.forall_mem_cons.1 hline
    rw [List.cons_append, Ended, hb, if_neg Bool.false_ne_true]
    exact ih hline

/-- What is there before the end of a line is an element of it. -/
theorem Ended.exists_cons {ends : α → Bool} {line : List α} {a : Option α}
    {strm more : List (Option α)} (h : Ended ends line more)
    (hstrm : a :: strm = line.map some ++ more) :
    ∃ b line', a = some b ∧ line = b :: line' ∧ strm = line'.map some ++ more := by
  cases line with
  | nil =>
    obtain rfl : more = [] := h
    cases hstrm
  | cons b line => exact ⟨b, line, (List.cons.inj hstrm).1, rfl, (List.cons.inj hstrm).2⟩

/-- **What is read of a line** is what comes first, up to its end. -/
theorem lineOf_eq_some {ends : α → Bool} {read line : List α} {strm more : List (Option α)} :
    lineOf ends read strm = (some line, more) ↔
      ∃ tail, line = read ++ tail ∧ line ≠ [] ∧ strm = tail.map some ++ more ∧
        Ended ends tail more := by
  induction strm generalizing read with
  | nil =>
    constructor
    · intro h
      obtain ⟨hread, rfl⟩ := Prod.mk.inj h
      split_ifs at hread with hnil
      cases hread
      exact ⟨[], (List.append_nil _).symm, hnil, rfl, rfl⟩
    · rintro ⟨tail, rfl, hne, hstrm, -⟩
      obtain ⟨htail, rfl⟩ := List.append_eq_nil_iff.1 hstrm.symm
      obtain rfl := List.map_eq_nil_iff.1 htail
      rw [List.append_nil] at hne ⊢
      rw [lineOf, if_neg hne]
  | cons a strm ih =>
    obtain _ | a := a
    · refine ⟨fun h => (Option.some_ne_none _ (Prod.mk.inj h).1.symm).elim, ?_⟩
      rintro ⟨tail, -, -, hstrm, hended⟩
      obtain ⟨b, tail', ⟨⟩, -⟩ := hended.exists_cons hstrm
    · rw [lineOf]
      split_ifs with ha
      · constructor
        · rintro ⟨⟩
          exact ⟨[a], rfl, by simp, rfl, by simp [Ended, ha]⟩
        · rintro ⟨tail, rfl, -, hstrm, hended⟩
          obtain ⟨_, tail', ⟨⟩, rfl, rfl⟩ := hended.exists_cons hstrm
          obtain rfl : tail' = [] := by simpa [Ended, ha] using hended
          rfl
      · rw [ih]
        constructor
        · rintro ⟨tail, rfl, hne, rfl, hended⟩
          exact ⟨a :: tail, by simp, hne, rfl, by simpa [Ended, ha] using hended⟩
        · rintro ⟨tail, rfl, hne, hstrm, hended⟩
          obtain ⟨_, tail', ⟨⟩, rfl, hrest⟩ := hended.exists_cons hstrm
          exact ⟨tail', by simp, hne, hrest, by simpa [Ended, ha] using hended⟩

/-- **What is read of a line**, the segments forgotten. -/
theorem yields_receiveUntil {ends : α → Bool} {line : List α} {strm : Incoming α}
    {more : List (Option α)} :
    Yields (receiveUntil ends [] strm) (some line) more ↔
      line ≠ [] ∧ flat strm = line.map some ++ more ∧ Ended ends line more := by
  obtain ⟨hread, hrest⟩ := receiveUntil_eq ends [] strm
  have hline := @lineOf_eq_some _ ends [] line (flat strm) more
  rw [Prod.ext_iff] at hline
  rw [Yields, hread, hrest, hline]
  simp

end Segments
