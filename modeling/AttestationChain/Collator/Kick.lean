import AttestationChain.Collator.Pallet

/-!
# Collator/Kick — what a session leaves of the candidates

The kick walks a snapshot of the candidates and edits the stored list under it, by position.  As
long as no account is a candidate twice the two stay in step: what is stored is what was kept so
far, followed by what is left to walk (`kicks_kickStaleCandidates`).
-/

namespace Collator

variable {AccountId ValidatorId Ledger : Type} (c : Config AccountId ValidatorId Ledger)

/-- **A stale candidate**: it has not authored for the kick threshold. -/
def Stale (s : State AccountId Ledger) (candidate : CandidateInfo AccountId) : Prop :=
  c.kickThreshold ≤ s.blockNumber - s.lastBlock candidate.who

/-- The balances, once the deposits of some candidates are released. -/
def released (gone : List (CandidateInfo AccountId)) (ledger : Ledger) : Ledger :=
  gone.foldl (fun ledger candidate => c.unreserve ledger candidate.who candidate.deposit) ledger

variable [DecidableEq AccountId]

/-- The outcomes of the removals that the kick tries. -/
def kickOutcomes :
    State AccountId Ledger → List (CandidateInfo AccountId) → List (Except DispatchError ℕ)
  | _, [] => []
  | s, candidate :: rest =>
    let sinceLast := s.blockNumber - s.lastBlock candidate.who
    if sinceLast < c.kickThreshold ∨ s.candidates.length.toUInt32 ≤ c.minCandidates then
      kickOutcomes s rest
    else
      (tryRemoveCandidate c s candidate.who).1 ::
        kickOutcomes (tryRemoveCandidate c s candidate.who).2 rest

/-- **What a kick does** to the candidates it has left to walk, by those it leaves and those it
takes. -/
structure Kicks (s s' : State AccountId Ledger) (rest left gone : List (CandidateInfo AccountId)) :
    Prop where
  left_sublist : left.Sublist rest
  gone_sublist : gone.Sublist rest
  perm : (left ++ gone).Perm rest
  stale : ∀ candidate ∈ gone, Stale c s candidate
  ledger : s'.ledger = released c gone s.ledger
  events : s'.events = s.events ++ gone.map fun candidate => .candidateRemoved candidate.who
  lastAuthoredBlock : ∀ who, s'.lastAuthoredBlock who =
    if who ∈ gone.map CandidateInfo.who then none else s.lastAuthoredBlock who
  floor : (∃ candidate ∈ left, Stale c s candidate) →
    s'.candidates.length.toUInt32 ≤ c.minCandidates

variable {c} {s : State AccountId Ledger}

/-- The first entry of an account is its only one. -/
theorem tryRemoveCandidate_of_nodup {kept rest : List (CandidateInfo AccountId)}
    {candidate : CandidateInfo AccountId} (h : s.candidates = kept ++ candidate :: rest)
    (hnodup : s.candidateIds.Nodup) :
    (tryRemoveCandidate c s candidate.who).1 = .ok (kept ++ rest).length ∧
      (tryRemoveCandidate c s candidate.who).2 = s.removeCandidate c candidate ∧
      (s.removeCandidate c candidate).candidates = kept ++ rest := by
  have hkept : ∀ other ∈ kept, ¬ other.who = candidate.who := by
    intro other hother heq
    rw [State.candidateIds, h, List.map_append, List.nodup_append] at hnodup
    exact hnodup.2.2 _ (List.mem_map_of_mem hother) _ (by simp) heq
  have hfind : s.candidates.find? (fun other => other.who = candidate.who) = some candidate := by
    rw [h, List.find?_append, List.find?_eq_none.2 (by simpa using hkept), Option.none_or,
      List.find?_cons_of_pos (by simp)]
  have hleft : (s.removeCandidate c candidate).candidates = kept ++ rest := by
    change s.candidates.eraseP _ = _
    rw [h, List.eraseP_append_right _ (by simpa using hkept), List.eraseP_cons_of_pos (by simp)]
  rw [tryRemoveCandidate, hfind]
  exact ⟨by rw [← hleft], rfl, hleft⟩

/-- At the floor, everyone stays. -/
theorem kickStaleCandidates_of_floor (hfloor : s.candidates.length.toUInt32 ≤ c.minCandidates)
    (l : List (CandidateInfo AccountId)) :
    kickStaleCandidates c s l = (s, l.map CandidateInfo.who) ∧ kickOutcomes c s l = [] := by
  induction l with
  | nil => exact ⟨rfl, rfl⟩
  | cons candidate rest ih =>
    obtain ⟨hkick, hout⟩ := ih
    constructor
    · rw [kickStaleCandidates, if_pos (.inr hfloor), hkick, List.map_cons]
    · rw [kickOutcomes, if_pos (.inr hfloor), hout]

/-- Removing one candidate makes no other one stale, and none fresh. -/
theorem stale_removeCandidate {candidate other : CandidateInfo AccountId}
    (hne : ¬ other.who = candidate.who) :
    Stale c (s.removeCandidate c candidate) other ↔ Stale c s other := by
  have hlast : (s.removeCandidate c candidate).lastBlock other.who = s.lastBlock other.who := by
    simp [State.removeCandidate, State.depositEvent, State.lastBlock, hne]
  rw [Stale, Stale, hlast]
  rfl

namespace Kicks

variable {s' : State AccountId Ledger} {candidate : CandidateInfo AccountId}
  {rest left gone : List (CandidateInfo AccountId)}

/-- Nobody goes at the floor. -/
theorem of_floor (hfloor : s.candidates.length.toUInt32 ≤ c.minCandidates) :
    Kicks c s s rest rest [] where
  left_sublist := List.Sublist.refl _
  gone_sublist := List.nil_sublist _
  perm := by rw [List.append_nil]
  stale := by simp
  ledger := rfl
  events := by simp
  lastAuthoredBlock := by simp
  floor _ := hfloor

/-- One more that is not stale stays… -/
theorem stay (h : Kicks c s s' rest left gone) (hfresh : ¬ Stale c s candidate) :
    Kicks c s s' (candidate :: rest) (candidate :: left) gone where
  left_sublist := h.left_sublist.cons_cons _
  gone_sublist := h.gone_sublist.cons _
  perm := h.perm.cons _
  stale := h.stale
  ledger := h.ledger
  events := h.events
  lastAuthoredBlock := h.lastAuthoredBlock
  floor := by
    rintro ⟨other, hother, hstale⟩
    rcases List.mem_cons.1 hother with heq | hother
    · exact absurd (heq ▸ hstale) hfresh
    · exact h.floor ⟨other, hother, hstale⟩

/-- …and one that is stale goes, where no other is of its account. -/
theorem remove (h : Kicks c (s.removeCandidate c candidate) s' rest left gone)
    (hstale : Stale c s candidate) (hapart : ∀ other ∈ rest, ¬ other.who = candidate.who) :
    Kicks c s s' (candidate :: rest) left (candidate :: gone) where
  left_sublist := h.left_sublist.cons _
  gone_sublist := h.gone_sublist.cons_cons _
  perm := List.perm_middle.trans (h.perm.cons _)
  stale := by
    intro other hother
    rcases List.mem_cons.1 hother with heq | hother
    · exact heq ▸ hstale
    · exact (stale_removeCandidate (hapart other (h.gone_sublist.subset hother))).1
        (h.stale other hother)
  ledger := h.ledger
  events := by
    rw [h.events]
    simp [State.removeCandidate, State.depositEvent]
  lastAuthoredBlock := by
    intro who
    rw [h.lastAuthoredBlock, List.map_cons]
    by_cases hgone : who ∈ gone.map CandidateInfo.who
    · rw [if_pos hgone, if_pos (List.mem_cons_of_mem _ hgone)]
    · rw [if_neg hgone]
      by_cases hwho : who = candidate.who
      · rw [if_pos (hwho ▸ List.mem_cons_self), hwho]
        exact Function.update_self ..
      · rw [if_neg fun hmem => (List.mem_cons.1 hmem).elim hwho hgone]
        exact Function.update_of_ne hwho ..
  floor := by
    rintro ⟨other, hother, hstale'⟩
    have hne := hapart other (h.left_sublist.subset hother)
    exact h.floor ⟨other, hother, (stale_removeCandidate hne).2 hstale'⟩

end Kicks

/-- **The kick keeps in step with the storage.**  Stored is what was kept before, followed by what
is left to walk: then it ends with what was kept before, followed by those it returns. -/
theorem kicks_kickStaleCandidates (rest : List (CandidateInfo AccountId)) :
    ∀ {s : State AccountId Ledger} {kept : List (CandidateInfo AccountId)},
      s.candidates = kept ++ rest → s.candidateIds.Nodup →
      ∃ left gone, (kickStaleCandidates c s rest).1.candidates = kept ++ left ∧
        (kickStaleCandidates c s rest).2 = left.map CandidateInfo.who ∧
        Kicks c s (kickStaleCandidates c s rest).1 rest left gone ∧
        ∀ outcome ∈ kickOutcomes c s rest, ∃ n, outcome = .ok n := by
  induction rest with
  | nil =>
    intro s kept h _
    exact ⟨[], [], h, rfl, ⟨.refl _, .refl _, .refl _, by simp, rfl, by simp [kickStaleCandidates],
      by simp [kickStaleCandidates], by simp⟩, by simp [kickOutcomes]⟩
  | cons candidate rest ih =>
    intro s kept h hnodup
    by_cases hfloor : s.candidates.length.toUInt32 ≤ c.minCandidates
    · obtain ⟨hkick, hout⟩ := kickStaleCandidates_of_floor hfloor (candidate :: rest)
      rw [hkick, hout]
      exact ⟨candidate :: rest, [], h, rfl, .of_floor hfloor, by simp⟩
    by_cases hfresh : s.blockNumber - s.lastBlock candidate.who < c.kickThreshold
    · -- It stays, behind those kept before it.
      rw [kickStaleCandidates, if_pos (.inl hfresh), kickOutcomes, if_pos (.inl hfresh)]
      obtain ⟨left, gone, hleft, hret, hkicks, hok⟩ := @ih s (kept ++ [candidate])
        (by rw [h, List.append_assoc, List.singleton_append]) hnodup
      exact ⟨candidate :: left, gone, by rw [hleft, List.append_assoc, List.singleton_append],
        congrArg (List.cons candidate.who) hret, hkicks.stay (Nat.not_le.2 hfresh), hok⟩
    · obtain ⟨hoks, hs, hrest⟩ := tryRemoveCandidate_of_nodup (c := c) h hnodup
      have hne : ¬ (s.blockNumber - s.lastBlock candidate.who < c.kickThreshold ∨
          s.candidates.length.toUInt32 ≤ c.minCandidates) := not_or.2 ⟨hfresh, hfloor⟩
      have hids : s.candidateIds = kept.map CandidateInfo.who ++ candidate.who ::
          rest.map CandidateInfo.who := by
        rw [State.candidateIds, h, List.map_append, List.map_cons]
      rw [hids] at hnodup
      rw [kickStaleCandidates, if_neg hne, kickOutcomes, if_neg hne, hs, hoks]
      obtain ⟨left, gone, hleft, hret, hkicks, hok⟩ := ih hrest (by
        rw [State.candidateIds, hrest, List.map_append]
        exact (List.Sublist.append_left (List.sublist_cons_self _ _) _).nodup hnodup)
      have hapart : ∀ other ∈ rest, ¬ other.who = candidate.who := fun other hother heq =>
        (List.nodup_cons.1 (List.nodup_append.1 hnodup).2.1).1
          (heq ▸ List.mem_map_of_mem hother)
      refine ⟨left, candidate :: gone, hleft, hret, hkicks.remove (Nat.not_lt.1 hfresh) hapart, ?_⟩
      intro outcome houtcome
      rcases List.mem_cons.1 houtcome with heq | houtcome
      · exact ⟨_, heq⟩
      · exact hok outcome houtcome

/-- A length that fits is compared as it is. -/
theorem le_toNat_of_toUInt32_le {n : ℕ} {m : UInt32} (hn : n < UInt32.size)
    (h : n.toUInt32 ≤ m) : n ≤ m.toNat := by
  have hmod : n.toUInt32.toNat = n := Nat.mod_eq_of_lt hn
  exact hmod ▸ UInt32.le_iff_toNat_le.1 h

/-- **A session agrees with the storage, and kicks only the stale.**  Where no account is a
candidate twice, a new session names the invulnerables and then the accounts of exactly those
candidates that are left in the storage.  Those are a sublist of the candidates before, with their
deposits; the others were stale, their deposits are released and their last blocks removed, and
nobody else's is.  If a stale candidate is left, there are no more than the minimum; and no removal
fails. -/
theorem newSession_kicks (c : Config AccountId ValidatorId Ledger) (s : State AccountId Ledger)
    (hnodup : s.candidateIds.Nodup) :
    (newSession c s).2 = s.invulnerables ++ (newSession c s).1.candidateIds ∧
    (newSession c s).1.invulnerables = s.invulnerables ∧
    (∃ gone, Kicks c s (newSession c s).1 s.candidates (newSession c s).1.candidates gone) ∧
    ((∃ candidate ∈ (newSession c s).1.candidates, Stale c s candidate) →
      -- The length of a stored list is a `u32`.
      s.candidates.length < UInt32.size →
      (newSession c s).1.candidates.length ≤ c.minCandidates.toNat) ∧
    ∀ outcome ∈ kickOutcomes c s s.candidates, ∃ n, outcome = .ok n := by
  obtain ⟨left, gone, hleft, hret, hkicks, hok⟩ :=
    kicks_kickStaleCandidates (c := c) s.candidates (List.nil_append _).symm hnodup
  obtain ⟨hinv, -, -, -⟩ := kickStaleCandidates_frame c s s.candidates
  rw [List.nil_append] at hleft
  rw [← hleft] at hret hkicks
  refine ⟨?_, hinv, ⟨gone, hkicks⟩, fun hstale hlen => ?_, hok⟩
  · calc (newSession c s).2
        = (kickStaleCandidates c s s.candidates).1.invulnerables ++
            (kickStaleCandidates c s s.candidates).2 := rfl
      _ = s.invulnerables ++ (newSession c s).1.candidateIds := by rw [hinv, hret]; rfl
  · exact le_toNat_of_toUInt32_le (hkicks.left_sublist.length_le.trans_lt hlen)
      (hkicks.floor hstale)

/-- Two candidates, both stale for a threshold of 20 blocks, of whom one has to be kept. -/
def staleState : State ℕ Unit :=
  ⟨40, [], (), [1], [⟨3, 10⟩, ⟨4, 10⟩], fun _ => some 10, 20, 10⟩

/-- The session drops the first of them. -/
theorem newSession_kicks_first :
    (newSession { plainConfig 20 with minCandidates := 1 } staleState).2 = [1, 4] :=
  (newSession_kicks { plainConfig 20 with minCandidates := 1 } staleState (by decide)).1.trans
    (by decide)

end Collator
