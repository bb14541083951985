import AttestationChain.Collator.Candidacy
import AttestationChain.Collator.Pipeline

/-!
# Collator/Capacity — how many collators a session can have

Nothing enforces `MaxCandidates` and `MaxInvulnerables` behind genesis: governance is warned and
obeyed.  But a registration looks at the number of candidates governance asked for last, so as long
as governance keeps to two bounds the pallet does, and no session is larger than both together
(`seats_within`).
-/

namespace Collator

open Runs

variable {AccountId ValidatorId Ledger : Type} [DecidableEq AccountId]
  {c : Config AccountId ValidatorId Ledger} {authorshipFirst : Bool}

variable (c) in
/-- **A call that keeps to the bounds**: it appoints no more invulnerables than the one, and asks
for no more candidates than the other. -/
def KeepsTo (seats : ℕ) (max : UInt32) (origin : Origin AccountId) : Call AccountId → Prop
  | .setInvulnerables new => c.updateOrigin origin = true → new.length ≤ seats
  | .setDesiredCandidates desired => c.updateOrigin origin = true → desired ≤ max
  | _ => True

/-- **Within bounds**: the invulnerables, the candidates, and the candidates there may be. -/
structure Within (seats : ℕ) (max : UInt32) (s : State AccountId Ledger) : Prop where
  invulnerables : s.invulnerables.length ≤ seats
  candidates : s.candidateIds.length ≤ max.toNat
  desired : s.desiredCandidates ≤ max

variable {seats : ℕ} {max : UInt32}

/-- The number of candidates to have is set by governance, and by nothing else. -/
theorem desiredCandidates_step (s : State AccountId Ledger) (a : Step AccountId Ledger) :
    (step c s a).desiredCandidates = s.desiredCandidates ∨
      ∃ origin, a = .call origin (.setDesiredCandidates (step c s a).desiredCandidates) ∧
        c.updateOrigin origin = true := by
  have hremove : ∀ (s' : State AccountId Ledger) who,
      s'.desiredCandidates = s.desiredCandidates →
      (tryRemoveCandidate c s' who).2.desiredCandidates = s.desiredCandidates := by
    intro s' who h
    rw [tryRemoveCandidate]
    split
    · exact h
    · exact h
  rcases a with ⟨origin, new | max | bond | _ | _⟩ | author | _ | _ | ledger
  · refine .inl ?_
    rcases hup : c.updateOrigin origin with _ | _ <;>
      simp [step, dispatch, setInvulnerables, ensureUpdateOrigin, hup, State.depositEvent]
  · rcases hup : c.updateOrigin origin with _ | _
    · exact .inl (by simp [step, dispatch, setDesiredCandidates, ensureUpdateOrigin, hup])
    · refine .inr ⟨origin, ?_, hup⟩
      simp [step, dispatch, setDesiredCandidates, ensureUpdateOrigin, hup, State.depositEvent]
  · refine .inl ?_
    rcases hup : c.updateOrigin origin with _ | _ <;>
      simp [step, dispatch, setCandidacyBond, ensureUpdateOrigin, hup, State.depositEvent]
  · rcases registerAsCandidate_cases c s origin with ⟨e, he⟩ | ⟨who, ledger, -, -, -, -, he⟩ <;>
      rw [step, dispatch, he]
    · exact .inl rfl
    · exact .inl rfl
  · rcases leaveIntent_cases c s origin with ⟨e, he⟩ | ⟨who, -, he⟩ <;> rw [step, dispatch, he]
    · exact .inl rfl
    · exact .inl (hremove s who rfl)
  · exact .inl rfl
  · exact .inl (kickStaleCandidates_induct c
      (I := fun s' => s'.desiredCandidates = s.desiredCandidates) hremove s.candidates rfl)
  · exact .inl rfl
  · exact .inl rfl

/-- A registration finds room. -/
theorem room_of_registered {s : State AccountId Ledger} {origin : Origin AccountId}
    (h : (registerAsCandidate c s origin).1 = .ok ()) :
    s.candidates.length.toUInt32 < s.desiredCandidates := by
  by_contra hfull
  cases origin with
  | signed who =>
    rw [registerAsCandidate] at h
    simp only [ensureSigned, if_pos hfull] at h
    cases h
  | root => cases h
  | none => cases h

/-- **A call that keeps to the bounds keeps the pallet within them.** -/
theorem within_step (s : State AccountId Ledger) (a : Step AccountId Ledger)
    (ha : ∀ origin call, a = .call origin call → KeepsTo c seats max origin call)
    (hs : Within seats max s) : Within seats max (step c s a) := by
  have hdesired : (step c s a).desiredCandidates ≤ max := by
    rcases desiredCandidates_step s a with h | ⟨origin, h, hup⟩
    · exact h ▸ hs.desired
    · exact ha _ _ h hup
  rcases step_cases c s a with ⟨hinv, hids⟩ | ⟨origin, new, rfl, hup, hinv, hids⟩ |
    ⟨w, rfl, -, -, hinv, hids⟩
  · exact ⟨hinv.symm ▸ hs.invulnerables, hids.length_le.trans hs.candidates, hdesired⟩
  · exact ⟨hinv.symm ▸ ha _ _ rfl hup, hids.symm ▸ hs.candidates, hdesired⟩
  · refine ⟨hinv.symm ▸ hs.invulnerables, ?_, hdesired⟩
    rcases registerAsCandidate_cases c s (.signed w) with ⟨e, he⟩ | ⟨_, ledger, -, -, -, -, he⟩
    · rw [step, dispatch, he]
      exact hs.candidates
    · -- There are no more than a `u32` counts, so the number compared is the number there is.
      have hroom := UInt32.lt_of_lt_of_le (room_of_registered (congrArg Prod.fst he)) hs.desired
      have hcount : s.candidateIds.length < UInt32.size := hs.candidates.trans_lt max.toNat_lt
      rw [UInt32.lt_iff_toNat_lt, ← length_candidateIds,
        show s.candidateIds.length.toUInt32.toNat = s.candidateIds.length from
          Nat.mod_eq_of_lt hcount] at hroom
      rw [hids, List.length_append]
      exact hroom

/-- **How many seats there are.**  As long as governance keeps to the bounds, a run from within them
stays within them, and every session it starts more than a period behind its first block has no more
active collators than both bounds allow. -/
theorem seats_within (ch : Chain AccountId Ledger) (tr : List (ChainStep AccountId Ledger))
    (hch : Within seats max ch.pallet)
    (h : Guarded (chainStep c authorshipFirst)
      (OnCalls fun _ origin call => KeepsTo c seats max origin call) ch tr) :
    let ch' := run (chainStep c authorshipFirst) ch tr
    Within seats max ch'.pallet ∧ ∃ new, ch'.sessions = ch.sessions ++ new ∧
      ∀ start ∈ new, ch.pallet.blockNumber + c.kickThreshold < start.1 →
        start.2.length ≤ seats + max.toNat := by
  have hcall : ∀ s origin call, KeepsTo c seats max origin call → Within seats max s →
      Within seats max (dispatch c s origin call).2 := fun s origin call hkeeps =>
    within_step s (.call origin call) fun _ _ h => by cases h; exact hkeeps
  have hrest : ∀ s a, (∀ origin call, a ≠ .call origin call) → Within seats max s →
      Within seats max (step c s a) := fun s a hno =>
    within_step s a fun _ _ h => absurd h (hno _ _)
  have hnames : ∀ s, Within seats max s → (newSession c s).2.length ≤ seats + max.toNat := by
    intro s hs
    obtain ⟨hinv, -, -, hret⟩ := kickStaleCandidates_frame c s s.candidates
    rw [newSession, assembleCollators, hinv, List.length_append]
    exact Nat.add_le_add hs.invulnerables (hret.length_le.trans hs.candidates)
  exact ⟨invariant_run (I := fun ch => Within seats max ch.pallet)
    (fun ch a hch ha => chainStep_induct hcall hrest ch a hch ha) h hch,
    sessions_of_named (P := (·.length ≤ seats + max.toNat)) ch
      (names_of_kept hcall hrest hnames hch h)⟩

/-- Governance appoints two invulnerables, and account `9` registers. -/
theorem plain_seats_within :
    Within 2 20 (run (chainStep (plainConfig 3) true) (plainChain 4)
      [.call .root (.setInvulnerables [1, 2]), .call (.signed 9) .registerAsCandidate,
        .onInitialize (some 1)]).pallet :=
  (seats_within (plainChain 4) [.call .root (.setInvulnerables [1, 2]),
    .call (.signed 9) .registerAsCandidate, .onInitialize (some 1)]
    ⟨by decide, by decide, by decide⟩ ⟨fun _ => by decide, trivial, trivial, trivial⟩).1

end Collator
