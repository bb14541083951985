import AttestationChain.Collator.Pallet
import AttestationChain.Machinery.Dispatch

/-!
# Collator/Atomicity — candidate calls that fail change nothing

No storage transaction is around the calls, so what a failed one wrote would stay.  Here the two
candidate calls are written effect by effect, in the order of the source (`Effects`); they come to
what `Collator.registerAsCandidate` and `Collator.leaveIntent` say at once, and the order is what
makes them atomic: every check first, the reserve as the only effect that may fail, and nothing but
writes behind it.
-/

namespace Collator

open Dispatches

variable {AccountId ValidatorId Ledger : Type} [DecidableEq AccountId]
  (c : Config AccountId ValidatorId Ledger)

namespace Effects

/-- `Candidates::put`. -/
def putCandidates (candidates : List (CandidateInfo AccountId)) (s : State AccountId Ledger) :
    State AccountId Ledger :=
  { s with candidates := candidates }

/-- `LastAuthoredBlock::insert` and `::remove`. -/
def setLastAuthoredBlock (who : AccountId) (block : Option ℕ) (s : State AccountId Ledger) :
    State AccountId Ledger :=
  { s with lastAuthoredBlock := Function.update s.lastAuthoredBlock who block }

/-- `T::Currency::reserve`. -/
def reserve (who : AccountId) (deposit : ℕ) (s : State AccountId Ledger) :
    Except DispatchError (State AccountId Ledger) :=
  (c.reserve s.ledger who deposit).map fun ledger => { s with ledger := ledger }

/-- `T::Currency::unreserve`. -/
def unreserve (who : AccountId) (deposit : ℕ) (s : State AccountId Ledger) :
    State AccountId Ledger :=
  { s with ledger := c.unreserve s.ledger who deposit }

/-- The closure of `register_as_candidate`. -/
def pushCandidate (who : AccountId) (deposit : ℕ) (candidates : List (CandidateInfo AccountId)) :
    Dispatch DispatchError (State AccountId Ledger) (List (CandidateInfo AccountId) × ℕ) := do
  let incoming : CandidateInfo AccountId := { who := who, deposit := deposit }
  ensure (fun _ => !candidates.any fun candidate => candidate.who = who) (.module .alreadyCandidate)
  attempt (reserve c who deposit)
  let candidates := candidates ++ [incoming]
  effect fun s => setLastAuthoredBlock who (some (s.blockNumber + c.kickThreshold)) s
  pure (candidates, candidates.length)

def registerAsCandidate (origin : Origin AccountId) :
    Dispatch DispatchError (State AccountId Ledger) Unit := do
  let who ← ask fun _ => ensureSigned origin
  -- ensure we are below limit.
  ensure (fun s => s.candidates.length.toUInt32 < s.desiredCandidates) (.module .tooManyCandidates)
  ensure (fun s => who ∉ s.invulnerables) (.module .alreadyInvulnerable)
  let validatorKey ← ask fun _ =>
    (c.validatorIdOf who).elim (.error (.module .noAssociatedValidatorId)) .ok
  ensure (fun s => c.isRegistered s.ledger validatorKey) (.module .validatorNotRegistered)
  let deposit ← ask fun s => .ok s.candidacyBond
  let _currentCount ← tryMutate State.candidates putCandidates (pushCandidate c who deposit)
  effect fun s => s.depositEvent (.candidateAdded who deposit)

/-- The closure of `try_remove_candidate`. -/
def takeCandidate (who : AccountId) (candidates : List (CandidateInfo AccountId)) :
    Dispatch DispatchError (State AccountId Ledger) (List (CandidateInfo AccountId) × ℕ) := do
  let index ← ask fun _ => (candidates.findFinIdx? fun candidate => candidate.who = who).elim
    (.error (.module .notCandidate)) .ok
  effect (unreserve c who candidates[index].deposit)
  let candidates := candidates.eraseIdx index
  effect (setLastAuthoredBlock who none)
  pure (candidates, candidates.length)

def tryRemoveCandidate (who : AccountId) : Dispatch DispatchError (State AccountId Ledger) ℕ := do
  let currentCount ← tryMutate State.candidates putCandidates (takeCandidate c who)
  effect fun s => s.depositEvent (.candidateRemoved who)
  pure currentCount

def leaveIntent (origin : Origin AccountId) :
    Dispatch DispatchError (State AccountId Ledger) Unit := do
  let who ← ask fun _ => ensureSigned origin
  ensure (fun s => s.candidates.length.toUInt32 > c.minCandidates) (.module .tooFewCandidates)
  let _currentCount ← tryRemoveCandidate c who
  pure ()

/-! ## The order of the effects -/

theorem atomic_pushCandidate (who : AccountId) (deposit : ℕ)
    (candidates : List (CandidateInfo AccountId)) :
    Atomic (pushCandidate c who deposit candidates) :=
  .of_readOnly_bind (readOnly_ensure _ _) fun _ =>
    (atomic_attempt _).bind fun _ => (total_effect _).bind fun _ => total_pure _

theorem atomic_registerAsCandidate (origin : Origin AccountId) :
    Atomic (registerAsCandidate c origin) :=
  .of_readOnly_bind (readOnly_ask _) fun who =>
    .of_readOnly_bind (readOnly_ensure _ _) fun _ =>
    .of_readOnly_bind (readOnly_ensure _ _) fun _ =>
    .of_readOnly_bind (readOnly_ask _) fun _ =>
    .of_readOnly_bind (readOnly_ensure _ _) fun _ =>
    .of_readOnly_bind (readOnly_ask _) fun deposit =>
      (atomic_tryMutate (atomic_pushCandidate c who deposit)).bind fun _ => total_effect _

theorem atomic_takeCandidate (who : AccountId) (candidates : List (CandidateInfo AccountId)) :
    Atomic (takeCandidate c who candidates) :=
  .of_readOnly_bind (readOnly_ask _) fun _ =>
    ((total_effect _).bind fun _ => (total_effect _).bind fun _ => total_pure _).atomic

theorem atomic_tryRemoveCandidate (who : AccountId) : Atomic (tryRemoveCandidate c who) :=
  (atomic_tryMutate (atomic_takeCandidate c who)).bind fun _ =>
    (total_effect _).bind fun _ => total_pure _

theorem atomic_leaveIntent (origin : Origin AccountId) : Atomic (leaveIntent c origin) :=
  .of_readOnly_bind (readOnly_ask _) fun who =>
    .of_readOnly_bind (readOnly_ensure _ _) fun _ =>
      (atomic_tryRemoveCandidate c who).bind fun _ => total_pure _

/-! ## What the effects come to -/

variable (s : State AccountId Ledger)

theorem outcome_pushCandidate (who : AccountId) (deposit : ℕ) :
    outcome (pushCandidate c who deposit s.candidates) s =
      if who ∈ s.candidateIds then (.error (.module .alreadyCandidate), s)
      else
        match c.reserve s.ledger who deposit with
        | .error e => (.error e, s)
        | .ok ledger => (.ok (s.candidates ++ [⟨who, deposit⟩], s.candidates.length + 1),
            setLastAuthoredBlock who (some (s.blockNumber + c.kickThreshold))
              { s with ledger := ledger }) := by
  have hany : (s.candidates.any fun candidate => decide (candidate.who = who))
      = decide (who ∈ s.candidateIds) := by
    simp [State.candidateIds, List.any_eq]
  rw [pushCandidate, outcome_bind, outcome_ensure, hany]
  by_cases hcand : who ∈ s.candidateIds
  · simp [hcand]
  · rw [if_neg hcand, if_pos (by simp [hcand])]
    simp only [outcome_bind, outcome_attempt, reserve]
    cases c.reserve s.ledger who deposit with
    | error e => rfl
    | ok ledger => simp [Except.map]

/-- **Registering**, effect by effect, is registering. -/
theorem outcome_registerAsCandidate (origin : Origin AccountId) :
    outcome (registerAsCandidate c origin) s = Collator.registerAsCandidate c s origin := by
  rcases origin with _ | who | _
  · rfl
  · simp only [registerAsCandidate, Collator.registerAsCandidate, outcome_bind, outcome_ask,
      ensureSigned, outcome_ensure]
    by_cases hlen : s.candidates.length.toUInt32 < s.desiredCandidates
    · by_cases hinv : who ∈ s.invulnerables
      · simp [hlen, hinv]
      · cases hkey : c.validatorIdOf who with
        | none => simp [hlen, hinv]
        | some key =>
          cases hreg : c.isRegistered s.ledger key with
          | false => simp [hlen, hinv, hreg]
          | true =>
            simp only [outcome_tryMutate, outcome_pushCandidate]
            by_cases hcand : who ∈ s.candidateIds
            · simp [hlen, hinv, hreg, hcand]
            · cases hres : c.reserve s.ledger who s.candidacyBond with
              | error e => simp [hlen, hinv, hreg, hcand, hres]
              | ok ledger =>
                simp [hlen, hinv, hreg, hcand, hres]
                rfl
    · simp [hlen]
  · rfl

/-- **Removing a candidate**, effect by effect, is removing it: its index is where it is found. -/
theorem outcome_tryRemoveCandidate (who : AccountId) :
    outcome (tryRemoveCandidate c who) s = Collator.tryRemoveCandidate c s who := by
  have hfind : (s.candidates.find? fun candidate => candidate.who = who) =
      (s.candidates.findFinIdx? fun candidate => candidate.who = who).map (s.candidates[·]) :=
    List.find?_eq_map_findFinIdx?_getElem
  cases hidx : s.candidates.findFinIdx? fun candidate => candidate.who = who with
  | none =>
    rw [hidx] at hfind
    simp [tryRemoveCandidate, takeCandidate, Collator.tryRemoveCandidate, outcome_bind,
      outcome_tryMutate, hidx, hfind]
  | some index =>
    have hwho : s.candidates[index].who = who := by
      simpa using (List.findFinIdx?_eq_some_iff.1 hidx).1
    have herase : s.candidates.eraseP (fun candidate => candidate.who = who) =
        s.candidates.eraseIdx index := by
      rw [List.eraseP_eq_eraseIdx, List.findIdx?_eq_map_findFinIdx?_val, hidx, Option.map_some]
    rw [hidx, Option.map_some] at hfind
    simp only [Collator.tryRemoveCandidate, hfind, State.removeCandidate, hwho, herase,
      tryRemoveCandidate, takeCandidate, outcome_bind, outcome_tryMutate, hidx, outcome_ask,
      outcome_effect, outcome_pure, Option.elim_some]
    rfl

/-- **Leaving**, effect by effect, is leaving. -/
theorem outcome_leaveIntent (origin : Origin AccountId) :
    outcome (leaveIntent c origin) s = Collator.leaveIntent c s origin := by
  rcases origin with _ | who | _
  · rfl
  · simp only [leaveIntent, Collator.leaveIntent, outcome_bind, outcome_ask, ensureSigned,
      outcome_ensure, outcome_tryRemoveCandidate]
    by_cases hfew : s.candidates.length.toUInt32 > c.minCandidates
    · rcases hremove : Collator.tryRemoveCandidate c s who with ⟨e | n, s'⟩ <;>
        simp [hfew, hremove]
    · simp [hfew]
  · rfl

end Effects

/-- **Nothing stands against a registration**: it is signed, there is room, the account is no
invulnerable, has a validator id with registered keys, is no candidate yet, and can reserve the
bond. -/
def Registrable (s : State AccountId Ledger) (origin : Origin AccountId) : Prop :=
  ∃ who validatorKey ledger, origin = .signed who ∧
    s.candidates.length.toUInt32 < s.desiredCandidates ∧ who ∉ s.invulnerables ∧
    c.validatorIdOf who = some validatorKey ∧ c.isRegistered s.ledger validatorKey = true ∧
    who ∉ s.candidateIds ∧ c.reserve s.ledger who s.candidacyBond = .ok ledger

/-- A registration succeeds if nothing stands against it, and only then. -/
theorem registerAsCandidate_ok_iff (s : State AccountId Ledger) (origin : Origin AccountId) :
    (registerAsCandidate c s origin).1 = .ok () ↔ Registrable c s origin := by
  constructor
  · intro hok
    rcases origin with _ | who | _
    · cases hok
    · simp only [registerAsCandidate, ensureSigned] at hok
      split at hok
      · cases hok
      rename_i hlen
      split at hok
      · cases hok
      rename_i hinv
      split at hok
      · cases hok
      rename_i key hkey
      split at hok
      · cases hok
      rename_i hreg
      split at hok
      · cases hok
      rename_i hcand
      split at hok
      · cases hok
      rename_i ledger hres
      exact ⟨who, key, ledger, rfl, not_not.1 hlen, hinv, hkey, by simpa using hreg, hcand, hres⟩
    · cases hok
  · rintro ⟨who, key, ledger, rfl, hlen, hinv, hkey, hreg, hcand, hres⟩
    simp [registerAsCandidate, ensureSigned, hlen, hinv, hkey, hreg, hcand, hres]

/-- **A candidate call that fails changes nothing.**  Whatever the caller, the currency and the key
registry do, a registration or a leave that returns an error leaves the whole state as it was; and a
registration succeeds exactly if nothing stands against it. -/
theorem candidate_calls_atomic (s : State AccountId Ledger) (origin : Origin AccountId) :
    (∀ e s', outcome (Effects.registerAsCandidate c origin) s = (.error e, s') → s' = s) ∧
    (∀ e s', outcome (Effects.leaveIntent c origin) s = (.error e, s') → s' = s) ∧
    ((outcome (Effects.registerAsCandidate c origin) s).1 = .ok () ↔ Registrable c s origin) := by
  refine ⟨fun e s' h => ?_, fun e s' h => ?_, ?_⟩
  · have hsame := Effects.atomic_registerAsCandidate c origin s e (by rw [h])
    rwa [h] at hsame
  · have hsame := Effects.atomic_leaveIntent c origin s e (by rw [h])
    rwa [h] at hsame
  · rw [Effects.outcome_registerAsCandidate]
    exact registerAsCandidate_ok_iff c s origin

/-- A state with one candidate. -/
def oneCandidate : State ℕ Unit :=
  ⟨40, [], (), [1], [⟨4, 10⟩], fun _ => some 10, 20, 10⟩

/-- Account 3 is no candidate, and its leaving changes nothing. -/
theorem candidate_calls_atomic_plain :
    (outcome (Effects.leaveIntent (plainConfig 20) (.signed 3)) oneCandidate).2 = oneCandidate :=
  (candidate_calls_atomic (plainConfig 20) oneCandidate (.signed 3)).2.1
    (.module .notCandidate) _ (Prod.ext rfl rfl)

end Collator
