import AttestationChain.Machinery.Runs
import Mathlib.Data.List.Dedup
import Mathlib.Data.List.Basic
import Mathlib.Logic.Function.Basic
import Mathlib.Data.UInt

/-!
# Collator/Pallet — invulnerables and candidates, and the sessions they make up

Governance appoints the invulnerables; anyone may register as a candidate for a bond and leave
again.  At every session the pallet kicks the candidates that have not authored for a while and
hands the rest, behind the invulnerables, to the session pallet.

The balances and the session keys are other pallets' storage: `Ledger` stands for it, and `Config`
for what this pallet does to it and asks of it.
-/

namespace Collator

/-! ## Errors, events and the configuration -/

/-- The errors of the pallet. -/
inductive Error
  | tooManyCandidates
  | tooFewCandidates
  | unknown
  | permission
  | alreadyCandidate
  | notCandidate
  | alreadyInvulnerable
  | noAssociatedValidatorId
  | validatorNotRegistered
  deriving DecidableEq

/-- What a dispatch fails with: a bad origin, an error of the pallet, or one of the currency. -/
inductive DispatchError
  | badOrigin
  | module (e : Error)
  | currency
  deriving DecidableEq

/-- The origin a call is dispatched from. -/
inductive Origin (AccountId : Type)
  | root
  | signed (who : AccountId)
  | none

/-- Basic information about a collation candidate. -/
structure CandidateInfo (AccountId : Type) where
  who : AccountId
  deposit : ℕ
  deriving DecidableEq

/-- The events of the pallet. -/
inductive Event (AccountId : Type)
  | newInvulnerables (new : List AccountId)
  | newDesiredCandidates (max : UInt32)
  | newCandidacyBond (bond : ℕ)
  | candidateAdded (who : AccountId) (deposit : ℕ)
  | candidateRemoved (who : AccountId)
  deriving DecidableEq

/-- What the runtime configures: the constants, the origin that may update them, the pot, and the
currency and the session keys over the storage of the other pallets. -/
structure Config (AccountId ValidatorId Ledger : Type) where
  maxCandidates : UInt32
  minCandidates : UInt32
  maxInvulnerables : UInt32
  kickThreshold : ℕ
  updateOrigin : Origin AccountId → Bool
  accountId : AccountId
  validatorIdOf : AccountId → Option ValidatorId
  isRegistered : Ledger → ValidatorId → Bool
  reserve : Ledger → AccountId → ℕ → Except DispatchError Ledger
  unreserve : Ledger → AccountId → ℕ → Ledger
  freeBalance : Ledger → AccountId → ℕ
  minimumBalance : ℕ
  transfer : Ledger → AccountId → AccountId → ℕ → Except DispatchError Ledger

/-- A chain whose currency always obliges, governed by root. -/
def plainConfig (kickThreshold : ℕ) : Config ℕ ℕ Unit where
  maxCandidates := 1000
  minCandidates := 0
  maxInvulnerables := 100
  kickThreshold := kickThreshold
  updateOrigin := fun origin => match origin with | .root => true | _ => false
  accountId := 0
  validatorIdOf := some
  isRegistered := fun _ _ => true
  reserve := fun _ _ _ => .ok ()
  unreserve := fun _ _ _ => ()
  freeBalance := fun _ _ => 0
  minimumBalance := 500
  transfer := fun _ _ _ _ => .ok ()

/-! ## The state -/

variable {AccountId ValidatorId Ledger : Type}

/-- The storages of the pallet, with the block number and the events of the chain and the storage
of the pallets it calls. -/
structure State (AccountId Ledger : Type) where
  blockNumber : ℕ
  events : List (Event AccountId)
  ledger : Ledger
  invulnerables : List AccountId
  candidates : List (CandidateInfo AccountId)
  lastAuthoredBlock : AccountId → Option ℕ
  desiredCandidates : UInt32
  candidacyBond : ℕ

namespace State

/-- `LastAuthoredBlock::get`, zero where nothing is stored. -/
def lastBlock (s : State AccountId Ledger) (who : AccountId) : ℕ :=
  (s.lastAuthoredBlock who).getD 0

/-- The accounts of the candidates. -/
def candidateIds (s : State AccountId Ledger) : List AccountId := s.candidates.map CandidateInfo.who

/-- `deposit_event`. -/
def depositEvent (s : State AccountId Ledger) (e : Event AccountId) : State AccountId Ledger :=
  { s with events := s.events ++ [e] }

end State

/-- `GenesisConfig`. -/
structure GenesisConfig (AccountId : Type) where
  invulnerables : List AccountId
  candidacyBond : ℕ
  desiredCandidates : UInt32

section Calls

variable [DecidableEq AccountId] (c : Config AccountId ValidatorId Ledger)

/-- `GenesisConfig::build`: the storage at genesis, if the assertions hold. -/
def GenesisConfig.build (g : GenesisConfig AccountId) (ledger : Ledger) :
    Option (State AccountId Ledger) :=
  let duplicateInvulnerables := g.invulnerables.dedup
  if duplicateInvulnerables.length = g.invulnerables.length then
    if g.invulnerables.length.toUInt32 ≤ c.maxInvulnerables then
      if g.desiredCandidates ≤ c.maxCandidates then
        some { blockNumber := 0, events := [], ledger := ledger, invulnerables := g.invulnerables,
               candidates := [], lastAuthoredBlock := fun _ => none,
               desiredCandidates := g.desiredCandidates, candidacyBond := g.candidacyBond }
      else none
    else none
  else none

variable (s : State AccountId Ledger)

/-- `UpdateOrigin::ensure_origin`. -/
def ensureUpdateOrigin (origin : Origin AccountId) : Except DispatchError Unit :=
  if c.updateOrigin origin then .ok () else .error .badOrigin

def ensureSigned : Origin AccountId → Except DispatchError AccountId
  | .signed who => .ok who
  | _ => .error .badOrigin

/-! ## The dispatchables -/

def setInvulnerables (origin : Origin AccountId) (new : List AccountId) :
    Except DispatchError Unit × State AccountId Ledger :=
  match ensureUpdateOrigin c origin with
  | .error e => (.error e, s)
  -- More than `MaxInvulnerables` accounts are warned about, and put.
  | .ok () => (.ok (), { s with invulnerables := new }.depositEvent (.newInvulnerables new))

def setDesiredCandidates (origin : Origin AccountId) (max : UInt32) :
    Except DispatchError Unit × State AccountId Ledger :=
  match ensureUpdateOrigin c origin with
  | .error e => (.error e, s)
  | .ok () => (.ok (), { s with desiredCandidates := max }.depositEvent (.newDesiredCandidates max))

def setCandidacyBond (origin : Origin AccountId) (bond : ℕ) :
    Except DispatchError Unit × State AccountId Ledger :=
  match ensureUpdateOrigin c origin with
  | .error e => (.error e, s)
  | .ok () => (.ok (), { s with candidacyBond := bond }.depositEvent (.newCandidacyBond bond))

/-- What `register_as_candidate` leaves, the bond once reserved. -/
def State.addCandidate (who : AccountId) (deposit : ℕ) (ledger : Ledger) :
    State AccountId Ledger :=
  let incoming : CandidateInfo AccountId := { who := who, deposit := deposit }
  { s with
    ledger := ledger
    candidates := s.candidates ++ [incoming]
    -- First authored block is current block plus kick threshold to handle session delay.
    lastAuthoredBlock := Function.update s.lastAuthoredBlock who
      (some (s.blockNumber + c.kickThreshold)) }.depositEvent (.candidateAdded who deposit)

def registerAsCandidate (origin : Origin AccountId) :
    Except DispatchError Unit × State AccountId Ledger :=
  match ensureSigned origin with
  | .error e => (.error e, s)
  | .ok who =>
    let length := s.candidates.length
    if ¬ length.toUInt32 < s.desiredCandidates then (.error (.module .tooManyCandidates), s)
    else if who ∈ s.invulnerables then (.error (.module .alreadyInvulnerable), s)
    else
      match c.validatorIdOf who with
      | none => (.error (.module .noAssociatedValidatorId), s)
      | some validatorKey =>
        if c.isRegistered s.ledger validatorKey = false then
          (.error (.module .validatorNotRegistered), s)
        else
          let deposit := s.candidacyBond
          if who ∈ s.candidateIds then (.error (.module .alreadyCandidate), s)
          else
            match c.reserve s.ledger who deposit with
            | .error e => (.error e, s)
            | .ok ledger => (.ok (), s.addCandidate c who deposit ledger)

/-- What `try_remove_candidate` leaves of a state its candidate is found in. -/
def State.removeCandidate (candidate : CandidateInfo AccountId) : State AccountId Ledger :=
  { s with
    ledger := c.unreserve s.ledger candidate.who candidate.deposit
    candidates := s.candidates.eraseP fun c => c.who = candidate.who
    lastAuthoredBlock := Function.update s.lastAuthoredBlock candidate.who none
  }.depositEvent (.candidateRemoved candidate.who)

/-- Removes a candidate if they exist and sends them back their deposit: the first entry of the
account, its index being its position.  Returns how many are left. -/
def tryRemoveCandidate (who : AccountId) : Except DispatchError ℕ × State AccountId Ledger :=
  match s.candidates.find? fun c => c.who = who with
  | none => (.error (.module .notCandidate), s)
  | some candidate =>
    let s' := s.removeCandidate c candidate
    (.ok s'.candidates.length, s')

def leaveIntent (origin : Origin AccountId) : Except DispatchError Unit × State AccountId Ledger :=
  match ensureSigned origin with
  | .error e => (.error e, s)
  | .ok who =>
    if ¬ s.candidates.length.toUInt32 > c.minCandidates then
      (.error (.module .tooFewCandidates), s)
    else
      match tryRemoveCandidate c s who with
      | (.error e, s') => (.error e, s')
      | (.ok _, s') => (.ok (), s')

/-! ## Authorship and sessions -/

/-- `note_author`: half of what the pot holds above the existential deposit, if it can be
transferred, and the block. -/
def noteAuthor (author : AccountId) : State AccountId Ledger :=
  let pot := c.accountId
  let reward := (c.freeBalance s.ledger pot - c.minimumBalance) / 2
  let ledger :=
    match c.transfer s.ledger pot author reward with
    | .ok ledger => ledger
    | .error _ => s.ledger
  { s with
    ledger := ledger
    lastAuthoredBlock := Function.update s.lastAuthoredBlock author (some s.blockNumber) }

/-- `assemble_collators`. -/
def assembleCollators (candidates : List AccountId) : List AccountId :=
  s.invulnerables ++ candidates

/-- `kick_stale_candidates`: the accounts that stay, and the storage once the others are removed.
The number of candidates is read anew for each. -/
def kickStaleCandidates :
    State AccountId Ledger → List (CandidateInfo AccountId) →
    State AccountId Ledger × List AccountId
  | s, [] => (s, [])
  | s, candidate :: rest =>
    let sinceLast := s.blockNumber - s.lastBlock candidate.who
    if sinceLast < c.kickThreshold ∨ s.candidates.length.toUInt32 ≤ c.minCandidates then
      let r := kickStaleCandidates s rest
      (r.1, candidate.who :: r.2)
    else
      -- A failed removal is only logged.
      kickStaleCandidates (tryRemoveCandidate c s candidate.who).2 rest

/-- `SessionManager::new_session`: the storage it leaves, and the collators it returns. -/
def newSession : State AccountId Ledger × List AccountId :=
  let r := kickStaleCandidates c s s.candidates
  (r.1, assembleCollators r.1 r.2)

end Calls

/-! ## The steps of the pallet -/

/-- The calls of the pallet. -/
inductive Call (AccountId : Type)
  | setInvulnerables (new : List AccountId)
  | setDesiredCandidates (max : UInt32)
  | setCandidacyBond (bond : ℕ)
  | registerAsCandidate
  | leaveIntent

/-- What happens to the pallet: a call, an author noted, a new session, a new block, or whatever
other pallets do to their storage. -/
inductive Step (AccountId Ledger : Type)
  | call (origin : Origin AccountId) (call : Call AccountId)
  | noteAuthor (author : AccountId)
  | newSession
  | newBlock
  | outside (ledger : Ledger)

section Steps

variable [DecidableEq AccountId] (c : Config AccountId ValidatorId Ledger)

/-- A call, dispatched. -/
def dispatch (s : State AccountId Ledger) (origin : Origin AccountId) :
    Call AccountId → Except DispatchError Unit × State AccountId Ledger
  | .setInvulnerables new => setInvulnerables c s origin new
  | .setDesiredCandidates max => setDesiredCandidates c s origin max
  | .setCandidacyBond bond => setCandidacyBond c s origin bond
  | .registerAsCandidate => registerAsCandidate c s origin
  | .leaveIntent => leaveIntent c s origin

/-- One step. -/
def step (s : State AccountId Ledger) : Step AccountId Ledger → State AccountId Ledger
  | .call origin call => (dispatch c s origin call).2
  | .noteAuthor author => noteAuthor c s author
  | .newSession => (newSession c s).1
  | .newBlock => { s with blockNumber := s.blockNumber + 1 }
  | .outside ledger => { s with ledger := ledger }

end Steps

/-! ## What the operations do to the two lists -/

section Specs

variable [DecidableEq AccountId] (c : Config AccountId ValidatorId Ledger)
  (s : State AccountId Ledger)

/-- **Removing a candidate** takes its first entry out, if there is one… -/
theorem candidateIds_tryRemoveCandidate (who : AccountId) :
    (tryRemoveCandidate c s who).2.candidateIds = s.candidateIds.erase who := by
  have herase : s.candidateIds.erase who
      = (s.candidates.eraseP fun c => c.who = who).map CandidateInfo.who := by
    rw [State.candidateIds, List.erase_eq_eraseP, List.eraseP_map]
    congr 2
    funext candidate
    rw [Function.comp_apply, Bool.beq_eq_decide_eq, decide_eq_decide, eq_comm]
  rw [tryRemoveCandidate]
  split
  · rename_i hnone
    refine (List.erase_of_not_mem fun hmem => ?_).symm
    obtain ⟨candidate, hcand, rfl⟩ := List.mem_map.1 hmem
    simpa using List.find?_eq_none.1 hnone candidate hcand
  · rename_i candidate hfind
    have hwho : candidate.who = who := by simpa using List.find?_some hfind
    rw [herase]
    simp [State.removeCandidate, State.depositEvent, State.candidateIds, hwho]

/-- …and touches no invulnerable, no block number and no other account's last block. -/
theorem tryRemoveCandidate_frame (who : AccountId) :
    (tryRemoveCandidate c s who).2.invulnerables = s.invulnerables ∧
    (tryRemoveCandidate c s who).2.blockNumber = s.blockNumber ∧
    ∀ w, w ≠ who → (tryRemoveCandidate c s who).2.lastBlock w = s.lastBlock w := by
  rw [tryRemoveCandidate]
  split
  · exact ⟨rfl, rfl, fun _ _ => rfl⟩
  · rename_i candidate hfind
    have hwho : candidate.who = who := by simpa using List.find?_some hfind
    refine ⟨rfl, rfl, fun w hw => ?_⟩
    simp [State.removeCandidate, State.depositEvent, State.lastBlock, hwho, hw]

/-- **Leaving** fails and changes nothing, or removes the candidate. -/
theorem leaveIntent_cases (origin : Origin AccountId) :
    (∃ e, leaveIntent c s origin = (.error e, s)) ∨
    ∃ who, origin = .signed who ∧
      leaveIntent c s origin = (.ok (), (tryRemoveCandidate c s who).2) := by
  rcases origin with _ | who | _
  · exact .inl ⟨_, rfl⟩
  · simp only [leaveIntent, ensureSigned]
    by_cases hfew : s.candidates.length.toUInt32 > c.minCandidates
    · rw [if_neg (not_not.2 hfew)]
      rcases hfind : s.candidates.find? fun c => c.who = who with _ | candidate
      · exact .inl ⟨.module .notCandidate, by simp [tryRemoveCandidate, hfind]⟩
      · exact .inr ⟨who, rfl, by simp [tryRemoveCandidate, hfind]⟩
    · exact .inl ⟨_, by rw [if_pos hfew]⟩
  · exact .inl ⟨_, rfl⟩

/-- **Registering** fails and changes nothing, or reserves the bond of an account that is neither
invulnerable nor a candidate, and adds it. -/
theorem registerAsCandidate_cases (origin : Origin AccountId) :
    (∃ e, registerAsCandidate c s origin = (.error e, s)) ∨
    ∃ who ledger, origin = .signed who ∧ who ∉ s.invulnerables ∧ who ∉ s.candidateIds ∧
      c.reserve s.ledger who s.candidacyBond = .ok ledger ∧
      registerAsCandidate c s origin = (.ok (), s.addCandidate c who s.candidacyBond ledger) := by
  rcases origin with _ | who | _
  · exact .inl ⟨_, rfl⟩
  · simp only [registerAsCandidate, ensureSigned]
    split
    · exact .inl ⟨_, rfl⟩
    split
    · exact .inl ⟨_, rfl⟩
    rename_i hinv
    split
    · exact .inl ⟨_, rfl⟩
    split
    · exact .inl ⟨_, rfl⟩
    split
    · exact .inl ⟨_, rfl⟩
    rename_i hcand
    split
    · exact .inl ⟨_, rfl⟩
    · exact .inr ⟨who, _, rfl, hinv, hcand, ‹_›, rfl⟩
  · exact .inl ⟨_, rfl⟩

/-- **Kicking** removes candidates, and only that. -/
theorem kickStaleCandidates_frame (l : List (CandidateInfo AccountId)) :
    (kickStaleCandidates c s l).1.invulnerables = s.invulnerables ∧
    (kickStaleCandidates c s l).1.blockNumber = s.blockNumber ∧
    (kickStaleCandidates c s l).1.candidateIds.Sublist s.candidateIds ∧
    (kickStaleCandidates c s l).2.Sublist (l.map CandidateInfo.who) := by
  induction l generalizing s with
  | nil => exact ⟨rfl, rfl, List.Sublist.refl _, List.Sublist.refl _⟩
  | cons candidate rest ih =>
    rw [kickStaleCandidates]
    split_ifs with hstay
    · obtain ⟨hinv, hnum, hids, hret⟩ := ih s
      exact ⟨hinv, hnum, hids, hret.cons_cons _⟩
    · obtain ⟨hinv, hnum, hids, hret⟩ := ih (tryRemoveCandidate c s candidate.who).2
      obtain ⟨hinv', hnum', -⟩ := tryRemoveCandidate_frame c s candidate.who
      rw [candidateIds_tryRemoveCandidate] at hids
      exact ⟨hinv.trans hinv', hnum.trans hnum', hids.trans List.erase_sublist, hret.cons _⟩

/-- **A governance call** touches no candidate, no last block, no block number and no balance. -/
theorem dispatch_governance (origin : Origin AccountId) {call : Call AccountId}
    (hregister : call ≠ .registerAsCandidate) (hleave : call ≠ .leaveIntent) :
    (dispatch c s origin call).2.candidates = s.candidates ∧
    (dispatch c s origin call).2.lastAuthoredBlock = s.lastAuthoredBlock ∧
    (dispatch c s origin call).2.blockNumber = s.blockNumber ∧
    (dispatch c s origin call).2.ledger = s.ledger := by
  rcases hup : c.updateOrigin origin with _ | _ <;> rcases call with new | max | bond | _ | _ <;>
    first
      | exact absurd rfl hregister
      | exact absurd rfl hleave
      | simp [dispatch, setInvulnerables, setDesiredCandidates, setCandidacyBond,
          ensureUpdateOrigin, hup, State.depositEvent]

/-- No call changes the block number. -/
theorem blockNumber_dispatch (origin : Origin AccountId) (call : Call AccountId) :
    (dispatch c s origin call).2.blockNumber = s.blockNumber := by
  by_cases hregister : call = .registerAsCandidate
  · subst hregister
    rcases registerAsCandidate_cases c s origin with ⟨e, he⟩ | ⟨who, ledger, -, -, -, -, he⟩
    · rw [dispatch, he]
    · rw [dispatch, he]
      rfl
  by_cases hleave : call = .leaveIntent
  · subst hleave
    rcases leaveIntent_cases c s origin with ⟨e, he⟩ | ⟨who, -, he⟩
    · rw [dispatch, he]
    · rw [dispatch, he]
      exact (tryRemoveCandidate_frame c s who).2.1
  exact (dispatch_governance c s origin hregister hleave).2.2.1

/-- **What a step does to the two lists**: governance replaces the invulnerables, a registration
adds a candidate that is in neither, and everything else only takes candidates away. -/
theorem step_cases (a : Step AccountId Ledger) :
    ((step c s a).invulnerables = s.invulnerables ∧
      (step c s a).candidateIds.Sublist s.candidateIds) ∨
    (∃ origin new, a = .call origin (.setInvulnerables new) ∧ c.updateOrigin origin = true ∧
      (step c s a).invulnerables = new ∧ (step c s a).candidateIds = s.candidateIds) ∨
    (∃ who, a = .call (.signed who) .registerAsCandidate ∧ who ∉ s.invulnerables ∧
      who ∉ s.candidateIds ∧ (step c s a).invulnerables = s.invulnerables ∧
      (step c s a).candidateIds = s.candidateIds ++ [who]) := by
  rcases a with ⟨origin, _ | _ | _ | _ | _⟩ | author | _ | _ | ledger
  · rename_i new
    rcases hup : c.updateOrigin origin with _ | _
    · exact .inl (by simp [step, dispatch, setInvulnerables, ensureUpdateOrigin, hup])
    · exact .inr (.inl ⟨origin, new, rfl, hup, by
        simp [step, dispatch, setInvulnerables, ensureUpdateOrigin, hup, State.depositEvent,
          State.candidateIds]⟩)
  · rename_i max
    refine .inl ?_
    rcases hup : c.updateOrigin origin with _ | _ <;>
      simp [step, dispatch, setDesiredCandidates, ensureUpdateOrigin, hup, State.depositEvent,
        State.candidateIds]
  · rename_i bond
    refine .inl ?_
    rcases hup : c.updateOrigin origin with _ | _ <;>
      simp [step, dispatch, setCandidacyBond, ensureUpdateOrigin, hup, State.depositEvent,
        State.candidateIds]
  · rcases registerAsCandidate_cases c s origin with ⟨e, he⟩ |
      ⟨who, ledger, rfl, hinv, hcand, -, he⟩
    · exact .inl (by simp [step, dispatch, he])
    · refine .inr (.inr ⟨who, rfl, hinv, hcand, ?_⟩)
      simp [step, dispatch, he, State.addCandidate, State.depositEvent, State.candidateIds]
  · refine .inl ?_
    rcases leaveIntent_cases c s origin with ⟨e, he⟩ | ⟨who, rfl, he⟩
    · simp [step, dispatch, he]
    · rw [step, dispatch, he, candidateIds_tryRemoveCandidate]
      exact ⟨(tryRemoveCandidate_frame c s who).1, List.erase_sublist⟩
  · exact .inl ⟨rfl, List.Sublist.refl _⟩
  · obtain ⟨hinv, -, hids, -⟩ := kickStaleCandidates_frame c s s.candidates
    exact .inl ⟨hinv, hids⟩
  · exact .inl ⟨rfl, List.Sublist.refl _⟩
  · exact .inl ⟨rfl, List.Sublist.refl _⟩

end Specs

end Collator
