import AttestationChain.Collator.Pallet

/-!
# Collator/Candidacy — what a candidacy holds reserved, and how few candidates may be left

A registration reserves the bond of the moment and stores it with the candidate; leaving and being
kicked release what is stored.  So the balance the pallet holds reserved of an account is its stored
deposit at every moment, whatever governance makes of the bond in between (`bonds_accounted`).

Leaving and kicking both look at the number of candidates anew before they take one out, so neither
takes it below the minimum (`candidates_floor`).
-/

namespace Collator

open Runs

variable {AccountId ValidatorId Ledger : Type} [DecidableEq AccountId]
  (c : Config AccountId ValidatorId Ledger)

/-! ## Removals, one by one -/

/-- The deposit stored with a candidate, and zero for any other account. -/
def State.deposit (s : State AccountId Ledger) (who : AccountId) : ℕ :=
  ((s.candidates.find? fun c => c.who = who).map CandidateInfo.deposit).getD 0

theorem find_eraseP_of_ne {l : List (CandidateInfo AccountId)} {who w : AccountId} (h : w ≠ who) :
    ((l.eraseP fun c => c.who = who).find? fun c => c.who = w) = l.find? fun c => c.who = w := by
  induction l with
  | nil => rfl
  | cons candidate l ih =>
    by_cases hwho : candidate.who = who
    · have hw : candidate.who ≠ w := fun hw => h (hw.symm.trans hwho)
      rw [List.eraseP_cons_of_pos (by simpa using hwho), List.find?_cons_of_neg (by simpa using hw)]
    · rw [List.eraseP_cons_of_neg (by simpa using hwho), List.find?_cons, List.find?_cons, ih]

theorem deposit_of_notMem {s : State AccountId Ledger} {who : AccountId}
    (h : who ∉ s.candidateIds) :
    s.deposit who = 0 := by
  have hnone : s.candidates.find? (fun c => c.who = who) = none := by
    refine List.find?_eq_none.2 fun candidate hcand hwho => h ?_
    exact List.mem_map.2 ⟨candidate, hcand, by simpa using hwho⟩
  rw [State.deposit, hnone]
  rfl

/-- Where a candidate is removed, the others keep their deposits. -/
theorem deposit_tryRemoveCandidate_of_ne (s : State AccountId Ledger) {who w : AccountId}
    (h : w ≠ who) : (tryRemoveCandidate c s who).2.deposit w = s.deposit w := by
  rw [tryRemoveCandidate]
  split
  · rfl
  · rename_i candidate hfind
    have hwho : candidate.who = who := by simpa using List.find?_some hfind
    simp only [State.deposit, State.removeCandidate, State.depositEvent, hwho, find_eraseP_of_ne h]

/-- What one removal preserves, kicking preserves. -/
theorem kickStaleCandidates_induct {I : State AccountId Ledger → Prop}
    (hremove : ∀ s who, I s → I (tryRemoveCandidate c s who).2) (l : List (CandidateInfo AccountId))
    {s : State AccountId Ledger} (hs : I s) : I (kickStaleCandidates c s l).1 := by
  induction l generalizing s with
  | nil => exact hs
  | cons candidate rest ih =>
    rw [kickStaleCandidates]
    split_ifs with hstay
    · exact ih hs
    · exact ih (hremove s candidate.who hs)

/-! ## Bonds -/

/-- **What the currency does to the balance this pallet holds reserved** of each account, out of all
that is reserved of it: `reserve` takes exactly the amount, `unreserve` releases at most what is
reserved, a transfer takes none of it, and nobody else takes any. -/
structure Custody (held reserved : Ledger → AccountId → ℕ) : Prop where
  reserve : ∀ ledger who amount ledger', c.reserve ledger who amount = .ok ledger' →
    held ledger' = Function.update (held ledger) who (held ledger who + amount)
  unreserve : ∀ ledger who amount, held (c.unreserve ledger who amount)
    = Function.update (held ledger) who (held ledger who - min amount (reserved ledger who))
  transfer : ∀ ledger source dest amount ledger',
    c.transfer ledger source dest amount = .ok ledger' →
    held ledger' = held ledger
  held_le : ∀ ledger who, held ledger who ≤ reserved ledger who

/-- Other pallets leave alone what this one holds reserved. -/
def Undisturbed (held : Ledger → AccountId → ℕ) (s : State AccountId Ledger) :
    Step AccountId Ledger → Prop
  | .outside ledger => held ledger = held s.ledger
  | _ => True

/-- **The accounts of the pallet are in order**: no account is a candidate twice, every candidate
has a last block, and what is held reserved of an account is its deposit. -/
structure Accounted (held : Ledger → AccountId → ℕ) (s : State AccountId Ledger) : Prop where
  nodup : s.candidateIds.Nodup
  authored : ∀ who ∈ s.candidateIds, s.lastAuthoredBlock who ≠ none
  held_eq : ∀ who, held s.ledger who = s.deposit who

section Bonds

variable {c} {held reserved : Ledger → AccountId → ℕ}

theorem accounted_build {g : GenesisConfig AccountId} {ledger : Ledger} {s : State AccountId Ledger}
    (h : g.build c ledger = some s) (hheld : ∀ who, held ledger who = 0) : Accounted held s := by
  rw [GenesisConfig.build] at h
  split_ifs at h
  obtain rfl := Option.some.inj h
  exact ⟨List.nodup_nil, fun who hwho => absurd hwho List.not_mem_nil, hheld⟩

/-- **A removal releases the deposit**, no more and no less. -/
theorem accounted_tryRemoveCandidate (hcustody : Custody c held reserved)
    {s : State AccountId Ledger} (hs : Accounted held s) (who : AccountId) :
    Accounted held (tryRemoveCandidate c s who).2 := by
  have hids := candidateIds_tryRemoveCandidate c s who
  have hgone : who ∉ (tryRemoveCandidate c s who).2.candidateIds := by
    rw [hids]
    exact hs.nodup.not_mem_erase
  refine ⟨?_, fun w hw => ?_, fun w => ?_⟩
  · rw [hids]
    exact hs.nodup.erase who
  · have hwho : w ≠ who := fun h => hgone (h ▸ hw)
    have hauthored := hs.authored w (List.mem_of_mem_erase (hids ▸ hw))
    rw [tryRemoveCandidate]
    split
    · exact hauthored
    · rename_i candidate hfind
      have hcand : candidate.who = who := by simpa using List.find?_some hfind
      simpa [State.removeCandidate, State.depositEvent, hcand, hwho] using hauthored
  · rcases hfind : s.candidates.find? (fun c => c.who = who) with _ | candidate
    · simpa only [tryRemoveCandidate, hfind] using hs.held_eq w
    have hcand : candidate.who = who := by simpa using List.find?_some hfind
    have hdeposit : held s.ledger who = candidate.deposit := by
      rw [hs.held_eq who, State.deposit, hfind]
      rfl
    have hledger : (tryRemoveCandidate c s who).2.ledger =
        c.unreserve s.ledger who candidate.deposit := by
      simp only [tryRemoveCandidate, hfind, State.removeCandidate, State.depositEvent, hcand]
    rw [hledger, hcustody.unreserve]
    by_cases hw : w = who
    · subst hw
      rw [Function.update_self, deposit_of_notMem hgone, ← hdeposit,
        min_eq_left (hcustody.held_le _ _), Nat.sub_self]
    · rw [Function.update_of_ne hw, deposit_tryRemoveCandidate_of_ne c s hw, hs.held_eq w]

/-- **A registration reserves the deposit** it stores. -/
theorem accounted_addCandidate (hcustody : Custody c held reserved) {s : State AccountId Ledger}
    (hs : Accounted held s) {who : AccountId} (hwho : who ∉ s.candidateIds) {deposit : ℕ}
    {ledger : Ledger} (hreserve : c.reserve s.ledger who deposit = .ok ledger) :
    Accounted held (s.addCandidate c who deposit ledger) := by
  have hids : (s.addCandidate c who deposit ledger).candidateIds = s.candidateIds ++ [who] := by
    simp [State.addCandidate, State.depositEvent, State.candidateIds]
  refine ⟨?_, fun w hw => ?_, fun w => ?_⟩
  · rw [hids]
    exact List.nodup_append.2 ⟨hs.nodup, List.nodup_singleton who, by
      rintro w hw v hv rfl
      exact hwho (List.mem_singleton.1 hv ▸ hw)⟩
  · rw [hids, List.mem_append, List.mem_singleton] at hw
    by_cases h : w = who
    · simp [State.addCandidate, State.depositEvent, h]
    · simpa [State.addCandidate, State.depositEvent, h] using hs.authored w (hw.resolve_right h)
  · have hledger : held (s.addCandidate c who deposit ledger).ledger = held ledger := rfl
    rw [hledger, hcustody.reserve _ _ _ _ hreserve]
    have hdeposit : (s.addCandidate c who deposit ledger).deposit w =
        (((s.candidates.find? fun c => c.who = w).or
          (if who = w then some ⟨who, deposit⟩ else none)).map CandidateInfo.deposit).getD 0 := by
      simp [State.deposit, State.addCandidate, State.depositEvent, List.find?_append,
        List.find?_singleton]
    rw [hdeposit]
    by_cases h : w = who
    · have hnone : s.candidates.find? (fun c => c.who = who) = none :=
        List.find?_eq_none.2 fun candidate hcand heq =>
          hwho (List.mem_map.2 ⟨candidate, hcand, by simpa using heq⟩)
      subst h
      rw [Function.update_self, hs.held_eq w, deposit_of_notMem hwho, hnone]
      simp
    · rw [Function.update_of_ne h, hs.held_eq w, if_neg (Ne.symm h), Option.or_none, State.deposit]

/-- Noting an author moves no reserved balance. -/
theorem accounted_noteAuthor (hcustody : Custody c held reserved) {s : State AccountId Ledger}
    (hs : Accounted held s) (author : AccountId) : Accounted held (noteAuthor c s author) := by
  refine ⟨hs.nodup, fun w hw => ?_, fun w => ?_⟩
  · by_cases h : w = author
    · simp [noteAuthor, h]
    · simpa [noteAuthor, h] using hs.authored w hw
  · have hledger : held (noteAuthor c s author).ledger = held s.ledger := by
      rw [noteAuthor]
      dsimp only
      split
      · exact hcustody.transfer _ _ _ _ _ ‹_›
      · rfl
    rw [hledger]
    exact hs.held_eq w

/-- A call keeps the accounts in order. -/
theorem accounted_dispatch (hcustody : Custody c held reserved) {s : State AccountId Ledger}
    (hs : Accounted held s) (origin : Origin AccountId) (call : Call AccountId) :
    Accounted held (dispatch c s origin call).2 := by
  by_cases hregister : call = .registerAsCandidate
  · subst hregister
    rcases registerAsCandidate_cases c s origin with ⟨e, he⟩ |
      ⟨who, ledger, -, -, hwho, hreserve, he⟩
    · rwa [dispatch, he]
    · rw [dispatch, he]
      exact accounted_addCandidate hcustody hs hwho hreserve
  by_cases hleave : call = .leaveIntent
  · subst hleave
    rcases leaveIntent_cases c s origin with ⟨e, he⟩ | ⟨who, -, he⟩
    · rwa [dispatch, he]
    · rw [dispatch, he]
      exact accounted_tryRemoveCandidate hcustody hs who
  obtain ⟨hcand, hlast, -, hledger⟩ := dispatch_governance c s origin hregister hleave
  refine ⟨?_, ?_, ?_⟩
  · rw [State.candidateIds, hcand]
    exact hs.nodup
  · rw [State.candidateIds, hcand, hlast]
    exact hs.authored
  · intro who
    rw [hledger, State.deposit, hcand]
    exact hs.held_eq who

/-- **A step keeps the accounts in order.** -/
theorem accounted_step (hcustody : Custody c held reserved) (s : State AccountId Ledger)
    (a : Step AccountId Ledger) (hs : Accounted held s) (ha : Undisturbed held s a) :
    Accounted held (step c s a) := by
  cases a with
  | call origin call => exact accounted_dispatch hcustody hs origin call
  | noteAuthor author => exact accounted_noteAuthor hcustody hs author
  | newSession =>
    exact kickStaleCandidates_induct c (I := Accounted held)
      (fun s who hs => accounted_tryRemoveCandidate hcustody hs who) s.candidates hs
  | newBlock => exact ⟨hs.nodup, hs.authored, hs.held_eq⟩
  | outside ledger =>
    refine ⟨hs.nodup, hs.authored, fun who => ?_⟩
    rw [step, ha]
    exact hs.held_eq who

/-- One removal: its account is gone, and the others keep what they have. -/
theorem deposit_tryRemoveCandidate {s : State AccountId Ledger} (hs : Accounted held s)
    (who : AccountId) {w : AccountId} (hstays : w ∈ (tryRemoveCandidate c s who).2.candidateIds) :
    (tryRemoveCandidate c s who).2.deposit w = s.deposit w := by
  refine deposit_tryRemoveCandidate_of_ne c s fun h => ?_
  rw [candidateIds_tryRemoveCandidate, h] at hstays
  exact hs.nodup.not_mem_erase hstays

theorem deposit_kickStaleCandidates (hcustody : Custody c held reserved) {w : AccountId}
    (l : List (CandidateInfo AccountId)) {s : State AccountId Ledger} (hs : Accounted held s)
    (hstays : w ∈ (kickStaleCandidates c s l).1.candidateIds) :
    (kickStaleCandidates c s l).1.deposit w = s.deposit w := by
  induction l generalizing s with
  | nil => rfl
  | cons candidate rest ih =>
    rw [kickStaleCandidates] at hstays ⊢
    split_ifs at hstays ⊢ with hstay
    · exact ih hs hstays
    · have hleft := (kickStaleCandidates_frame c _ rest).2.2.1.subset hstays
      rw [ih (accounted_tryRemoveCandidate hcustody hs candidate.who) hstays,
        deposit_tryRemoveCandidate hs candidate.who hleft]

theorem deposit_dispatch {s : State AccountId Ledger} (hs : Accounted held s)
    (origin : Origin AccountId) (call : Call AccountId) {w : AccountId} (hw : w ∈ s.candidateIds)
    (hstays : w ∈ (dispatch c s origin call).2.candidateIds) :
    (dispatch c s origin call).2.deposit w = s.deposit w := by
  by_cases hregister : call = .registerAsCandidate
  · subst hregister
    rcases registerAsCandidate_cases c s origin with ⟨e, he⟩ | ⟨who, ledger, -, -, -, -, he⟩
    · rw [dispatch, he]
    · -- The new candidate is put behind the others.
      rw [dispatch, he]
      obtain ⟨candidate, hcand⟩ : ∃ candidate,
          s.candidates.find? (fun c => c.who = w) = some candidate := by
        refine Option.ne_none_iff_exists'.1 fun hnone => ?_
        obtain ⟨candidate, hmem, rfl⟩ := List.mem_map.1 hw
        simpa using List.find?_eq_none.1 hnone candidate hmem
      simp [State.deposit, State.addCandidate, State.depositEvent, List.find?_append, hcand]
  by_cases hleave : call = .leaveIntent
  · subst hleave
    rcases leaveIntent_cases c s origin with ⟨e, he⟩ | ⟨who, -, he⟩
    · rw [dispatch, he]
    · rw [dispatch, he] at hstays ⊢
      exact deposit_tryRemoveCandidate hs who hstays
  rw [State.deposit, (dispatch_governance c s origin hregister hleave).1, State.deposit]

/-- **A candidate that stays keeps its deposit.** -/
theorem deposit_step (hcustody : Custody c held reserved) {s : State AccountId Ledger}
    (hs : Accounted held s) (a : Step AccountId Ledger) {w : AccountId} (hw : w ∈ s.candidateIds)
    (hstays : w ∈ (step c s a).candidateIds) : (step c s a).deposit w = s.deposit w := by
  cases a with
  | call origin call => exact deposit_dispatch hs origin call hw hstays
  | newSession => exact deposit_kickStaleCandidates hcustody s.candidates hs hstays
  | noteAuthor author => rfl
  | newBlock => rfl
  | outside ledger => rfl

variable (c)

/-- **Bond accounting.**  In every run from genesis no account is a candidate twice, every candidate
has a last block, and the balance the pallet holds reserved of an account is the deposit stored with
its candidacy — which a step leaves as it is or, with the candidacy, releases in full. -/
theorem bonds_accounted (hcustody : Custody c held reserved) {g : GenesisConfig AccountId}
    {ledger : Ledger} {s₀ : State AccountId Ledger} (hbuild : g.build c ledger = some s₀)
    (hheld : ∀ who, held ledger who = 0) (tr : List (Step AccountId Ledger))
    (h : Guarded (step c) (Undisturbed held) s₀ tr) :
    let s := run (step c) s₀ tr
    (s.candidateIds.Nodup ∧ (∀ who ∈ s.candidateIds, s.lastAuthoredBlock who ≠ none) ∧
      ∀ who, held s.ledger who = s.deposit who) ∧
    ∀ a, Undisturbed held s a → ∀ who ∈ s.candidateIds,
      (who ∈ (step c s a).candidateIds ∧ (step c s a).deposit who = s.deposit who) ∨
      (who ∉ (step c s a).candidateIds ∧ held (step c s a).ledger who + s.deposit who =
        held s.ledger who) := by
  have hs : Accounted held (run (step c) s₀ tr) :=
    invariant_run (accounted_step hcustody) h (accounted_build hbuild hheld)
  refine ⟨⟨hs.nodup, hs.authored, hs.held_eq⟩, fun a ha who hwho => ?_⟩
  by_cases hstays : who ∈ (step c (run (step c) s₀ tr) a).candidateIds
  · exact .inl ⟨hstays, deposit_step hcustody hs a hwho hstays⟩
  · have hs' := accounted_step hcustody _ a hs ha
    exact .inr ⟨hstays, by rw [hs'.held_eq, deposit_of_notMem hstays, hs.held_eq, Nat.zero_add]⟩

/-- A chain whose currency is a book of what each account has reserved. -/
def bookConfig : Config ℕ ℕ (ℕ → ℕ) where
  maxCandidates := 1000
  minCandidates := 0
  maxInvulnerables := 100
  kickThreshold := 600
  updateOrigin := fun origin => match origin with | .root => true | _ => false
  accountId := 0
  validatorIdOf := some
  isRegistered := fun _ _ => true
  reserve := fun book who amount => .ok (Function.update book who (book who + amount))
  unreserve := fun book who amount => Function.update book who (book who - min amount (book who))
  freeBalance := fun _ _ => 0
  minimumBalance := 500
  transfer := fun book _ _ _ => .ok book

/-- Account `3` registers for a bond of ten, which is raised before it leaves. -/
theorem bonds_accounted_plain :
    let s := run (step bookConfig) ⟨0, [], fun _ => 0, [1], [], fun _ => none, 20, 10⟩
      [.call (.signed 3) .registerAsCandidate, .call .root (.setCandidacyBond 70)]
    s.ledger 3 = s.deposit 3 := by
  have hcustody : Custody bookConfig (fun book => book) fun book => book :=
    ⟨fun _ _ _ _ h => (Except.ok.inj h).symm, fun _ _ _ => rfl, fun _ _ _ _ _ h =>
      (Except.ok.inj h).symm, fun _ _ => le_refl _⟩
  exact (bonds_accounted bookConfig hcustody (g := ⟨[1], 10, 20⟩) rfl (fun _ => rfl)
    [.call (.signed 3) .registerAsCandidate, .call .root (.setCandidacyBond 70)]
    ⟨trivial, trivial, trivial⟩).1.2.2 3

end Bonds

/-! ## The floor -/

theorem toNat_toUInt32_le (n : ℕ) : n.toUInt32.toNat ≤ n :=
  UInt32.toNat_ofNat'.trans_le (Nat.mod_le n _)

omit [DecidableEq AccountId] in
theorem length_candidateIds (s : State AccountId Ledger) :
    s.candidateIds.length = s.candidates.length := List.length_map _

/-- A removal takes out one candidate at most. -/
theorem length_tryRemoveCandidate (s : State AccountId Ledger) (who : AccountId) :
    s.candidates.length - 1 ≤ (tryRemoveCandidate c s who).2.candidates.length := by
  rw [← length_candidateIds, ← length_candidateIds, candidateIds_tryRemoveCandidate]
  exact List.le_length_erase

/-- **Kicking stops at the minimum**: the number is read anew for each candidate of the list it
walks, so a removal starts from more than the minimum. -/
theorem floor_kickStaleCandidates (l : List (CandidateInfo AccountId))
    (s : State AccountId Ledger) :
    min c.minCandidates.toNat s.candidates.length ≤
      (kickStaleCandidates c s l).1.candidates.length := by
  induction l generalizing s with
  | nil => exact min_le_right _ _
  | cons candidate rest ih =>
    rw [kickStaleCandidates]
    split_ifs with hstay
    · exact ih s
    · have hmore : c.minCandidates.toNat < s.candidates.length :=
        (UInt32.lt_iff_toNat_lt.1 (UInt32.not_le.1 (not_or.1 hstay).2)).trans_le
          (toNat_toUInt32_le _)
      have hremove := length_tryRemoveCandidate c s candidate.who
      have hrest := ih (tryRemoveCandidate c s candidate.who).2
      omega

theorem length_kickStaleCandidates_le (l : List (CandidateInfo AccountId))
    (s : State AccountId Ledger) :
    (kickStaleCandidates c s l).1.candidates.length ≤ s.candidates.length := by
  rw [← length_candidateIds, ← length_candidateIds]
  exact (kickStaleCandidates_frame c s l).2.2.1.length_le

/-- **Leaving stops at the minimum.** -/
theorem floor_leaveIntent (s : State AccountId Ledger) (origin : Origin AccountId) :
    min c.minCandidates.toNat s.candidates.length ≤
    (leaveIntent c s origin).2.candidates.length := by
  by_cases hfew : s.candidates.length.toUInt32 > c.minCandidates
  · have hmore : c.minCandidates.toNat < s.candidates.length :=
      (UInt32.lt_iff_toNat_lt.1 hfew).trans_le (toNat_toUInt32_le _)
    rcases leaveIntent_cases c s origin with ⟨e, he⟩ | ⟨who, -, he⟩
    · rw [he]
      exact min_le_right _ _
    · have hremove := length_tryRemoveCandidate c s who
      rw [he]
      dsimp only
      omega
  · have hsame : (leaveIntent c s origin).2 = s := by
      cases origin with
      | signed who => simp only [leaveIntent, ensureSigned, if_pos hfew]
      | root => rfl
      | none => rfl
    rw [hsame]
    exact min_le_right _ _

/-- A step but leaving and kicking loses no candidate. -/
theorem floor_step (s : State AccountId Ledger) (a : Step AccountId Ledger) :
    min c.minCandidates.toNat s.candidates.length ≤ (step c s a).candidates.length := by
  cases a with
  | call origin call =>
    by_cases hregister : call = .registerAsCandidate
    · subst hregister
      rcases registerAsCandidate_cases c s origin with ⟨e, he⟩ | ⟨who, ledger, -, -, -, -, he⟩
      · rw [step, dispatch, he]
        exact min_le_right _ _
      · rw [step, dispatch, he]
        simp [State.addCandidate, State.depositEvent]
    by_cases hleave : call = .leaveIntent
    · subst hleave
      exact floor_leaveIntent c s origin
    rw [step, (dispatch_governance c s origin hregister hleave).1]
    exact min_le_right _ _
  | newSession => exact floor_kickStaleCandidates c s.candidates s
  | noteAuthor author => exact min_le_right _ _
  | newBlock => exact min_le_right _ _
  | outside ledger => exact min_le_right _ _

/-- **The floor.**  From a state with at least the minimum of candidates every step leads to one;
and from one with fewer, neither leaving nor a session takes one away. -/
theorem candidates_floor (s : State AccountId Ledger) :
    (c.minCandidates.toNat ≤ s.candidates.length → ∀ a,
      c.minCandidates.toNat ≤ (step c s a).candidates.length) ∧
    (s.candidates.length < c.minCandidates.toNat →
      (∀ origin, (leaveIntent c s origin).2.candidates.length = s.candidates.length) ∧
      (newSession c s).1.candidates.length = s.candidates.length) := by
  refine ⟨fun h a => ?_, fun h => ⟨fun origin => ?_, ?_⟩⟩
  · have := floor_step c s a
    omega
  · have hfloor := floor_leaveIntent c s origin
    have hle : (leaveIntent c s origin).2.candidates.length ≤ s.candidates.length := by
      rcases leaveIntent_cases c s origin with ⟨e, he⟩ | ⟨who, -, he⟩
      · rw [he]
      · rw [he, ← length_candidateIds, ← length_candidateIds, candidateIds_tryRemoveCandidate]
        exact List.length_erase_le
    omega
  · have hfloor := floor_kickStaleCandidates c s.candidates s
    have hle := length_kickStaleCandidates_le c s.candidates s
    rw [newSession]
    dsimp only
    omega

/-- Two stale candidates where one has to stay: the second is not kicked. -/
theorem candidates_floor_plain :
    1 ≤ (step { plainConfig 5 with minCandidates := 1 }
      ⟨20, [], (), [1], [⟨3, 10⟩, ⟨5, 10⟩], fun _ => some 1, 20, 10⟩
      .newSession).candidates.length :=
  (candidates_floor { plainConfig 5 with minCandidates := 1 }
    ⟨20, [], (), [1], [⟨3, 10⟩, ⟨5, 10⟩], fun _ => some 1, 20, 10⟩).1 (by decide) .newSession

end Collator
