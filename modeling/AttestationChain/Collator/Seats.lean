import AttestationChain.Collator.Kick
import AttestationChain.Collator.Pipeline

/-!
# Collator/Seats — who keeps a seat, and who gives it up

A seat is decided by what the pallet names, session after session.

* A candidate keeps its candidacy just if its blocks keep up with the rotations, as long as there
  are more candidates than the minimum — and its seat with it (`keeps_seat_iff`).
* An account that leaves is named no more, and is in no session that starts more than a period
  behind (`leaver_gone`).
-/

namespace Collator

open Runs

variable {AccountId ValidatorId Ledger : Type} [DecidableEq AccountId]
  {c : Config AccountId ValidatorId Ledger} {authorshipFirst : Bool} {who : AccountId}

/-- No account becomes a candidate twice. -/
theorem nodup_candidateIds_step (s : State AccountId Ledger) (a : Step AccountId Ledger)
    (hs : s.candidateIds.Nodup) : (step c s a).candidateIds.Nodup := by
  rcases step_cases c s a with ⟨-, hids⟩ | ⟨-, -, -, -, -, hids⟩ | ⟨who, -, -, hnew, -, hids⟩
  · exact hids.nodup hs
  · rwa [hids]
  · rw [hids]
    exact List.nodup_append_comm.1 (List.nodup_cons.2 ⟨hnew, hs⟩)

theorem nodup_chainStep (ch : Chain AccountId Ledger) (a : ChainStep AccountId Ledger)
    (hch : ch.pallet.candidateIds.Nodup) :
    (chainStep c authorshipFirst ch a).pallet.candidateIds.Nodup :=
  chainStep_induct (I := fun s => s.candidateIds.Nodup)
    (fun s origin call (_ : True) => nodup_candidateIds_step s (.call origin call))
    (fun s a _ => nodup_candidateIds_step s a) ch a hch (by cases a <;> trivial)

/-! ## Keeping a seat -/

variable (c authorshipFirst) in
/-- An account's last block, as a rotation looks at it: its own block counts if authorship is noted
before. -/
def seenAt (who : AccountId) (author : Option AccountId) (n last : ℕ) : ℕ :=
  if authorshipFirst ∧ author = some who then n else last

variable (c authorshipFirst who) in
/-- **The blocks of an account keep up**: from a block on, given its last one so far, no rotation
comes a period behind the account's last block. -/
def KeepsUp : ℕ → ℕ → List (ChainStep AccountId Ledger) → Prop
  | _, _, [] => True
  | n, last, .onInitialize author :: tr =>
    (c.kickThreshold ∣ n + 1 →
      n + 1 - seenAt authorshipFirst who author (n + 1) last < c.kickThreshold) ∧
    KeepsUp (n + 1) (if author = some who then n + 1 else last) tr
  | n, last, _ :: tr => KeepsUp n last tr

/-- They keep up in each prefix. -/
theorem KeepsUp.of_append {pre suf : List (ChainStep AccountId Ledger)} {n last : ℕ}
    (h : KeepsUp c authorshipFirst who n last (pre ++ suf)) :
    KeepsUp c authorshipFirst who n last pre := by
  induction pre generalizing n last with
  | nil => trivial
  | cons a pre ih =>
    cases a with
    | onInitialize author => exact ⟨h.1, ih h.2⟩
    | call origin call => exact ih (n := n) h
    | outside ledger => exact ih (n := n) h

variable (c authorshipFirst) in
/-- A rotation leaves more candidates than the minimum. -/
def AboveFloor (ch : Chain AccountId Ledger) : ChainStep AccountId Ledger → Prop
  | .onInitialize author => c.kickThreshold ∣ ch.pallet.blockNumber + 1 → c.minCandidates <
      (chainStep c authorshipFirst ch (.onInitialize author)).pallet.candidates.length.toUInt32
  | _ => True

/-- A rotation keeps a candidate it does not find stale. -/
theorem rotate_keeps (ch : Chain AccountId Ledger) (hmem : who ∈ ch.pallet.candidateIds)
    (hfresh : c.kickThreshold ∣ ch.pallet.blockNumber →
      ch.pallet.blockNumber - ch.pallet.lastBlock who < c.kickThreshold) :
    who ∈ (ch.rotate c).pallet.candidateIds ∧
    (ch.rotate c).pallet.lastBlock who = ch.pallet.lastBlock who ∧
    (c.kickThreshold ∣ ch.pallet.blockNumber → who ∈ (ch.rotate c).queued) := by
  obtain ⟨-, hskip, -, hkeep⟩ := rotate_spec c who ch
  by_cases hdvd : c.kickThreshold ∣ ch.pallet.blockNumber
  · exact hkeep hmem (hfresh hdvd)
  · rw [hskip hdvd]
    exact ⟨hmem, rfl, fun h => absurd h hdvd⟩

/-- It takes the others, down to the minimum. -/
theorem rotate_kicks (ch : Chain AccountId Ledger) (hdvd : c.kickThreshold ∣ ch.pallet.blockNumber)
    (hnodup : ch.pallet.candidateIds.Nodup)
    (habove : c.minCandidates < (ch.rotate c).pallet.candidates.length.toUInt32)
    (hstale : c.kickThreshold ≤ ch.pallet.blockNumber - ch.pallet.lastBlock who) :
    who ∉ (ch.rotate c).pallet.candidateIds := by
  have hrotate : (ch.rotate c).pallet
      = (kickStaleCandidates c ch.pallet ch.pallet.candidates).1 := by
    rw [Chain.rotate, if_pos hdvd]
    rfl
  rw [hrotate] at habove ⊢
  obtain ⟨left, gone, hleft, -, hkicks, -⟩ :=
    kicks_kickStaleCandidates (c := c) ch.pallet.candidates (List.nil_append _).symm hnodup
  rintro hmem
  obtain ⟨candidate, hcand, rfl⟩ := List.mem_map.1 hmem
  rw [hleft] at hcand
  exact absurd habove (UInt32.not_lt.2 (hkicks.floor ⟨candidate, hcand, hstale⟩))

/-- **What initializing a block leaves of a candidate** that no rotation finds stale. -/
theorem onInitialize_keeps {ch : Chain AccountId Ledger} {author : Option AccountId}
    (hmem : who ∈ ch.pallet.candidateIds)
    (hfresh : c.kickThreshold ∣ ch.pallet.blockNumber + 1 → ch.pallet.blockNumber + 1 -
      seenAt authorshipFirst who author (ch.pallet.blockNumber + 1) (ch.pallet.lastBlock who)
        < c.kickThreshold) :
    let ch' := chainStep c authorshipFirst ch (.onInitialize author)
    who ∈ ch'.pallet.candidateIds ∧
    ch'.pallet.lastBlock who =
      (if author = some who then ch.pallet.blockNumber + 1 else ch.pallet.lastBlock who) ∧
    (c.kickThreshold ∣ ch.pallet.blockNumber + 1 → who ∈ ch'.queued) := by
  intro ch'
  cases authorshipFirst with
  | false =>
    simp only [seenAt, Bool.false_eq_true, false_and, if_false] at hfresh
    obtain ⟨hids, hlast, hqueued⟩ := rotate_keeps ch.opened hmem hfresh
    obtain ⟨hids', -, hqueued', -, hlast'⟩ := note_spec c who (ch.opened.rotate c) author
    have hnum := (rotate_spec c who ch.opened).1
    refine ⟨hids' ▸ hids, hlast'.trans ?_, fun h => hqueued' ▸ hqueued h⟩
    rw [hnum, hlast]
    rfl
  | true =>
    simp only [seenAt, true_and] at hfresh
    obtain ⟨hids, hnum, -, -, hlast⟩ := note_spec c who ch.opened author
    obtain ⟨hids', hlast', hqueued⟩ := rotate_keeps (ch.opened.note c author)
      (hids ▸ hmem) (by rw [hnum, hlast]; exact hfresh)
    rw [hnum] at hqueued
    exact ⟨hids', hlast'.trans hlast, hqueued⟩

/-- …and that a rotation does. -/
theorem onInitialize_kicks {ch : Chain AccountId Ledger} {author : Option AccountId}
    (hnodup : ch.pallet.candidateIds.Nodup)
    (habove : AboveFloor c authorshipFirst ch (.onInitialize author))
    (hdvd : c.kickThreshold ∣ ch.pallet.blockNumber + 1)
    (hstale : c.kickThreshold ≤ ch.pallet.blockNumber + 1 -
      seenAt authorshipFirst who author (ch.pallet.blockNumber + 1) (ch.pallet.lastBlock who)) :
    who ∉ (chainStep c authorshipFirst ch (.onInitialize author)).pallet.candidateIds := by
  have habove := habove hdvd
  cases authorshipFirst with
  | false =>
    simp only [seenAt, Bool.false_eq_true, false_and, if_false] at hstale
    have hids := (note_spec c who (ch.opened.rotate c) author).1
    have hlen : (ch.opened.rotate c).pallet.candidates.length =
        ((ch.opened.rotate c).note c author).pallet.candidates.length := by
      cases author <;> rfl
    change who ∉ ((ch.opened.rotate c).note c author).pallet.candidateIds
    rw [hids]
    exact rotate_kicks ch.opened hdvd hnodup (hlen ▸ habove) hstale
  | true =>
    simp only [seenAt, true_and] at hstale
    obtain ⟨hids, hnum, -, -, hlast⟩ := note_spec c who ch.opened author
    refine rotate_kicks (ch.opened.note c author) ?_ (hids ▸ hnodup) habove ?_
    · rw [hnum]
      exact hdvd
    · rw [hnum, hlast]
      exact hstale

variable (authorshipFirst) in
/-- A step that initializes no block keeps a candidate that does not leave. -/
theorem chainStep_keeps {ch : Chain AccountId Ledger} {a : ChainStep AccountId Ledger}
    (ha : ∀ author, a ≠ .onInitialize author) (hmem : who ∈ ch.pallet.candidateIds)
    (hleave : NoLeave c who ch a) :
    let ch' := chainStep c authorshipFirst ch a
    who ∈ ch'.pallet.candidateIds ∧ ch'.pallet.lastBlock who = ch.pallet.lastBlock who ∧
    ch'.pallet.blockNumber = ch.pallet.blockNumber := by
  cases a with
  | onInitialize author => exact absurd rfl (ha author)
  | outside ledger => exact ⟨hmem, rfl, rfl⟩
  | call origin call =>
    obtain ⟨hids, hlast⟩ := dispatch_keeps c who ch origin call hmem hleave
    exact ⟨hids, hlast, blockNumber_dispatch c ch.pallet origin call⟩

/-- A rotation of a run whose blocks keep up names the account. -/
theorem names_of_keepsUp {tr : List (ChainStep AccountId Ledger)} {ch : Chain AccountId Ledger}
    (hmem : who ∈ ch.pallet.candidateIds)
    (hleave : Guarded (chainStep c authorshipFirst) (NoLeave c who) ch tr)
    (hkeeps : KeepsUp c authorshipFirst who ch.pallet.blockNumber (ch.pallet.lastBlock who) tr) :
    Guarded (chainStep c authorshipFirst) (Names c authorshipFirst (who ∈ ·)) ch tr ∧
      who ∈ (run (chainStep c authorshipFirst) ch tr).pallet.candidateIds := by
  induction tr generalizing ch with
  | nil => exact ⟨trivial, hmem⟩
  | cons a tr ih =>
    obtain ⟨hno, hleave⟩ := hleave
    cases a with
    | onInitialize author =>
      obtain ⟨hfresh, hkeeps⟩ := hkeeps
      obtain ⟨hids, hlast, hqueued⟩ := onInitialize_keeps hmem hfresh
      have hnum := (onInitialize_spec c who authorshipFirst ch author).1
      obtain ⟨hnames, hend⟩ := ih hids hleave (by rw [hnum, hlast]; exact hkeeps)
      exact ⟨⟨hqueued, hnames⟩, hend⟩
    | call origin call =>
      obtain ⟨hids, hlast, hnum⟩ := chainStep_keeps authorshipFirst (fun _ h => by cases h) hmem hno
      obtain ⟨hnames, hend⟩ := ih hids hleave (by rw [hnum, hlast]; exact hkeeps)
      exact ⟨⟨trivial, hnames⟩, hend⟩
    | outside ledger =>
      obtain ⟨hnames, hend⟩ :=
        @ih (chainStep c authorshipFirst ch (.outside ledger)) hmem hleave hkeeps
      exact ⟨⟨trivial, hnames⟩, hend⟩

/-- A candidate that no rotation took keeps up. -/
theorem keepsUp_of_candidate {tr : List (ChainStep AccountId Ledger)}
    {ch : Chain AccountId Ledger} (hnodup : ch.pallet.candidateIds.Nodup)
    (hleave : Guarded (chainStep c authorshipFirst) (NoLeave c who) ch tr)
    (habove : Guarded (chainStep c authorshipFirst) (AboveFloor c authorshipFirst) ch tr)
    (h : ∀ pre suf, tr = pre ++ suf →
      who ∈ (run (chainStep c authorshipFirst) ch pre).pallet.candidateIds) :
    KeepsUp c authorshipFirst who ch.pallet.blockNumber (ch.pallet.lastBlock who) tr := by
  induction tr generalizing ch with
  | nil => trivial
  | cons a tr ih =>
    obtain ⟨hno, hleave⟩ := hleave
    obtain ⟨habove, habove'⟩ := habove
    have hmem : who ∈ ch.pallet.candidateIds := h [] _ rfl
    have hrest := ih (nodup_chainStep ch a hnodup) hleave habove' fun pre suf htr =>
      h (a :: pre) suf (by rw [htr, List.cons_append])
    cases a with
    | onInitialize author =>
      have hfresh : c.kickThreshold ∣ ch.pallet.blockNumber + 1 → ch.pallet.blockNumber + 1 -
          seenAt authorshipFirst who author (ch.pallet.blockNumber + 1) (ch.pallet.lastBlock who)
            < c.kickThreshold := by
        intro hdvd
        by_contra hstale
        exact onInitialize_kicks hnodup habove hdvd (Nat.not_lt.1 hstale) (h [_] tr rfl)
      obtain ⟨-, hlast, -⟩ := onInitialize_keeps hmem hfresh
      have hnum := (onInitialize_spec c who authorshipFirst ch author).1
      rw [hnum, hlast] at hrest
      exact ⟨hfresh, hrest⟩
    | call origin call =>
      obtain ⟨-, hlast, hnum⟩ := chainStep_keeps authorshipFirst (fun _ h => by cases h) hmem hno
      rw [hnum, hlast] at hrest
      exact hrest
    | outside ledger => exact hrest

/-- **What keeps a seat.**  A candidate that does not leave, where every rotation leaves more
candidates than the minimum, is a candidate throughout a run if and only if no rotation comes a
period behind its last block; and then it is in the active set of every session of the run that
starts more than a period behind its first block. -/
theorem keeps_seat_iff (ch : Chain AccountId Ledger) (tr : List (ChainStep AccountId Ledger))
    (hnodup : ch.pallet.candidateIds.Nodup) (hmem : who ∈ ch.pallet.candidateIds)
    (hleave : Guarded (chainStep c authorshipFirst) (NoLeave c who) ch tr)
    (habove : Guarded (chainStep c authorshipFirst) (AboveFloor c authorshipFirst) ch tr) :
    (KeepsUp c authorshipFirst who ch.pallet.blockNumber (ch.pallet.lastBlock who) tr ↔
      ∀ pre suf, tr = pre ++ suf →
        who ∈ (run (chainStep c authorshipFirst) ch pre).pallet.candidateIds) ∧
    (KeepsUp c authorshipFirst who ch.pallet.blockNumber (ch.pallet.lastBlock who) tr →
      ∃ new, (run (chainStep c authorshipFirst) ch tr).sessions = ch.sessions ++ new ∧
        ∀ start ∈ new, ch.pallet.blockNumber + c.kickThreshold < start.1 → who ∈ start.2) := by
  refine ⟨⟨fun hkeeps pre suf htr => ?_, keepsUp_of_candidate hnodup hleave habove⟩,
    fun hkeeps => sessions_of_named ch (names_of_keepsUp hmem hleave hkeeps).1⟩
  subst htr
  exact (names_of_keepsUp hmem hleave.of_append hkeeps.of_append).2

/-- Sessions of three blocks, and account `7` a candidate whose last block is `4`. -/
def seatedChain : Chain ℕ Unit :=
  ⟨⟨4, [], (), [1], [⟨7, 10⟩], fun _ => some 4, 20, 10⟩, [1], [(3, [1])]⟩

/-- Blocks `5` to `9`, with one of account `7` among them. -/
def seatedBlocks : List (ChainStep ℕ Unit) :=
  [.onInitialize (some 1), .onInitialize (some 1), .onInitialize (some 7), .onInitialize (some 1),
    .onInitialize (some 1)]

/-- In the session of block `9` it has a seat. -/
theorem plain_keeps_seat :
    ∃ new, (run (chainStep (plainConfig 3) true) seatedChain seatedBlocks).sessions =
      [(3, [1])] ++ new ∧ ∀ start ∈ new, 4 + 3 < start.1 → 7 ∈ start.2 := by
  refine (keeps_seat_iff seatedChain seatedBlocks (by decide) (by decide)
    ⟨trivial, trivial, trivial, trivial, trivial, trivial⟩ ?_).2 ?_
  · exact ⟨fun _ => by decide, fun _ => by decide, fun _ => by decide, fun _ => by decide,
      fun _ => by decide, trivial⟩
  · exact ⟨fun _ => by decide, fun _ => by decide, fun _ => by decide, fun _ => by decide,
      fun _ => by decide, trivial⟩

/-! ## Leaving a seat -/

variable (c who) in
/-- **A call that brings the account back**: it registers it, or appoints it. -/
def BringsBack (s : State AccountId Ledger) (origin : Origin AccountId) :
    Call AccountId → Prop
  | .registerAsCandidate =>
    origin = .signed who ∧ (registerAsCandidate c s origin).1 = .ok ()
  | .setInvulnerables new => c.updateOrigin origin = true ∧ who ∈ new
  | _ => False

variable (who) in
/-- **An account that is out**: it is neither a candidate nor invulnerable. -/
def Out (s : State AccountId Ledger) : Prop := who ∉ s.candidateIds ∧ who ∉ s.invulnerables

/-- What does not bring it back leaves it out. -/
theorem out_step (s : State AccountId Ledger) (a : Step AccountId Ledger)
    (ha : ∀ origin call, a = .call origin call → ¬ BringsBack c who s origin call)
    (hs : Out who s) : Out who (step c s a) := by
  obtain ⟨hcand, hinv⟩ := hs
  rcases step_cases c s a with ⟨hinv', hids⟩ | ⟨origin, new, rfl, hup, hinv', hids⟩ |
    ⟨w, rfl, -, -, hinv', hids⟩
  · exact ⟨fun h => hcand (hids.subset h), hinv'.symm ▸ hinv⟩
  · exact ⟨hids.symm ▸ hcand, hinv'.symm ▸ fun h => ha _ _ rfl ⟨hup, h⟩⟩
  · rcases registerAsCandidate_cases c s (.signed w) with ⟨e, he⟩ | ⟨_, ledger, -, -, -, -, he⟩
    · rw [step, dispatch, he]
      exact ⟨hcand, hinv⟩
    · refine ⟨?_, hinv'.symm ▸ hinv⟩
      rw [hids, List.mem_append, List.mem_singleton]
      rintro (h | rfl)
      · exact hcand h
      · exact ha _ _ rfl ⟨rfl, congrArg Prod.fst he⟩

/-- An account that is out is not named. -/
theorem not_mem_newSession {s : State AccountId Ledger} (hs : Out who s) :
    who ∉ (newSession c s).2 := by
  obtain ⟨hinv, -, -, hret⟩ := kickStaleCandidates_frame c s s.candidates
  rw [newSession, assembleCollators, hinv, List.mem_append]
  exact not_or.2 ⟨hs.2, fun h => hs.1 (hret.subset h)⟩

/-- **Leaving** takes the candidacy, and releases the deposit at once. -/
theorem leaveIntent_spec {s : State AccountId Ledger} (hnodup : s.candidateIds.Nodup)
    (hleave : (leaveIntent c s (.signed who)).1 = .ok ()) :
    who ∉ (leaveIntent c s (.signed who)).2.candidateIds ∧
    (leaveIntent c s (.signed who)).2.invulnerables = s.invulnerables ∧
    ∃ candidate ∈ s.candidates, candidate.who = who ∧
      (leaveIntent c s (.signed who)).2.ledger = c.unreserve s.ledger who candidate.deposit := by
  rcases leaveIntent_cases c s (.signed who) with ⟨e, he⟩ | ⟨w, hw, he⟩
  · rw [he] at hleave
    cases hleave
  obtain rfl := Origin.signed.inj hw
  have hids : who ∉ (tryRemoveCandidate c s who).2.candidateIds := by
    rw [candidateIds_tryRemoveCandidate]
    exact hnodup.not_mem_erase
  obtain ⟨candidate, hfind⟩ : ∃ candidate,
      s.candidates.find? (fun c => c.who = who) = some candidate := by
    refine Option.ne_none_iff_exists'.1 fun hnone => ?_
    rw [leaveIntent] at hleave
    simp only [ensureSigned, tryRemoveCandidate, hnone] at hleave
    split at hleave <;> cases hleave
  have hwho : candidate.who = who := by simpa using List.find?_some hfind
  rw [he]
  refine ⟨hids, (tryRemoveCandidate_frame c s who).1, candidate, List.mem_of_find?_eq_some hfind,
    hwho, ?_⟩
  simp only [tryRemoveCandidate, hfind, State.removeCandidate, State.depositEvent, hwho]

/-- **A leaver is gone.**  An account that is no invulnerable and leaves its candidacy is paid its
deposit back at once; and as long as nothing brings it back it is no candidate, and in the active
set of no session that starts more than a period behind the block it left in. -/
theorem leaver_gone (ch : Chain AccountId Ledger) (tr : List (ChainStep AccountId Ledger))
    (hnodup : ch.pallet.candidateIds.Nodup) (hinv : who ∉ ch.pallet.invulnerables)
    (hleave : (dispatch c ch.pallet (.signed who) .leaveIntent).1 = .ok ())
    (hout : Guarded (chainStep c authorshipFirst) (OnCalls fun s origin call =>
      ¬ BringsBack c who s origin call)
      (chainStep c authorshipFirst ch (.call (.signed who) .leaveIntent)) tr) :
    let left := chainStep c authorshipFirst ch (.call (.signed who) .leaveIntent)
    let ch' := run (chainStep c authorshipFirst) left tr
    (∃ candidate ∈ ch.pallet.candidates, candidate.who = who ∧
      left.pallet.ledger = c.unreserve ch.pallet.ledger who candidate.deposit) ∧
    who ∉ ch'.pallet.candidateIds ∧
    ∃ new, ch'.sessions = ch.sessions ++ new ∧
      ∀ start ∈ new, ch.pallet.blockNumber + c.kickThreshold < start.1 → who ∉ start.2 := by
  intro left ch'
  obtain ⟨hids, hinv', hledger⟩ := leaveIntent_spec hnodup hleave
  have hnum : left.pallet.blockNumber = ch.pallet.blockNumber :=
    blockNumber_dispatch c ch.pallet (.signed who) .leaveIntent
  have hcall : ∀ s origin call, ¬ BringsBack c who s origin call → Out who s →
      Out who (dispatch c s origin call).2 := fun s origin call hno =>
    out_step s (.call origin call) fun _ _ h => by cases h; exact hno
  have hrest : ∀ s a, (∀ origin call, a ≠ .call origin call) → Out who s →
      Out who (step c s a) := fun s a hno =>
    out_step s a fun _ _ h => absurd h (hno _ _)
  have hleft : Out who left.pallet := ⟨hids, hinv'.symm ▸ hinv⟩
  refine ⟨hledger, ?_, ?_⟩
  · have hend : Out who ch'.pallet :=
      invariant_run (I := fun ch => Out who ch.pallet) (chainStep_induct hcall hrest) hout hleft
    exact hend.1
  · rw [← hnum]
    exact sessions_of_named (P := (who ∉ ·)) left
      (names_of_kept hcall hrest (fun _ => not_mem_newSession) hleft hout)

/-- Account `7` leaves in block `4`: block `9` starts a session without it. -/
theorem plain_leaver_gone :
    let left := chainStep (plainConfig 3) true seatedChain (.call (.signed 7) .leaveIntent)
    ∃ new, (run (chainStep (plainConfig 3) true) left
        (List.replicate 5 (.onInitialize (some 1)))).sessions = [(3, [1])] ++ new ∧
      ∀ start ∈ new, 4 + 3 < start.1 → 7 ∉ start.2 :=
  (leaver_gone seatedChain (List.replicate 5 (.onInitialize (some 1))) (by decide) (by decide) rfl
    ⟨trivial, trivial, trivial, trivial, trivial, trivial⟩).2.2

end Collator
