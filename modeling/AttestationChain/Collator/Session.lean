import AttestationChain.Collator.Pallet

/-!
# Collator/Session — how long a new candidate is safe from the kick

The session pallet rotates in the `on_initialize` of every block the period divides: the collators
returned at the rotation before become the active set, and `new_session` is asked for the ones to
queue behind them.  A candidate registered at `r` is queued at the next rotation, active one period
later and has served a whole session another period later.

The grace stamp of a registration is `r` plus the kick threshold, which is the period.  So the
second rotation is reached in time exactly where `r` is not a rotation block itself — and as long as
no authored block *lowers* the stamp (`candidate_not_kicked_early`).
-/

namespace Collator

open Runs

variable {AccountId ValidatorId Ledger : Type}

/-! ## The chain -/

/-- The pallet and the session pallet around it: the collators queued for the next session, and the
active set of every session so far with the block it started at. -/
structure Chain (AccountId Ledger : Type) where
  pallet : State AccountId Ledger
  queued : List AccountId
  sessions : List (ℕ × List AccountId)

/-- What happens next: a block is initialized, with the author authorship notes, or a call is
dispatched in it, or other pallets do something to their storage. -/
inductive ChainStep (AccountId Ledger : Type)
  | onInitialize (author : Option AccountId)
  | call (origin : Origin AccountId) (call : Call AccountId)
  | outside (ledger : Ledger)

variable [DecidableEq AccountId] (c : Config AccountId ValidatorId Ledger)

/-- `pallet_authorship`'s hook: the author of the block, if it has one. -/
def Chain.note (ch : Chain AccountId Ledger) : Option AccountId → Chain AccountId Ledger
  | none => ch
  | some author => { ch with pallet := noteAuthor c ch.pallet author }

/-- `pallet_session`'s hook: a rotation where the period — the kick threshold, as configured —
divides the block number. -/
def Chain.rotate (ch : Chain AccountId Ledger) : Chain AccountId Ledger :=
  if c.kickThreshold ∣ ch.pallet.blockNumber then
    { pallet := (newSession c ch.pallet).1
      queued := (newSession c ch.pallet).2
      sessions := ch.sessions ++ [(ch.pallet.blockNumber, ch.queued)] }
  else ch

/-- A block, opened. -/
def Chain.opened (ch : Chain AccountId Ledger) : Chain AccountId Ledger :=
  { ch with pallet := { ch.pallet with blockNumber := ch.pallet.blockNumber + 1 } }

/-- One step, with the hook of authorship before that of the session or behind it. -/
def chainStep (authorshipFirst : Bool) (ch : Chain AccountId Ledger) :
    ChainStep AccountId Ledger → Chain AccountId Ledger
  | .onInitialize author =>
    if authorshipFirst then (ch.opened.note c author).rotate c
    else (ch.opened.rotate c).note c author
  | .call origin call => { ch with pallet := (dispatch c ch.pallet origin call).2 }
  | .outside ledger => { ch with pallet := { ch.pallet with ledger := ledger } }

/-! ## What keeps a candidate -/

/-- **A fresh candidate is not kicked**, and is among the accounts that stay. -/
theorem kickStaleCandidates_keeps {who : AccountId} (l : List (CandidateInfo AccountId))
    (s : State AccountId Ledger) (hfresh : s.blockNumber - s.lastBlock who < c.kickThreshold) :
    (who ∈ s.candidateIds → who ∈ (kickStaleCandidates c s l).1.candidateIds) ∧
    (kickStaleCandidates c s l).1.lastBlock who = s.lastBlock who ∧
    (who ∈ l.map CandidateInfo.who → who ∈ (kickStaleCandidates c s l).2) := by
  induction l generalizing s with
  | nil => exact ⟨fun h => h, rfl, fun h => h⟩
  | cons candidate rest ih =>
    rw [kickStaleCandidates]
    split_ifs with hstay
    · obtain ⟨hids, hlast, hret⟩ := ih s hfresh
      refine ⟨hids, hlast, fun hmem => ?_⟩
      rcases List.mem_cons.1 hmem with rfl | hrest
      · exact List.mem_cons_self
      · exact List.mem_cons_of_mem _ (hret hrest)
    · have hother : who ≠ candidate.who := fun h => hstay (.inl (h ▸ hfresh))
      obtain ⟨-, hnum, hlast'⟩ := tryRemoveCandidate_frame c s candidate.who
      obtain ⟨hids, hlast, hret⟩ := ih (tryRemoveCandidate c s candidate.who).2
        (by rw [hnum, hlast' who hother]; exact hfresh)
      refine ⟨fun hmem => hids ?_, hlast.trans (hlast' who hother), fun hmem => hret ?_⟩
      · rw [candidateIds_tryRemoveCandidate]
        exact (List.mem_erase_of_ne hother).2 hmem
      · exact (List.mem_cons.1 hmem).resolve_left hother

variable (who : AccountId)

theorem note_spec (ch : Chain AccountId Ledger) (author : Option AccountId) :
    (ch.note c author).pallet.candidateIds = ch.pallet.candidateIds ∧
    (ch.note c author).pallet.blockNumber = ch.pallet.blockNumber ∧
    (ch.note c author).queued = ch.queued ∧ (ch.note c author).sessions = ch.sessions ∧
    (ch.note c author).pallet.lastBlock who
      = if author = some who then ch.pallet.blockNumber else ch.pallet.lastBlock who := by
  rcases author with _ | author
  · exact ⟨rfl, rfl, rfl, rfl, rfl⟩
  · refine ⟨rfl, rfl, rfl, rfl, ?_⟩
    by_cases h : author = who
    · simp [Chain.note, noteAuthor, State.lastBlock, h]
    · simp [Chain.note, noteAuthor, State.lastBlock, h, Ne.symm h]

theorem rotate_spec (ch : Chain AccountId Ledger) :
    (ch.rotate c).pallet.blockNumber = ch.pallet.blockNumber ∧
    (¬ c.kickThreshold ∣ ch.pallet.blockNumber → ch.rotate c = ch) ∧
    (c.kickThreshold ∣ ch.pallet.blockNumber →
      (ch.rotate c).sessions = ch.sessions ++ [(ch.pallet.blockNumber, ch.queued)]) ∧
    (who ∈ ch.pallet.candidateIds →
      ch.pallet.blockNumber - ch.pallet.lastBlock who < c.kickThreshold →
        who ∈ (ch.rotate c).pallet.candidateIds ∧
        (ch.rotate c).pallet.lastBlock who = ch.pallet.lastBlock who ∧
        (c.kickThreshold ∣ ch.pallet.blockNumber → who ∈ (ch.rotate c).queued)) := by
  by_cases hrot : c.kickThreshold ∣ ch.pallet.blockNumber
  · obtain ⟨-, hnum, -, -⟩ := kickStaleCandidates_frame c ch.pallet ch.pallet.candidates
    rw [Chain.rotate, if_pos hrot]
    refine ⟨hnum, fun h => absurd hrot h, fun _ => rfl, fun hmem hfresh => ?_⟩
    obtain ⟨hids, hlast, hret⟩ :=
      kickStaleCandidates_keeps c ch.pallet.candidates ch.pallet hfresh
    exact ⟨hids hmem, hlast, fun _ => List.mem_append_right _ (hret hmem)⟩
  · rw [Chain.rotate, if_neg hrot]
    exact ⟨rfl, fun _ => rfl, fun h => absurd h hrot, fun hmem _ => ⟨hmem, rfl,
      fun h => absurd h hrot⟩⟩

/-- **What initializing a block does**: sessions are only ever appended to, and a candidate that is
fresh in it stays — queued anew if the block rotates, and with its last block set only by its own
authorship. -/
theorem onInitialize_spec (authorshipFirst : Bool) (ch : Chain AccountId Ledger)
    (author : Option AccountId) :
    let ch' := chainStep c authorshipFirst ch (.onInitialize author)
    let n := ch.pallet.blockNumber + 1
    ch'.pallet.blockNumber = n ∧
    (¬ c.kickThreshold ∣ n → ch'.pallet.candidateIds = ch.pallet.candidateIds ∧
      ch'.queued = ch.queued ∧ ch'.sessions = ch.sessions) ∧
    (c.kickThreshold ∣ n → ch'.sessions = ch.sessions ++ [(n, ch.queued)]) ∧
    (who ∈ ch.pallet.candidateIds → n - ch.pallet.lastBlock who < c.kickThreshold →
      who ∈ ch'.pallet.candidateIds ∧
      ch'.pallet.lastBlock who = (if author = some who then n else ch.pallet.lastBlock who) ∧
      (c.kickThreshold ∣ n → who ∈ ch'.queued)) := by
  intro ch' n
  rcases authorshipFirst with _ | _
  · obtain ⟨hnum, hskip, hrot, hkeep⟩ := rotate_spec c who ch.opened
    obtain ⟨hids', hnum', hqueued', hsessions', hlast'⟩ :=
      note_spec c who (ch.opened.rotate c) author
    refine ⟨hnum'.trans hnum, fun h => ?_, fun h => ?_, fun hmem hfresh => ?_⟩
    · have hsame := hskip h
      exact ⟨hids'.trans (by rw [hsame]; rfl), hqueued'.trans (by rw [hsame]; rfl),
        hsessions'.trans (by rw [hsame]; rfl)⟩
    · exact hsessions'.trans (hrot h)
    · obtain ⟨hids, hlast, hqueued⟩ := hkeep hmem hfresh
      refine ⟨hids' ▸ hids, hlast'.trans ?_, fun h => hqueued' ▸ hqueued h⟩
      rw [hnum, hlast]
      rfl
  · obtain ⟨hids, hnum, hqueued, hsessions, hlast⟩ := note_spec c who ch.opened author
    obtain ⟨hnum', hskip, hrot, hkeep⟩ := rotate_spec c who (ch.opened.note c author)
    rw [hnum] at hnum' hskip hrot hkeep
    rw [hids, hlast] at hkeep
    refine ⟨hnum', fun h => ?_, fun h => ?_, fun hmem hfresh => ?_⟩
    · change ((ch.opened.note c author).rotate c).pallet.candidateIds = _ ∧
        ((ch.opened.note c author).rotate c).queued = _ ∧
        ((ch.opened.note c author).rotate c).sessions = _
      rw [hskip h]
      exact ⟨hids, hqueued, hsessions⟩
    · exact (hrot h).trans (by rw [hsessions, hqueued]; rfl)
    · refine hkeep hmem ?_
      split_ifs
      · exact lt_of_eq_of_lt (Nat.sub_self _) (Nat.zero_lt_of_lt hfresh)
      · exact hfresh

/-- **It does not leave**: no call of the account's to `leave_intent` succeeds. -/
def NoLeave (ch : Chain AccountId Ledger) : ChainStep AccountId Ledger → Prop
  | .call (.signed w) .leaveIntent =>
    w = who → (leaveIntent c ch.pallet (.signed w)).1 ≠ .ok ()
  | _ => True

/-- **A call keeps a candidate that does not leave**, and its last block. -/
theorem dispatch_keeps (ch : Chain AccountId Ledger) (origin : Origin AccountId)
    (call : Call AccountId) (hmem : who ∈ ch.pallet.candidateIds)
    (hleave : NoLeave c who ch (.call origin call)) :
    who ∈ (dispatch c ch.pallet origin call).2.candidateIds ∧
    (dispatch c ch.pallet origin call).2.lastBlock who = ch.pallet.lastBlock who := by
  by_cases hregister : call = .registerAsCandidate
  · subst hregister
    rcases registerAsCandidate_cases c ch.pallet origin with ⟨e, he⟩ | ⟨w, ledger, -, -, hw, -, he⟩
    · rw [dispatch, he]
      exact ⟨hmem, rfl⟩
    · -- Another account registers: this one is a candidate already.
      have hother : who ≠ w := fun h => hw (h ▸ hmem)
      have hids : (ch.pallet.addCandidate c w ch.pallet.candidacyBond ledger).candidateIds
          = ch.pallet.candidateIds ++ [w] := by
        simp [State.addCandidate, State.depositEvent, State.candidateIds]
      rw [dispatch, he]
      refine ⟨hids ▸ List.mem_append_left _ hmem, ?_⟩
      simp [State.addCandidate, State.depositEvent, State.lastBlock, hother]
  by_cases hcall : call = .leaveIntent
  · subst hcall
    rcases leaveIntent_cases c ch.pallet origin with ⟨e, he⟩ | ⟨w, rfl, he⟩
    · rw [dispatch, he]
      exact ⟨hmem, rfl⟩
    · have hother : who ≠ w := fun h => hleave h.symm (congrArg Prod.fst he)
      rw [dispatch, he, candidateIds_tryRemoveCandidate]
      exact ⟨(List.mem_erase_of_ne hother).2 hmem,
        (tryRemoveCandidate_frame c ch.pallet w).2.2 who hother⟩
  obtain ⟨hcand, hlast, -⟩ := dispatch_governance c ch.pallet origin hregister hcall
  rw [State.candidateIds, hcand, State.lastBlock, hlast]
  exact ⟨hmem, rfl⟩

/-! ## Serving a session -/

/-- **A session served**: one that started after a block, with the account in its active set, and
lasted a period. -/
def Served (r : ℕ) (ch : Chain AccountId Ledger) : Prop :=
  ∃ start ∈ ch.sessions, r < start.1 ∧ start.1 + c.kickThreshold ≤ ch.pallet.blockNumber ∧
    who ∈ start.2

/-- **Kicked late**: if initializing a block takes the account from the candidates, it has served a
session since. -/
def KickedLate (authorshipFirst : Bool) (r : ℕ) (ch : Chain AccountId Ledger) :
    ChainStep AccountId Ledger → Prop
  | .onInitialize author => who ∈ ch.pallet.candidateIds →
      who ∈ (chainStep c authorshipFirst ch (.onInitialize author)).pallet.candidateIds ∨
      Served c who r (chainStep c authorshipFirst ch (.onInitialize author))
  | _ => True

/-- **On its way to a rotation**: before it the account is a candidate whose last block is within a
period of it, queued from the rotation before it on; from it on, the account is in the active set
that starts there. -/
def Bound (t : ℕ) (ch : Chain AccountId Ledger) : Prop :=
  (ch.pallet.blockNumber < t ∧ who ∈ ch.pallet.candidateIds ∧
    t < ch.pallet.lastBlock who + c.kickThreshold ∧
    (t ≤ ch.pallet.blockNumber + c.kickThreshold → who ∈ ch.queued)) ∨
  (t ≤ ch.pallet.blockNumber ∧ ∃ active, (t, active) ∈ ch.sessions ∧ who ∈ active)

/-- Authorship does not set the account's last block to one a period or more before a rotation. -/
def NotedWithin (t : ℕ) (ch : Chain AccountId Ledger) : ChainStep AccountId Ledger → Prop
  | .onInitialize author => author = some who → t < ch.pallet.blockNumber + 1 + c.kickThreshold
  | _ => True

variable {c who}

/-- **A step keeps an account on its way.** -/
theorem bound_step (authorshipFirst : Bool) {t : ℕ} (ht : c.kickThreshold ∣ t)
    (hpos : 0 < c.kickThreshold) (ch : Chain AccountId Ledger) (a : ChainStep AccountId Ledger)
    (hch : Bound c who t ch) (hleave : NoLeave c who ch a) (hnoted : NotedWithin c who t ch a) :
    Bound c who t (chainStep c authorshipFirst ch a) := by
  rcases a with author | ⟨origin, call⟩ | ledger
  · obtain ⟨hnum, hskip, hrot, hkeep⟩ := onInitialize_spec c who authorshipFirst ch author
    rcases hch with ⟨hlt, hmem, hstamp, hqueued⟩ | ⟨hle, active, hactive, hwho⟩
    · obtain ⟨hids, hlast, hrequeued⟩ := hkeep hmem (by omega)
      by_cases hreach : ch.pallet.blockNumber + 1 = t
      · -- The rotation is reached: what was queued becomes the active set.
        refine .inr ⟨by rw [hnum]; omega, ch.queued, ?_, hqueued (by omega)⟩
        rw [hrot (hreach ▸ ht), hreach]
        exact List.mem_append_right _ List.mem_cons_self
      · refine .inl ⟨by rw [hnum]; omega, hids, ?_, fun hle => ?_⟩
        · rw [hlast]
          split_ifs with hauthor
          · exact hnoted hauthor
          · exact hstamp
        · rw [hnum] at hle
          by_cases hdvd : c.kickThreshold ∣ ch.pallet.blockNumber + 1
          · exact hrequeued hdvd
          · -- The rotation before `t` was passed already, the block not being one.
            rw [(hskip hdvd).2.1]
            refine hqueued (Nat.le_of_lt_succ (lt_of_le_of_ne (by omega) fun heq => hdvd ?_))
            have hsum : c.kickThreshold ∣ ch.pallet.blockNumber + 1 + c.kickThreshold := by
              rwa [show ch.pallet.blockNumber + 1 + c.kickThreshold = t by omega]
            exact (Nat.dvd_add_left (Nat.dvd_refl _)).1 hsum
    · refine .inr ⟨by rw [hnum]; omega, active, ?_, hwho⟩
      by_cases hdvd : c.kickThreshold ∣ ch.pallet.blockNumber + 1
      · rw [hrot hdvd]
        exact List.mem_append_left _ hactive
      · rw [(hskip hdvd).2.2]
        exact hactive
  · have hnum := blockNumber_dispatch c ch.pallet origin call
    rcases hch with ⟨hlt, hmem, hstamp, hqueued⟩ | ⟨hle, hactive⟩
    · obtain ⟨hmem', hlast⟩ := dispatch_keeps c who ch origin call hmem hleave
      refine .inl ?_
      rw [chainStep, hnum, hlast]
      exact ⟨hlt, hmem', hstamp, hqueued⟩
    · refine .inr ⟨?_, hactive⟩
      rw [chainStep, hnum]
      exact hle
  · exact hch

/-- **An account on its way is kicked late**: not before its rotation, and behind it only once the
session that started there is over. -/
theorem Bound.kickedLate (authorshipFirst : Bool) {r t : ℕ} (ht : c.kickThreshold ∣ t)
    (hrt : r < t) (hpos : 0 < c.kickThreshold) {ch : Chain AccountId Ledger}
    (hch : Bound c who t ch) (a : ChainStep AccountId Ledger) :
    KickedLate c who authorshipFirst r ch a := by
  rcases a with author | ⟨origin, call⟩ | ledger
  · obtain ⟨hnum, hskip, hrot, hkeep⟩ := onInitialize_spec c who authorshipFirst ch author
    intro hmem
    rcases hch with ⟨hlt, -, hstamp, -⟩ | ⟨hle, active, hactive, hwho⟩
    · exact .inl (hkeep hmem (by omega)).1
    · by_cases hdvd : c.kickThreshold ∣ ch.pallet.blockNumber + 1
      · refine .inr ⟨(t, active), ?_, hrt, ?_, hwho⟩
        · rw [hrot hdvd]
          exact List.mem_append_left _ hactive
        · rw [hnum]
          obtain ⟨i, rfl⟩ := ht
          obtain ⟨j, hj⟩ := hdvd
          have hij : i < j := by
            refine Nat.lt_of_mul_lt_mul_left ?_ (a := c.kickThreshold)
            rw [← hj]
            exact Nat.lt_succ_of_le hle
          calc c.kickThreshold * i + c.kickThreshold
              = c.kickThreshold * (i + 1) := (Nat.mul_succ _ _).symm
            _ ≤ c.kickThreshold * j := Nat.mul_le_mul_left _ hij
            _ = ch.pallet.blockNumber + 1 := hj.symm
      · refine .inl ?_
        rw [(hskip hdvd).1]
        exact hmem
  · trivial
  · trivial

variable (c) in
/-- The first rotation behind a block. -/
def nextRotation (r : ℕ) : ℕ := c.kickThreshold * (r / c.kickThreshold + 1)

omit [DecidableEq AccountId] in
theorem nextRotation_spec (hpos : 0 < c.kickThreshold) (r : ℕ) :
    c.kickThreshold ∣ nextRotation c r ∧ r < nextRotation c r ∧
    nextRotation c r ≤ r + c.kickThreshold ∧
    (¬ c.kickThreshold ∣ r → nextRotation c r < r + c.kickThreshold) := by
  have hdiv := Nat.div_add_mod r c.kickThreshold
  have hmod := Nat.mod_lt r hpos
  have hnext : nextRotation c r = c.kickThreshold * (r / c.kickThreshold) + c.kickThreshold :=
    Nat.mul_succ _ _
  refine ⟨Nat.dvd_mul_right _ _, by omega, by omega, fun hdvd => ?_⟩
  have hrem : r % c.kickThreshold ≠ 0 := fun h => hdvd (Nat.dvd_of_mod_eq_zero h)
  omega

variable (c who) in
/-- The account is not noted as an author up to a block. -/
def UnnotedUntil (t : ℕ) (ch : Chain AccountId Ledger) : ChainStep AccountId Ledger → Prop
  | .onInitialize author => author = some who → t < ch.pallet.blockNumber + 1
  | _ => True

/-- Blocks only get higher. -/
theorem blockNumber_le_chainStep (authorshipFirst : Bool) (ch : Chain AccountId Ledger)
    (a : ChainStep AccountId Ledger) :
    ch.pallet.blockNumber ≤ (chainStep c authorshipFirst ch a).pallet.blockNumber := by
  rcases a with author | ⟨origin, call⟩ | ledger
  · rw [(onInitialize_spec c c.accountId authorshipFirst ch author).1]
    exact Nat.le_succ _
  · exact (blockNumber_dispatch c ch.pallet origin call).ge
  · exact le_rfl

/-- What a registration leaves: a candidate, stamped a period ahead. -/
theorem registered_spec {ch : Chain AccountId Ledger} (authorshipFirst : Bool)
    (hreg : (dispatch c ch.pallet (.signed who) .registerAsCandidate).1 = .ok ()) :
    let ch' := chainStep c authorshipFirst ch (.call (.signed who) .registerAsCandidate)
    ch'.pallet.blockNumber = ch.pallet.blockNumber ∧ ch'.queued = ch.queued ∧
    who ∈ ch'.pallet.candidateIds ∧
    ch'.pallet.lastBlock who = ch.pallet.blockNumber + c.kickThreshold := by
  intro ch'
  have hch' : ch'.pallet = (dispatch c ch.pallet (.signed who) .registerAsCandidate).2 := rfl
  rcases registerAsCandidate_cases c ch.pallet (.signed who) with ⟨e, he⟩ |
    ⟨w, ledger, hw, -, -, -, he⟩
  · rw [dispatch, he] at hreg
    cases hreg
  · obtain rfl := Origin.signed.inj hw
    rw [hch', dispatch, he]
    exact ⟨rfl, rfl, by simp [State.addCandidate, State.depositEvent, State.candidateIds],
      by simp [State.addCandidate, State.depositEvent, State.lastBlock]⟩

/-- **No candidate is kicked before it could author.**  An account that registers and does not leave
is kicked by no session until it has served one, if it was queued when it registered — it had left
and come back — or else registered in no rotation block and is not noted as an author before the
next rotation is over. -/
theorem candidate_not_kicked_early (hpos : 0 < c.kickThreshold) (authorshipFirst : Bool)
    (ch : Chain AccountId Ledger) (who : AccountId) (suf : List (ChainStep AccountId Ledger))
    (hreg : (dispatch c ch.pallet (.signed who) .registerAsCandidate).1 = .ok ())
    (hstay : Guarded (chainStep c authorshipFirst) (NoLeave c who)
      (chainStep c authorshipFirst ch (.call (.signed who) .registerAsCandidate)) suf)
    (hcond : who ∈ ch.queued ∨ (¬ c.kickThreshold ∣ ch.pallet.blockNumber ∧
      Guarded (chainStep c authorshipFirst)
        (UnnotedUntil who (nextRotation c ch.pallet.blockNumber))
        (chainStep c authorshipFirst ch (.call (.signed who) .registerAsCandidate)) suf)) :
    Guarded (chainStep c authorshipFirst)
      (KickedLate c who authorshipFirst ch.pallet.blockNumber)
      (chainStep c authorshipFirst ch (.call (.signed who) .registerAsCandidate)) suf := by
  obtain ⟨hdvd, hafter, hwithin, hstrict⟩ := nextRotation_spec hpos ch.pallet.blockNumber
  obtain ⟨hnum, hqueued, hmem, hstamp⟩ := registered_spec authorshipFirst hreg
  rcases hcond with hin | ⟨hnotdvd, hunnoted⟩
  · -- Queued already: the next rotation makes it active, and every note until then is recent.
    refine guarded_of_invariant
      (I := fun ch₁ => Bound c who (nextRotation c ch.pallet.blockNumber) ch₁ ∧
        ch.pallet.blockNumber ≤ ch₁.pallet.blockNumber)
      (fun ch₁ a hI hleave => ⟨bound_step authorshipFirst hdvd hpos ch₁ a hI.1 hleave ?_,
        hI.2.trans (blockNumber_le_chainStep authorshipFirst ch₁ a)⟩)
      (fun ch₁ a hI _ => hI.1.kickedLate authorshipFirst hdvd hafter hpos a) hstay
      ⟨.inl ⟨by omega, hmem, by omega, fun _ => hqueued ▸ hin⟩, hnum.ge⟩
    rcases a with author | _ | _
    · intro _
      have := hI.2
      omega
    · trivial
    · trivial
  · -- Not queued: the next rotation queues it, and the one behind that makes it active.
    have hdvd' := Nat.dvd_add hdvd (Nat.dvd_refl c.kickThreshold)
    have hstrict' := hstrict hnotdvd
    refine guarded_of_invariant
      (I := Bound c who (nextRotation c ch.pallet.blockNumber + c.kickThreshold))
      (fun ch₁ a hI hok => bound_step authorshipFirst hdvd' hpos ch₁ a hI hok.1 ?_)
      (fun ch₁ a hI _ => hI.kickedLate authorshipFirst hdvd' (by omega) hpos a)
      (hstay.and hunnoted) (.inl ⟨by omega, hmem, by omega, fun hle => ?_⟩)
    · rcases a with author | _ | _
      · intro hauthor
        have := hok.2 hauthor
        omega
      · trivial
      · trivial
    · omega

/-- A chain of sessions of three blocks, with one invulnerable, at a given block. -/
def plainChain (n : ℕ) : Chain ℕ Unit :=
  ⟨⟨n, [], (), [1], [], fun _ => none, 20, 10⟩, [1], [(3, [1])]⟩

/-- Registered in block `4`, account `7` is kicked late through block `9`, whoever authors. -/
theorem plain_not_kicked_early :
    Guarded (chainStep (plainConfig 3) true) (KickedLate (plainConfig 3) 7 true 4)
      (chainStep (plainConfig 3) true (plainChain 4) (.call (.signed 7) .registerAsCandidate))
      (List.replicate 5 (.onInitialize (some 1))) := by
  refine candidate_not_kicked_early (c := plainConfig 3) (by decide) true (plainChain 4) 7 _ rfl
    ⟨trivial, trivial, trivial, trivial, trivial, trivial⟩ (.inr ⟨by decide, ?_⟩)
  have hother : (some 1 : Option ℕ) ≠ some 7 := by decide
  exact ⟨fun h => absurd h hother, fun h => absurd h hother, fun h => absurd h hother,
    fun h => absurd h hother, fun h => absurd h hother, trivial⟩

/-- Registered in block `3`, which rotates, it is kicked in block `9`, which makes it active. -/
theorem kicked_early :
    ¬ ∀ (c : Config ℕ ℕ Unit), 0 < c.kickThreshold → ∀ (authorshipFirst : Bool)
      (ch : Chain ℕ Unit) (who : ℕ) (suf : List (ChainStep ℕ Unit)),
      (dispatch c ch.pallet (.signed who) .registerAsCandidate).1 = .ok () →
      Guarded (chainStep c authorshipFirst) (NoLeave c who)
        (chainStep c authorshipFirst ch (.call (.signed who) .registerAsCandidate)) suf →
      Guarded (chainStep c authorshipFirst)
        (KickedLate c who authorshipFirst ch.pallet.blockNumber)
        (chainStep c authorshipFirst ch (.call (.signed who) .registerAsCandidate)) suf := by
  intro h
  obtain ⟨-, -, -, -, -, hkick, -⟩ := h (plainConfig 3) (by decide) true (plainChain 3) 7
    (List.replicate 6 (.onInitialize (some 1))) rfl
    ⟨trivial, trivial, trivial, trivial, trivial, trivial, trivial⟩
  rcases hkick (by decide) with hin | ⟨start, hstart, hafter, hover, hwho⟩
  · exact absurd hin (by decide)
  · have hnone : ∀ start ∈ [((3 : ℕ), [1]), (6, [1]), (9, [1, 7])],
        ¬ (start.1 + 3 ≤ 9 ∧ 7 ∈ start.2) := by decide
    exact hnone start hstart ⟨hover, hwho⟩

end Collator
