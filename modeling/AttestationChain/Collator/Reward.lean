import AttestationChain.Collator.Pallet
import AttestationChain.Machinery.Transfers
import Mathlib.Algebra.Order.Group.Nat

/-!
# Collator/Reward — whether the author of a block is paid

The author gets half of what the pot holds above the existential deposit, by a transfer that keeps
the pot alive.  The pot's end of it is never in the way: what it gives leaves it at least the
deposit.  The other end is looked at only by the currency, which refuses what leaves an account with
less than the deposit — so an author too poor for a small reward gets none, and the transfer fails
(`rewarded_iff`).
-/

namespace Collator

open Transfers

variable {AccountId ValidatorId Ledger : Type} (c : Config AccountId ValidatorId Ledger)
  (reserved : Ledger → AccountId → ℕ) (s : State AccountId Ledger) (author : AccountId)

/-- The total balance of an account, free and reserved. -/
def totalBalance (ledger : Ledger) (who : AccountId) : ℕ :=
  c.freeBalance ledger who + reserved ledger who

/-- What the author is to get: half of what the pot holds above the existential deposit. -/
def authorReward : ℕ :=
  if c.minimumBalance < c.freeBalance s.ledger c.accountId then
    (c.freeBalance s.ledger c.accountId - c.minimumBalance) / 2
  else 0

variable {c s} in
/-- It is what is transferred: a pot with no more than the deposit has nothing to halve. -/
theorem authorReward_eq : authorReward c s =
    (c.freeBalance s.ledger c.accountId - c.minimumBalance) / 2 := by
  rw [authorReward]
  split
  · rfl
  · omega

variable [DecidableEq AccountId]

/-- **What `pallet_balances` does with a transfer that keeps the sender alive**: nothing for an
amount of zero; otherwise it fails if it would leave one of the two accounts below the existential
deposit, and goes through if the sender has the amount and both stay alive; and where it goes
through, the amount is moved from free balance to free balance. -/
structure TransfersKeepAlive : Prop where
  zero : ∀ ledger sender receiver, c.transfer ledger sender receiver 0 = .ok ledger
  sender_dies : ∀ ledger sender receiver amount, sender ≠ receiver → 0 < amount →
    totalBalance c reserved ledger sender - amount < c.minimumBalance →
    ∃ e, c.transfer ledger sender receiver amount = .error e
  receiver_dies : ∀ ledger sender receiver amount, sender ≠ receiver → 0 < amount →
    totalBalance c reserved ledger receiver + amount < c.minimumBalance →
    ∃ e, c.transfer ledger sender receiver amount = .error e
  goes_through : ∀ ledger sender receiver amount, sender ≠ receiver →
    amount ≤ c.freeBalance ledger sender →
    c.minimumBalance ≤ totalBalance c reserved ledger sender - amount →
    c.minimumBalance ≤ totalBalance c reserved ledger receiver + amount →
    ∃ ledger', c.transfer ledger sender receiver amount = .ok ledger'
  free : ∀ ledger sender receiver amount ledger', sender ≠ receiver →
    c.transfer ledger sender receiver amount = .ok ledger' → amount ≤ c.freeBalance ledger sender ∧
      c.freeBalance ledger' = moved (c.freeBalance ledger) sender receiver amount
  reserved : ∀ ledger sender receiver amount ledger',
    c.transfer ledger sender receiver amount = .ok ledger' → reserved ledger' = reserved ledger

/-- **The author is rewarded**: the transfer goes through, the author's free balance grows by the
reward, the pot keeps the rest and is not taken below the existential deposit, and all accounts
together hold what they held. -/
def Rewarded : Prop :=
  ∃ ledger, c.transfer s.ledger c.accountId author
      ((c.freeBalance s.ledger c.accountId - c.minimumBalance) / 2) = .ok ledger ∧
    (noteAuthor c s author).ledger = ledger ∧
    c.freeBalance ledger author = c.freeBalance s.ledger author + authorReward c s ∧
    c.freeBalance ledger c.accountId = c.freeBalance s.ledger c.accountId - authorReward c s ∧
    min (c.freeBalance s.ledger c.accountId) c.minimumBalance ≤ c.freeBalance ledger c.accountId ∧
    ∀ accounts : Finset AccountId, c.accountId ∈ accounts → author ∈ accounts →
      ∑ who ∈ accounts, totalBalance c reserved ledger who
        = ∑ who ∈ accounts, totalBalance c reserved s.ledger who

variable {c reserved s author}

/-- **A transfer that goes through rewards the author.** -/
theorem TransfersKeepAlive.rewarded (h : TransfersKeepAlive c reserved)
    (hpot : c.accountId ≠ author) {ledger : Ledger}
    (hok : c.transfer s.ledger c.accountId author (authorReward c s) = .ok ledger) :
    Rewarded c reserved s author := by
  obtain ⟨hle, hfree⟩ := h.free _ _ _ _ _ hpot hok
  have hreserved := h.reserved _ _ _ _ _ hok
  have hkept : c.freeBalance ledger c.accountId =
      c.freeBalance s.ledger c.accountId - authorReward c s := by rw [hfree, moved_sender _ hpot]
  refine ⟨ledger, authorReward_eq ▸ hok, ?_, by rw [hfree, moved_receiver], hkept, ?_, ?_⟩
  · rw [authorReward_eq] at hok
    simp only [noteAuthor, hok]
  · rw [hkept, authorReward_eq]
    omega
  · intro accounts hmem hauthor
    simp only [totalBalance, Finset.sum_add_distrib, hreserved, hfree]
    rw [sum_moved hpot hle accounts hmem hauthor]

/-- **The author is rewarded just if it can be paid.**  For an author other than the pot, the
transfer goes through, with all it should do, exactly if there is no reward, or it brings the author
to the existential deposit. -/
theorem rewarded_iff (h : TransfersKeepAlive c reserved) (hpot : author ≠ c.accountId) :
    Rewarded c reserved s author ↔
      c.freeBalance s.ledger c.accountId ≤ c.minimumBalance + 1 ∨
      c.minimumBalance ≤ totalBalance c reserved s.ledger author +
        (c.freeBalance s.ledger c.accountId - c.minimumBalance) / 2 := by
  by_cases hnone : c.freeBalance s.ledger c.accountId ≤ c.minimumBalance + 1
  · have hzero : authorReward c s = 0 := by rw [authorReward_eq]; omega
    have hok := h.zero s.ledger c.accountId author
    exact iff_of_true (h.rewarded hpot.symm (hzero ▸ hok)) (.inl hnone)
  by_cases hpoor : totalBalance c reserved s.ledger author +
      (c.freeBalance s.ledger c.accountId - c.minimumBalance) / 2 < c.minimumBalance
  · refine iff_of_false ?_ (not_or.2 ⟨hnone, Nat.not_le.2 hpoor⟩)
    rintro ⟨ledger, hok, -⟩
    obtain ⟨e, he⟩ := h.receiver_dies s.ledger c.accountId author _ hpot.symm (by omega) hpoor
    rw [he] at hok
    cases hok
  · refine iff_of_true ?_ (.inr (Nat.not_lt.1 hpoor))
    -- Half of what is above the deposit leaves the pot above it.
    have hpays : c.minimumBalance ≤ totalBalance c reserved s.ledger c.accountId -
        (c.freeBalance s.ledger c.accountId - c.minimumBalance) / 2 := by
      rw [totalBalance]
      omega
    obtain ⟨ledger, hok⟩ := h.goes_through s.ledger c.accountId author _ hpot.symm (by omega) hpays
      (Nat.not_lt.1 hpoor)
    exact h.rewarded hpot.symm (authorReward_eq ▸ hok)

/-! ## A book of balances -/

/-- The transfers of `pallet_balances` over free balances, with an existential deposit of 500. -/
def balanceTransfer (book : ℕ → ℕ) (sender receiver amount : ℕ) : Except DispatchError (ℕ → ℕ) :=
  if amount = 0 ∨ sender = receiver then .ok book
  else if book sender < amount then .error .currency
  else if book receiver + amount < 500 then .error .currency
  else if book sender - amount < 500 then .error .currency
  else .ok (moved book sender receiver amount)

/-- A chain with such a book, whose pot is account 0 and which reserves nothing. -/
def balanceConfig : Config ℕ ℕ (ℕ → ℕ) where
  maxCandidates := 1000
  minCandidates := 0
  maxInvulnerables := 100
  kickThreshold := 600
  updateOrigin := fun origin => match origin with | .root => true | _ => false
  accountId := 0
  validatorIdOf := some
  isRegistered := fun _ _ => true
  reserve := fun book _ _ => .ok book
  unreserve := fun book _ _ => book
  freeBalance := id
  minimumBalance := 500
  transfer := balanceTransfer

theorem transfersKeepAlive_balances :
    TransfersKeepAlive balanceConfig fun _ _ => 0 where
  zero book sender receiver := by
    change balanceTransfer book sender receiver 0 = .ok book
    rw [balanceTransfer, if_pos (.inl rfl)]
  sender_dies book sender receiver amount hne hpos hlt := by
    change book sender + 0 - amount < 500 at hlt
    change ∃ e, balanceTransfer book sender receiver amount = .error e
    rw [balanceTransfer, if_neg (by omega)]
    split_ifs <;> first | exact ⟨_, rfl⟩ | omega
  receiver_dies book sender receiver amount hne hpos hlt := by
    change book receiver + 0 + amount < 500 at hlt
    change ∃ e, balanceTransfer book sender receiver amount = .error e
    rw [balanceTransfer, if_neg (by omega)]
    split_ifs <;> first | exact ⟨_, rfl⟩ | omega
  goes_through book sender receiver amount hne hle hsender hreceiver := by
    change amount ≤ book sender at hle
    change 500 ≤ book sender + 0 - amount at hsender
    change 500 ≤ book receiver + 0 + amount at hreceiver
    change ∃ book', balanceTransfer book sender receiver amount = .ok book'
    rw [balanceTransfer]
    split_ifs <;> first | exact ⟨_, rfl⟩ | omega
  free book sender receiver amount book' hne hok := by
    change amount ≤ book sender ∧ book' = moved book sender receiver amount
    change balanceTransfer book sender receiver amount = .ok book' at hok
    rw [balanceTransfer] at hok
    split_ifs at hok with hnone hless
    · obtain rfl := Except.ok.inj hok
      obtain rfl : amount = 0 := hnone.resolve_right hne
      exact ⟨Nat.zero_le _, by simp [moved]⟩
    · exact ⟨Nat.not_lt.1 hless, (Except.ok.inj hok).symm⟩
  reserved _ _ _ _ _ _ := rfl

/-- The pot has the given balance, and account 1 has 100. -/
def balanceState (pot : ℕ) : State ℕ (ℕ → ℕ) :=
  ⟨1, [], fun who => if who = 0 then pot else if who = 1 then 100 else 0,
    [1], [], fun _ => none, 20, 10⟩

/-- From a pot of 1500, account 1 gets 500. -/
theorem rewarded_balances : Rewarded balanceConfig (fun _ _ => 0) (balanceState 1500) 1 :=
  (rewarded_iff transfersKeepAlive_balances (by decide)).2 (.inr (by decide))

/-- From a pot of 600 the same account is to get 50, and gets nothing. -/
theorem not_rewarded_balances :
    ¬ ∀ (c : Config ℕ ℕ (ℕ → ℕ)) (reserved : (ℕ → ℕ) → ℕ → ℕ), TransfersKeepAlive c reserved →
      ∀ s author, author ≠ c.accountId → Rewarded c reserved s author := by
  intro h
  obtain ⟨book, hok, -⟩ :=
    h balanceConfig (fun _ _ => 0) transfersKeepAlive_balances (balanceState 600) 1 (by decide)
  cases hok

end Collator
