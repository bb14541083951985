import AttestationChain.Collator.Reward
import Mathlib.Algebra.Order.Floor.Div
import Mathlib.Algebra.Order.Ring.Nat

/-!
# Collator/Pot — how the pot empties

A block whose author can be paid halves what the pot holds above the existential deposit, rounded
up.  So it never falls to the deposit from above it, and behind a run it holds the deposit and a
`2 ^ k`-th of what it held above it, where `k` is the number of blocks that were paid for
(`pot_halves`).
-/

namespace Collator

open Runs Transfers

variable {AccountId ValidatorId Ledger : Type} (c : Config AccountId ValidatorId Ledger)
  (reserved : Ledger → AccountId → ℕ)

/-- Dividing twice, rounded up, is dividing once. -/
theorem ceilDiv_ceilDiv (x : ℕ) {a b : ℕ} (ha : 0 < a) (hb : 0 < b) :
    x ⌈/⌉ a ⌈/⌉ b = x ⌈/⌉ (a * b) := by
  refine eq_of_forall_ge_iff fun y => ?_
  rw [ceilDiv_le_iff_le_smul hb, ceilDiv_le_iff_le_smul ha,
    ceilDiv_le_iff_le_smul (Nat.mul_pos ha hb), smul_eq_mul, smul_eq_mul, smul_eq_mul, mul_assoc]

/-- What half, rounded down, leaves is half, rounded up. -/
theorem sub_half (x : ℕ) : x - x / 2 = x ⌈/⌉ 2 := by
  rw [Nat.ceilDiv_eq_add_pred_div]
  omega

/-- What the pot holds. -/
def pot (ledger : Ledger) : ℕ := c.freeBalance ledger c.accountId

variable [DecidableEq AccountId]

/-- **The author can be paid**: with the reward, if there is one, it has the existential deposit. -/
def Payable (s : State AccountId Ledger) (author : AccountId) : Prop :=
  c.minimumBalance ≤ totalBalance c reserved s.ledger author + authorReward c s

instance (s : State AccountId Ledger) (author : AccountId) :
    Decidable (Payable c reserved s author) :=
  inferInstanceAs (Decidable (_ ≤ _))

/-- One, for a block whose author can be paid. -/
def paid (s : State AccountId Ledger) : Step AccountId Ledger → ℕ
  | .noteAuthor author => if Payable c reserved s author then 1 else 0
  | _ => 0

/-- The blocks of a run whose authors can be paid. -/
def paidIn (s : State AccountId Ledger) : List (Step AccountId Ledger) → ℕ
  | [] => 0
  | a :: tr => paid c reserved s a + paidIn (step c s a) tr

/-- **The pot is left alone**: no block is its own, and but for authorship nothing moves what it
holds. -/
def PotAlone (s : State AccountId Ledger) : Step AccountId Ledger → Prop
  | .noteAuthor author => author ≠ c.accountId
  | a => pot c (step c s a).ledger = pot c s.ledger

variable {c reserved} {s : State AccountId Ledger} {author : AccountId}

/-- A transfer that fails moves nothing. -/
theorem ledger_noteAuthor_error {e : DispatchError}
    (h : c.transfer s.ledger c.accountId author (authorReward c s) = .error e) :
    (noteAuthor c s author).ledger = s.ledger := by
  rw [authorReward_eq] at h
  simp only [noteAuthor, h]

/-- One that goes through takes the reward from the pot. -/
theorem pot_noteAuthor_ok (h : TransfersKeepAlive c reserved) (hpot : c.accountId ≠ author)
    {ledger : Ledger}
    (hok : c.transfer s.ledger c.accountId author (authorReward c s) = .ok ledger) :
    pot c (noteAuthor c s author).ledger = pot c s.ledger - authorReward c s := by
  obtain ⟨ledger', hok', hledger, -, hkept, -, -⟩ := h.rewarded hpot hok
  rw [hledger, pot, hkept, pot]

/-- **A block that is paid for halves what is above the deposit**, and one that is not leaves it. -/
theorem pot_noteAuthor (h : TransfersKeepAlive c reserved) (hpot : c.accountId ≠ author) :
    pot c (noteAuthor c s author).ledger = min (pot c s.ledger) c.minimumBalance +
      if Payable c reserved s author then (pot c s.ledger - c.minimumBalance) ⌈/⌉ 2
      else pot c s.ledger - c.minimumBalance := by
  have hreward : authorReward c s = (pot c s.ledger - c.minimumBalance) / 2 := authorReward_eq
  have hhalf := sub_half (pot c s.ledger - c.minimumBalance)
  by_cases hnone : authorReward c s = 0
  · -- Nothing is transferred, and there is nothing to halve.
    have hsame := pot_noteAuthor_ok h hpot (hnone ▸ h.zero s.ledger c.accountId author)
    rw [hsame]
    split_ifs <;> omega
  by_cases hpay : Payable c reserved s author
  · obtain ⟨ledger, hok⟩ := h.goes_through s.ledger c.accountId author (authorReward c s) hpot
      (by rw [hreward, ← pot]; omega) (by rw [totalBalance, ← pot]; omega) hpay
    rw [pot_noteAuthor_ok h hpot hok, if_pos hpay]
    omega
  · obtain ⟨e, he⟩ := h.receiver_dies s.ledger c.accountId author (authorReward c s) hpot
      (Nat.pos_of_ne_zero hnone) (Nat.not_le.1 hpay)
    rw [ledger_noteAuthor_error he, if_neg hpay]
    omega

omit [DecidableEq AccountId] in
/-- A pot that is left as it is. -/
theorem excess_same {ledger ledger' : Ledger} (h : pot c ledger' = pot c ledger) :
    min (pot c ledger') c.minimumBalance = min (pot c ledger) c.minimumBalance ∧
    pot c ledger' - c.minimumBalance = (pot c ledger - c.minimumBalance) ⌈/⌉ 2 ^ 0 := by
  rw [h, pow_zero, ceilDiv_one]
  exact ⟨rfl, rfl⟩

/-- What is above the deposit, behind a step, and what is of it. -/
theorem excess_step (h : TransfersKeepAlive c reserved) (s : State AccountId Ledger)
    (a : Step AccountId Ledger) (ha : PotAlone c s a) :
    min (pot c (step c s a).ledger) c.minimumBalance = min (pot c s.ledger) c.minimumBalance ∧
    pot c (step c s a).ledger - c.minimumBalance =
      (pot c s.ledger - c.minimumBalance) ⌈/⌉ 2 ^ paid c reserved s a := by
  cases a with
  | noteAuthor author =>
    have hstep := pot_noteAuthor (s := s) h (Ne.symm ha)
    have hhalf := sub_half (pot c s.ledger - c.minimumBalance)
    rw [step, paid]
    split_ifs at hstep ⊢
    · rw [pow_one]
      omega
    · exact excess_same (by omega)
  | call origin call => exact excess_same ha
  | newSession => exact excess_same ha
  | newBlock => exact excess_same ha
  | outside ledger => exact excess_same ha

variable (c reserved) in
/-- **How the pot empties.**  In every run in which the pot authors no block and nothing but
authorship moves what it holds, it ends with what it held of the existential deposit, and with a
`2 ^ k`-th, rounded up, of what it held above: `k` is the number of blocks whose authors could be
paid. -/
theorem pot_halves (h : TransfersKeepAlive c reserved) (s : State AccountId Ledger)
    (tr : List (Step AccountId Ledger)) (halone : Guarded (step c) (PotAlone c) s tr) :
    pot c (run (step c) s tr).ledger = min (pot c s.ledger) c.minimumBalance +
      (pot c s.ledger - c.minimumBalance) ⌈/⌉ 2 ^ paidIn c reserved s tr := by
  induction tr generalizing s with
  | nil =>
    rw [run_nil, paidIn, pow_zero, ceilDiv_one]
    omega
  | cons a tr ih =>
    obtain ⟨hhead, htail⟩ := halone
    obtain ⟨hkept, hexcess⟩ := excess_step h s a hhead
    rw [run_cons, ih _ htail, hkept, hexcess,
      ceilDiv_ceilDiv _ (Nat.two_pow_pos _) (Nat.two_pow_pos _), ← pow_add, paidIn]

/-- From a pot of 1500, two blocks of account `1` leave 750. -/
theorem pot_halves_balances :
    pot balanceConfig (run (step balanceConfig) (balanceState 1500)
      [.noteAuthor 1, .newBlock, .noteAuthor 1]).ledger = 750 := by
  have hne : (1 : ℕ) ≠ 0 := by decide
  exact (pot_halves balanceConfig (fun _ _ => 0) transfersKeepAlive_balances (balanceState 1500)
    [.noteAuthor 1, .newBlock, .noteAuthor 1] ⟨hne, rfl, hne, trivial⟩).trans (by decide)

end Collator
