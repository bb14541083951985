import Mathlib.Algebra.BigOperators.Group.Finset.Basic
import Mathlib.Algebra.Order.Sub.Basic
import Mathlib.Logic.Function.Basic

/-!
# Machinery/Transfers — an amount moved from one of many accounts to another

Balances are a function on the accounts, in whatever they are counted in.  What one account gives
the other gets (`moved`), so any set of accounts that holds both is worth the same after as before
(`sum_moved`).
-/

namespace Transfers

variable {ι M : Type*} [DecidableEq ι] [AddCommMonoid M] [Sub M]

/-- The balances, an amount moved. -/
def moved (balance : ι → M) (sender receiver : ι) (amount : M) : ι → M :=
  Function.update (Function.update balance sender (balance sender - amount)) receiver
    (balance receiver + amount)

variable {balance : ι → M} {sender receiver : ι} (amount : M)

@[simp] theorem moved_receiver :
    moved balance sender receiver amount receiver = balance receiver + amount :=
  Function.update_self ..

@[simp] theorem moved_sender (h : sender ≠ receiver) :
    moved balance sender receiver amount sender = balance sender - amount := by
  rw [moved, Function.update_of_ne h, Function.update_self]

theorem moved_of_ne {account : ι} (hs : account ≠ sender) (hr : account ≠ receiver) :
    moved balance sender receiver amount account = balance account := by
  rw [moved, Function.update_of_ne hr, Function.update_of_ne hs]

/-- **Nothing is made or lost**: two accounts of a set exchange what one of them has. -/
theorem sum_moved [PartialOrder M] [OrderedSub M] [ExistsAddOfLE M] [AddLeftMono M]
    (h : sender ≠ receiver)
    {amount : M} (hle : amount ≤ balance sender) (accounts : Finset ι) (hs : sender ∈ accounts)
    (hr : receiver ∈ accounts) :
    ∑ account ∈ accounts, moved balance sender receiver amount account
      = ∑ account ∈ accounts, balance account := by
  have hr' : receiver ∈ accounts.erase sender := Finset.mem_erase.2 ⟨h.symm, hr⟩
  have hrest : ∀ account ∈ (accounts.erase sender).erase receiver,
      moved balance sender receiver amount account = balance account := by
    intro account hmem
    obtain ⟨hne, hmem⟩ := Finset.mem_erase.1 hmem
    exact moved_of_ne amount (Finset.mem_erase.1 hmem).1 hne
  calc ∑ account ∈ accounts, moved balance sender receiver amount account
      = (balance sender - amount) + ((balance receiver + amount) +
          ∑ account ∈ (accounts.erase sender).erase receiver, balance account) := by
        rw [← Finset.add_sum_erase _ _ hs, ← Finset.add_sum_erase _ _ hr', moved_sender _ h,
          moved_receiver, Finset.sum_congr rfl hrest]
    _ = (balance sender - amount + amount) + (balance receiver +
          ∑ account ∈ (accounts.erase sender).erase receiver, balance account) := by
        rw [add_comm (balance receiver) amount, add_assoc amount, ← add_assoc]
    _ = ∑ account ∈ accounts, balance account := by
        rw [tsub_add_cancel_of_le hle, Finset.add_sum_erase _ _ hr', Finset.add_sum_erase _ _ hs]

end Transfers
