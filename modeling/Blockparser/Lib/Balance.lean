import Mathlib.Tactic
import Mathlib.Data.Multiset.Filter

/-! Balances: the total value, account by account, of a multiset of items. An item
belongs to one account or to none. -/
namespace Balance
variable {ω κ : Type*} [DecidableEq κ] (account : ω → Option κ) (value : ω → Nat)

def balance (items : Multiset ω) (k : κ) : Nat :=
  ((items.filter fun x => account x = some k).map value).sum

/-- What `x` adds to the balance of `k`. -/
def share (x : ω) (k : κ) : Nat := if account x = some k then value x else 0

variable {account value} {items : Multiset ω} {x : ω} {k : κ}

@[simp] theorem balance_zero : balance account value 0 k = 0 := by simp [balance]

theorem balance_cons :
    balance account value (x ::ₘ items) k =
      share account value x k + balance account value items k := by
  by_cases h : account x = some k
  · simp [balance, share, h]
  · simp [balance, share, h]

theorem balance_erase [DecidableEq ω] (h : x ∈ items) :
    balance account value items k =
      share account value x k + balance account value (items.erase x) k := by
  rw [← balance_cons, Multiset.cons_erase h]

theorem balance_le : balance account value items k ≤ (items.map value).sum := by
  rw [balance, ← Multiset.filter_add_not (fun x => account x = some k) items, Multiset.map_add,
    Multiset.sum_add, Multiset.filter_add_not]
  exact Nat.le_add_right _ _

end Balance
