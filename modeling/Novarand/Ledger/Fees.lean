import Novarand.Ledger.Money

/-!
# The fee of a transaction

The fee is split evenly over the reward addresses of the evaluator, and goes to the fee sink when there
are none. The division drops the remainder: the sender is charged the declared fee exactly when the
number of reward addresses divides it.
-/

namespace Novarand.Ledger

open List Cow

/-- The amount that payments give to an address. -/
def credited (payments : List (Address × MicroNovas)) (a : Address) : ℕ :=
  (payments.map fun p => if a = p.1 then p.2 else 0).sum

/-- Between two states the sender is charged `amount` and the payments are credited. Balances are
taken with their pending rewards, so that claiming rewards changes nothing. -/
def Charges (x : BlockContext) (sender : Address) (amount : ℕ) (payments : List (Address × MicroNovas))
    (c c' : Cow) : Prop :=
  ∀ a, (c'.lookup a).worth x.proto x.rewardsLevel + (if a = sender then amount else 0) =
    (c.lookup a).worth x.proto x.rewardsLevel + credited payments a

variable {x : BlockContext} {sender dst : Address} {p c c' c₁ : Cow}
  {payments : List (Address × MicroNovas)}

theorem Charges.nil : Charges x sender 0 [] c c := by
  intro a
  rw [ite_self]
  rfl

theorem Charges.cons {amt n : ℕ} (h : Charges x sender amt [(dst, amt)] c c₁)
    (h' : Charges x sender n payments c₁ c') :
    Charges x sender (amt + n) ((dst, amt) :: payments) c c' := by
  intro a
  have h1 := h a
  have h2 := h' a
  simp only [credited, map_cons, map_nil, sum_cons, sum_nil] at h1 h2 ⊢
  by_cases ha : a = sender
  · lia
  · lia

variable {amt r r' r1 r2 reward : MicroNovas}

variable {addrs rewardAddresses : List Address}

namespace BlockEvaluator

variable {P : Type} {env : Environment P} {ev : BlockEvaluator} {ad ad' : ApplyData}

end BlockEvaluator

namespace Sample

open BlockEvaluator

end Sample

open Sample

open BlockEvaluator

end Novarand.Ledger
