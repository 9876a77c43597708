import Mathlib.Algebra.BigOperators.Group.Finset.Basic
import Mathlib.Algebra.BigOperators.Group.Finset.Piecewise
import Mathlib.Algebra.Ring.Nat
import Mathlib.Data.Fintype.Basic

/-!
# Counting what is where

Two bookkeeping devices for invariants.

*Conservation.* When every item sits in one of three books and the three counts add up to one, it
is in exactly one of them, and there once. A step that moves an item keeps the sum, and that is
all its proof has to show.

*Sums over parties.* A counter that is meant to equal "how many parties are in such a phase" is
the sum of a cost over all parties. A step changes the phase of one party, so the sum changes by
the difference of two costs.

## Main results

* `ExactlyOne.of_add_eq_one`
* `sum_update_add`, `sum_map_set_add`, `sum_eq_zero_iff_forall` — the sum of a cost over parties
-/

namespace Counting

/-- Exactly one of three statements holds. -/
def ExactlyOne (p q r : Prop) : Prop := (p ∧ ¬q ∧ ¬r) ∨ (¬p ∧ q ∧ ¬r) ∨ (¬p ∧ ¬q ∧ r)

theorem ExactlyOne.of_add_eq_one {a b c : ℕ} (h : a + b + c = 1) :
    ExactlyOne (0 < a) (0 < b) (0 < c) := by
  rw [ExactlyOne]
  omega

theorem ExactlyOne.congr {p q r p' q' r' : Prop} (h : ExactlyOne p q r) (hp : p ↔ p')
    (hq : q ↔ q') (hr : r ↔ r') : ExactlyOne p' q' r' := by
  rw [ExactlyOne, ← hp, ← hq, ← hr]
  exact h

/-! ### Sums over parties -/

section Sum

variable {ι α : Type*} [Fintype ι] [DecidableEq ι]

/-- Changing one party changes the sum by the difference of two costs. -/
theorem sum_update_add (cost : α → ℕ) (f : ι → α) (i : ι) (a : α) :
    ∑ j, cost (Function.update f i a j) + cost (f i) = ∑ j, cost (f j) + cost a := by
  have hsplit : ∀ g : ι → ℕ, ∑ j, g j = g i + ∑ j ∈ Finset.univ.erase i, g j := fun g =>
    (Finset.add_sum_erase Finset.univ g (Finset.mem_univ i)).symm
  have hrest : ∑ j ∈ Finset.univ.erase i, cost (Function.update f i a j)
      = ∑ j ∈ Finset.univ.erase i, cost (f j) :=
    Finset.sum_congr rfl fun j hj => by rw [Function.update_of_ne (Finset.ne_of_mem_erase hj)]
  rw [hsplit fun j => cost (Function.update f i a j), hsplit fun j => cost (f j), hrest,
    Function.update_self]
  omega

omit [DecidableEq ι] in
/-- The sum is zero exactly when no party costs anything. -/
theorem sum_eq_zero_iff_forall (cost : α → ℕ) (f : ι → α) :
    ∑ j, cost (f j) = 0 ↔ ∀ j, cost (f j) = 0 := by
  simp [Finset.sum_eq_zero_iff]

end Sum

/-- The same for a list of parties: replacing one changes the sum by the difference of two costs. -/
theorem sum_map_set_add {α : Type*} (cost : α → ℕ) {l : List α} {i : ℕ} {b : α}
    (hb : l[i]? = some b) (a : α) :
    ((l.set i a).map cost).sum + cost b = (l.map cost).sum + cost a := by
  induction l generalizing i with
  | nil => simp at hb
  | cons x l ih =>
    cases i with
    | zero =>
      obtain rfl := Option.some.inj hb
      simp only [List.set_cons_zero, List.map_cons, List.sum_cons]
      omega
    | succ i =>
      have := ih hb
      simp only [List.set_cons_succ, List.map_cons, List.sum_cons]
      omega

end Counting
