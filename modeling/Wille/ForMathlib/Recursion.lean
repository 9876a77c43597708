import Mathlib.Data.Set.Card
import Mathlib.Logic.Relation

/-!
# Recursions that end

A recursive function makes, for each argument, finitely many calls. It returns if its calls nest to
some finite depth, and that is so exactly if the argument is accessible along the calls. Where the
arguments run through a finite graph, it is so exactly if no cycle can be reached.

## Main definitions

* `Recursion.Finishes` — the calls nest no deeper than a number

## Main results

* `Recursion.exists_finishes_iff` — some depth is enough exactly for accessible arguments
* `Recursion.acc_iff_acyclic` — accessibility in a finite graph
-/

namespace Recursion

/-! ### The depth of a recursion -/

section Depth

variable {X : Type*} {calls : X → List X}

/-- The calls that a call with this argument leads to nest less than `n` deep. -/
def Finishes (calls : X → List X) : ℕ → X → Prop
  | 0, _ => False
  | n + 1, x => ∀ y ∈ calls x, Finishes calls n y

theorem Finishes.succ {n : ℕ} {x : X} (h : Finishes calls n x) : Finishes calls (n + 1) x := by
  induction n generalizing x with
  | zero => exact absurd h id
  | succ n ih => exact fun y hy => ih (h y hy)

theorem Finishes.mono {n m : ℕ} {x : X} (h : Finishes calls n x) (hle : n ≤ m) :
    Finishes calls m x := by
  induction hle with
  | refl => exact h
  | step _ ih => exact ih.succ

/-- If each of finitely many calls returns, one depth is enough for all. -/
theorem exists_forall_finishes {l : List X} (h : ∀ y ∈ l, ∃ n, Finishes calls n y) :
    ∃ n, ∀ y ∈ l, Finishes calls n y := by
  induction l with
  | nil => exact ⟨0, fun y hy => absurd hy List.not_mem_nil⟩
  | cons x l ih =>
    obtain ⟨⟨n, hn⟩, hl⟩ := List.forall_mem_cons.mp h
    obtain ⟨m, hm⟩ := ih hl
    refine ⟨max n m, List.forall_mem_cons.mpr ⟨hn.mono (le_max_left n m), fun y hy => ?_⟩⟩
    exact (hm y hy).mono (le_max_right n m)

/-- **Some depth is enough exactly for arguments that are accessible.** -/
theorem exists_finishes_iff {x : X} :
    (∃ n, Finishes calls n x) ↔ Acc (fun y x => y ∈ calls x) x := by
  constructor
  · rintro ⟨n, h⟩
    induction n generalizing x with
    | zero => exact absurd h id
    | succ n ih => exact Acc.intro x fun y hy => ih (h y hy)
  · intro h
    induction h with
    | intro x _ ih =>
      obtain ⟨n, hn⟩ := exists_forall_finishes ih
      exact ⟨n + 1, hn⟩

end Depth

/-! ### Finite graphs -/

section Graph

open Relation

variable {V : Type*} {r : V → V → Prop}

theorem not_self_of_acc {v : V} (h : Acc r v) : ¬r v v := by
  induction h with
  | intro v _ ih => exact fun hself => ih v hself hself

/-- **Accessibility in a finite graph:** no cycle can be reached. -/
theorem acc_iff_acyclic [Finite V] {v : V} :
    Acc (flip r) v ↔ ∀ u, ReflTransGen r v u → ¬TransGen r u u := by
  constructor
  · intro h u hu hcycle
    have hacc : Acc (flip r) u := by
      clear hcycle
      induction hu with
      | refl => exact h
      | tail _ hstep ih => exact ih.inv hstep
    exact not_self_of_acc hacc.transGen (transGen_swap.mpr hcycle)
  · intro h
    -- a step leaves its target behind, so there are fewer and fewer nodes to reach
    induction hn : {u | TransGen r v u}.ncard using Nat.strong_induction_on generalizing v with
    | _ n ih =>
      subst hn
      refine Acc.intro v fun w hw => ih _ (Set.ncard_lt_ncard ⟨fun u hu => .head hw hu, ?_⟩
        (Set.toFinite _)) (fun u hu => h u (.head hw hu)) rfl
      exact fun hsub => h w (.single hw) (hsub (TransGen.single hw))

end Graph

end Recursion
