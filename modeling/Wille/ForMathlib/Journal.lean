import Mathlib.Data.List.Basic

/-!
# Journals

A list to which entries are only added, the latest first. The number of an entry is how many there
were before it, so it stays what it is.

## Main definitions

* `Journal.get?` — the entry with a number
* `Journal.last` — the number of the latest entry of a kind

## Main results

* `Journal.get?_last` — the latest entry of a kind is of that kind
-/

namespace Journal

variable {α : Type*}

/-- The entry with the number `n`. -/
def get? : List α → ℕ → Option α
  | [], _ => none
  | x :: l, n => if n = l.length then some x else get? l n

/-- The number of the latest entry that satisfies `p`. -/
def last (p : α → Bool) : List α → Option ℕ
  | [] => none
  | x :: l => if p x then some l.length else last p l

@[simp] theorem get?_cons_self (x : α) (l : List α) : get? (x :: l) l.length = some x := if_pos rfl

theorem lt_of_get? {l : List α} {n : ℕ} {x : α} (h : get? l n = some x) : n < l.length := by
  induction l with
  | nil => exact absurd h (Option.some_ne_none x).symm
  | cons y l ih =>
    rw [get?] at h
    split at h
    · rename_i hn
      rw [hn]
      exact Nat.lt_succ_self l.length
    · exact Nat.lt_succ_of_lt (ih h)

/-- A later entry does not change what has a number. -/
theorem get?_cons {l : List α} {n : ℕ} {x : α} (h : get? l n = some x) (y : α) :
    get? (y :: l) n = some x := by
  rw [get?, if_neg (Nat.ne_of_lt (lt_of_get? h)), h]

theorem last_cons_of_pos {p : α → Bool} {x : α} (h : p x = true) (l : List α) :
    last p (x :: l) = some l.length := if_pos h

theorem last_cons_of_neg {p : α → Bool} {x : α} (h : p x = false) (l : List α) :
    last p (x :: l) = last p l := if_neg (by rw [h]; exact Bool.false_ne_true)

/-- The latest entry of a kind is of that kind. -/
theorem get?_last {p : α → Bool} {l : List α} {n : ℕ} (h : last p l = some n) :
    ∃ x, get? l n = some x ∧ p x = true := by
  induction l with
  | nil => exact absurd h (Option.some_ne_none n).symm
  | cons y l ih =>
    cases hp : p y with
    | true =>
      rw [last_cons_of_pos hp] at h
      obtain rfl := Option.some.inj h
      exact ⟨y, get?_cons_self y l, hp⟩
    | false =>
      rw [last_cons_of_neg hp] at h
      obtain ⟨x, hx, hpx⟩ := ih h
      exact ⟨x, get?_cons hx y, hpx⟩

end Journal
