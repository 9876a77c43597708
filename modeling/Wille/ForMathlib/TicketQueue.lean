import Mathlib.Data.List.Basic
import Mathlib.Data.List.Nodup
import Mathlib.Data.List.Perm.Basic

/-!
# Queues from which any element may be taken

A queue into which items are put at the end and from which they are taken anywhere. Each item gets
a ticket, its number in order of arrival, so that equal items can be told apart, and what is taken
is kept in a log together with who took it.

Whoever takes items need not take the first one. But if everybody takes the first one that suits
them, then the items that suit everybody leave in the order in which they came.

## Main definitions

* `TicketQueue`, `TicketQueue.push`, `take`
* `TicketQueue.Fair` — nothing is lost or duplicated, and a class of items leaves in order

## Main results

* `Fair.push`, `Fair.take` — the operations keep it
* `Fair.count_eq_one` — every ticket is in the queue or in the log, and there once
* `Fair.lt_of_before` — the queue is in order of arrival
-/

/-- A queue with its books. -/
structure TicketQueue (α ω : Type*) where
  /-- Every item ever put in; its ticket is its position. -/
  made : List α
  /-- What is in the queue. -/
  queued : List (α × ℕ)
  /-- What has been taken and by whom, in order. -/
  taken : List ((α × ℕ) × ω)

namespace TicketQueue

variable {α ω : Type*}

/-- Nothing has been put in. -/
def empty : TicketQueue α ω := { made := [], queued := [], taken := [] }

/-- Put items in at the end. -/
def push (q : TicketQueue α ω) (xs : List α) : TicketQueue α ω :=
  { q with made := q.made ++ xs, queued := q.queued ++ xs.zipIdx q.made.length }

/-- Somebody takes the item at a position, if there is one. -/
def take (q : TicketQueue α ω) (i : ℕ) (w : ω) : TicketQueue α ω :=
  match q.queued[i]? with
  | some x => { q with queued := q.queued.eraseIdx i, taken := q.taken ++ [(x, w)] }
  | none => q

/-- The items in the queue. -/
def items (q : TicketQueue α ω) : List α := q.queued.map Prod.fst

@[simp] theorem items_push (q : TicketQueue α ω) (xs : List α) :
    (q.push xs).items = q.items ++ xs := by
  rw [items, push, List.map_append, List.zipIdx_map_fst, items]

theorem push_nil (q : TicketQueue α ω) : q.push [] = q := by
  rw [push, List.append_nil, List.zipIdx_nil, List.append_nil]

/-- Taking the item between `l₁` and `l₂`. -/
theorem exists_take {q : TicketQueue α ω} {x : α} {l₁ l₂ : List α} (h : q.items = l₁ ++ x :: l₂)
    (w : ω) : ∃ t q₁ q₂, q.queued = q₁ ++ (x, t) :: q₂ ∧ q₁.map Prod.fst = l₁ ∧
      q₂.map Prod.fst = l₂ ∧ q.take l₁.length w =
        { q with queued := q₁ ++ q₂, taken := q.taken ++ [((x, t), w)] } := by
  obtain ⟨q₁, q', hq, rfl, hq'⟩ := List.map_eq_append_iff.mp h
  obtain ⟨⟨y, t⟩, q₂, rfl, rfl, rfl⟩ := List.map_eq_cons_iff.mp hq'
  have hget : (q₁ ++ (y, t) :: q₂)[q₁.length]? = some (y, t) := by
    rw [List.getElem?_append_right (Nat.le_refl _), Nat.sub_self, List.getElem?_cons_zero]
  have herase : (q₁ ++ (y, t) :: q₂).eraseIdx q₁.length = q₁ ++ q₂ := by
    rw [List.eraseIdx_append_of_length_le (Nat.le_refl _), Nat.sub_self, List.eraseIdx_cons_zero]
  exact ⟨t, q₁, q₂, hq, rfl, rfl, by simp only [take, hq, List.length_map, hget, herase]⟩

/-- Nothing is lost or duplicated, the queue is in order of arrival, and so are the items of the
class `p`, over the log and the queue together. -/
structure Fair (p : α → Bool) (q : TicketQueue α ω) : Prop where
  conserved : (q.taken.map Prod.fst ++ q.queued).Perm q.made.zipIdx
  ordered : q.queued.Sublist q.made.zipIdx
  inOrder : (q.taken.map Prod.fst ++ q.queued).filter (fun x => p x.1) =
    q.made.zipIdx.filter fun x => p x.1

namespace Fair

variable {p : α → Bool} {q : TicketQueue α ω}

theorem empty : (empty : TicketQueue α ω).Fair p := ⟨List.Perm.nil, List.nil_sublist _, rfl⟩

/-- **Putting items in.** -/
theorem push (h : q.Fair p) (xs : List α) : (q.push xs).Fair p := by
  have hmade : (q.made ++ xs).zipIdx = q.made.zipIdx ++ xs.zipIdx q.made.length := by
    rw [List.zipIdx_append, Nat.zero_add]
  refine ⟨?_, ?_, ?_⟩
  · rw [TicketQueue.push, hmade, ← List.append_assoc]
    exact h.conserved.append_right _
  · rw [TicketQueue.push, hmade]
    exact h.ordered.append_right _
  · rw [TicketQueue.push, hmade, ← List.append_assoc, List.filter_append, h.inOrder,
      List.filter_append]

/-- **Taking an item.** If it is one of the class, then no item of the class is before it. -/
theorem take (h : q.Fair p) {x : α} {l₁ l₂ : List α} (hitems : q.items = l₁ ++ x :: l₂)
    (hfirst : p x = true → ∀ y ∈ l₁, p y = false) (w : ω) : (q.take l₁.length w).Fair p := by
  obtain ⟨t, q₁, q₂, hq, hl₁, -, htake⟩ := exists_take hitems w
  have hsplit : (q.taken ++ [((x, t), w)]).map Prod.fst ++ (q₁ ++ q₂)
      = q.taken.map Prod.fst ++ (x, t) :: (q₁ ++ q₂) := by
    rw [List.map_append, List.append_assoc]
    rfl
  rw [htake]
  refine ⟨?_, ?_, ?_⟩
  · rw [hsplit]
    refine (List.Perm.append_left _ List.perm_middle.symm).trans ?_
    rw [← hq]
    exact h.conserved
  · refine List.Sublist.trans ?_ (hq ▸ h.ordered)
    exact (List.sublist_cons_self (x, t) q₂).append_left q₁
  · rw [hsplit, ← h.inOrder, hq, List.filter_append, List.filter_append]
    congr 1
    -- either the item is not of the class, or it is the first of the class
    cases hx : p x with
    | false => rw [List.filter_cons_of_neg (by simp [hx]), List.filter_append, List.filter_append,
        List.filter_cons_of_neg (by simp [hx])]
    | true =>
      have hnone : q₁.filter (fun x => p x.1) = [] := by
        refine List.filter_eq_nil_iff.mpr fun y hy => ?_
        rw [hfirst hx y.1 (hl₁ ▸ List.mem_map_of_mem hy)]
        exact Bool.false_ne_true
      rw [List.filter_cons_of_pos (by simp [hx]), List.filter_append, List.filter_append, hnone,
        List.filter_cons_of_pos (by simp [hx]), List.nil_append, List.nil_append]

/-- **Every ticket** is in the queue or in the log, and there once. -/
theorem count_eq_one (h : q.Fair p) {t : ℕ} (ht : t < q.made.length) :
    (q.queued.map Prod.snd).count t + (q.taken.map fun x => x.1.2).count t = 1 := by
  have hperm := (h.conserved.map Prod.snd).count_eq t
  rw [List.map_append, List.count_append, List.map_map, List.zipIdx_map_snd] at hperm
  have hone : (List.range' 0 q.made.length).count t = 1 :=
    List.count_eq_one_of_mem List.nodup_range' (List.mem_range'_1.mpr ⟨Nat.zero_le t, by omega⟩)
  rw [hone] at hperm
  rw [← hperm, Nat.add_comm]
  rfl

/-- An entry has the ticket of its item. -/
theorem made_of_mem (h : q.Fair p) {x : α × ℕ} (hx : x ∈ q.taken.map Prod.fst ++ q.queued) :
    q.made[x.2]? = some x.1 :=
  List.mk_mem_zipIdx_iff_getElem?.mp (h.conserved.mem_iff.mp hx)

/-- **The queue is in order of arrival**: what is before an entry has a smaller ticket, and what
has a smaller ticket is before it. -/
theorem lt_of_before (h : q.Fair p) {x : α × ℕ} {q₁ q₂ : List (α × ℕ)}
    (hq : q.queued = q₁ ++ x :: q₂) {y : α × ℕ} (hy : y ∈ q.queued) (hlt : y.2 < x.2) : y ∈ q₁ := by
  have hsorted : (q.queued.map Prod.snd).Pairwise (· < ·) := by
    refine List.Pairwise.sublist (h.ordered.map Prod.snd) ?_
    rw [List.zipIdx_map_snd]
    exact List.pairwise_lt_range'
  rw [hq] at hy hsorted
  rcases List.mem_append.mp hy with hy | hy
  · exact hy
  · rw [List.map_append, List.map_cons] at hsorted
    have hafter := (List.pairwise_cons.mp (List.pairwise_append.mp hsorted).2.1).1
    rcases List.mem_cons.mp hy with rfl | hy
    · exact absurd hlt (Nat.lt_irrefl _)
    · exact absurd (hafter y.2 (List.mem_map_of_mem hy)) (by omega)

end Fair

end TicketQueue
