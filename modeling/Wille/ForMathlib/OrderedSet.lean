import Mathlib.Data.List.Basic
import Mathlib.Data.List.Induction
import Mathlib.Data.List.Nodup

/-!
# Ordered sets with a caller-supplied comparator

The operations of a C++ `std::set` on its in-order list of elements. An iterator is a position in
that list and `end()` is its length. Nothing in the definitions assumes that the list is sorted or
that the comparator is an order: those are hypotheses of the theorems, because a caller whose
comparator reads mutable objects can break both.

## Main definitions

* `OrderedSet.lowerBound` — the first position whose element is not before the key
* `OrderedSet.find`, `insert`, `insertOrAssign`, `advanceWhile`
* `OrderedSet.StrictOrder` — what a comparator has to satisfy
* `OrderedSet.Sorted` — strictly increasing, hence without duplicates

## Main results

* `take_lowerBound_eq_filter`, `drop_lowerBound_eq_filter` — the cut at a lower bound
* `eraseIdx_of_find`, `find_of_mem` — looking up and erasing a member of a sorted set
* `insert_of_comparable`, `Sorted.insert` — inserting an element none of the members is equivalent
  to
* `sorted_build`, `build_of_sorted` — inserting one element after the other
-/

namespace OrderedSet

variable {α : Type*}

/-- `lower_bound`: the position of the first element that is not before the key, where `before y`
says that `y` compares less than the key. -/
def lowerBound (before : α → Bool) (l : List α) : ℕ := l.findIdx fun y => !before y

/-- `find`: the position of the element equivalent to `x`, or `none` for `end()`. -/
def find (lt : α → α → Bool) (x : α) (l : List α) : Option ℕ :=
  match l[lowerBound (lt · x) l]? with
  | some y => if lt x y then none else some (lowerBound (lt · x) l)
  | none => none

/-- `insert`: the new set, the position of `x` (or of the element equivalent to it), and whether
`x` was inserted. -/
def insert (lt : α → α → Bool) (x : α) (l : List α) : List α × ℕ × Bool :=
  match find lt x l with
  | some i => (l, i, false)
  | none =>
    let i := lowerBound (lt · x) l
    (l.take i ++ x :: l.drop i, i, true)

/-- `insert_or_assign`, or `m[k] = v` with a comparator that reads the keys: `x` takes the place of
the element equivalent to it. -/
def insertOrAssign (lt : α → α → Bool) (x : α) (l : List α) : List α :=
  l.filter (lt · x) ++ x :: l.filter (lt x ·)

/-- Advance an iterator while it is not at the end and its element satisfies `p`. -/
def advanceWhile (p : α → Bool) (l : List α) (i : ℕ) : ℕ := i + lowerBound p (l.drop i)

/-- A strict order, as a comparator has to be. -/
structure StrictOrder (lt : α → α → Bool) : Prop where
  /-- No element is before itself. -/
  irrefl : ∀ x, lt x x = false
  /-- Being before is transitive. -/
  trans : ∀ x y z, lt x y = true → lt y z = true → lt x z = true

theorem StrictOrder.asymm {lt : α → α → Bool} (h : StrictOrder lt) {x y : α} (hxy : lt x y = true) :
    lt y x = false := by
  by_contra hyx
  have := h.trans x y x hxy (by simpa using hyx)
  rw [h.irrefl x] at this
  exact Bool.false_ne_true this

/-- Strictly increasing under the comparator. -/
def Sorted (lt : α → α → Bool) (l : List α) : Prop := l.Pairwise fun x y => lt x y = true

theorem Sorted.nodup {lt : α → α → Bool} (ho : StrictOrder lt) {l : List α} (h : Sorted lt l) :
    l.Nodup := by
  refine h.imp ?_
  rintro x _ hxy rfl
  rw [ho.irrefl x] at hxy
  exact Bool.false_ne_true hxy

theorem Sorted.sublist {lt : α → α → Bool} {l l' : List α} (h : Sorted lt l)
    (hl : l'.Sublist l) : Sorted lt l' :=
  List.Pairwise.sublist hl h

/-- Only how the comparator orders the members matters. -/
theorem Sorted.congr {lt lt' : α → α → Bool} {l : List α} (h : Sorted lt l)
    (hlt : ∀ x ∈ l, ∀ y ∈ l, lt x y = lt' x y) : Sorted lt' l :=
  h.imp_of_mem fun {x y} hx hy hxy => by rw [← hlt x hx y hy]; exact hxy

/-! ### The cut at a lower bound -/

theorem take_lowerBound (before : α → Bool) (l : List α) :
    l.take (lowerBound before l) = l.takeWhile before :=
  List.takeWhile_eq_take_findIdx_not.symm

theorem drop_lowerBound (before : α → Bool) (l : List α) :
    l.drop (lowerBound before l) = l.dropWhile before :=
  List.dropWhile_eq_drop_findIdx_not.symm

/-- In a sorted set a key that is after an element is after everything before that element. So
the elements before the key are a prefix, and splitting there splits by the predicate. -/
theorem takeWhile_eq_filter {lt : α → α → Bool} {before : α → Bool}
    (hdown : ∀ x y, lt x y = true → before y = true → before x = true) :
    ∀ {l : List α}, Sorted lt l →
      l.takeWhile before = l.filter before ∧ l.dropWhile before = l.filter fun y => !before y
  | [], _ => by simp
  | x :: l, h => by
    obtain ⟨hx, hl⟩ := List.pairwise_cons.mp h
    obtain ⟨ht, hd⟩ := takeWhile_eq_filter hdown (show Sorted lt l from hl)
    cases hb : before x with
    | true => simp [hb, ht, hd]
    | false =>
      have hnone : ∀ y ∈ l, before y = false := fun y hy => by
        by_contra hy'
        have := hdown x y (hx y hy) (by simpa using hy')
        rw [hb] at this
        exact Bool.false_ne_true this
      refine ⟨?_, ?_⟩
      · rw [List.takeWhile_cons_of_neg (by simp [hb]), List.filter_cons_of_neg (by simp [hb])]
        exact (List.filter_eq_nil_iff.mpr fun y hy => by simp [hnone y hy]).symm
      · rw [List.dropWhile_cons_of_neg (by simp [hb]), List.filter_cons_of_pos (by simp [hb])]
        exact congrArg _ (List.filter_eq_self.mpr fun y hy => by simp [hnone y hy]).symm

theorem take_lowerBound_eq_filter {lt : α → α → Bool} {before : α → Bool}
    (hdown : ∀ x y, lt x y = true → before y = true → before x = true) {l : List α}
    (h : Sorted lt l) : l.take (lowerBound before l) = l.filter before := by
  rw [take_lowerBound, (takeWhile_eq_filter hdown h).1]

theorem drop_lowerBound_eq_filter {lt : α → α → Bool} {before : α → Bool}
    (hdown : ∀ x y, lt x y = true → before y = true → before x = true) {l : List α}
    (h : Sorted lt l) : l.drop (lowerBound before l) = l.filter fun y => !before y := by
  rw [drop_lowerBound, (takeWhile_eq_filter hdown h).2]

/-- The iterator stands at `begin()` exactly when no element is before the key. -/
theorem lowerBound_eq_zero_iff {lt : α → α → Bool} {before : α → Bool}
    (hdown : ∀ x y, lt x y = true → before y = true → before x = true) {l : List α}
    (h : Sorted lt l) : lowerBound before l = 0 ↔ ∀ y ∈ l, before y = false := by
  have hcut := take_lowerBound_eq_filter hdown h
  constructor
  · intro h0 y hy
    rw [h0, List.take_zero] at hcut
    simpa using List.filter_eq_nil_iff.mp hcut.symm y hy
  · intro hall
    rw [List.filter_eq_nil_iff.mpr fun y hy => by simp [hall y hy]] at hcut
    rcases List.take_eq_nil_iff.mp hcut with hz | hnil
    · exact hz
    · subst hnil; rfl

/-- Cutting at an advanced iterator, on both sides. -/
theorem take_advanceWhile (p : α → Bool) (l : List α) (i : ℕ) :
    l.take (advanceWhile p l i) = l.take i ++ (l.drop i).takeWhile p := by
  rw [advanceWhile, List.take_add, take_lowerBound]

theorem drop_advanceWhile (p : α → Bool) (l : List α) (i : ℕ) :
    l.drop (advanceWhile p l i) = (l.drop i).dropWhile p := by
  rw [advanceWhile, ← List.drop_drop, drop_lowerBound]

/-- **The cut at a lower bound that was advanced.** Going to the lower bound of a key and then
over the elements satisfying `p` cuts at a later key `q`, when beyond the lower bound `p` and `q`
agree. -/
theorem cut_advanceWhile_lowerBound {lt : α → α → Bool} {before p q : α → Bool}
    (hbefore : ∀ x y, lt x y = true → before y = true → before x = true)
    (hq : ∀ x y, lt x y = true → q y = true → q x = true)
    (hsub : ∀ x, before x = true → q x = true) (hpq : ∀ x, before x = false → p x = q x)
    {l : List α} (h : Sorted lt l) :
    l.take (advanceWhile p l (lowerBound before l)) = l.filter q ∧
      l.drop (advanceWhile p l (lowerBound before l)) = l.filter fun y => !q y := by
  rw [take_advanceWhile, drop_advanceWhile, take_lowerBound, drop_lowerBound,
    ← (takeWhile_eq_filter hq h).1, ← (takeWhile_eq_filter hq h).2]
  induction l with
  | nil => simp
  | cons x l ih =>
    obtain ⟨hx, hl⟩ := List.pairwise_cons.mp h
    obtain ⟨iht, ihd⟩ := ih hl
    cases hb : before x with
    | true => simp [hb, hsub x hb, iht, ihd]
    | false =>
      have hbeyond : ∀ y ∈ x :: l, before y = false := by
        intro y hy
        rcases List.mem_cons.mp hy with rfl | hy
        · exact hb
        · by_contra hy'
          have := hbefore x y (hx y hy) (by simpa using hy')
          rw [hb] at this
          exact Bool.false_ne_true this
      have hnil : (x :: l).takeWhile before = [] := by simp [hb]
      have hall : (x :: l).dropWhile before = x :: l := by simp [hb]
      rw [hnil, hall, List.nil_append]
      have hcongr : ∀ l' : List α, (∀ y ∈ l', before y = false) →
          l'.takeWhile p = l'.takeWhile q ∧ l'.dropWhile p = l'.dropWhile q := by
        intro l' hl'
        induction l' with
        | nil => simp
        | cons y l' ih' =>
          obtain ⟨ht, hd⟩ := ih' fun z hz => hl' z (List.mem_cons_of_mem y hz)
          simp [List.takeWhile_cons, List.dropWhile_cons, hpq y (hl' y (List.mem_cons_self ..)),
            ht, hd]
      exact hcongr (x :: l) hbeyond

/-! ### Looking up and erasing -/

/-- What is found is neither before `x` nor after it. -/
theorem find_eq_some {lt : α → α → Bool} {l : List α} {x : α} {i : ℕ} (h : find lt x l = some i) :
    ∃ y, l[i]? = some y ∧ lt x y = false ∧ lt y x = false := by
  rw [find] at h
  split at h
  · rename_i y hy
    obtain ⟨hxy, hi⟩ := Option.ite_none_left_eq_some.mp h
    obtain rfl := Option.some.inj hi
    refine ⟨y, hy, Bool.eq_false_iff.mpr hxy, ?_⟩
    obtain ⟨hlt, rfl⟩ := List.getElem?_eq_some_iff.mp hy
    have hstop := @List.findIdx_getElem _ (fun z => !lt z x) l hlt
    rw [Bool.not_eq_true'] at hstop
    exact hstop
  · exact absurd h (Option.some_ne_none i).symm

section Lookup

variable {lt : α → α → Bool} (ho : StrictOrder lt) {l : List α} (h : Sorted lt l)
include ho h

/-- The members before `x` are exactly those in front of it. -/
theorem lowerBound_append_cons {l₁ l₂ : List α} {x : α} (hl : l = l₁ ++ x :: l₂) :
    lowerBound (lt · x) l = l₁.length := by
  subst hl
  have hfront : ∀ y ∈ l₁, lt y x = true := fun y hy =>
    (List.pairwise_append.mp h).2.2 y hy x (List.mem_cons_self ..)
  rw [lowerBound, List.findIdx_append, if_neg, List.findIdx_cons]
  · simp [ho.irrefl x]
  · rw [List.findIdx_lt_length]
    rintro ⟨y, hy, hny⟩
    simp [hfront y hy] at hny

/-- **Looking up a member finds it**, and erasing what was found removes it. -/
theorem find_of_mem {x : α} (hx : x ∈ l) :
    ∃ l₁ l₂, l = l₁ ++ x :: l₂ ∧ find lt x l = some l₁.length := by
  obtain ⟨l₁, l₂, hl⟩ := List.append_of_mem hx
  refine ⟨l₁, l₂, hl, ?_⟩
  rw [find, lowerBound_append_cons ho h hl, hl]
  simp [ho.irrefl x]

theorem eraseIdx_of_find [DecidableEq α] {x : α} (hx : x ∈ l) {i : ℕ}
    (hi : find lt x l = some i) : l.eraseIdx i = l.erase x := by
  obtain ⟨l₁, l₂, hl, hfind⟩ := find_of_mem ho h hx
  have hxl₁ : x ∉ l₁ := by
    intro hmem
    have := (List.pairwise_append.mp (hl ▸ h)).2.2 x hmem x (List.mem_cons_self ..)
    rw [ho.irrefl x] at this
    exact Bool.false_ne_true this
  rw [hfind, Option.some.injEq] at hi
  rw [← hi, hl, List.eraseIdx_append_of_length_le (Nat.le_refl _), List.erase_append_right _ hxl₁]
  simp

end Lookup

/-! ### Inserting -/

/-- After an insertion a set is not empty. -/
theorem insert_ne_nil (lt : α → α → Bool) (x : α) (l : List α) : (insert lt x l).1 ≠ [] := by
  rcases hfind : find lt x l with - | i
  · simp [insert, hfind]
  · obtain ⟨y, hy, -, -⟩ := find_eq_some hfind
    simp only [insert, hfind]
    exact List.ne_nil_of_mem (List.mem_of_getElem? hy)

section Insert

variable {lt : α → α → Bool} (ho : StrictOrder lt) {l : List α} (h : Sorted lt l) {x : α}
  (hcmp : ∀ y ∈ l, lt x y = true ∨ lt y x = true)
include ho h hcmp

omit ho h in
/-- Nothing equivalent to `x` is found when every member is before or after it. -/
theorem find_of_comparable : find lt x l = none := by
  rcases hfind : find lt x l with - | i
  · rfl
  · obtain ⟨y, hy, hxy, hyx⟩ := find_eq_some hfind
    rcases hcmp y (List.mem_of_getElem? hy) with h | h
    · exact absurd (hxy.symm.trans h) Bool.false_ne_true
    · exact absurd (hyx.symm.trans h) Bool.false_ne_true

/-- **Inserting a new element** puts it between the members before it and those after it. -/
theorem insert_of_comparable :
    insert lt x l =
      (l.filter (lt · x) ++ x :: l.filter (lt x ·), lowerBound (lt · x) l, true) := by
  have hdown : ∀ y z, lt y z = true → lt z x = true → lt y x = true :=
    fun y z hyz hzx => ho.trans y z x hyz hzx
  rw [insert, find_of_comparable hcmp]
  simp only [take_lowerBound_eq_filter hdown h, drop_lowerBound_eq_filter hdown h]
  congr 3
  refine List.filter_congr fun y hy => ?_
  rcases hcmp y hy with hxy | hyx
  · rw [hxy, ho.asymm hxy]; rfl
  · rw [hyx, ho.asymm hyx]; rfl

omit hcmp in
/-- Assigning keeps a set sorted, whether or not something equivalent to `x` is in it. -/
theorem Sorted.insertOrAssign : Sorted lt (OrderedSet.insertOrAssign lt x l) := by
  refine List.pairwise_append.mpr ⟨h.sublist List.filter_sublist, ?_, ?_⟩
  · refine List.pairwise_cons.mpr ⟨fun y hy => ?_, h.sublist List.filter_sublist⟩
    simpa using (List.mem_filter.mp hy).2
  · intro y hy z hz
    have hyx : lt y x = true := by simpa using (List.mem_filter.mp hy).2
    rcases List.mem_cons.mp hz with rfl | hz
    · exact hyx
    · exact ho.trans y x z hyx (by simpa using (List.mem_filter.mp hz).2)

theorem Sorted.insert : Sorted lt (OrderedSet.insert lt x l).1 := by
  rw [insert_of_comparable ho h hcmp]
  exact h.insertOrAssign ho

theorem mem_insert {y : α} : y ∈ (OrderedSet.insert lt x l).1 ↔ y = x ∨ y ∈ l := by
  rw [insert_of_comparable ho h hcmp]
  simp only [List.mem_append, List.mem_filter, List.mem_cons]
  constructor
  · rintro (⟨hy, -⟩ | rfl | ⟨hy, -⟩)
    · exact Or.inr hy
    · exact Or.inl rfl
    · exact Or.inr hy
  · rintro (rfl | hy)
    · exact Or.inr (Or.inl rfl)
    · rcases hcmp y hy with hxy | hyx
      · exact Or.inr (Or.inr ⟨hy, hxy⟩)
      · exact Or.inl ⟨hy, hyx⟩

end Insert

section Build

variable {lt : α → α → Bool} (ho : StrictOrder lt) {l : List α} (h : Sorted lt l)
include ho h

/-- If nothing equivalent to `x` is found, every member is before or after it. -/
theorem comparable_of_find_eq_none {x : α} (hnone : find lt x l = none) :
    ∀ y ∈ l, lt x y = true ∨ lt y x = true := by
  have hdown : ∀ y z, lt y z = true → lt z x = true → lt y x = true :=
    fun y z hyz hzx => ho.trans y z x hyz hzx
  intro y hy
  rw [← List.take_append_drop (lowerBound (lt · x) l) l] at hy
  rcases List.mem_append.mp hy with hy | hy
  · rw [take_lowerBound_eq_filter hdown h] at hy
    exact Or.inr (List.mem_filter.mp hy).2
  · left
    rcases hdrop : l.drop (lowerBound (lt · x) l) with - | ⟨z, l'⟩
    · rw [hdrop] at hy
      exact absurd hy List.not_mem_nil
    · have hz : l[lowerBound (lt · x) l]? = some z := by
        rw [← List.head?_drop, hdrop, List.head?_cons]
      have hxz : lt x z = true := by
        rw [find, hz] at hnone
        by_contra hnot
        simp [hnot] at hnone
      rw [hdrop] at hy
      rcases List.mem_cons.mp hy with rfl | hy
      · exact hxz
      · have hsorted : Sorted lt (z :: l') := hdrop ▸ h.sublist (List.drop_sublist _ _)
        exact ho.trans x z y hxz ((List.pairwise_cons.mp hsorted).1 y hy)

/-- What is inserted into a sorted set leaves it sorted, and is the only new member. -/
theorem sorted_insert (x : α) :
    Sorted lt (insert lt x l).1 ∧ ∀ y ∈ (insert lt x l).1, y = x ∨ y ∈ l := by
  rcases hfind : find lt x l with - | i
  · have hcmp := comparable_of_find_eq_none ho h hfind
    exact ⟨h.insert ho hcmp, fun y hy => (mem_insert ho h hcmp).mp hy⟩
  · simp only [insert, hfind]
    exact ⟨h, fun y hy => Or.inr hy⟩

/-- What is after every member is inserted at the end. -/
theorem insert_of_last {x : α} (hlast : ∀ y ∈ l, lt y x = true) :
    (insert lt x l).1 = l ++ [x] := by
  rw [insert_of_comparable ho h fun y hy => Or.inr (hlast y hy),
    List.filter_eq_self.mpr hlast,
    List.filter_eq_nil_iff.mpr fun y hy => by simp [ho.asymm (hlast y hy)]]

end Build

/-- The set that results from inserting elements one after the other. -/
def build (lt : α → α → Bool) (xs : List α) : List α :=
  xs.foldl (fun l x => (insert lt x l).1) []

theorem sorted_build {lt : α → α → Bool} (ho : StrictOrder lt) (xs : List α) :
    Sorted lt (build lt xs) ∧ ∀ y ∈ build lt xs, y ∈ xs := by
  induction xs using List.reverseRecOn with
  | nil => exact ⟨List.Pairwise.nil, fun _ h => h⟩
  | append_singleton xs x ih =>
    obtain ⟨hsorted, hmem⟩ := sorted_insert ho ih.1 x
    rw [build, List.foldl_append]
    refine ⟨hsorted, fun y hy => ?_⟩
    rcases hmem y hy with rfl | hy
    · exact List.mem_append_right xs (List.mem_singleton_self y)
    · exact List.mem_append_left [x] (ih.2 y hy)

/-- Inserting the members of a sorted set in their order gives that set. -/
theorem build_of_sorted {lt : α → α → Bool} (ho : StrictOrder lt) {l : List α} (h : Sorted lt l) :
    build lt l = l := by
  induction l using List.reverseRecOn with
  | nil => rfl
  | append_singleton l x ih =>
    obtain ⟨hl, -, hlast⟩ := List.pairwise_append.mp h
    have hbuild : build lt (l ++ [x]) = (insert lt x (build lt l)).1 := by
      rw [build, List.foldl_append]
      rfl
    rw [hbuild, ih hl, insert_of_last ho hl fun y hy => hlast y hy x (List.mem_singleton_self x)]

end OrderedSet
