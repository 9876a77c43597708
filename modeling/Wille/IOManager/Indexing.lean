import Wille.IOManager.Resize

/-!
# The indices into the table of contexts

`addEvent`, `delEvent`, `cancelEvent` and `cancelAll` take `m_fdContexts[fd]` without a check other
than the comparison of `fd` with the size. Both are `int`s there, so a negative `fd` passes it, in
either of its two forms, and is used as an index.

Everything else about the index is right, also when threads resize the table behind each other's
backs and cut it: the constructor makes the table large enough for `fd * 1.5` to exceed `fd`, an
`addEvent` that resizes the table does so for a descriptor that was not in it, and what it looks up
is what it has made room for. What is left in a table that is cut is still in order.

## Main definitions

* `Act.fd` — the descriptor an operation is called with
* `State.access` — the access `m_fdContexts[fd]` of a step, with the table it goes to
* `State.Indexable` — the table is in order, and large enough

## Main results

* `State.step_of_access` — the accesses are those of the steps
* `State.access_iff` — an access finds the context of its descriptor iff that is not negative
-/

namespace Wille

namespace IOManager

open TransitionSystem

variable {Th Sched Fn Fb : Type*}

/-- The descriptor an operation is called with. -/
def Act.fd (a : Act Th Sched Fn Fb) : Option ℤ := a.opens.map fun o => o.2.1

/-- The descriptor for which a thread is about to resize the table. -/
def Pc.growingFd : Pc Sched Fn Fb → Option ℤ
  | .growing fd _ _ _ _ _ => some fd
  | _ => none

namespace State

/-- The index of the access `m_fdContexts[fd]` in a step, with the table and the contexts it goes
to: those there are, or in `addEvent` those after the resizing. -/
def access (s : State Th Sched Fn Fb) :
    Act Th Sched Fn Fb → Option (ℤ × List (Option ℕ) × List (FdContext Sched (ℕ × Fn) (ℕ × Fb)))
  | .grow v => (s.pc v).growingFd.map fun fd =>
      (fd, contextResize (fd * 3 / 2).toNat s.table s.heap)
  | a =>
    match a.opens with
    | some (v, fd, _) =>
      if (s.pc v).isRest ∧ fd < s.size then some (fd, s.table, s.heap) else none
    | none => none

/-- The operations are called with descriptors below `2 ^ 30`. -/
def Moderate (_ : State Th Sched Fn Fb) (a : Act Th Sched Fn Fb) : Prop :=
  ∀ fd ∈ a.fd, fd < 2 ^ 30

instance : DecidableRel (Moderate : State Th Sched Fn Fb → Act Th Sched Fn Fb → Prop) :=
  fun _ a => inferInstanceAs (Decidable (∀ fd ∈ a.fd, fd < 2 ^ 30))

/-- The table is in order and large enough, and whoever is about to resize it has a descriptor that
was not in it. -/
structure Indexable (s : State Th Sched Fn Fb) : Prop where
  large : 32 ≤ s.table.length
  short : s.table.length < 2 ^ 31
  indexed : Indexed s.table (s.heap.map FdContext.fd)
  growing : ∀ v, ∀ fd ∈ (s.pc v).growingFd, 32 ≤ fd ∧ fd < 2 ^ 30

namespace Indexable

theorem le_of_size_le {s : State Th Sched Fn Fb} (h : s.Indexable) {fd : ℤ} (hfd : s.size ≤ fd) :
    32 ≤ fd := by
  have hlarge := h.large
  rw [size, toInt_of_lt h.short] at hfd
  omega

/-- A thread goes on and does not resize the table next. -/
theorem goto [DecidableEq Th] {s s' : State Th Sched Fn Fb} (h : s.Indexable) {v : Th}
    {p : Pc Sched Fn Fb} (hpc : s'.pc = Function.update s.pc v p)
    (hp : ∀ fd ∈ p.growingFd, 32 ≤ fd ∧ fd < 2 ^ 30)
    (hheap : s'.heap.map FdContext.fd = s.heap.map FdContext.fd := by rfl)
    (htable : s'.table = s.table := by rfl) : s'.Indexable := by
  refine ⟨htable ▸ h.large, htable ▸ h.short, ?_, fun u fd hu => ?_⟩
  · rw [htable, hheap]
    exact h.indexed
  · rw [hpc] at hu
    rcases eq_or_ne u v with rfl | hne
    · rw [Function.update_self] at hu
      exact hp fd hu
    · rw [Function.update_of_ne hne] at hu
      exact h.growing u fd hu

theorem useContext [DecidableEq Th] {s : State Th Sched Fn Fb} (h : s.Indexable)
    (a : Act Th Sched Fn Fb) (v : Th) (fd : ℤ) {p : ℕ → Pc Sched Fn Fb}
    (hp : ∀ ptr, (p ptr).growingFd = none) : (s.useContext a v fd p).Indexable := by
  rw [State.useContext]
  split
  · exact ⟨h.large, h.short, h.indexed, h.growing⟩
  · rename_i ptr _
    refine h.goto rfl fun fd' hfd' => ?_
    rw [hp ptr] at hfd'
    exact absurd hfd' (Option.not_mem_none fd')

theorem init : (init : State Th Sched Fn Fb).Indexable := by
  have hempty : Indexed ([] : List (Option ℕ))
      (([] : List (FdContext Sched (ℕ × Fn) (ℕ × Fb))).map FdContext.fd) :=
    fun i hi => absurd hi (Nat.not_lt_zero i)
  refine ⟨?_, ?_, ?_, fun v fd h => absurd h (Option.not_mem_none fd)⟩
  · rw [State.init_table_heap.1, contextResize_length]
  · rw [State.init_table_heap.1, contextResize_length]
    omega
  · rw [State.init_table_heap.1, State.init_table_heap.2]
    exact hempty.contextResize (by omega)

/-- **Resizing for a descriptor.** It may cut the table, but not to less than the descriptor
needs. -/
theorem resize {s : State Th Sched Fn Fb} (h : s.Indexable) {fd : ℤ} (hlarge : 32 ≤ fd)
    (hfd : fd < 2 ^ 30) : Indexable { s with
      table := (contextResize (fd * 3 / 2).toNat s.table s.heap).1
      heap := (contextResize (fd * 3 / 2).toNat s.table s.heap).2 } := by
  refine ⟨?_, ?_, h.indexed.contextResize (by omega), h.growing⟩ <;>
  · rw [contextResize_length]
    omega

variable [DecidableEq Th]

/-- **The step lemma.** -/
theorem of_effect {s s' : State Th Sched Fn Fb} (h : s.Indexable) {a : Act Th Sched Fn Fb}
    (hok : s.Moderate a) (he : Effect s a s') : s'.Indexable := by
  have hidle : ∀ {p : Pc Sched Fn Fb}, p.Idle → ∀ fd ∈ p.growingFd, 32 ≤ fd ∧ fd < 2 ^ 30 := by
    intro p hp fd hfd
    cases p <;> first | exact absurd hfd (Option.not_mem_none fd) | exact absurd hp id
  cases he with
  | @lookUp v fd p ha hpc hsize =>
    refine h.useContext a v fd fun ptr => ?_
    cases a <;> simp only [Act.opens, Option.some.injEq, Prod.mk.injEq, reduceCtorEq] at ha
    all_goals
      obtain ⟨-, -, rfl⟩ := ha
      rfl
  | reject ha hpc hsize => exact h
  | @short v fd event cb scheduler fiber exec ha hpc hsize =>
    subst ha
    refine h.goto rfl fun fd' hfd' => ?_
    obtain rfl := Option.some.inj hfd'
    exact ⟨h.le_of_size_le hsize, hok fd rfl⟩
  | @grow v fd event cb scheduler fiber exec ha hpc =>
    obtain ⟨hlarge, hfd⟩ := h.growing v fd (by rw [hpc]; rfl)
    exact (h.resize hlarge hfd).useContext _ _ _ fun ptr => rfl
  | idle hp => exact h.goto rfl (hidle hp)
  | hand hp hc hh => exact h.goto rfl (hidle hp) (unlock_fds hc hh.fd)
  | drop hc hd =>
    have hfd := congrArg FdContext.fd hd.ctx
    exact h.goto (p := .rest) rfl (hidle trivial) (unlock_fds hc (hfd.trans FdContext.unset_fd))
  | add hpc hc ha =>
    have hfd := congrArg FdContext.fd ha.ctx
    exact h.goto (p := .rest) rfl (hidle trivial) (unlock_fds hc (hfd.trans FdContext.register_fd))
  | fail hf => exact ⟨h.large, h.short, h.indexed, h.growing⟩

theorem of_reachable {s : State Th Sched Fn Fb} (hr : Reachable step Moderate State.init s) :
    s.Indexable :=
  hr.invariant_of_reachable (P := Indexable) (J := Balanced) (fun _ hu => Balanced.of_reachable hu)
    .init fun _ _ _ hb ht hok hs => ht.of_effect hok (effect_of_step hb.consistent hs)

end Indexable

section Step

variable [DecidableEq Th] {s s' : State Th Sched Fn Fb} {a : Act Th Sched Fn Fb} {fd : ℤ}
  {table : List (Option ℕ)} {heap : List (FdContext Sched (ℕ × Fn) (ℕ × Fb))}

omit [DecidableEq Th] in
theorem access_of_opens {v : Th} {p : ℕ → Pc Sched Fn Fb} (ha : a.opens = some (v, fd, p)) :
    s.access a = if (s.pc v).isRest ∧ fd < s.size then some (fd, s.table, s.heap) else none := by
  cases a <;> first
    | exact absurd ha (Option.some_ne_none _).symm
    | simp only [access, ha]

omit [DecidableEq Th] in
/-- The two kinds of accesses. -/
theorem access_cases (ha : s.access a = some (fd, table, heap)) :
    (∃ v p, a.opens = some (v, fd, p) ∧ (s.pc v).isRest = true ∧ fd < s.size ∧ table = s.table ∧
      heap = s.heap) ∨
    ∃ v, a = .grow v ∧ (s.pc v).growingFd = some fd ∧
      table = (contextResize (fd * 3 / 2).toNat s.table s.heap).1 ∧
      heap = (contextResize (fd * 3 / 2).toNat s.table s.heap).2 := by
  cases hopens : a.opens with
  | some o =>
    obtain ⟨v, fd', p⟩ := o
    rw [access_of_opens hopens] at ha
    obtain ⟨⟨hpc, hsize⟩, ha⟩ := Option.ite_none_right_eq_some.mp ha
    simp only [Option.some.injEq, Prod.mk.injEq] at ha
    obtain ⟨rfl, rfl, rfl⟩ := ha
    exact Or.inl ⟨v, p, rfl, hpc, hsize, rfl, rfl⟩
  | none =>
    cases a with
    | grow v =>
      obtain ⟨fd', hfd', ha⟩ := Option.map_eq_some_iff.mp ha
      simp only [Prod.mk.injEq] at ha
      obtain ⟨rfl, hr⟩ := ha
      exact Or.inr ⟨v, rfl, hfd', by rw [hr], by rw [hr]⟩
    | _ => simp only [access, hopens, reduceCtorEq] at ha

/-- **The accesses are those of the steps.** A step that makes one goes on with what it finds in
that table, or fails. -/
theorem step_of_access (ha : s.access a = some (fd, table, heap)) (hs : s.step a = some s') :
    ∃ v p, s' = { s with table := table, heap := heap }.useContext a v fd p := by
  rw [step, Option.ite_none_left_eq_some] at hs
  obtain ⟨-, hs⟩ := hs
  rcases access_cases ha with ⟨v, p, hopens, hrest, hsize, rfl, rfl⟩ | ⟨v, rfl, hfd, rfl, rfl⟩
  · refine ⟨v, p, ?_⟩
    have hpc : s.pc v = .rest := by
      cases hpc : s.pc v <;> rw [hpc] at hrest <;>
        first | rfl | exact absurd hrest Bool.false_ne_true
    cases a <;> simp only [Act.opens, Option.some.injEq, Prod.mk.injEq, reduceCtorEq] at hopens
    all_goals
      obtain ⟨rfl, rfl, rfl⟩ := hopens
      simp only [stepRunning, hpc, gt_iff_lt, hsize, Int.not_le.mpr hsize, if_true, if_false] at hs
      exact (Option.some.inj hs).symm
  · simp only [stepRunning] at hs
    split at hs
    · rename_i hpc
      rw [hpc] at hfd
      obtain rfl := Option.some.inj hfd
      exact ⟨v, _, (Option.some.inj hs).symm⟩
    · exact absurd hs (Option.some_ne_none _).symm

/-- A step that makes no access does not fail for one. -/
theorem not_stopped_of_no_access (b : s.Balanced) (ha : s.access a = none)
    (hs : s.step a = some s') {f : Fault} (hf : s'.stopped = some (a, f)) :
    f ≠ .outOfRange ∧ f ≠ .nullContext := by
  have he := effect_of_step b.consistent hs
  rw [step, Option.ite_none_left_eq_some, Option.not_isSome_iff_eq_none] at hs
  cases he with
  | lookUp hopens hpc hsize =>
    rw [access_of_opens hopens, hpc, if_pos ⟨rfl, hsize⟩] at ha
    exact absurd ha (Option.some_ne_none _)
  | grow hgrow hpc =>
    subst hgrow
    rw [access, hpc] at ha
    exact absurd ha (Option.some_ne_none _)
  | fail hfails =>
    obtain rfl := (Prod.ext_iff.mp (Option.some.inj hf)).2
    cases hfails <;> exact ⟨by rintro ⟨⟩, by rintro ⟨⟩⟩
  | _ => exact absurd (hs.1.symm.trans hf) (Option.some_ne_none _).symm

omit [DecidableEq Th] in
/-- The table and the contexts of an access are in order, and the descriptor is below its
length. -/
theorem Indexable.of_access (h : s.Indexable) (ha : s.access a = some (fd, table, heap)) :
    Indexed table (heap.map FdContext.fd) ∧ fd < table.length := by
  rcases access_cases ha with ⟨v, p, -, -, hsize, rfl, rfl⟩ | ⟨v, -, hfd, rfl, rfl⟩
  · rw [size, toInt_of_lt h.short] at hsize
    exact ⟨h.indexed, hsize⟩
  · obtain ⟨hlarge, hless⟩ := h.growing v fd hfd
    refine ⟨(h.resize hlarge hless).indexed, ?_⟩
    rw [contextResize_length]
    omega

/-- **An access finds the context of its descriptor iff the descriptor is not negative**, in every
state reached by calls with descriptors below `2 ^ 30`, by any number of threads in any order of
their steps. -/
theorem access_iff (hr : Reachable step Moderate State.init s)
    (ha : s.access a = some (fd, table, heap)) :
    (0 ≤ fd ∧ fd < table.length ∧ ∃ (p : ℕ) (c : FdContext Sched (ℕ × Fn) (ℕ × Fb)),
      table[fd.toNat]? = some (some p) ∧ heap[p]? = some c ∧ c.fd = fd) ↔ 0 ≤ fd := by
  obtain ⟨hindexed, hlt⟩ := (Indexable.of_reachable hr).of_access ha
  refine ⟨fun hall => hall.1, fun hfd => ⟨hfd, hlt, ?_⟩⟩
  obtain ⟨p, hp, hc⟩ := hindexed fd.toNat (by omega)
  rw [List.getElem?_map, Option.map_eq_some_iff] at hc
  obtain ⟨c, hc, hcfd⟩ := hc
  exact ⟨p, c, hp, hc, by omega⟩

end Step

/-- Two threads find the table too short. -/
def bothGrowing : List (Act ℕ ℕ ℕ ℕ) :=
  [.addEvent 0 48 .READ (some 7) (some 9) 5 true, .addEvent 1 32 .READ (some 8) (some 9) 5 true,
    .grow 0]

/-- The first one has resized it to `72`, and the second one is about to resize it to `48`. -/
def cutNext : State ℕ ℕ ℕ ℕ := (exec step Moderate State.init bothGrowing).get (by decide)

theorem access_iff_cutNext :
    cutNext.table.length = 72 ∧
      ∃ (p : ℕ) (c : FdContext ℕ (ℕ × ℕ) (ℕ × ℕ)),
        (contextResize 48 cutNext.table cutNext.heap).1[32]? = some (some p) ∧
        (contextResize 48 cutNext.table cutNext.heap).2[p]? = some c ∧ c.fd = 32 := by
  have ha : cutNext.access (.grow 1) = some (32, contextResize 48 cutNext.table cutNext.heap) := rfl
  obtain ⟨-, -, hfound⟩ := (access_iff (reachable_get (by decide : (exec step Moderate
    (State.init : State ℕ ℕ ℕ ℕ) bothGrowing).isSome)) ha).mpr (by decide)
  exact ⟨by decide, hfound⟩

/-- **A negative descriptor is an index.** `-1` is below the size. -/
theorem negative_index :
    ¬∀ s : State ℕ ℕ ℕ ℕ, Reachable step Moderate State.init s → ∀ a fd table heap,
      s.Moderate a → s.access a = some (fd, table, heap) →
        0 ≤ fd ∧ fd < table.length ∧ ∃ (p : ℕ) (c : FdContext ℕ (ℕ × ℕ) (ℕ × ℕ)),
          table[fd.toNat]? = some (some p) ∧ heap[p]? = some c ∧ c.fd = fd := by
  intro h
  have hsize : (-1 : ℤ) < (State.init : State ℕ ℕ ℕ ℕ).size := by decide
  have ha : (State.init : State ℕ ℕ ℕ ℕ).access (.delEvent 0 (-1) .READ) =
      some (-1, State.init.table, State.init.heap) :=
    (access_of_opens rfl).trans (if_pos ⟨rfl, hsize⟩)
  exact absurd (h _ (.refl _) _ _ _ _ (by decide) ha).1 (by decide)

end State

end IOManager

end Wille
