import Wille.IOManager.Registrations

/-!
# Growing the table of contexts

`addEvent` decides under the read lock that the table is too short and resizes it under the write
lock, to a size computed from its own descriptor alone. When another thread has grown the table
further in between, `resize` cuts it: the contexts behind the cut are lost, with the events
registered in them.

As long as no call resizes the table to less than it has by then, and no size exceeds the range of
`int` (the size is compared as an `int`), the table only grows, and every context stays the one of
its descriptor.

## Main definitions

* `State.Grows` — `addEvent` resizes the table to no less than it has
* `State.Tabled` — the table has one context for each descriptor below its length
* `Pc.target` — the descriptor and the context of a thread about to lock one

## Main results

* `State.resize_loses_context` — a run that cuts the table
* `State.contexts_stay` — where the table is not cut, no registration gets out of sight
-/

namespace Wille

namespace IOManager

open TransitionSystem

variable {Th Sched Fn Fb : Type*}

/-! ### Resizing -/

section Table

variable {table : List (Option ℕ)} {heap : List (FdContext Sched Fn Fb)}

/-- `table` has one context for each descriptor below its length, and `fds` are the descriptors of
all contexts there are. -/
structure Serves (table : List (Option ℕ)) (fds : List ℤ) : Prop where
  filled : ∀ i < table.length, ∃ p, table[i]? = some (some p) ∧ fds[p]? = some (i : ℤ)
  owned : ∀ (p : ℕ) fd, fds[p]? = some fd → ∃ i : ℕ, fd = i ∧ table[i]? = some (some p)

theorem toInt_of_lt {n : ℕ} (h : n < 2 ^ 31) : toInt n = n :=
  Int.bmod_eq_of_le (by omega) (by omega)

theorem fillContexts_length (i : ℕ) : (fillContexts i table heap).1.length = table.length := by
  induction table generalizing i heap with
  | nil => rfl
  | cons entry rest ih => cases entry <;> exact congrArg (· + 1) (ih (i + 1))

theorem contextResize_length (size : ℕ) : (contextResize size table heap).1.length = size := by
  rw [contextResize, fillContexts_length, List.length_append, List.length_take,
    List.length_replicate]
  omega

/-- Entries that are there stay, and the contexts as well. -/
theorem fillContexts_append {tail : List (Option ℕ)} (hfull : ∀ x ∈ table, x.isSome) (i : ℕ) :
    fillContexts i (table ++ tail) heap =
      (table ++ (fillContexts (i + table.length) tail heap).1,
        (fillContexts (i + table.length) tail heap).2) := by
  induction table generalizing i with
  | nil => rfl
  | cons entry rest ih =>
    cases entry with
    | none => exact absurd (hfull none (List.mem_cons_self ..)) (by simp)
    | some p =>
      have ih' := ih (fun x hx => hfull x (List.mem_cons_of_mem _ hx)) (i + 1)
      simp only [List.cons_append, fillContexts, ih', List.length_cons, Nat.add_assoc,
        Nat.add_comm 1]

/-- `n` missing entries get one new context each. -/
theorem fillContexts_replicate (n : ℕ) : ∀ (i : ℕ) (heap : List (FdContext Sched Fn Fb)),
    fillContexts i (List.replicate n none) heap =
      ((List.range n).map fun j => some (heap.length + j),
        heap ++ (List.range n).map fun j => { fd := toInt (i + j) }) := by
  induction n with
  | zero => exact fun i heap => by rw [List.replicate_zero, fillContexts]; simp
  | succ n ih =>
    intro i heap
    simp only [List.replicate_succ, fillContexts, ih, List.range_succ_eq_map, List.map_cons,
      List.map_map, Nat.add_zero, List.length_append, List.length_singleton, List.append_assoc,
      List.singleton_append, Prod.mk.injEq, List.cons.injEq, true_and, List.append_cancel_left_eq]
    refine ⟨List.map_congr_left fun j _ => ?_, List.map_congr_left fun j _ => ?_⟩
    · simp only [Function.comp_apply, Nat.succ_eq_add_one]
      congr 1
      omega
    · simp only [Function.comp_apply, Nat.succ_eq_add_one]
      congr 2
      omega

/-- **`contextResize` to at least the present size.** The old entries and contexts stay, and each
new entry has a new context. -/
theorem contextResize_eq {size : ℕ} (hfull : ∀ x ∈ table, x.isSome) (hsize : table.length ≤ size) :
    contextResize size table heap =
      (table ++ (List.range (size - table.length)).map fun j => some (heap.length + j),
        heap ++ (List.range (size - table.length)).map fun j =>
          { fd := toInt (table.length + j) }) := by
  rw [contextResize, List.take_of_length_le hsize, fillContexts_append hfull, Nat.zero_add,
    fillContexts_replicate]

/-- `contextResize` to less than the present size. -/
theorem contextResize_cut {size : ℕ} (hfull : ∀ x ∈ table, x.isSome) (hsize : size ≤ table.length) :
    contextResize size table heap = (table.take size, heap) := by
  have hcut := @fillContexts_append Sched Fn Fb (table.take size) heap []
    (fun x hx => hfull x (List.mem_of_mem_take hx)) 0
  rw [List.append_nil] at hcut
  rw [contextResize, Nat.sub_eq_zero_of_le hsize, List.replicate_zero, List.append_nil, hcut,
    fillContexts, List.append_nil]

/-- Each entry of the table is the context of its index. -/
def Indexed (table : List (Option ℕ)) (fds : List ℤ) : Prop :=
  ∀ i < table.length, ∃ p, table[i]? = some (some p) ∧ fds[p]? = some (i : ℤ)

theorem Indexed.isSome {fds : List ℤ} (h : Indexed table fds) : ∀ x ∈ table, x.isSome := by
  intro x hx
  obtain ⟨i, hi⟩ := List.getElem?_of_mem hx
  obtain ⟨p, hp, -⟩ := h i (List.getElem?_eq_some_iff.mp hi).1
  rw [Option.some.inj (hi.symm.trans hp)]
  rfl

/-- The entry and the context of a new index. -/
theorem getElem?_new {new j : ℕ} (hj : j < new) (hint : table.length + new ≤ 2 ^ 31) :
    (table ++ (List.range new).map fun j => some (heap.length + j))[table.length + j]? =
        some (some (heap.length + j)) ∧
      ((heap ++ (List.range new).map fun j =>
        ({ fd := toInt (table.length + j) } : FdContext Sched Fn Fb)).map FdContext.fd)[
          heap.length + j]? = some ((table.length + j : ℕ) : ℤ) := by
  constructor
  · rw [List.getElem?_append_right (Nat.le_add_right ..), Nat.add_sub_cancel_left,
      List.getElem?_map, List.getElem?_range hj]
    rfl
  · rw [List.map_append, List.getElem?_append_right (by simp), List.length_map,
      Nat.add_sub_cancel_left, List.map_map, List.getElem?_map, List.getElem?_range hj,
      Option.map_some, Function.comp_apply, toInt_of_lt (by omega)]

/-- **Resizing, up or down,** leaves each entry the context of its index. -/
theorem Indexed.contextResize (h : Indexed table (heap.map FdContext.fd)) {size : ℕ}
    (hint : size < 2 ^ 31) :
    Indexed (contextResize size table heap).1
      ((IOManager.contextResize size table heap).2.map FdContext.fd) := by
  rcases Nat.le_total size table.length with hle | hle
  · rw [contextResize_cut h.isSome hle]
    intro i hi
    rw [List.length_take] at hi
    obtain ⟨p, hp, hfd⟩ := h i (by omega)
    exact ⟨p, by rw [List.getElem?_take_of_lt (by omega), hp], hfd⟩
  · rw [contextResize_eq h.isSome hle]
    intro i hi
    rcases Nat.lt_or_ge i table.length with hlt | hge
    · obtain ⟨p, hp, hfd⟩ := h i hlt
      have hp' := (List.getElem?_eq_some_iff.mp hfd).1
      exact ⟨p, by rw [List.getElem?_append_left hlt, hp],
        by rw [List.map_append, List.getElem?_append_left hp', hfd]⟩
    · obtain ⟨j, rfl⟩ := Nat.exists_eq_add_of_le hge
      have hj : j < size - table.length := by
        simp only [List.length_append, List.length_map, List.length_range] at hi
        omega
      exact ⟨heap.length + j, getElem?_new hj (by omega)⟩

theorem Serves.contextResize (h : Serves table (heap.map FdContext.fd)) {size : ℕ}
    (hsize : table.length ≤ size) (hint : size < 2 ^ 31) :
    Serves (contextResize size table heap).1 ((contextResize size table heap).2.map FdContext.fd) ∧
      table <+: (IOManager.contextResize size table heap).1 := by
  have hfilled : Indexed table (heap.map FdContext.fd) := h.filled
  have hindexed := hfilled.contextResize hint
  rw [contextResize_eq hfilled.isSome hsize] at hindexed ⊢
  refine ⟨⟨hindexed, fun p fd hp => ?_⟩, List.prefix_append ..⟩
  rcases Nat.lt_or_ge p heap.length with hlt | hge
  · rw [List.map_append, List.getElem?_append_left (by simpa using hlt)] at hp
    obtain ⟨i, hfd, hi⟩ := h.owned p fd hp
    exact ⟨i, hfd, by rw [List.getElem?_append_left (List.getElem?_eq_some_iff.mp hi).1, hi]⟩
  · obtain ⟨j, rfl⟩ := Nat.exists_eq_add_of_le hge
    have hj : j < size - table.length := by
      have hlen := (List.getElem?_eq_some_iff.mp hp).1
      simp only [List.length_append, List.length_map, List.length_range] at hlen
      omega
    obtain ⟨htable, hfds⟩ := @getElem?_new Sched Fn Fb table heap _ _ hj (by omega)
    exact ⟨table.length + j, Option.some.inj (hp.symm.trans hfds), htable⟩

end Table

/-! ### The sections keep the descriptor of a context -/

theorem HandsOver.fd {l l' : Locked Sched Fn Fb} (h : HandsOver l l') : l'.ctx.fd = l.ctx.fd := by
  induction h with
  | refl => rfl
  | tail _ hlast ih =>
    rcases hlast with hk | ⟨e, he⟩
    · rw [hk.ctx, ih]
    · rw [he.ctx, FdContext.unset_fd, ih]

/-- The descriptor and the context of a thread that is about to lock one. -/
def Pc.target : Pc Sched Fn Fb → Option (ℤ × ℕ)
  | .adding ptr fd _ _ _ _ _ => some (fd, ptr)
  | .deleting ptr fd _ => some (fd, ptr)
  | .cancelling ptr fd _ => some (fd, ptr)
  | .cancellingAll ptr fd => some (fd, ptr)
  | _ => none

theorem Pc.target_of_idle {p : Pc Sched Fn Fb} (hp : p.Idle) : p.target = none := by
  cases p <;> first | rfl | exact absurd hp id

theorem Act.target_of_opens {a : Act Th Sched Fn Fb} {v : Th} {fd : ℤ} {p : ℕ → Pc Sched Fn Fb}
    (ha : a.opens = some (v, fd, p)) (ptr : ℕ) : (p ptr).target = some (fd, ptr) := by
  cases a <;> simp only [Act.opens, Option.some.injEq, Prod.mk.injEq, reduceCtorEq] at ha
  all_goals
    obtain ⟨-, rfl, rfl⟩ := ha
    rfl

/-- The size to which a thread in `addEvent` is about to resize the table. -/
def Pc.newSize : Pc Sched Fn Fb → Option ℕ
  | .growing fd _ _ _ _ _ => some (fd * 3 / 2).toNat
  | _ => none

namespace State

/-- `addEvent` resizes the table to no less than it has, and to a size that an `int` holds. -/
def Grows (s : State Th Sched Fn Fb) : Act Th Sched Fn Fb → Prop
  | .grow v => ∀ size ∈ (s.pc v).newSize, s.table.length ≤ size ∧ size < 2 ^ 31
  | _ => True

instance (s : State Th Sched Fn Fb) : (a : Act Th Sched Fn Fb) → Decidable (s.Grows a)
  | .grow v => inferInstanceAs
      (Decidable (∀ size ∈ (s.pc v).newSize, s.table.length ≤ size ∧ size < 2 ^ 31))
  | .handle .. | .addEvent .. | .add _ _ | .delEvent _ _ _ | .del _ _ | .cancelEvent _ _ _
  | .cancel _ _ | .cancelAll _ _ | .cancelBoth _ _ | .wait _ _ => instDecidableTrue

/-- The table has one context for each descriptor, and threads and registrations have the ones of
their descriptors. -/
structure Tabled (s : State Th Sched Fn Fb) : Prop where
  short : s.table.length < 2 ^ 31
  serves : Serves s.table (s.heap.map FdContext.fd)
  target : ∀ v fd ptr, (s.pc v).target = some (fd, ptr) → s.lookup fd = .ok ptr
  made : ∀ r ∈ s.made, s.lookup r.fd = .ok r.ptr

theorem lookup_ok {s : State Th Sched Fn Fb} {fd : ℤ} {ptr : ℕ} :
    s.lookup fd = .ok ptr ↔ 0 ≤ fd ∧ s.table[fd.toNat]? = some (some ptr) := by
  rw [lookup]
  split
  · rename_i hneg
    exact ⟨fun h => absurd h (by simp), fun h => absurd h.1 (by omega)⟩
  · rename_i hpos
    split <;> rename_i heq <;> rw [heq] <;> simp [Int.not_lt.mp hpos]

theorem lookup_mono {s s' : State Th Sched Fn Fb} (h : s.table <+: s'.table) {fd : ℤ} {ptr : ℕ}
    (hl : s.lookup fd = .ok ptr) : s'.lookup fd = .ok ptr := by
  obtain ⟨hpos, hget⟩ := lookup_ok.mp hl
  obtain ⟨new, hnew⟩ := h
  refine lookup_ok.mpr ⟨hpos, ?_⟩
  rw [← hnew, List.getElem?_append_left (List.getElem?_eq_some_iff.mp hget).1, hget]

namespace Tabled

theorem lookup_fd {s : State Th Sched Fn Fb} (h : s.Tabled) {p : ℕ}
    {c : FdContext Sched (ℕ × Fn) (ℕ × Fb)} (hc : s.heap[p]? = some c) :
    s.lookup c.fd = .ok p := by
  obtain ⟨i, hi, hp⟩ := h.serves.owned p c.fd (by rw [List.getElem?_map, hc]; rfl)
  exact lookup_ok.mpr ⟨by omega, by rw [hi, Int.toNat_natCast, hp]⟩

theorem lt_size {s : State Th Sched Fn Fb} (h : s.Tabled) {fd : ℤ} {ptr : ℕ}
    (hl : s.lookup fd = .ok ptr) : fd < s.size := by
  obtain ⟨hpos, hget⟩ := lookup_ok.mp hl
  have hlt := (List.getElem?_eq_some_iff.mp hget).1
  rw [size, toInt_of_lt h.short]
  omega

/-- A thread goes on, the table stays. -/
theorem goto [DecidableEq Th] {s s' : State Th Sched Fn Fb} (h : s.Tabled) {v : Th}
    {p : Pc Sched Fn Fb} (hpc : s'.pc = Function.update s.pc v p)
    (hp : ∀ fd ptr, p.target = some (fd, ptr) → s.lookup fd = .ok ptr)
    (hheap : s'.heap.map FdContext.fd = s.heap.map FdContext.fd := by rfl)
    (hmade : ∀ r ∈ s'.made, r ∈ s.made ∨ s.lookup r.fd = .ok r.ptr := by exact fun _ => Or.inl)
    (htable : s'.table = s.table := by rfl) : s'.Tabled := by
  have hlookup : ∀ fd, s'.lookup fd = s.lookup fd := fun fd => by rw [lookup, lookup, htable]
  refine ⟨htable ▸ h.short, ?_, fun u fd ptr hu => ?_, fun r hr => ?_⟩
  · rw [htable, hheap]
    exact h.serves
  · rw [hlookup]
    rw [hpc] at hu
    rcases eq_or_ne u v with rfl | hne
    · rw [Function.update_self] at hu
      exact hp fd ptr hu
    · rw [Function.update_of_ne hne] at hu
      exact h.target u fd ptr hu
  · rw [hlookup]
    exact (hmade r hr).elim (h.made r) id

theorem useContext [DecidableEq Th] {s : State Th Sched Fn Fb} (h : s.Tabled)
    (a : Act Th Sched Fn Fb) (v : Th) (fd : ℤ) {p : ℕ → Pc Sched Fn Fb}
    (hp : ∀ ptr, (p ptr).target = some (fd, ptr)) : (s.useContext a v fd p).Tabled := by
  rw [State.useContext]
  split
  · exact ⟨h.short, h.serves, h.target, h.made⟩
  · rename_i ptr hlookup
    refine h.goto rfl fun fd' ptr' hp' => ?_
    obtain ⟨rfl, rfl⟩ := Prod.ext_iff.mp (Option.some.inj ((hp ptr).symm.trans hp'))
    exact hlookup

theorem init : (init : State Th Sched Fn Fb).Tabled := by
  have hserves : Serves ([] : List (Option ℕ))
      (([] : List (FdContext Sched (ℕ × Fn) (ℕ × Fb))).map FdContext.fd) :=
    ⟨fun i hi => absurd hi (Nat.not_lt_zero i), fun p fd h => absurd h (by simp)⟩
  refine ⟨?_, ?_, ?_, ?_⟩
  · rw [State.init_table_heap.1, contextResize_length]
    omega
  · rw [State.init_table_heap.1, State.init_table_heap.2]
    exact (hserves.contextResize (Nat.zero_le 32) (by omega)).1
  · exact fun v fd ptr h => absurd h (Option.some_ne_none _).symm
  · exact fun r hr => absurd hr List.not_mem_nil

/-- Growing the table. -/
theorem grow {s s' : State Th Sched Fn Fb} (h : s.Tabled) {size : ℕ}
    (hsize : s.table.length ≤ size) (hint : size < 2 ^ 31)
    (htable : s'.table = (contextResize size s.table s.heap).1)
    (hheap : s'.heap = (contextResize size s.table s.heap).2) (hpc : s'.pc = s.pc)
    (hmade : s'.made = s.made) : s'.Tabled ∧ s.table <+: s'.table := by
  obtain ⟨hserves, hgrown⟩ := h.serves.contextResize hsize hint
  rw [← htable] at hserves hgrown
  refine ⟨⟨?_, hheap ▸ hserves, fun v fd ptr hv => ?_, fun r hr => ?_⟩, hgrown⟩
  · rw [htable, contextResize_length]
    exact hint
  · exact lookup_mono hgrown (h.target v fd ptr (hpc ▸ hv))
  · exact lookup_mono hgrown (h.made r (hmade ▸ hr))

end Tabled

/-- A section leaves the descriptors of the contexts alone. -/
theorem unlock_fds {s : State Th Sched Fn Fb} {p : ℕ} {c : FdContext Sched (ℕ × Fn) (ℕ × Fb)}
    (hc : s.heap[p]? = some c) {l : Locked Sched (ℕ × Fn) (ℕ × Fb)} (hfd : l.ctx.fd = c.fd) :
    (s.unlock p l).heap.map FdContext.fd = s.heap.map FdContext.fd := by
  obtain ⟨hlt, rfl⟩ := List.getElem?_eq_some_iff.mp hc
  show (s.heap.set p l.ctx).map FdContext.fd = _
  rw [List.map_set, hfd, ← List.getElem_map FdContext.fd (h := by simpa using hlt),
    List.set_getElem_self]

section Step

variable [DecidableEq Th]

/-- **The step lemma.** Unless the table is cut, its entries stay. -/
theorem Tabled.of_effect {s s' : State Th Sched Fn Fb} (h : s.Tabled) {a : Act Th Sched Fn Fb}
    (hok : s.Grows a) (he : Effect s a s') : s'.Tabled ∧ s.table <+: s'.table := by
  have hsame : ∀ (t : State Th Sched Fn Fb) a v fd p, (t.useContext a v fd p).table = t.table := by
    intro t a v fd p
    rw [State.useContext]
    split <;> rfl
  cases he with
  | lookUp ha hpc hsize =>
    exact ⟨h.useContext _ _ _ (Act.target_of_opens ha), by rw [hsame]⟩
  | reject ha hpc hsize => exact ⟨h, List.prefix_rfl⟩
  | short ha hpc hsize =>
    exact ⟨h.goto rfl fun fd ptr hp => absurd hp (Option.some_ne_none _).symm, List.prefix_rfl⟩
  | @grow v fd event cb scheduler fiber exec ha hpc =>
    subst ha
    have hok := hok _ (by rw [hpc]; rfl)
    have hgrow : Tabled { s with
        table := (contextResize (fd * 3 / 2).toNat s.table s.heap).1
        heap := (contextResize (fd * 3 / 2).toNat s.table s.heap).2 } ∧
        s.table <+: (contextResize (fd * 3 / 2).toNat s.table s.heap).1 :=
      h.grow hok.1 hok.2 rfl rfl rfl rfl
    obtain ⟨h', hgrown⟩ := hgrow
    exact ⟨h'.useContext _ _ _ fun ptr => rfl, by rw [hsame]; exact hgrown⟩
  | idle hp =>
    exact ⟨h.goto rfl fun fd ptr ht => by simp [Pc.target_of_idle hp] at ht, List.prefix_rfl⟩
  | hand hp hc hh =>
    exact ⟨h.goto rfl (fun fd ptr ht => by simp [Pc.target_of_idle hp] at ht)
      (unlock_fds hc hh.fd), List.prefix_rfl⟩
  | drop hc hd =>
    have hfd := congrArg FdContext.fd hd.ctx
    exact ⟨h.goto (p := .rest) rfl (fun fd ptr ht => absurd ht (Option.some_ne_none _).symm)
      (unlock_fds hc (hfd.trans FdContext.unset_fd)), List.prefix_rfl⟩
  | @add v ptr fd event cb scheduler fiber exec hpc c hc l ha =>
    have hfd := congrArg FdContext.fd ha.ctx
    refine ⟨h.goto (p := .rest) rfl (fun fd ptr ht => absurd ht (Option.some_ne_none _).symm)
      (unlock_fds hc (hfd.trans FdContext.register_fd)) fun r hr => ?_, List.prefix_rfl⟩
    rcases List.mem_append.mp hr with hr | hr
    · exact Or.inl hr
    · rw [List.mem_singleton.mp hr]
      exact Or.inr (h.target v fd ptr (by rw [hpc]; rfl))
  | fail hf => exact ⟨⟨h.short, h.serves, h.target, h.made⟩, List.prefix_rfl⟩

theorem tabled {s : State Th Sched Fn Fb} (hr : Reachable step Grows State.init s) : s.Tabled :=
  hr.invariant_of_reachable (P := Tabled) (J := Balanced) (fun _ hu => Balanced.of_reachable hu)
    .init fun _ _ _ hb ht hok hs => (ht.of_effect hok (effect_of_step hb.consistent hs)).1

/-- In a run that never cuts the table, its entries stay. -/
theorem table_prefix {s s' : State Th Sched Fn Fb} (hr : Reachable step Grows State.init s)
    (hr' : Reachable step Grows s s') : s.table <+: s'.table := by
  refine hr'.invariant_of_reachable (P := fun u => s.table <+: u.table)
    (J := fun u => u.Balanced ∧ u.Tabled)
    (fun u hu => ⟨Balanced.of_reachable (hr.trans hu), tabled (hr.trans hu)⟩) List.prefix_rfl ?_
  exact fun u a v hJ hu hok hs =>
    hu.trans (hJ.2.of_effect hok (effect_of_step hJ.1.consistent hs)).2

/-- A step that resizes the table to less than it has cuts it. -/
theorem table_cut {s s' : State Th Sched Fn Fb} {v : Th} {fd : ℤ} {event : Event}
    {cb : Option Fn} {scheduler : Option Sched} {fiber : Fb} {exec : Bool}
    (hpc : s.pc v = .growing fd event cb scheduler fiber exec)
    (hless : (fd * 3 / 2).toNat < s.table.length) (hs : s.step (.grow v) = some s') :
    s'.table.length < s.table.length := by
  rw [step, Option.ite_none_left_eq_some] at hs
  obtain ⟨-, hs⟩ := hs
  simp only [stepRunning, hpc, Option.some.injEq] at hs
  subst hs
  rw [useContext]
  split <;> exact (contextResize_length _).trans_lt hless

/-- The first step of an operation on a descriptor that has its context. -/
theorem step_opens {s : State Th Sched Fn Fb} (hrun : s.stopped = none) {a : Act Th Sched Fn Fb}
    {v : Th} {fd : ℤ} {p : ℕ → Pc Sched Fn Fb} (ha : a.opens = some (v, fd, p))
    (hpc : s.pc v = .rest) (hsize : fd < s.size) {ptr : ℕ} (hl : s.lookup fd = .ok ptr) :
    s.step a = some (s.goto v (p ptr)) := by
  rw [step, hrun]
  cases a <;> simp only [Act.opens, Option.some.injEq, Prod.mk.injEq, reduceCtorEq] at ha
  all_goals
    obtain ⟨rfl, rfl, rfl⟩ := ha
    simp [stepRunning, hpc, useContext, hl, hsize]

/-- **Contexts stay where they are** in every run in which `addEvent` never resizes the table to
less than it has, or to more than an `int` holds. The table never gets shorter, each context ever
created stays the one of its descriptor, and as long as a registration is neither handed over nor
dropped, every operation on its descriptor comes to the context that has its bit set. -/
theorem contexts_stay {s s' : State Th Sched Fn Fb} (hr : Reachable step Grows State.init s)
    (hr' : Reachable step Grows s s') :
    s.table.length ≤ s'.table.length ∧
    (∀ (p : ℕ) c, s.heap[p]? = some c → s'.lookup c.fd = .ok p) ∧
    ∀ (k : ℕ) r, s'.made[k]? = some r → s'.StillRegistered k r →
      (∀ a v p, a.opens = some (v, r.fd, p) → s'.pc v = .rest → s'.stopped = none →
        s'.step a = some (s'.goto v (p r.ptr))) ∧
      ∀ v ptr, (s'.pc v).target = some (r.fd, ptr) →
        ∃ c, s'.heap[ptr]? = some c ∧ c.Registered r.event := by
  have ht := tabled hr
  have ht' := tabled (hr.trans hr')
  have hgrown := table_prefix hr hr'
  refine ⟨hgrown.length_le, fun p c hc => lookup_mono hgrown (ht.lookup_fd hc),
    fun k r hk hstill => ?_⟩
  have hl := ht'.made r (List.mem_of_getElem? hk)
  refine ⟨fun a v p ha hpc hrun => step_opens hrun ha hpc (ht'.lt_size hl) hl,
    fun v ptr hv => ?_⟩
  obtain rfl : r.ptr = ptr := by
    have := hl.symm.trans (ht'.target v r.fd ptr hv)
    exact Except.ok.inj this
  obtain ⟨c, hc, he, -⟩ := hstill
  exact ⟨c, hc, he⟩

end Step

/-- Two threads find the table too short. The first grows it and registers an event. -/
def firstRun : List (Act ℕ ℕ ℕ ℕ) :=
  [.addEvent 0 48 .READ (some 7) (some 9) 5 true, .addEvent 1 32 .READ (some 8) (some 9) 5 true,
    .grow 0, .add 0 true]

/-- Before the second thread takes the write lock. -/
def beforeCut : State ℕ ℕ ℕ ℕ := (exec step OnScheduler State.init firstRun).get (by decide)

/-- After it. -/
def afterCut : State ℕ ℕ ℕ ℕ := (exec step OnScheduler beforeCut [.grow 1]).get (by decide)

/-- **A table that is cut.** It gets shorter, and the context of a registered event is no longer
in it. -/
theorem resize_loses_context :
    (¬∀ s s' : State ℕ ℕ ℕ ℕ, Reachable step OnScheduler State.init s →
      Reachable step OnScheduler s s' → s.table.length ≤ s'.table.length) ∧
    ¬∀ s : State ℕ ℕ ℕ ℕ, Reachable step OnScheduler State.init s → ∀ (k : ℕ) r,
      s.made[k]? = some r → s.StillRegistered k r → r.fd < s.size := by
  have hbefore : Reachable step OnScheduler State.init beforeCut := reachable_get _
  have hafter : Reachable step OnScheduler beforeCut afterCut := reachable_get _
  refine ⟨fun h => ?_, fun h => ?_⟩
  · exact absurd (h _ _ hbefore hafter) (by decide)
  · exact absurd (h _ (hbefore.trans hafter) 0 ⟨48, 48, .READ, some 9⟩ rfl
      ⟨_, rfl, by decide, by decide⟩) (by decide)

/-- After the first thread, where nobody else is waiting to grow the table. -/
def grownOnce : State ℕ ℕ ℕ ℕ :=
  (exec step Grows State.init
    [.addEvent 1 32 .READ (some 8) (some 9) 5 true, .grow 1, .add 1 true]).get (by decide)

/-- After the second. -/
def grownTwice : State ℕ ℕ ℕ ℕ :=
  (exec step Grows grownOnce
    [.addEvent 0 48 .READ (some 7) (some 9) 5 true, .grow 0, .add 0 true]).get (by decide)

theorem contexts_stay_grownTwice :
    grownOnce.table.length = 48 ∧ grownTwice.table.length = 72 ∧
      grownTwice.made.length = 2 ∧ ∀ (p : ℕ) c, grownOnce.heap[p]? = some c →
        grownTwice.lookup c.fd = .ok p :=
  ⟨by decide, by decide, by decide, (contexts_stay (reachable_get (by decide : (exec step Grows
    (State.init : State ℕ ℕ ℕ ℕ) [.addEvent 1 32 .READ (some 8) (some 9) 5 true, .grow 1,
      .add 1 true]).isSome)) (reachable_get (by decide : (exec step Grows grownOnce
    [.addEvent 0 48 .READ (some 7) (some 9) 5 true, .grow 0, .add 0 true]).isSome))).2.1⟩

end State

end IOManager

end Wille
