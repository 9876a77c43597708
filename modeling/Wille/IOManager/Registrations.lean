import Wille.ForMathlib.Counting
import Wille.ForMathlib.TransitionSystem
import Wille.IOManager.Sections
import Wille.IOManager.Threads

/-!
# Every registration is accounted for

The mask of a context, its two event contexts and the global counter record the same thing three
times. `Balanced` says that they agree, and that every registration is in one place: in a context,
in a task that was queued, or among the dropped ones.

A section replaces one context. So `Balanced.replace` is the only place where the sums over all
contexts are touched, and the three moves `register`, `unset` and hand over, `unset` and drop are
instances of it.

## Main definitions

* `State.Balanced` — masks, contexts, counter and books agree
* `State.OnScheduler` — `addEvent` is called on a thread that has a scheduler

## Main results

* `State.effect_of_step` — what one step can do
* `State.Balanced.of_effect` — the step lemma
* `State.registrations_accounted` — what holds of every context and every registration
-/

namespace Wille

namespace IOManager

open TransitionSystem Counting

variable {Th Sched Fn Fb : Type*}

/-! ### The numbers in a context -/

section Tags

variable {c : FdContext Sched (ℕ × Fn) (ℕ × Fb)} {e : Event}
  {ctx : EventContext Sched (ℕ × Fn) (ℕ × Fb)}

theorem EventContext.Full.tags (h : ctx.Full) : ∃ k, ctx.tags = [k] := by
  rcases h with ⟨hcb, hfiber⟩ | ⟨hcb, hfiber⟩
  · obtain ⟨cb, hcb⟩ := Option.isSome_iff_exists.mp hcb
    exact ⟨cb.1, by rw [EventContext.tags, hcb, hfiber]; rfl⟩
  · obtain ⟨fiber, hfiber⟩ := Option.isSome_iff_exists.mp hfiber
    exact ⟨fiber.1, by rw [EventContext.tags, hcb, hfiber]; rfl⟩

theorem EventContext.Empty.tags (h : ctx.Empty) : ctx.tags = [] := by
  rw [EventContext.tags, h.2.1, h.2.2]
  rfl

theorem FdContext.mem_tags {k : ℕ} : k ∈ c.tags ↔ ∃ e, k ∈ (c.getContext e).tags := by
  rw [FdContext.tags, List.mem_append]
  constructor
  · rintro (h | h)
    · exact ⟨.READ, h⟩
    · exact ⟨.WRITE, h⟩
  · rintro ⟨e, h⟩
    cases e with
    | READ => exact Or.inl h
    | WRITE => exact Or.inr h

theorem FdContext.count_tags_unset (k : ℕ) :
    (c.unset e).tags.count k + (c.getContext e).tags.count k = c.tags.count k := by
  cases e <;>
    · simp only [FdContext.tags, FdContext.unset, FdContext.setContext, FdContext.getContext,
        List.count_append]
      simp [EventContext.tags]
      try omega

theorem FdContext.count_tags_register (k : ℕ) :
    (c.register e ctx).tags.count k + (c.getContext e).tags.count k
      = c.tags.count k + ctx.tags.count k := by
  cases e <;>
    · simp only [FdContext.tags, FdContext.register, FdContext.setContext, FdContext.getContext,
        List.count_append]
      omega

end Tags

/-! ### Where a thread stands -/

/-- The first step of each operation, given a context: who goes on with which file descriptor, and
where it stands then. -/
def Act.opens : Act Th Sched Fn Fb → Option (Th × ℤ × (ℕ → Pc Sched Fn Fb))
  | .addEvent v fd event cb scheduler fiber exec =>
    some (v, fd, fun ptr => .adding ptr fd event cb scheduler fiber exec)
  | .delEvent v fd event => some (v, fd, fun ptr => .deleting ptr fd event)
  | .cancelEvent v fd event => some (v, fd, fun ptr => .cancelling ptr fd event)
  | .cancelAll v fd => some (v, fd, fun ptr => .cancellingAll ptr fd)
  | _ => none

/-- A thread between operations, or with entries to handle: it has not chosen a context. -/
def Pc.Idle : Pc Sched Fn Fb → Prop
  | .rest => True
  | .idling _ => True
  | _ => False

/-- In `addEvent`, and `Scheduler::GetThis()` is not null. -/
def Pc.Staffed : Pc Sched Fn Fb → Prop
  | .growing _ _ _ scheduler _ _ => scheduler.isSome
  | .adding _ _ _ _ scheduler _ _ => scheduler.isSome
  | _ => True

namespace State

/-- How many contexts hold the number. -/
def heldCount (s : State Th Sched Fn Fb) (k : ℕ) : ℕ :=
  (s.heap.map fun c => c.tags.count k).sum

/-- How many queued tasks hold the number. -/
def handedCount (s : State Th Sched Fn Fb) (k : ℕ) : ℕ :=
  (s.scheduled.map fun x => x.2.tag).count k

/-- `l` is what the owner of the lock of the context at `p` sees of `s`. -/
structure Views (s : State Th Sched Fn Fb) (p : ℕ) (l : Locked Sched (ℕ × Fn) (ℕ × Fb)) :
    Prop where
  ctx : s.heap[p]? = some l.ctx
  pending : s.pending = l.pending
  scheduled : s.scheduled = l.scheduled

/-- Masks, contexts, counter and books agree. -/
structure Balanced (s : State Th Sched Fn Fb) : Prop where
  /-- In every context ever created, mask and event contexts agree. -/
  consistent : ∀ (p : ℕ) c, s.heap[p]? = some c → c.Consistent
  /-- The counter counts the bits. -/
  pending : s.pending = (s.heap.map FdContext.bits).sum
  /-- Every number is in one place. -/
  books : ∀ k, s.heldCount k + s.handedCount k + s.dropped.count k =
    if k < s.made.length then 1 else 0
  /-- A number in a context is where its registration put it. -/
  home : ∀ (p : ℕ) c, s.heap[p]? = some c → ∀ e, ∀ k ∈ (c.getContext e).tags, ∃ r,
    s.made[k]? = some r ∧ r.ptr = p ∧ r.event = e ∧ r.scheduler = (c.getContext e).scheduler
  /-- A queued task was handed to the scheduler of its registration. -/
  delivered : ∀ x ∈ s.scheduled, ∃ r, s.made[x.2.tag]? = some r ∧ r.scheduler = some x.1
  /-- Two assertions never fail. -/
  faults : ∀ a f, s.stopped = some (a, f) → f ≠ .contextInUse ∧ f ≠ .eventsLeft

namespace Balanced

/-- What is left in a context when a registration is taken out is where it was put. -/
theorem home_unset {s : State Th Sched Fn Fb} (h : s.Balanced) {p : ℕ}
    {c : FdContext Sched (ℕ × Fn) (ℕ × Fb)} (hc : s.heap[p]? = some c) (e e' : Event) :
    ∀ k ∈ ((c.unset e).getContext e').tags, ∃ r, s.made[k]? = some r ∧ r.ptr = p ∧
      r.event = e' ∧ r.scheduler = ((c.unset e).getContext e').scheduler := by
  intro k hk
  rcases eq_or_ne e' e with rfl | hne
  · rw [FdContext.getContext_unset_self] at hk
    exact absurd hk List.not_mem_nil
  · rw [FdContext.getContext_unset_of_ne hne] at hk ⊢
    exact h.home p c hc e' k hk

/-- Only the contexts, the counter and the books matter. -/
theorem congr {s s' : State Th Sched Fn Fb} (h : s.Balanced) (hheap : s'.heap = s.heap := by rfl)
    (hpending : s'.pending = s.pending := by rfl)
    (hscheduled : s'.scheduled = s.scheduled := by rfl) (hmade : s'.made = s.made := by rfl)
    (hdropped : s'.dropped = s.dropped := by rfl) (hstopped : s'.stopped = s.stopped := by rfl) :
    s'.Balanced := by
  cases s
  cases s'
  simp only at hheap hpending hscheduled hmade hdropped hstopped
  subst hheap hpending hscheduled hmade hdropped hstopped
  exact ⟨h.consistent, h.pending, h.books, h.home, h.delivered, h.faults⟩

/-- **Replacing one context.** What leaves it has to turn up elsewhere. -/
theorem replace {s s' : State Th Sched Fn Fb} (h : s.Balanced) {p : ℕ}
    {c c' : FdContext Sched (ℕ × Fn) (ℕ × Fb)} (hp : s.heap[p]? = some c)
    (hheap : s'.heap = s.heap.set p c') (hstopped : s'.stopped = s.stopped)
    (hc' : c'.Consistent) (hpending : s'.pending + c.bits = s.pending + c'.bits)
    (hbooks : ∀ k, c'.tags.count k + s'.handedCount k + s'.dropped.count k
        + (if k < s.made.length then 1 else 0)
      = c.tags.count k + s.handedCount k + s.dropped.count k
        + if k < s'.made.length then 1 else 0)
    (hmade : ∀ (k : ℕ) r, s.made[k]? = some r → s'.made[k]? = some r)
    (hhome : ∀ e, ∀ k ∈ (c'.getContext e).tags, ∃ r,
      s'.made[k]? = some r ∧ r.ptr = p ∧ r.event = e ∧ r.scheduler = (c'.getContext e).scheduler)
    (hdelivered : ∀ x ∈ s'.scheduled, x ∈ s.scheduled ∨
      ∃ r, s'.made[x.2.tag]? = some r ∧ r.scheduler = some x.1) : s'.Balanced := by
  have hget : ∀ (q : ℕ) d, s'.heap[q]? = some d → (q = p ∧ d = c') ∨ s.heap[q]? = some d := by
    intro q d hd
    rw [hheap, List.getElem?_set] at hd
    split at hd
    · rename_i hpq
      split at hd
      · exact Or.inl ⟨hpq.symm, (Option.some.inj hd).symm⟩
      · exact absurd hd (Option.some_ne_none d).symm
    · exact Or.inr hd
  refine ⟨?_, ?_, ?_, ?_, ?_, ?_⟩
  · intro q d hd
    rcases hget q d hd with ⟨-, rfl⟩ | hd
    · exact hc'
    · exact h.consistent q d hd
  · have hsum := sum_map_set_add FdContext.bits hp c'
    have hold := h.pending
    rw [hheap]
    omega
  · intro k
    have hsum := sum_map_set_add (fun c => c.tags.count k) hp c'
    have hold := h.books k
    have hmove := hbooks k
    rw [heldCount] at hold ⊢
    rw [hheap]
    omega
  · intro q d hd e k hk
    rcases hget q d hd with ⟨rfl, rfl⟩ | hd
    · exact hhome e k hk
    · obtain ⟨r, hr, hrest⟩ := h.home q d hd e k hk
      exact ⟨r, hmade k r hr, hrest⟩
  · intro x hx
    rcases hdelivered x hx with hx | hx
    · obtain ⟨r, hr, hrest⟩ := h.delivered x hx
      exact ⟨r, hmade _ r hr, hrest⟩
    · exact hx
  · rw [hstopped]
    exact h.faults

/-! ### The moves -/

theorem handing {s : State Th Sched Fn Fb} (h : s.Balanced) {p : ℕ}
    {l l' : Locked Sched (ℕ × Fn) (ℕ × Fb)} (hv : Views s p l) {e : Event}
    (hh : Handing l l' e) : (s.unlock p l').Balanced := by
  have hc := h.consistent p l.ctx hv.ctx
  obtain ⟨scheduler, task, hsched, hqueue, htask⟩ := hh.scheduled
  have htags : (l.ctx.getContext e).tags = [task.tag] := by
    rw [EventContext.tags]
    rcases hcb : (l.ctx.getContext e).cb with _ | cb <;>
      rcases hfiber : (l.ctx.getContext e).fiber with _ | fiber <;>
        rw [hcb, hfiber] at htask <;> simp at htask <;> subst htask <;> rfl
  refine h.replace hv.ctx rfl rfl (hh.ctx ▸ hc.unset) ?_ ?_ (fun _ _ hr => hr) ?_ ?_
  · show l'.pending + _ = _
    have hbits := FdContext.bits_unset hc hh.registered
    rw [hh.ctx, hh.pending, hv.pending]
    omega
  · intro k
    have hcount := FdContext.count_tags_unset (c := l.ctx) (e := e) k
    have hqueued : (s.unlock p l').handedCount k = s.handedCount k + [task.tag].count k := by
      show (l'.scheduled.map fun x => x.2.tag).count k = _
      rw [hqueue, ← hv.scheduled, List.map_cons, List.count_cons, handedCount, List.count_singleton]
    rw [htags] at hcount
    rw [hh.ctx, hqueued]
    show _ + _ + s.dropped.count k + _ = _ + _ + _ + if k < s.made.length then 1 else 0
    omega
  · intro e' k hk
    rw [hh.ctx] at hk ⊢
    exact h.home_unset hv.ctx e e' k hk
  · intro x hx
    have hx' : x ∈ (scheduler, task) :: l.scheduled := hqueue ▸ hx
    rcases List.mem_cons.mp hx' with rfl | hx'
    · obtain ⟨r, hr, -, -, hrest⟩ :=
        h.home p l.ctx hv.ctx e task.tag (htags ▸ List.mem_cons_self ..)
      exact Or.inr ⟨r, hr, hrest.trans hsched⟩
    · exact Or.inl (hv.scheduled ▸ hx')

theorem kept {s : State Th Sched Fn Fb} (h : s.Balanced) {p : ℕ}
    {l l' : Locked Sched (ℕ × Fn) (ℕ × Fb)} (hv : Views s p l) (hk : Kept l l') :
    (s.unlock p l').Balanced := by
  refine h.congr ?_ (hk.pending.trans hv.pending.symm) (hk.scheduled.trans hv.scheduled.symm)
  show s.heap.set p l'.ctx = s.heap
  obtain ⟨hlt, heq⟩ := List.getElem?_eq_some_iff.mp hv.ctx
  rw [hk.ctx, ← heq]
  exact List.set_getElem_self hlt

/-- A section that hands over one direction after another. -/
theorem handsOver {s : State Th Sched Fn Fb} (h : s.Balanced) {p : ℕ}
    {l l' : Locked Sched (ℕ × Fn) (ℕ × Fb)} (hv : Views s p l) (hh : HandsOver l l') :
    (s.unlock p l').Balanced := by
  have hlt : p < s.heap.length := (List.getElem?_eq_some_iff.mp hv.ctx).1
  induction hh with
  | refl => exact h.kept hv ⟨rfl, rfl, rfl⟩
  | @tail l₁ l₂ _ hlast ih =>
    have hv₁ : Views (s.unlock p l₁) p l₁ := ⟨List.getElem?_set_self hlt, rfl, rfl⟩
    have hagain : (s.unlock p l₁).unlock p l₂ = s.unlock p l₂ := by
      simp only [unlock, List.set_set]
    rw [← hagain]
    rcases hlast with hk | ⟨e, he⟩
    · exact ih.kept hv₁ hk
    · exact ih.handing hv₁ he

theorem dropping {s : State Th Sched Fn Fb} (h : s.Balanced) {p : ℕ}
    {l l' : Locked Sched (ℕ × Fn) (ℕ × Fb)} (hv : Views s p l) {e : Event}
    (hd : Dropping l l' e) :
    Balanced { s.unlock p l' with dropped := (l.ctx.getContext e).tags ++ s.dropped } := by
  have hc := h.consistent p l.ctx hv.ctx
  refine h.replace hv.ctx rfl rfl (hd.ctx ▸ hc.unset) ?_ ?_ (fun _ _ hr => hr) ?_ ?_
  · show l'.pending + _ = _
    have hbits := FdContext.bits_unset hc hd.registered
    rw [hd.ctx, hd.pending, hv.pending]
    omega
  · intro k
    have hcount := FdContext.count_tags_unset (c := l.ctx) (e := e) k
    show _ + (l'.scheduled.map fun x => x.2.tag).count k +
      ((l.ctx.getContext e).tags ++ s.dropped).count k + _ = _ + _ + _ +
        if k < s.made.length then 1 else 0
    rw [hd.ctx, hd.scheduled, ← hv.scheduled, List.count_append, ← handedCount]
    omega
  · intro e' k hk
    rw [hd.ctx] at hk ⊢
    exact h.home_unset hv.ctx e e' k hk
  · intro x hx
    exact Or.inl (hv.scheduled ▸ hd.scheduled ▸ hx)

theorem adding {s : State Th Sched Fn Fb} (h : s.Balanced) {p : ℕ}
    {l l' : Locked Sched (ℕ × Fn) (ℕ × Fb)} (hv : Views s p l) {e : Event} {fd : ℤ}
    {cb : Option Fn} {scheduler : Option Sched} {fiber : Fb}
    (ha : Adding l l' e
      (newContext (cb.map fun cb => (s.made.length, cb)) scheduler (s.made.length, fiber))) :
    Balanced { s.unlock p l' with made := s.made ++ [⟨p, fd, e, scheduler⟩] } := by
  have hc := h.consistent p l.ctx hv.ctx
  have htags : (newContext (cb.map fun cb => (s.made.length, cb)) scheduler
      (s.made.length, fiber)).tags = [s.made.length] := by cases cb <;> rfl
  refine h.replace hv.ctx rfl rfl (ha.ctx ▸ hc.register (newContext_full ..)) ?_ ?_ ?_ ?_ ?_
  · show l'.pending + _ = _
    have hbits := @FdContext.bits_register _ _ _ _ _ (newContext
      (cb.map fun cb => (s.made.length, cb)) scheduler (s.made.length, fiber)) hc ha.free
    rw [ha.ctx, ha.pending, hv.pending, hbits]
    omega
  · intro k
    have hcount := @FdContext.count_tags_register _ _ _ l.ctx e (newContext
      (cb.map fun cb => (s.made.length, cb)) scheduler (s.made.length, fiber)) k
    rw [(hc.empty e ha.free).tags, htags, List.count_nil, List.count_singleton] at hcount
    show _ + (l'.scheduled.map fun x => x.2.tag).count k + s.dropped.count k + _ = _ + _ + _ +
        if k < (s.made ++ [_]).length then 1 else 0
    rw [ha.ctx, ha.scheduled, ← hv.scheduled, ← handedCount, List.length_append,
      List.length_singleton]
    simp only [beq_iff_eq] at hcount
    split_ifs at hcount ⊢ <;> omega
  · intro k r hr
    exact List.getElem?_append_left (List.getElem?_eq_some_iff.mp hr).1 ▸ hr
  · intro e' k hk
    rw [ha.ctx] at hk ⊢
    rcases eq_or_ne e' e with rfl | hne
    · rw [FdContext.getContext_register_self] at hk ⊢
      rw [htags, List.mem_singleton] at hk
      subst hk
      exact ⟨_, List.getElem?_concat_length, rfl, rfl, rfl⟩
    · rw [FdContext.getContext_register_of_ne hne] at hk ⊢
      obtain ⟨r, hr, hrest⟩ := h.home p l.ctx hv.ctx e' k hk
      exact ⟨r, List.getElem?_append_left (List.getElem?_eq_some_iff.mp hr).1 ▸ hr, hrest⟩
  · intro x hx
    exact Or.inl (hv.scheduled ▸ ha.scheduled ▸ hx)

/-! ### New contexts -/

/-- Contexts in which nobody waits can be added. -/
theorem append {s s' : State Th Sched Fn Fb} (h : s.Balanced)
    {new : List (FdContext Sched (ℕ × Fn) (ℕ × Fb))}
    (hnew : ∀ c ∈ new, ∃ fd, c = { fd := fd }) (hheap : s'.heap = s.heap ++ new)
    (hpending : s'.pending = s.pending := by rfl)
    (hscheduled : s'.scheduled = s.scheduled := by rfl) (hmade : s'.made = s.made := by rfl)
    (hdropped : s'.dropped = s.dropped := by rfl) (hstopped : s'.stopped = s.stopped := by rfl) :
    s'.Balanced := by
  have hget : ∀ (q : ℕ) c, s'.heap[q]? = some c → s.heap[q]? = some c ∨ ∃ fd, c = { fd := fd } := by
    intro q c hc
    rw [hheap, List.getElem?_append] at hc
    split at hc
    · exact Or.inl hc
    · exact Or.inr (hnew c (List.mem_of_getElem? hc))
  have hbits : (new.map FdContext.bits).sum = 0 := by
    refine List.sum_eq_zero fun n hn => ?_
    obtain ⟨c, hc, rfl⟩ := List.mem_map.mp hn
    obtain ⟨fd, rfl⟩ := hnew c hc
    exact FdContext.bits_new fd
  have htags : ∀ k, (new.map fun c => c.tags.count k).sum = 0 := by
    refine fun k => List.sum_eq_zero fun n hn => ?_
    obtain ⟨c, hc, rfl⟩ := List.mem_map.mp hn
    obtain ⟨fd, rfl⟩ := hnew c hc
    rfl
  refine ⟨fun q c hc => ?_, ?_, fun k => ?_, fun q c hc e k hk => ?_, ?_, ?_⟩
  · rcases hget q c hc with hold | ⟨fd, rfl⟩
    · exact h.consistent q c hold
    · exact .new fd
  · rw [hheap, hpending, List.map_append, List.sum_append, hbits]
    exact h.pending
  · rw [heldCount, handedCount, hheap, hscheduled, hdropped, hmade, List.map_append,
      List.sum_append, htags]
    exact h.books k
  · rcases hget q c hc with hold | ⟨fd, rfl⟩
    · rw [hmade]
      exact h.home q c hold e k hk
    · cases e <;> exact absurd hk List.not_mem_nil
  · rw [hscheduled, hmade]
    exact h.delivered
  · rw [hstopped]
    exact h.faults

end Balanced

theorem fillContexts_heap {table : List (Option ℕ)} :
    ∀ {i : ℕ} {heap : List (FdContext Sched Fn Fb)}, ∃ new,
      (fillContexts i table heap).2 = heap ++ new ∧ ∀ c ∈ new, ∃ fd, c = { fd := fd } := by
  induction table with
  | nil => exact fun {i heap} => ⟨[], (List.append_nil heap).symm, by simp⟩
  | cons entry rest ih =>
    intro i heap
    cases entry with
    | some p => exact ih
    | none =>
      obtain ⟨new, hnew, hfresh⟩ := @ih (i + 1) (heap ++ [{ fd := toInt i }])
      refine ⟨{ fd := toInt i } :: new, ?_, fun c hc => ?_⟩
      · show (fillContexts (i + 1) rest (heap ++ [{ fd := toInt i }])).2 = _
        rw [hnew, List.append_assoc]
        rfl
      · rcases List.mem_cons.mp hc with rfl | hc
        · exact ⟨_, rfl⟩
        · exact hfresh c hc

/-- `contextResize` adds contexts in which nobody waits, and changes none. -/
theorem contextResize_heap (size : ℕ) (table : List (Option ℕ))
    (heap : List (FdContext Sched Fn Fb)) : ∃ new,
      (contextResize size table heap).2 = heap ++ new ∧ ∀ c ∈ new, ∃ fd, c = { fd := fd } :=
  fillContexts_heap

theorem views_lock {s : State Th Sched Fn Fb} {p : ℕ} {c : FdContext Sched (ℕ × Fn) (ℕ × Fb)}
    (hp : s.heap[p]? = some c) : Views s p (s.lock c) := ⟨hp, rfl, rfl⟩

/-! ### What one step can do -/

/-- How a section can end the program. -/
inductive Fails (s : State Th Sched Fn Fb) : Act Th Sched Fn Fb → Fault → Prop where
  /-- `addEvent` on a direction that is registered. -/
  | registered (v : Th) (ok : Bool) : Fails s (.add v ok) .registered
  /-- `addEvent` without a callback, on a fiber that is not running. -/
  | fiberState (v : Th) (ok : Bool) : Fails s (.add v ok) .fiberState
  /-- `cancelEvent` on a direction that is not registered. -/
  | cancel (v : Th) (ok : Bool) : Fails s (.cancel v ok) .notRegistered
  /-- `idle` on an entry that reports a direction that is not registered, while it reports one
  that is. -/
  | handle (v : Th) {ptr : ℕ} {reported : BitVec 32} {entries : List (ℕ × BitVec 32)}
      {c : FdContext Sched (ℕ × Fn) (ℕ × Fb)} (hpc : s.pc v = .idling ((ptr, reported) :: entries))
      (hc : s.heap[ptr]? = some c)
      (hsome : c.events &&& Locked.real_events c.events reported ≠ 0) (e : Event)
      (he : Locked.real_events c.events reported &&& e.bit ≠ 0) (hnot : ¬c.Registered e) :
      Fails s (.handle v true) .notRegistered
  /-- A waiter without a scheduler. -/
  | nullScheduler (a : Act Th Sched Fn Fb) {ptr : ℕ} {c : FdContext Sched (ℕ × Fn) (ℕ × Fb)}
      (hc : s.heap[ptr]? = some c) (hnot : ¬c.Scheduled) : Fails s a .nullScheduler

theorem lookup_error {s : State Th Sched Fn Fb} {fd : ℤ} {f : Fault} (h : s.lookup fd = .error f) :
    f = .outOfRange ∨ f = .nullContext := by
  rw [lookup] at h
  split at h
  · exact Or.inl (Except.error.inj h).symm
  · split at h
    · exact Or.inl (Except.error.inj h).symm
    · exact Or.inr (Except.error.inj h).symm
    · exact absurd h (by simp)

section Step

variable [DecidableEq Th]

/-- What one step can do, one case for each way. -/
inductive Effect (s : State Th Sched Fn Fb) (a : Act Th Sched Fn Fb) :
    State Th Sched Fn Fb → Prop where
  /-- A context is looked up. -/
  | lookUp {v : Th} {fd : ℤ} {p : ℕ → Pc Sched Fn Fb} (ha : a.opens = some (v, fd, p))
      (hpc : s.pc v = .rest) (hsize : fd < s.size) : Effect s a (s.useContext a v fd p)
  /-- The table is too short, and there is nothing to do. -/
  | reject {v : Th} {fd : ℤ} {p : ℕ → Pc Sched Fn Fb} (ha : a.opens = some (v, fd, p))
      (hpc : s.pc v = .rest) (hsize : s.size ≤ fd) : Effect s a s
  /-- The table is too short for `addEvent`. -/
  | short {v : Th} {fd : ℤ} {event : Event} {cb : Option Fn} {scheduler : Option Sched} {fiber : Fb}
      {exec : Bool} (ha : a = .addEvent v fd event cb scheduler fiber exec) (hpc : s.pc v = .rest)
      (hsize : s.size ≤ fd) : Effect s a (s.goto v (.growing fd event cb scheduler fiber exec))
  /-- The table is resized. -/
  | grow {v : Th} {fd : ℤ} {event : Event} {cb : Option Fn} {scheduler : Option Sched} {fiber : Fb}
      {exec : Bool} (ha : a = .grow v)
      (hpc : s.pc v = .growing fd event cb scheduler fiber exec) :
      Effect s a ({ s with
        table := (contextResize (fd * 3 / 2).toNat s.table s.heap).1
        heap := (contextResize (fd * 3 / 2).toNat s.table s.heap).2 }.useContext a v fd fun ptr =>
          .adding ptr fd event cb scheduler fiber exec)
  /-- An idle thread gets its entries, or has handled them all. -/
  | idle {v : Th} {p : Pc Sched Fn Fb} (hp : p.Idle) : Effect s a (s.goto v p)
  /-- Waiters are handed over, perhaps none. -/
  | hand {v : Th} {p : Pc Sched Fn Fb} (hp : p.Idle) {ptr : ℕ}
      {c : FdContext Sched (ℕ × Fn) (ℕ × Fb)} (hc : s.heap[ptr]? = some c)
      {l : Locked Sched (ℕ × Fn) (ℕ × Fb)} (hh : HandsOver (s.lock c) l) :
      Effect s a ((s.unlock ptr l).goto v p)
  /-- A waiter is dropped. -/
  | drop {v : Th} {ptr : ℕ} {c : FdContext Sched (ℕ × Fn) (ℕ × Fb)} (hc : s.heap[ptr]? = some c)
      {e : Event} {l : Locked Sched (ℕ × Fn) (ℕ × Fb)} (hd : Dropping (s.lock c) l e) :
      Effect s a { (s.unlock ptr l).goto v .rest with
        dropped := (c.getContext e).tags ++ s.dropped }
  /-- A waiter is registered. -/
  | add {v : Th} {ptr : ℕ} {fd : ℤ} {event : Event} {cb : Option Fn} {scheduler : Option Sched}
      {fiber : Fb} {exec : Bool} (hpc : s.pc v = .adding ptr fd event cb scheduler fiber exec)
      {c : FdContext Sched (ℕ × Fn) (ℕ × Fb)} (hc : s.heap[ptr]? = some c)
      {l : Locked Sched (ℕ × Fn) (ℕ × Fb)}
      (ha : Adding (s.lock c) l event (newContext (cb.map fun cb => (s.made.length, cb)) scheduler
        (s.made.length, fiber))) :
      Effect s a { (s.unlock ptr l).goto v .rest with
        made := s.made ++ [⟨ptr, fd, event, scheduler⟩] }
  /-- The program ends. -/
  | fail {f : Fault} (hf : Fails s a f) : Effect s a (s.fail a f)

/-- **What one step can do**, when masks and contexts agree. -/
theorem effect_of_step {s s' : State Th Sched Fn Fb} {a : Act Th Sched Fn Fb}
    (hcons : ∀ (p : ℕ) c, s.heap[p]? = some c → c.Consistent) (hs : s.step a = some s') :
    Effect s a s' := by
  rw [step, Option.ite_none_left_eq_some] at hs
  obtain ⟨-, hs⟩ := hs
  cases a with
  | addEvent v fd event cb scheduler fiber exec =>
    simp only [stepRunning] at hs
    split at hs
    · rename_i hpc
      split at hs <;> obtain rfl := Option.some.inj hs
      · rename_i hsize
        exact .lookUp rfl hpc hsize
      · rename_i hsize
        exact .short rfl hpc (Int.not_lt.mp hsize)
    · exact absurd hs (Option.some_ne_none _).symm
  | grow v =>
    simp only [stepRunning] at hs
    split at hs
    · rename_i hpc
      obtain rfl := Option.some.inj hs
      exact .grow rfl hpc
    · exact absurd hs (Option.some_ne_none _).symm
  | add v ok =>
    simp only [stepRunning] at hs
    split at hs
    · rename_i ptr fd event cb scheduler fiber exec hpc
      obtain ⟨c, hc, rfl⟩ := Option.map_eq_some_iff.mp hs
      rcases Locked.addEvent_cases (s := s.lock c) (e := event) (hcons ptr c hc) fd
        (cb.map fun cb => (s.made.length, cb)) scheduler (s.made.length, fiber) exec ok with
        ⟨f, heq, hf⟩ | ⟨l, heq, hk⟩ | ⟨l, heq, ha⟩ <;> simp only [heq]
      · rcases hf with rfl | rfl
        · exact .fail (.registered v ok)
        · exact .fail (.fiberState v ok)
      · exact .hand (p := .rest) trivial hc (.of_kept hk)
      · exact .add hpc hc ha
    · exact absurd hs (Option.some_ne_none _).symm
  | delEvent v fd event =>
    simp only [stepRunning] at hs
    split at hs
    · rename_i hpc
      split at hs <;> obtain rfl := Option.some.inj hs
      · rename_i hsize
        exact .reject rfl hpc hsize
      · rename_i hsize
        exact .lookUp rfl hpc (Int.not_le.mp hsize)
    · exact absurd hs (Option.some_ne_none _).symm
  | del v ok =>
    simp only [stepRunning] at hs
    split at hs
    · rename_i ptr fd event hpc
      obtain ⟨c, hc, rfl⟩ := Option.map_eq_some_iff.mp hs
      rcases Locked.delEvent_cases (s := s.lock c) (e := event) fd ok with
        ⟨heq, -⟩ | ⟨l, heq, hd⟩ <;> simp only [heq]
      · exact .hand (p := .rest) trivial hc .refl
      · exact .drop hc hd
    · exact absurd hs (Option.some_ne_none _).symm
  | cancelEvent v fd event =>
    simp only [stepRunning] at hs
    split at hs
    · rename_i hpc
      split at hs <;> obtain rfl := Option.some.inj hs
      · rename_i hsize
        exact .reject rfl hpc hsize
      · rename_i hsize
        exact .lookUp rfl hpc (Int.not_le.mp hsize)
    · exact absurd hs (Option.some_ne_none _).symm
  | cancel v ok =>
    simp only [stepRunning] at hs
    split at hs
    · rename_i ptr fd event hpc
      obtain ⟨c, hc, rfl⟩ := Option.map_eq_some_iff.mp hs
      rcases Locked.cancelEvent_cases (s := s.lock c) (e := event) (hcons ptr c hc) fd ok with
        ⟨heq, -⟩ | ⟨heq, hn⟩ | ⟨b, l, heq, hh⟩ <;> simp only [heq]
      · exact .fail (.cancel v ok)
      · exact .fail (.nullScheduler _ hc hn)
      · exact .hand (p := .rest) trivial hc hh
    · exact absurd hs (Option.some_ne_none _).symm
  | cancelAll v fd =>
    simp only [stepRunning] at hs
    split at hs
    · rename_i hpc
      split at hs <;> obtain rfl := Option.some.inj hs
      · rename_i hsize
        exact .reject rfl hpc hsize
      · rename_i hsize
        exact .lookUp rfl hpc (Int.not_le.mp hsize)
    · exact absurd hs (Option.some_ne_none _).symm
  | cancelBoth v ok =>
    simp only [stepRunning] at hs
    split at hs
    · rename_i ptr fd hpc
      obtain ⟨c, hc, rfl⟩ := Option.map_eq_some_iff.mp hs
      rcases Locked.cancelAll_cases (s := s.lock c) (hcons ptr c hc) fd ok with
        ⟨heq, hn⟩ | ⟨b, l, heq, hh⟩ <;> simp only [heq]
      · exact .fail (.nullScheduler _ hc hn)
      · exact .hand (p := .rest) trivial hc hh
    · exact absurd hs (Option.some_ne_none _).symm
  | wait v entries =>
    simp only [stepRunning] at hs
    split at hs
    · obtain ⟨-, hs⟩ := Option.ite_none_right_eq_some.mp hs
      obtain rfl := Option.some.inj hs
      exact .idle (p := .idling entries) trivial
    · exact absurd hs (Option.some_ne_none _).symm
  | handle v ok =>
    simp only [stepRunning] at hs
    split at hs
    · obtain rfl := Option.some.inj hs
      exact .idle (p := .rest) trivial
    · rename_i ptr reported entries hpc
      obtain ⟨c, hc, rfl⟩ := Option.map_eq_some_iff.mp hs
      rcases Locked.idle_cases (s := s.lock c) (hcons ptr c hc) reported ok with
        ⟨heq, rfl, hsome, e, he, hnot⟩ | ⟨heq, hn⟩ | ⟨l, heq, hh, -⟩ <;> simp only [heq, Except.map]
      · exact .fail (.handle v hpc hc hsome e he hnot)
      · exact .fail (.nullScheduler _ hc hn)
      · exact .hand (p := .idling entries) trivial hc hh
    · exact absurd hs (Option.some_ne_none _).symm

/-! ### The step lemma -/

namespace Balanced

omit [DecidableEq Th] in
theorem init : (init : State Th Sched Fn Fb).Balanced := by
  have hnil : Balanced ({ State.init with table := [], heap := [] } : State Th Sched Fn Fb) := by
    refine ⟨?_, rfl, fun _ => rfl, ?_, ?_, ?_⟩
    · exact fun p c h => absurd h (by simp)
    · exact fun p c h => absurd h (by simp)
    · exact fun x hx => absurd hx List.not_mem_nil
    · exact fun a f h => absurd h (Option.some_ne_none _).symm
  obtain ⟨new, hnew, hfresh⟩ :=
    contextResize_heap 32 [] ([] : List (FdContext Sched (ℕ × Fn) (ℕ × Fb)))
  exact hnil.append hfresh (State.init_table_heap.2.trans hnew)

omit [DecidableEq Th] in
theorem fail {s : State Th Sched Fn Fb} (h : s.Balanced) (a : Act Th Sched Fn Fb) {f : Fault}
    (hf : f ≠ .contextInUse ∧ f ≠ .eventsLeft) : (s.fail a f).Balanced :=
  ⟨h.consistent, h.pending, h.books, h.home, h.delivered, fun _ _ hs => by
    obtain ⟨-, rfl⟩ := Prod.ext_iff.mp (Option.some.inj hs)
    exact hf⟩

theorem goto {s : State Th Sched Fn Fb} (h : s.Balanced) (v : Th) (p : Pc Sched Fn Fb) :
    (s.goto v p).Balanced := h.congr

theorem useContext {s : State Th Sched Fn Fb} (h : s.Balanced) (a : Act Th Sched Fn Fb) (v : Th)
    (fd : ℤ) (p : ℕ → Pc Sched Fn Fb) : (s.useContext a v fd p).Balanced := by
  rw [State.useContext]
  split
  · rename_i f hf
    exact h.fail a (by rcases lookup_error hf with rfl | rfl <;> decide)
  · exact h.goto v _

/-- **The step lemma.** -/
theorem of_effect {s s' : State Th Sched Fn Fb} (h : s.Balanced) {a : Act Th Sched Fn Fb}
    (he : Effect s a s') : s'.Balanced := by
  cases he with
  | lookUp ha hpc hsize => exact h.useContext ..
  | reject ha hpc hsize => exact h
  | short ha hpc hsize => exact h.goto ..
  | @grow v fd _ _ _ _ _ ha hpc =>
    obtain ⟨new, hnew, hfresh⟩ := contextResize_heap (fd * 3 / 2).toNat s.table s.heap
    have h' : Balanced { s with
        table := (contextResize (fd * 3 / 2).toNat s.table s.heap).1
        heap := (contextResize (fd * 3 / 2).toNat s.table s.heap).2 } :=
      h.append hfresh hnew
    exact h'.useContext ..
  | idle hp => exact h.goto ..
  | hand hp hc hh => exact (h.handsOver (views_lock hc) hh).goto ..
  | drop hc hd => exact (h.dropping (views_lock hc) hd).goto ..
  | add hpc hc ha => exact (h.adding (views_lock hc) ha).goto ..
  | fail hf => exact h.fail a (by cases hf <;> decide)

theorem of_reachable {ok : State Th Sched Fn Fb → Act Th Sched Fn Fb → Prop}
    {s : State Th Sched Fn Fb} (hr : Reachable step ok State.init s) : s.Balanced :=
  hr.invariant (P := Balanced) .init fun _ _ _ h _ hs =>
    h.of_effect (effect_of_step h.consistent hs)

end Balanced

/-! ### Every registration -/

/-- `addEvent` is called on a thread that has a scheduler. -/
def OnScheduler (_ : State Th Sched Fn Fb) : Act Th Sched Fn Fb → Prop
  | .addEvent _ _ _ _ scheduler _ _ => scheduler.isSome
  | _ => True

instance (s : State Th Sched Fn Fb) : (a : Act Th Sched Fn Fb) → Decidable (s.OnScheduler a)
  | .addEvent _ _ _ _ scheduler _ _ => inferInstanceAs (Decidable (scheduler.isSome = true))
  | .grow _ | .add _ _ | .delEvent _ _ _ | .del _ _ | .cancelEvent _ _ _ | .cancel _ _
  | .cancelAll _ _ | .cancelBoth _ _ | .wait _ _ | .handle _ _ => instDecidableTrue

/-- Nobody waits without a scheduler, or is about to. -/
structure Staffed (s : State Th Sched Fn Fb) : Prop where
  made : ∀ r ∈ s.made, r.scheduler.isSome
  pcs : ∀ v, (s.pc v).Staffed
  fault : ∀ a, s.stopped ≠ some (a, .nullScheduler)

omit [DecidableEq Th] in
theorem Staffed.scheduled {s : State Th Sched Fn Fb} (st : s.Staffed) (b : s.Balanced) {p : ℕ}
    {c : FdContext Sched (ℕ × Fn) (ℕ × Fb)} (hc : s.heap[p]? = some c) : c.Scheduled := by
  intro e he
  obtain ⟨k, hk⟩ := ((b.consistent p c hc).full e he).tags
  obtain ⟨r, hr, -, -, hsched⟩ := b.home p c hc e k (hk ▸ List.mem_cons_self ..)
  rw [← hsched]
  exact st.made r (List.mem_of_getElem? hr)

theorem Staffed.goto {s s' : State Th Sched Fn Fb} (st : s.Staffed) {v : Th} {p : Pc Sched Fn Fb}
    (hp : p.Staffed) (hpc : s'.pc = Function.update s.pc v p)
    (hmade : ∀ r ∈ s'.made, r ∈ s.made ∨ r.scheduler.isSome := by exact fun _ => Or.inl)
    (hstopped : s'.stopped = s.stopped := by rfl) : s'.Staffed := by
  refine ⟨fun r hr => (hmade r hr).elim (st.made r) id, fun u => ?_, hstopped ▸ st.fault⟩
  rw [hpc]
  rcases eq_or_ne u v with rfl | hne
  · rw [Function.update_self]
    exact hp
  · rw [Function.update_of_ne hne]
    exact st.pcs u

theorem Staffed.useContext {s : State Th Sched Fn Fb} (st : s.Staffed) (a : Act Th Sched Fn Fb)
    (v : Th) (fd : ℤ) {p : ℕ → Pc Sched Fn Fb} (hp : ∀ ptr, (p ptr).Staffed) :
    (s.useContext a v fd p).Staffed := by
  rw [State.useContext]
  split
  · rename_i f hf
    refine ⟨st.made, st.pcs, fun a' h => ?_⟩
    have hnull : f = .nullScheduler := congrArg Prod.snd (Option.some.inj h)
    rw [hnull] at hf
    rcases lookup_error hf with h | h <;> exact absurd h (by decide)
  · exact st.goto (hp _) rfl

omit [DecidableEq Th] in
theorem Pc.staffed_of_idle {p : Pc Sched Fn Fb} (hp : p.Idle) : p.Staffed := by
  cases p <;> trivial

theorem Staffed.of_effect {s s' : State Th Sched Fn Fb} (st : s.Staffed) (b : s.Balanced)
    {a : Act Th Sched Fn Fb} (hok : s.OnScheduler a) (he : Effect s a s') : s'.Staffed := by
  cases he with
  | @lookUp v fd p ha hpc hsize =>
    refine st.useContext a v fd fun ptr => ?_
    cases a <;> simp only [Act.opens, Option.some.injEq, Prod.mk.injEq, reduceCtorEq] at ha
    all_goals obtain ⟨-, -, rfl⟩ := ha
    · exact hok
    all_goals trivial
  | reject ha hpc hsize => exact st
  | @short v fd event cb scheduler fiber exec ha hpc hsize =>
    subst ha
    exact st.goto (p := .growing fd event cb scheduler fiber exec) hok rfl
  | @grow v fd event cb scheduler fiber exec ha hpc =>
    have hsched : scheduler.isSome := by
      have := st.pcs v
      rw [hpc] at this
      exact this
    have st' : Staffed { s with
        table := (contextResize (fd * 3 / 2).toNat s.table s.heap).1
        heap := (contextResize (fd * 3 / 2).toNat s.table s.heap).2 } :=
      ⟨st.made, st.pcs, st.fault⟩
    exact st'.useContext a v fd fun ptr => hsched
  | idle hp => exact st.goto (Pc.staffed_of_idle hp) rfl
  | hand hp hc hh => exact st.goto (Pc.staffed_of_idle hp) rfl
  | drop hc hd => exact st.goto (p := .rest) trivial rfl
  | @add v ptr fd event cb scheduler fiber exec hpc c hc l ha =>
    have hsched : scheduler.isSome := by
      have := st.pcs v
      rw [hpc] at this
      exact this
    refine st.goto (p := .rest) trivial rfl fun r hr => ?_
    rcases List.mem_append.mp hr with hr | hr
    · exact Or.inl hr
    · rw [List.mem_singleton.mp hr]
      exact Or.inr hsched
  | @fail f hf =>
    refine ⟨st.made, st.pcs, fun a' h => ?_⟩
    obtain ⟨-, rfl⟩ := Prod.ext_iff.mp (Option.some.inj h)
    cases hf with
    | nullScheduler _ hc hnot => exact hnot (st.scheduled b hc)

theorem staffed {s : State Th Sched Fn Fb} (hr : Reachable step OnScheduler State.init s) :
    s.Staffed := by
  refine hr.invariant_of_reachable (P := Staffed) (J := Balanced)
    (fun u hu => Balanced.of_reachable hu)
    ⟨fun r hr => absurd hr List.not_mem_nil, fun _ => trivial,
      fun a h => absurd h (Option.some_ne_none _).symm⟩ ?_
  exact fun u a v b st hok hs => st.of_effect b hok (effect_of_step b.consistent hs)

/-- The number `k` of the registration `r` is still in the context where it was put. -/
def StillRegistered (s : State Th Sched Fn Fb) (k : ℕ) (r : Registration Sched) : Prop :=
  ∃ c, s.heap[r.ptr]? = some c ∧ c.Registered r.event ∧ k ∈ (c.getContext r.event).tags

omit [DecidableEq Th] in
theorem Balanced.heldCount_pos_iff {s : State Th Sched Fn Fb} (b : s.Balanced) {k : ℕ}
    {r : Registration Sched} (hr : s.made[k]? = some r) :
    0 < s.heldCount k ↔ s.StillRegistered k r := by
  rw [heldCount, List.sum_pos_iff_exists_pos_nat]
  constructor
  · rintro ⟨n, hn, hpos⟩
    obtain ⟨c, hmem, rfl⟩ := List.mem_map.mp hn
    obtain ⟨p, hc⟩ := List.getElem?_of_mem hmem
    obtain ⟨e, hk⟩ := FdContext.mem_tags.mp (List.count_pos_iff.mp hpos)
    obtain ⟨r', hr', rfl, rfl, -⟩ := b.home p c hc e k hk
    obtain rfl := Option.some.inj (hr'.symm.trans hr)
    refine ⟨c, hc, ?_, hk⟩
    by_contra he
    rw [((b.consistent _ c hc).empty _ he).tags] at hk
    exact absurd hk List.not_mem_nil
  · rintro ⟨c, hc, -, hk⟩
    exact ⟨_, List.mem_map.mpr ⟨c, List.mem_of_getElem? hc, rfl⟩,
      List.count_pos_iff.mpr (FdContext.mem_tags.mpr ⟨_, hk⟩)⟩

/-- **Every registration is accounted for.** In every context ever created a bit is set exactly
when somebody waits for the direction, the counter counts the bits, and a registration is still
there, was handed to its scheduler (once), or was dropped: exactly one of the three. -/
theorem registrations_accounted {s : State Th Sched Fn Fb}
    (hr : Reachable step OnScheduler State.init s) :
    (∀ c ∈ s.heap, (c.events = 0 ∨ c.events = 1 ∨ c.events = 4 ∨ c.events = 5) ∧ ∀ e,
      (c.Registered e ↔ (c.getContext e).scheduler.isSome ∧ (c.getContext e).Full) ∧
      (¬c.Registered e ↔ (c.getContext e).Empty)) ∧
    s.pending = (s.heap.map FdContext.bits).sum ∧
    (∀ (k : ℕ) r, s.made[k]? = some r →
      ExactlyOne (s.StillRegistered k r) (s.handedCount k = 1) (k ∈ s.dropped) ∧
      s.handedCount k ≤ 1 ∧ ∀ x ∈ s.scheduled, x.2.tag = k → r.scheduler = some x.1) ∧
    ∀ a, s.stopped ≠ some (a, .contextInUse) := by
  have b := Balanced.of_reachable hr
  have st := staffed hr
  refine ⟨fun c hmem => ?_, b.pending, fun k r hk => ?_, fun a h => (b.faults a _ h).1 rfl⟩
  · obtain ⟨p, hc⟩ := List.getElem?_of_mem hmem
    have hcons := b.consistent p c hc
    refine ⟨hcons.mask, fun e => ?_⟩
    by_cases he : c.Registered e
    · have hsome := st.scheduled b hc e he
      refine ⟨⟨fun _ => ⟨hsome, hcons.full e he⟩, fun _ => he⟩, ⟨fun h => absurd he h, fun h => ?_⟩⟩
      rw [h.1] at hsome
      exact absurd hsome (by simp)
    · have hempty := hcons.empty e he
      refine ⟨⟨fun h => absurd h he, fun h => ?_⟩, ⟨fun _ => hempty, fun _ => he⟩⟩
      rw [hempty.1] at h
      exact absurd h.1 (by simp)
  · have hsum := b.books k
    rw [if_pos (List.getElem?_eq_some_iff.mp hk).1] at hsum
    refine ⟨(ExactlyOne.of_add_eq_one hsum).congr (b.heldCount_pos_iff hk) (by omega)
      List.count_pos_iff, by omega, fun x hx htag => ?_⟩
    obtain ⟨r', hr', hsched⟩ := b.delivered x hx
    rw [htag] at hr'
    obtain rfl := Option.some.inj (hr'.symm.trans hk)
    exact hsched

end Step

/-- A callback and a fiber wait on one descriptor; the first is handed over, the second dropped. -/
def sampleRun : List (Act ℕ ℕ ℕ ℕ) :=
  [.addEvent 0 3 .READ (some 7) (some 9) 5 true, .add 0 true,
    .addEvent 0 3 .WRITE none (some 9) 5 true, .add 0 true, .wait 1 [(3, EPOLLIN)], .handle 1 true,
    .delEvent 0 3 .WRITE, .del 0 false]

/-- The state it ends in. -/
def sampleEnd : State ℕ ℕ ℕ ℕ := (exec step OnScheduler State.init sampleRun).get (by decide)

theorem registrations_accounted_sampleEnd :
    sampleEnd.made.length = 2 ∧ sampleEnd.dropped = [1] ∧
      sampleEnd.pending = (sampleEnd.heap.map FdContext.bits).sum ∧
      ∀ (k : ℕ) r, sampleEnd.made[k]? = some r → ExactlyOne (sampleEnd.StillRegistered k r)
        (sampleEnd.handedCount k = 1) (k ∈ sampleEnd.dropped) :=
  have hrun := registrations_accounted (reachable_get (by decide : (exec step OnScheduler
    (State.init : State ℕ ℕ ℕ ℕ) sampleRun).isSome))
  ⟨by decide, by decide, hrun.2.1, fun k r hr => (hrun.2.2.1 k r hr).1⟩

end State

end IOManager

end Wille
