import Wille.IOManager.FdContext
import Mathlib.Logic.Function.Basic

/-!
# The threads of an IOManager

The threads of an `IOManager`, one lock section at a time. Looking a context up (under `m_mutex`),
growing the table (under `m_mutex` again) and working on the context (under its own mutex) are
three steps, and an idle thread holds the entries that `epoll_wait` gave it across all of them.

Each successful `addEvent` gets a number, which travels with the callback or the fiber it
registers. The numbers are ghosts: no section looks into a callback. `made` and `dropped` are
ghosts as well.

## Main definitions

* `Pc`, `Act`, `State`, `State.step` — the threads
* `Registration`, `FdContext.tags`, `Task.tag` — the numbers
-/

namespace Wille

namespace IOManager

variable {Th Sched Fn Fb : Type*}

/-- A successful `addEvent`. -/
structure Registration (Sched : Type*) where
  /-- The context it worked on. -/
  ptr : ℕ
  /-- The file descriptor it was called with. -/
  fd : ℤ
  /-- The direction. -/
  event : Event
  /-- `Scheduler::GetThis()` -/
  scheduler : Option Sched

/-- Where a thread stands between its lock sections. -/
inductive Pc (Sched Fn Fb : Type*) where
  /-- In none of the operations. -/
  | rest
  /-- In `addEvent`, between the read lock and the write lock. -/
  | growing (fd : ℤ) (event : Event) (cb : Option Fn) (scheduler : Option Sched) (fiber : Fb)
      (exec : Bool)
  /-- In `addEvent`, about to lock the context. -/
  | adding (ptr : ℕ) (fd : ℤ) (event : Event) (cb : Option Fn) (scheduler : Option Sched)
      (fiber : Fb) (exec : Bool)
  /-- In `delEvent`, about to lock the context. -/
  | deleting (ptr : ℕ) (fd : ℤ) (event : Event)
  /-- In `cancelEvent`, about to lock the context. -/
  | cancelling (ptr : ℕ) (fd : ℤ) (event : Event)
  /-- In `cancelAll`, about to lock the context. -/
  | cancellingAll (ptr : ℕ) (fd : ℤ)
  /-- In `idle`, with these entries still to handle: a context and what is reported of it. -/
  | idling (entries : List (ℕ × BitVec 32))

/-- In none of the operations. -/
def Pc.isRest : Pc Sched Fn Fb → Bool
  | .rest => true
  | _ => false

/-- The steps of the threads. -/
inductive Act (Th Sched Fn Fb : Type*) where
  /-- `addEvent`: the section under the read lock. -/
  | addEvent (v : Th) (fd : ℤ) (event : Event) (cb : Option Fn) (scheduler : Option Sched)
      (fiber : Fb) (exec : Bool)
  /-- `addEvent`: the section under the write lock. -/
  | grow (v : Th)
  /-- `addEvent`: the section under the lock of the context. -/
  | add (v : Th) (ok : Bool)
  /-- `delEvent`: the section under the read lock. -/
  | delEvent (v : Th) (fd : ℤ) (event : Event)
  /-- `delEvent`: the section under the lock of the context. -/
  | del (v : Th) (ok : Bool)
  /-- `cancelEvent`: the section under the read lock. -/
  | cancelEvent (v : Th) (fd : ℤ) (event : Event)
  /-- `cancelEvent`: the section under the lock of the context. -/
  | cancel (v : Th) (ok : Bool)
  /-- `cancelAll`: the section under the read lock. -/
  | cancelAll (v : Th) (fd : ℤ)
  /-- `cancelAll`: the section under the lock of the context. -/
  | cancelBoth (v : Th) (ok : Bool)
  /-- `epoll_wait` returns these entries. -/
  | wait (v : Th) (entries : List (ℕ × BitVec 32))
  /-- `idle`: the next entry. -/
  | handle (v : Th) (ok : Bool)

/-- The contexts of an `IOManager` and the threads that use it. -/
structure State (Th Sched Fn Fb : Type*) where
  /-- `m_fdContexts` -/
  table : List (Option ℕ)
  /-- Every context ever created. -/
  heap : List (FdContext Sched (ℕ × Fn) (ℕ × Fb))
  /-- `m_pendingEventCount` -/
  pending : ℤ
  /-- The tasks queued so far. -/
  scheduled : List (Sched × Task (ℕ × Fn) (ℕ × Fb))
  /-- The calls of `epoll_ctl` so far. -/
  ctl : List EpollCtl
  /-- Where each thread stands. -/
  pc : Th → Pc Sched Fn Fb
  /-- The step that ended the program, and how. -/
  stopped : Option (Act Th Sched Fn Fb × Fault)
  /-- The registrations so far, by number. -/
  made : List (Registration Sched)
  /-- The numbers dropped by `delEvent`. -/
  dropped : List ℕ

/-! ### The numbers -/

/-- The numbers in a context. -/
def EventContext.tags (ctx : EventContext Sched (ℕ × Fn) (ℕ × Fb)) : List ℕ :=
  (ctx.cb.map Prod.fst).toList ++ (ctx.fiber.map Prod.fst).toList

/-- The numbers in the contexts of a file descriptor. -/
def FdContext.tags (c : FdContext Sched (ℕ × Fn) (ℕ × Fb)) : List ℕ := c.read.tags ++ c.write.tags

/-- The number of a task. -/
def Task.tag : Task (ℕ × Fn) (ℕ × Fb) → ℕ
  | .cb f => f.1
  | .fiber f => f.1

namespace State

variable [DecidableEq Th]

/-- After the constructor. -/
def init : State Th Sched Fn Fb :=
  let r := contextResize 32 [] []
  { table := r.1, heap := r.2, pending := 0, scheduled := [], ctl := [], pc := fun _ => .rest,
    stopped := none, made := [], dropped := [] }

omit [DecidableEq Th] in
/-- The table and the contexts at the start. -/
theorem init_table_heap :
    (init : State Th Sched Fn Fb).table =
        (contextResize 32 [] ([] : List (FdContext Sched (ℕ × Fn) (ℕ × Fb)))).1 ∧
      (init : State Th Sched Fn Fb).heap = (contextResize 32 [] []).2 := by
  -- for any result: the kernel would evaluate `contextResize` to compare this one
  have key : ∀ r : List (Option ℕ) × List (FdContext Sched (ℕ × Fn) (ℕ × Fb)),
      ({ table := r.1, heap := r.2, pending := 0, scheduled := [], ctl := [], pc := fun _ => .rest,
         stopped := none, made := [], dropped := [] } : State Th Sched Fn Fb).table = r.1 ∧
      ({ table := r.1, heap := r.2, pending := 0, scheduled := [], ctl := [], pc := fun _ => .rest,
         stopped := none, made := [], dropped := [] } : State Th Sched Fn Fb).heap = r.2 :=
    fun _ => ⟨rfl, rfl⟩
  unfold init
  exact key (contextResize 32 [] [])

/-- A thread goes on. -/
def goto (s : State Th Sched Fn Fb) (v : Th) (p : Pc Sched Fn Fb) : State Th Sched Fn Fb :=
  { s with pc := Function.update s.pc v p }

/-- A thread ends the program. -/
def fail (s : State Th Sched Fn Fb) (a : Act Th Sched Fn Fb) (f : Fault) : State Th Sched Fn Fb :=
  { s with stopped := some (a, f) }

/-- `m_fdContexts[fd]` -/
def lookup (s : State Th Sched Fn Fb) (fd : ℤ) : Except Fault ℕ :=
  if fd < 0 then .error .outOfRange
  else
    match s.table[fd.toNat]? with
    | none => .error .outOfRange
    | some none => .error .nullContext
    | some (some p) => .ok p

/-- `(int)m_fdContexts.size()` -/
def size (s : State Th Sched Fn Fb) : ℤ := toInt s.table.length

/-- Take `m_fdContexts[fd]` and go on with it. -/
def useContext (s : State Th Sched Fn Fb) (a : Act Th Sched Fn Fb) (v : Th) (fd : ℤ)
    (p : ℕ → Pc Sched Fn Fb) : State Th Sched Fn Fb :=
  match s.lookup fd with
  | .error f => s.fail a f
  | .ok ptr => s.goto v (p ptr)

/-- What the owner of the lock of context `c` can touch. -/
def lock (s : State Th Sched Fn Fb) (c : FdContext Sched (ℕ × Fn) (ℕ × Fb)) :
    Locked Sched (ℕ × Fn) (ℕ × Fb) :=
  ⟨c, s.pending, s.scheduled, s.ctl⟩

/-- The state after a section on the context at `ptr`. -/
def unlock (s : State Th Sched Fn Fb) (ptr : ℕ) (l : Locked Sched (ℕ × Fn) (ℕ × Fb)) :
    State Th Sched Fn Fb :=
  { s with heap := s.heap.set ptr l.ctx, pending := l.pending, scheduled := l.scheduled,
           ctl := l.ctl }

/-- Run a section on the context at `ptr`, and `k` on its result. -/
def inSection (s : State Th Sched Fn Fb) (a : Act Th Sched Fn Fb) (ptr : ℕ)
    (f : Locked Sched (ℕ × Fn) (ℕ × Fb) → Except Fault (Bool × Locked Sched (ℕ × Fn) (ℕ × Fb)))
    (k : FdContext Sched (ℕ × Fn) (ℕ × Fb) → Bool → State Th Sched Fn Fb →
      State Th Sched Fn Fb) : Option (State Th Sched Fn Fb) :=
  s.heap[ptr]?.map fun c =>
    match f (s.lock c) with
    | .error fault => s.fail a fault
    | .ok (b, l) => k c b (s.unlock ptr l)

/-- One step, in a program that is still running. -/
def stepRunning (s : State Th Sched Fn Fb) (a : Act Th Sched Fn Fb) :
    Option (State Th Sched Fn Fb) :=
  match a with
  | .addEvent v fd event cb scheduler fiber exec =>
    match s.pc v with
    | .rest =>
      if s.size > fd then
        some (s.useContext a v fd fun ptr => .adding ptr fd event cb scheduler fiber exec)
      else some (s.goto v (.growing fd event cb scheduler fiber exec))
    | _ => none
  | .grow v =>
    match s.pc v with
    | .growing fd event cb scheduler fiber exec =>
      let r := contextResize (fd * 3 / 2).toNat s.table s.heap
      some ({ s with table := r.1, heap := r.2 }.useContext a v fd fun ptr =>
        .adding ptr fd event cb scheduler fiber exec)
    | _ => none
  | .add v ok =>
    match s.pc v with
    | .adding ptr fd event cb scheduler fiber exec =>
      let n := s.made.length
      s.inSection a ptr
        (fun l => l.addEvent fd event (cb.map fun cb => (n, cb)) scheduler (n, fiber) exec ok)
        fun _ b s' => { s'.goto v .rest with
          made := if b then s.made ++ [⟨ptr, fd, event, scheduler⟩] else s.made }
    | _ => none
  | .delEvent v fd event =>
    match s.pc v with
    | .rest =>
      if s.size ≤ fd then some s
      else some (s.useContext a v fd fun ptr => .deleting ptr fd event)
    | _ => none
  | .del v ok =>
    match s.pc v with
    | .deleting ptr fd event =>
      s.inSection a ptr (fun l => .ok (l.delEvent fd event ok))
        fun c b s' => { s'.goto v .rest with
          dropped := if b then (c.getContext event).tags ++ s.dropped else s.dropped }
    | _ => none
  | .cancelEvent v fd event =>
    match s.pc v with
    | .rest =>
      if s.size ≤ fd then some s
      else some (s.useContext a v fd fun ptr => .cancelling ptr fd event)
    | _ => none
  | .cancel v ok =>
    match s.pc v with
    | .cancelling ptr fd event =>
      s.inSection a ptr (fun l => l.cancelEvent fd event ok) fun _ _ s' => s'.goto v .rest
    | _ => none
  | .cancelAll v fd =>
    match s.pc v with
    | .rest =>
      if s.size ≤ fd then some s
      else some (s.useContext a v fd fun ptr => .cancellingAll ptr fd)
    | _ => none
  | .cancelBoth v ok =>
    match s.pc v with
    | .cancellingAll ptr fd =>
      s.inSection a ptr (fun l => l.cancelAll fd ok) fun _ _ s' => s'.goto v .rest
    | _ => none
  | .wait v entries =>
    match s.pc v with
    | .rest =>
      if ∀ x ∈ entries, x.1 < s.heap.length then some (s.goto v (.idling entries)) else none
    | _ => none
  | .handle v ok =>
    match s.pc v with
    | .idling [] => some (s.goto v .rest)
    | .idling ((ptr, reported) :: entries) =>
      s.inSection a ptr (fun l => (l.idle reported ok).map fun l => (true, l))
        fun _ _ s' => s'.goto v (.idling entries)
    | _ => none

/-- One step. A program that has ended makes none. -/
def step (s : State Th Sched Fn Fb) (a : Act Th Sched Fn Fb) : Option (State Th Sched Fn Fb) :=
  if s.stopped.isSome then none else s.stepRunning a

end State

end IOManager

end Wille
