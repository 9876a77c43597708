import Wille.ForMathlib.Journal
import Wille.Scheduler.Basic

/-!
# The fibers of a thread

`fiber.cpp` on one thread, and the pointer that `scheduler.cpp` keeps to the scheduler's main fiber
of the thread. A fiber has a slot for a context, `m_ctx`. `swapcontext` saves the place in the code
where it is called into one slot and goes on at the place that is saved in another. Which slots
these are `swapIn` and `swapOut` decide each for itself.

## What the model keeps

* A fiber is a number, in order of creation. Fiber 0 is the main fiber of the thread, which
  `GetThis` has made.
* A place in the code is where a call of `swapcontext` returns, or the start of `MainFunc`. The
  calls are numbered, and a journal says of each who made it and what for.
* `MainFunc` runs the callback of the fiber that is `t_fiber` when it starts.
* What a callback does is the choice of the actions. A failed `WILLE_ASSERT` ends the program: there
  is no step.
* Stacks, ids and the destructor are left out.

## Main definitions

* `Fiber`, `Ctx`, `Cpu`, `ThreadState`
* `ThreadState.swapcontext`, `swapIn`, `swapOut`, `yieldTo`, `leave`, `reset`
* `ThreadState.step`, `ThreadState.Allowed` — the operations, and who may call them
-/

namespace Wille

/-- A place in the code where a thread can go on. -/
inductive Ctx where
  /-- In the constructor `Fiber()`, after `getcontext`. -/
  | constructed
  /-- The start of `MainFunc`. -/
  | start
  /-- Just after the call of `swapcontext` with this number. -/
  | after (call : ℕ)
  deriving DecidableEq

/-- A `Fiber`. -/
structure Fiber (Cb : Type*) where
  /-- `m_state` -/
  state : Fiber.State
  /-- `m_main` -/
  main : Bool
  /-- `m_ctx` -/
  ctx : Ctx
  /-- `m_cb` -/
  cb : Option Cb

/-- What a call of `swapcontext` is made for. -/
inductive Purpose where
  /-- `swapIn` of a fiber -/
  | swapIn (f : ℕ)
  /-- `YieldToReady` or `YieldToHold` -/
  | yield
  /-- The end of `MainFunc` -/
  | leave
  deriving DecidableEq

/-- A call of `swapcontext`. -/
structure Call where
  /-- The fiber whose code makes it. -/
  caller : ℕ
  purpose : Purpose
  deriving DecidableEq

/-- What the thread executes: the code of a fiber, and where it has gone on last. -/
structure Cpu where
  owner : ℕ
  place : Ctx
  deriving DecidableEq

/-- The fibers of a thread. -/
structure ThreadState (Cb : Type*) where
  fiber : ℕ → Fiber Cb
  /-- How many fibers there are. -/
  created : ℕ
  /-- `t_fiber` -/
  t_fiber : ℕ
  /-- `Scheduler::GetMainFiber()` -/
  mainFiber : Option ℕ
  cpu : Cpu
  /-- The calls of `swapcontext`, the latest first. -/
  calls : List Call

namespace ThreadState

variable {Cb : Type*}

/-- `t_threadFiber` -/
def t_threadFiber : ℕ := 0

/-- After the first call of `GetThis`. -/
def init (object : ℕ → Fiber Cb) : ThreadState Cb where
  fiber := Function.update object 0 ⟨.EXEC, true, .constructed, none⟩
  created := 1
  t_fiber := 0
  mainFiber := none
  cpu := ⟨0, .constructed⟩
  calls := []

/-- Change one fiber. -/
def modify (s : ThreadState Cb) (f : ℕ) (change : Fiber Cb → Fiber Cb) : ThreadState Cb :=
  { s with fiber := Function.update s.fiber f (change (s.fiber f)) }

/-- `SetThis` -/
def SetThis (s : ThreadState Cb) (f : ℕ) : ThreadState Cb := { s with t_fiber := f }

/-- `setState` -/
def setState (s : ThreadState Cb) (f : ℕ) (st : Fiber.State) : ThreadState Cb :=
  s.modify f fun fiber => { fiber with state := st }

/-- Whose code is executed from a place on. -/
def ownerOf (s : ThreadState Cb) : Ctx → ℕ
  | .constructed => t_threadFiber
  | .start => s.t_fiber
  | .after n => ((Journal.get? s.calls n).map Call.caller).getD t_threadFiber

/-- `swapcontext(&save->m_ctx, &load->m_ctx)` -/
def swapcontext (s : ThreadState Cb) (save load : ℕ) (purpose : Purpose) : ThreadState Cb :=
  let s := { s.modify save fun fiber => { fiber with ctx := .after s.calls.length } with
    calls := ⟨s.cpu.owner, purpose⟩ :: s.calls }
  { s with cpu := ⟨s.ownerOf (s.fiber load).ctx, (s.fiber load).ctx⟩ }

/-- `swapIn` -/
def swapIn (s : ThreadState Cb) (f : ℕ) : Option (ThreadState Cb) :=
  let s := s.SetThis f
  if (s.fiber f).state = .EXEC then none
  else
    let s := s.setState f .EXEC
    match s.mainFiber with
    | none => some (s.swapcontext t_threadFiber f (.swapIn f))
    | some main =>
      if (s.fiber f).main then some (s.swapcontext t_threadFiber f (.swapIn f))
      else some (s.swapcontext main f (.swapIn f))

/-- `swapOut` -/
def swapOut (s : ThreadState Cb) (f : ℕ) (purpose : Purpose) : ThreadState Cb :=
  let s :=
    match s.mainFiber with
    | none => s.SetThis t_threadFiber
    | some main => if (s.fiber f).main then s.SetThis t_threadFiber else s.SetThis main
  s.swapcontext f s.t_fiber purpose

/-- `YieldToReady` and `YieldToHold` -/
def yieldTo (s : ThreadState Cb) (st : Fiber.State) : Option (ThreadState Cb) :=
  let cur := s.t_fiber
  if (s.fiber cur).state = .EXEC then some ((s.setState cur st).swapOut cur .yield) else none

/-- `MainFunc` after the callback, which has returned or thrown. The fiber that it is the `MainFunc`
of is in a local variable. -/
def leave (s : ThreadState Cb) (st : Fiber.State) : ThreadState Cb :=
  let cur := s.cpu.owner
  let s := if st = .TERM then s.modify cur fun fiber => { fiber with cb := none } else s
  (s.setState cur st).swapOut cur .leave

/-- `reset` -/
def reset (s : ThreadState Cb) (f : ℕ) (cb : Option Cb) : Option (ThreadState Cb) :=
  if (s.fiber f).state.resettable then
    some (s.modify f fun fiber => { fiber with cb := cb, ctx := .start, state := .INIT })
  else none

/-- `Fiber(cb, stacksize, main)` -/
def newFiber (s : ThreadState Cb) (cb : Option Cb) (main : Bool) : ThreadState Cb :=
  { s.modify s.created fun _ => ⟨.INIT, main, .start, cb⟩ with created := s.created + 1 }

/-- The operations. -/
inductive Act (Cb : Type*) where
  | newFiber (cb : Option Cb) (main : Bool)
  /-- `Scheduler::Scheduler` or `Scheduler::run` sets the scheduler's main fiber. -/
  | setMainFiber (f : ℕ)
  | swapIn (f : ℕ)
  | YieldToReady
  | YieldToHold
  /-- The callback returns. -/
  | returns
  /-- The callback throws. -/
  | throws
  | reset (f : ℕ) (cb : Option Cb)
  deriving DecidableEq

/-- One operation, by the fiber whose code is executed. -/
def step (s : ThreadState Cb) : Act Cb → Option (ThreadState Cb)
  | .newFiber cb main => some (s.newFiber cb main)
  | .setMainFiber f => some { s with mainFiber := some f }
  | .swapIn f => s.swapIn f
  | .YieldToReady => s.yieldTo .READY
  | .YieldToHold => s.yieldTo .HOLD
  | .returns => some (s.leave .TERM)
  | .throws => some (s.leave .EXCEPT)
  | .reset f cb => s.reset f cb

/-- Whom `swapIn` of a fiber may be called from: from the scheduler's main fiber, once there is one.
Otherwise from the main fiber of the thread, and so it is for a fiber with `m_main`, which is only
made for a scheduler that uses its caller's thread. -/
def MayEnter (s : ThreadState Cb) (f : ℕ) : Prop :=
  match s.mainFiber with
  | none => s.cpu.owner = t_threadFiber
  | some main => s.cpu.owner = if (s.fiber f).main then t_threadFiber else main

/-- Who may call an operation, and on what. -/
def Allowed (s : ThreadState Cb) : Act Cb → Prop
  | .newFiber _ _ => True
  | .setMainFiber f =>
    s.cpu.owner = t_threadFiber ∧ f < s.created ∧ (f = t_threadFiber ∨ (s.fiber f).main = true)
  | .swapIn f => f < s.created ∧ (s.fiber f).state ∈ [.INIT, .HOLD, .READY] ∧ s.MayEnter f
  | .YieldToReady | .YieldToHold | .returns | .throws => s.cpu.owner ≠ t_threadFiber
  | .reset f _ => f < s.created

end ThreadState

end Wille
