import Wille.ForMathlib.OrderedSet
import Mathlib.Logic.Function.Basic

/-!
# Timers

`timer.cpp` and `timer.h`. A `TimerManager` keeps the pending timers in a `std::set` ordered by
`Timer::Comparator`, which reads the due time `m_next` out of the timer *objects*. So the order of
the set depends on mutable data outside it, and the model keeps that: `timers` is a list of
handles and the comparator looks the objects up.

## What the model keeps

* Clock values and periods are `UInt64`, so sums and differences wrap as they do in the code.
  Every operation that calls `GetCurrentMS()` takes the reading as an argument.
* A handle (`Timer::ptr`) is the number of the object in order of creation; the object carries the
  address the comparator falls back on. An address may be reused once no pending timer has it.
* `std::function` is `Option Cb`; an empty one is `none`.
* `cancel` erases what `find` returned without looking at it. Where that would be `erase(end())`
  the model's result is `none`.
* The functions below are the sections under `m_mutex`. What happens before the lock is taken (a
  clock reading) or after it is released (`onTimerInsertedAtFront`) shows up as an argument or as
  a returned flag.

## Main definitions

* `Timer`, `Timer.Comparator`, `TimerManager`
* `TimerManager.cancel`, `refresh`, `reset`, `addTimer`, `addConditionTimer`
* `TimerManager.getNextTimer`, `listExpiredCb`, `detectClockRollover`
-/

namespace Wille

/-- A `Timer` object. -/
structure Timer (Cb : Type*) where
  /-- Where the object lives; ties between due times are broken by it. -/
  addr : ℕ
  /-- `m_recurring` -/
  recurring : Bool
  /-- `m_ms`, the period. -/
  ms : UInt64
  /-- `m_next`, the time to execute. -/
  next : UInt64
  /-- `m_cb` -/
  cb : Option Cb

/-- What `addConditionTimer` stores: the caller's callback bound to the object that has to be
alive for it to run (`OnTimer`). -/
inductive Callback (Fn Obj : Type*) where
  /-- A callback given to `addTimer`. -/
  | fn (cb : Fn)
  /-- `std::bind(&OnTimer, weak_cond, cb)`; it is non-empty whatever `cb` is. -/
  | onTimer (weak_cond : Obj) (cb : Option Fn)

namespace Timer

variable {Cb : Type*}

/-- `Timer::Comparator::operator()`, on possibly null pointers. -/
def Comparator : Option (Timer Cb) → Option (Timer Cb) → Bool
  | none, none => false
  | none, some _ => true
  | some _, none => false
  | some lhs, some rhs =>
    if lhs.next < rhs.next then true
    else if rhs.next < lhs.next then false
    else decide (lhs.addr < rhs.addr)

/-- The constructor `Timer(ms, cb, recurring, manager)`; it reads the clock. -/
def make (addr : ℕ) (ms : UInt64) (cb : Option Cb) (recurring : Bool) (now : UInt64) : Timer Cb :=
  { addr, recurring, ms, next := now + ms, cb }

/-- The constructor `Timer(next)` of the object `listExpiredCb` searches with. -/
def probe (addr : ℕ) (next : UInt64) : Timer Cb :=
  { addr, recurring := false, ms := 0, next, cb := none }

end Timer

/-- A `TimerManager` together with the timer objects. -/
structure TimerManager (Cb : Type*) where
  /-- The objects by handle. -/
  timer : ℕ → Timer Cb
  /-- How many objects exist: the handles are those below `created`. -/
  created : ℕ
  /-- `m_timers`, in order. -/
  timers : List ℕ
  /-- The `m_next` a handle had when it was last inserted. Nothing reads it. -/
  insertedNext : ℕ → UInt64
  /-- `m_tickled` -/
  tickled : Bool
  /-- `m_previousTime` -/
  previousTime : UInt64

namespace TimerManager

variable {Cb : Type*} (m : TimerManager Cb)

/-- The order of `m_timers`. -/
def lt (s t : ℕ) : Bool := Timer.Comparator (some (m.timer s)) (some (m.timer t))

/-- Change one object. -/
def modify (t : ℕ) (f : Timer Cb → Timer Cb) : TimerManager Cb :=
  { m with timer := Function.update m.timer t (f (m.timer t)) }

/-- The `TimerManager()` constructor; `object` is whatever memory holds before objects are
created in it. -/
def make (object : ℕ → Timer Cb) (now : UInt64) : TimerManager Cb :=
  { timer := object, created := 0, timers := [], insertedNext := fun _ => 0, tickled := false,
    previousTime := now }

/-- `m_timers.insert(timer)`, with the iterator it returns. -/
def insert (t : ℕ) : TimerManager Cb × ℕ :=
  let r := OrderedSet.insert m.lt t m.timers
  ({ m with
      timers := r.1
      insertedNext :=
        if r.2.2 then Function.update m.insertedNext t (m.timer t).next else m.insertedNext },
    r.2.1)

/-- `m_timers.erase(it)` -/
def erase (it : ℕ) : TimerManager Cb := { m with timers := m.timers.eraseIdx it }

/-! ### Adding -/

/-- `TimerManager::addTimer(val, lock)` up to `lock.unlock()`. The flag is `at_front`: whether
`onTimerInsertedAtFront()` is called next. -/
def addTimerLocked (val : ℕ) : TimerManager Cb × Bool :=
  let (m, it) := m.insert val
  let at_front := it == 0 && !m.tickled
  ({ m with tickled := m.tickled || at_front }, at_front)

/-- Put a new object into memory. -/
def construct (timer : Timer Cb) : TimerManager Cb :=
  { m with timer := Function.update m.timer m.created timer, created := m.created + 1 }

/-- `TimerManager::addTimer(ms, cb, recurring)`. The new handle is `m.created`. -/
def addTimer (addr : ℕ) (ms : UInt64) (cb : Option Cb) (recurring : Bool) (now : UInt64) :
    TimerManager Cb × Bool :=
  (m.construct (Timer.make addr ms cb recurring now)).addTimerLocked m.created

/-- `TimerManager::addConditionTimer` -/
def addConditionTimer {Fn Obj : Type*} (m : TimerManager (Callback Fn Obj)) (addr : ℕ)
    (ms : UInt64) (cb : Option Fn) (weak_cond : Obj) (recurring : Bool) (now : UInt64) :
    TimerManager (Callback Fn Obj) × Bool :=
  m.addTimer addr ms (some (.onTimer weak_cond cb)) recurring now

/-! ### The operations on a handle -/

/-- `Timer::cancel`. The result is `none` where the code would erase `end()`. -/
def cancel (t : ℕ) : Option (Bool × TimerManager Cb) :=
  if (m.timer t).cb.isSome then
    let m := m.modify t fun timer => { timer with cb := none }
    (OrderedSet.find m.lt t m.timers).map fun it => (true, m.erase it)
  else some (false, m)

/-- `Timer::refresh` -/
def refresh (t : ℕ) (now : UInt64) : Bool × TimerManager Cb :=
  if (m.timer t).cb.isNone then (false, m)
  else
    match OrderedSet.find m.lt t m.timers with
    | none => (false, m)
    | some it =>
      let m := m.erase it
      let m := m.modify t fun timer => { timer with next := now + timer.ms }
      (true, (m.insert t).1)

/-- `Timer::reset(ms, from_now)` from the lock on. The second flag is `at_front` of the `addTimer`
it ends in. -/
def resetLocked (t : ℕ) (ms : UInt64) (from_now : Bool) (now : UInt64) :
    Bool × TimerManager Cb × Bool :=
  if (m.timer t).cb.isNone then (false, m, false)
  else
    match OrderedSet.find m.lt t m.timers with
    | none => (false, m, false)
    | some it =>
      let m := m.erase it
      let start := if from_now then now else (m.timer t).next - (m.timer t).ms
      let m := m.modify t fun timer => { timer with ms := ms, next := start + ms }
      (true, m.addTimerLocked t)

/-- `Timer::reset`. Whether there is anything to do is decided before the lock is taken. -/
def reset (t : ℕ) (ms : UInt64) (from_now : Bool) (now : UInt64) :
    Bool × TimerManager Cb × Bool :=
  if ms = (m.timer t).ms && !from_now then (true, m, false) else m.resetLocked t ms from_now now

/-! ### Expiry -/

/-- `TimerManager::getNextTimer` -/
def getNextTimer (now_ms : UInt64) : TimerManager Cb × UInt64 :=
  let m := { m with tickled := false }
  match m.timers with
  | [] => (m, ~~~0)
  | next :: _ =>
    (m, if now_ms ≥ (m.timer next).next then 0 else (m.timer next).next - now_ms)

/-- `TimerManager::detectClockRollover` -/
def detectClockRollover (now_ms : UInt64) : Bool × TimerManager Cb :=
  (decide (now_ms < m.previousTime) && decide (now_ms < m.previousTime - 60 * 60 * 1000),
    { m with previousTime := now_ms })

/-- The iterator up to which `listExpiredCb` takes the timers out; `addr` is the address of
`now_timer`. -/
def expiredEnd (now_ms : UInt64) (rollover : Bool) (addr : ℕ) : ℕ :=
  let it :=
    if rollover then m.timers.length
    else
      OrderedSet.lowerBound
        (fun t => Timer.Comparator (some (m.timer t)) (some (Timer.probe addr now_ms))) m.timers
  OrderedSet.advanceWhile (fun t => (m.timer t).next == now_ms) m.timers it

/-- What `listExpiredCb` does to one expired timer after copying its callback. -/
def rearm (now_ms : UInt64) (t : ℕ) : TimerManager Cb :=
  if (m.timer t).recurring then
    ((m.modify t fun timer => { timer with next := now_ms + timer.ms }).insert t).1
  else m.modify t fun timer => { timer with cb := none }

/-- The loop of `listExpiredCb` over `expired`. The callbacks come with the handle they were
copied from. -/
def fire (now_ms : UInt64) : List ℕ → TimerManager Cb → List (ℕ × Option Cb) × TimerManager Cb
  | [], m => ([], m)
  | t :: expired, m =>
    let r := fire now_ms expired (m.rearm now_ms t)
    ((t, (m.timer t).cb) :: r.1, r.2)

/-- `TimerManager::listExpiredCb` from the write lock on. -/
def listExpiredCbLocked (now_ms : UInt64) (addr : ℕ) : List (ℕ × Option Cb) × TimerManager Cb :=
  match m.timers with
  | [] => ([], m)
  | front :: _ =>
    let (rollover, m) := m.detectClockRollover now_ms
    if !rollover && decide (now_ms < (m.timer front).next) then ([], m)
    else
      let it := m.expiredEnd now_ms rollover addr
      fire now_ms (m.timers.take it) { m with timers := m.timers.drop it }

/-- `TimerManager::listExpiredCb`. An empty set is noticed under the read lock already. -/
def listExpiredCb (now_ms : UInt64) (addr : ℕ) : List (ℕ × Option Cb) × TimerManager Cb :=
  if m.timers.isEmpty then ([], m) else m.listExpiredCbLocked now_ms addr

end TimerManager

end Wille
