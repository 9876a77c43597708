import Mathlib.Data.Nat.Notation

/-!
# Starting and joining a thread

`thread.h`, `thread.cpp` and the `Semaphore` of `mutex.h`: one `Thread` object, the code that owns
it, and the thread that its constructor starts. `pthread_create` may begin to run the new thread
before it stores the handle, so these are two steps of the creator. Each access of `Thread::run` to
the object is a step.

## What the model keeps

* A name is a `std::string`, so it is cut by bytes and not by characters.
* The body of the callback is the choice of the actions: it may call `SetName`, and it returns.
* An access to the object after its end, in `run` or in a `SetName` of the body, has no defined
  meaning. It sets `dangling` and ends the run.
* `sem_wait` can fail, as it does when a signal handler interrupts it. `Semaphore::wait` then
  throws, and the constructor with it. `pthread_join` can fail too, and `join` throws.

## Main definitions

* `Object`, `CreatorPc`, `RunPc`, `Sys`, `Act`
* `Sys.SetName`, `Sys.run`, `Sys.step` — the steps
-/

namespace Wille

namespace Thread

/-- A `std::string`, byte by byte. -/
abbrev Bytes := List UInt8

/-- The bytes of a literal. -/
def bytes (literal : String) : Bytes := literal.toUTF8.data.toList

/-- An object of class `Thread`. -/
structure Object (Cb : Type*) where
  /-- `m_id` -/
  id : UInt64
  /-- `m_thread`, with 0 for none -/
  thread : ℕ
  /-- `m_cb` -/
  cb : Option Cb
  /-- `m_name` -/
  name : Bytes
  /-- The count of `m_semaphore`. -/
  semaphore : ℕ

/-- Where the code that owns the object stands. -/
inductive CreatorPc where
  /-- In the constructor, about to call `pthread_create`. -/
  | create
  /-- In `pthread_create`, about to store the handle. -/
  | store
  /-- About to wait for the semaphore. -/
  | wait
  /-- The constructor has returned. -/
  | ready
  /-- The constructor has thrown. -/
  | threw
  /-- The object is destroyed. -/
  | destroyed
  deriving DecidableEq

/-- Where the new thread stands in `Thread::run`. -/
inductive RunPc where
  /-- There is no new thread. -/
  | absent
  /-- About to set `t_thread`. -/
  | start
  /-- About to copy `m_name` into `t_thread_name`. -/
  | copyName
  /-- About to store `m_id`. -/
  | storeId
  /-- About to call `SetName`. -/
  | setName
  /-- About to swap `m_cb` into the local `cb`. -/
  | swap
  /-- About to notify the semaphore. -/
  | notify
  /-- In `cb()`. -/
  | body
  /-- `run` has returned. -/
  | exited
  deriving DecidableEq

/-- A `Thread` object and the thread it starts. -/
structure Sys (Cb : Type*) where
  /-- The object. -/
  object : Object Cb
  /-- The object has not ended. -/
  alive : Bool
  /-- Where its owner stands. -/
  creator : CreatorPc
  /-- Where the new thread stands. -/
  runner : RunPc
  /-- `t_thread` of the new thread is the object. -/
  t_thread : Bool
  /-- `t_thread_name` of the new thread. -/
  t_thread_name : Bytes
  /-- The name that `pthread_setname_np` has given to the new thread. -/
  kernelName : Option Bytes
  /-- The local `cb` of `run`. -/
  cb : Option Cb
  /-- The calls of `pthread_join` that have succeeded. -/
  joined : ℕ
  /-- The calls of `pthread_detach`. -/
  detached : ℕ
  /-- The new thread has accessed the object after its end. -/
  dangling : Bool

/-- The steps. -/
inductive Act where
  /-- `pthread_create` fails, or starts the new thread. -/
  | pthread_create (ok : Bool)
  /-- `pthread_create` stores the handle and returns. -/
  | store
  /-- `m_semaphore.wait()` in the constructor. -/
  | wait (ok : Bool)
  /-- The next step of `run` up to the call of the callback. -/
  | run
  /-- The callback calls `Thread::SetName`. -/
  | SetName (name : Bytes)
  /-- The callback returns. -/
  | finish
  /-- The owner calls `join`. -/
  | join (ok : Bool)
  /-- The owner destroys the object. -/
  | destroy
  deriving DecidableEq

/-- `m_name` as the constructor leaves it. -/
def initialName (name : Bytes) : Bytes := if name = [] then bytes "UNKNOW" else name

/-- `name.substr(0, 15).c_str()`, which ends at the first zero. -/
def shortName (name : Bytes) : Bytes := (name.take 15).takeWhile (· ≠ 0)

namespace Sys

variable {Cb : Type*}

/-- The constructor has initialized its members. -/
def init (cb : Cb) (name : Bytes) : Sys Cb where
  object :=
    { id := -1, thread := 0, cb := some cb, name := initialName name, semaphore := 0 }
  alive := true
  creator := .create
  runner := .absent
  t_thread := false
  t_thread_name := bytes "UNKNOW"
  kernelName := none
  cb := none
  joined := 0
  detached := 0
  dangling := false

variable (handle : ℕ) (tid : UInt64) (s : Sys Cb)

/-- The new thread accesses the object and then goes on. -/
def access (next : Sys Cb) : Sys Cb := if s.alive then next else { s with dangling := true }

/-- `Thread::SetName` on the new thread. -/
def SetName (name : Bytes) : Sys Cb :=
  if name = [] then s
  else
    let named := { s with t_thread_name := name, kernelName := some (shortName name) }
    if s.t_thread then s.access { named with object := { s.object with name := name } } else named

/-- The next step of `Thread::run`. -/
def run : Option (Sys Cb) :=
  match s.runner with
  | .start => some { s with t_thread := true, runner := .copyName }
  | .copyName => some (s.access { s with t_thread_name := s.object.name, runner := .storeId })
  | .storeId =>
    some (s.access { s with object := { s.object with id := tid }, runner := .setName })
  | .setName => some { s.SetName s.t_thread_name with runner := .swap }
  | .swap =>
    some (s.access { s with object := { s.object with cb := s.cb }, cb := s.object.cb,
                            runner := .notify })
  | .notify =>
    some (s.access { s with object := { s.object with semaphore := s.object.semaphore + 1 },
                            runner := .body })
  | .absent | .body | .exited => none

/-- One step, while the meaning of the program is defined. -/
def stepDefined : Act → Option (Sys Cb)
  | .pthread_create ok =>
    if s.creator = .create then
      if ok then some { s with creator := .store, runner := .start }
      else some { s with creator := .threw, alive := false }
    else none
  | .store =>
    if s.creator = .store then
      some { s with object := { s.object with thread := handle }, creator := .wait }
    else none
  | .wait ok =>
    if s.creator = .wait then
      if ok then
        if 0 < s.object.semaphore then
          some { s with object := { s.object with semaphore := s.object.semaphore - 1 },
                        creator := .ready }
        else none
      else some { s with creator := .threw, alive := false }
    else none
  | .run => s.run tid
  | .SetName name => if s.runner = .body then some (s.SetName name) else none
  | .finish => if s.runner = .body then some { s with runner := .exited } else none
  | .join ok =>
    if s.creator = .ready then
      if s.object.thread ≠ 0 ∧ ok then
        -- `pthread_join` returns when `run` has returned.
        if s.runner = .exited then
          some { s with object := { s.object with thread := 0 }, joined := s.joined + 1 }
        else none
      else some s
    else none
  | .destroy =>
    if s.creator = .ready then
      some { s with alive := false, creator := .destroyed,
                    detached := if s.object.thread ≠ 0 then s.detached + 1 else s.detached }
    else none

/-- One step. -/
def step (a : Act) : Option (Sys Cb) := if s.dangling then none else s.stepDefined handle tid a

end Sys

end Thread

end Wille
