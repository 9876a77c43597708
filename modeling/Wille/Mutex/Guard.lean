import Mathlib.Data.List.Count
import Mathlib.Logic.Function.Basic
import Mathlib.Tactic.ByContra
import Mathlib.Tactic.SplitIfs
import Wille.ForMathlib.TransitionSystem

/-!
# Locks and the guards that hold them

`mutex.h`: `Mutex`, `RWMutex` and the guards `ScopedLockImpl`, `ReadScopedLockImpl` and
`WriteScopedLockImpl`, for any number of threads, locks and guards. A guard is an object of one
thread. Its constructor locks, its `m_locked` remembers whether it holds the lock, and its
destructor calls `unlock`.

## What the model keeps

* A call of `pthread_mutex_lock`, `pthread_rwlock_rdlock` or `pthread_rwlock_wrlock` that has to
  wait is not possible yet. `wrlock` and `rdlock` of a thread that holds the lock for writing do
  not wait. They return `EDEADLK`, which `RWMutex` does not look at, and the guard believes that it
  holds the lock.
* `lock` exists for the guard of a `Mutex` only: `RWMutex` has no member `lock` that the other two
  could call.
* `pthread_rwlock_unlock` gives back what the thread holds. Unlocking what is not held has no
  defined meaning and ends the run.

## Main definitions

* `Mode`, `Guard`, `Locks`, `Act`
* `Locks.acquire`, `Locks.release`, `Locks.step`
* `Locks.Careful` — no thread locks a `RWMutex` again that it holds for writing
* `Locks.Kept` — a lock is held as the guards say

## Main results

* `Locks.guards_exclude` — two guards hold a lock only if both are readers, and none unlocks twice
-/

namespace Wille

namespace Mutex

open TransitionSystem

/-- How a guard holds its lock. -/
inductive Mode where
  /-- `ScopedLockImpl<Mutex>` -/
  | exclusive
  /-- `ReadScopedLockImpl<RWMutex>` -/
  | read
  /-- `WriteScopedLockImpl<RWMutex>` -/
  | write
  deriving DecidableEq

/-- A guard. -/
structure Guard (T M : Type*) where
  /-- The thread it belongs to. -/
  thread : T
  /-- `m_mutex` -/
  mutex : M
  mode : Mode
  /-- `m_locked` -/
  locked : Bool
  /-- It is not destroyed. -/
  alive : Bool

/-- The guard is of the kind of its lock, and holds nothing after its destruction. -/
def Guard.Fits {T M : Type*} (rw : M → Bool) (g : Guard T M) : Prop :=
  rw g.mutex = decide (g.mode ≠ .exclusive) ∧ (g.alive = false → g.locked = false)

/-- The locks and the guards. -/
structure Locks (T M : Type*) where
  /-- Who holds a lock alone. -/
  owner : M → Option T
  /-- Who holds a lock for reading, and how often. -/
  readers : M → List T
  /-- The guards, in the order of their construction. -/
  guards : List (Guard T M)
  /-- Something was unlocked that was not held. -/
  fault : Bool

/-- The steps. -/
inductive Act (T M : Type*) where
  /-- A constructor. -/
  | construct (t : T) (m : M) (mode : Mode)
  /-- `lock()` of a guard. -/
  | lock (i : ℕ)
  /-- `unlock()` of a guard. -/
  | unlock (i : ℕ)
  /-- The destructor of a guard. -/
  | destroy (i : ℕ)

namespace Locks

variable {T M : Type*}

/-- Nothing is locked. -/
def init : Locks T M := ⟨fun _ => none, fun _ => [], [], false⟩

section Step

variable [DecidableEq T] [DecidableEq M] (rw : M → Bool) (s : Locks T M)

/-- A call of `pthread_mutex_lock`, `pthread_rwlock_rdlock` or `pthread_rwlock_wrlock`. -/
def acquire (t : T) (m : M) : Mode → Option (Locks T M)
  | .exclusive =>
    if s.owner m = none then some { s with owner := Function.update s.owner m (some t) } else none
  | .write =>
    if s.owner m = some t then some s
    else if s.owner m = none ∧ s.readers m = [] then
      some { s with owner := Function.update s.owner m (some t) }
    else none
  | .read =>
    if s.owner m = some t then some s
    else if s.owner m = none then
      some { s with readers := Function.update s.readers m (t :: s.readers m) }
    else none

/-- A call of `pthread_mutex_unlock` or `pthread_rwlock_unlock`. -/
def release (t : T) (m : M) : Locks T M :=
  if s.owner m = some t then { s with owner := Function.update s.owner m none }
  else if t ∈ s.readers m then
    { s with readers := Function.update s.readers m ((s.readers m).erase t) }
  else { s with fault := true }

/-- A guard has become this one. -/
def put (i : ℕ) (g : Guard T M) : Locks T M := { s with guards := s.guards.set i g }

omit [DecidableEq T] [DecidableEq M] in
@[simp] theorem put_owner (i : ℕ) (g : Guard T M) : (s.put i g).owner = s.owner := rfl

omit [DecidableEq T] [DecidableEq M] in
@[simp] theorem put_guards (i : ℕ) (g : Guard T M) :
    (s.put i g).guards = s.guards.set i g := rfl

omit [DecidableEq T] [DecidableEq M] in
@[simp] theorem put_readers (i : ℕ) (g : Guard T M) : (s.put i g).readers = s.readers := rfl

/-- `unlock()` of a guard. -/
def unlock (i : ℕ) (g : Guard T M) : Locks T M :=
  if g.locked then (s.release g.thread g.mutex).put i { g with locked := false } else s

/-- One step, while the meaning of the program is defined; `rw` says which locks are of class
`RWMutex`. -/
def stepDefined : Act T M → Option (Locks T M)
  | .construct t m mode =>
    if rw m = decide (mode ≠ .exclusive) then
      (s.acquire t m mode).map fun s => { s with guards := s.guards ++ [⟨t, m, mode, true, true⟩] }
    else none
  | .lock i =>
    match s.guards[i]? with
    | some g =>
      if g.alive ∧ g.mode = .exclusive then
        if g.locked then some s
        else (s.acquire g.thread g.mutex .exclusive).map fun s => s.put i { g with locked := true }
      else none
    | none => none
  | .unlock i =>
    match s.guards[i]? with
    | some g => if g.alive then some (s.unlock i g) else none
    | none => none
  | .destroy i =>
    match s.guards[i]? with
    | some g =>
      if g.alive then some ((s.unlock i g).put i { g with locked := false, alive := false })
      else none
    | none => none

/-- One step. -/
def step (a : Act T M) : Option (Locks T M) := if s.fault then none else s.stepDefined rw a

/-- No thread locks a `RWMutex` that it holds for writing. -/
def Careful : Act T M → Prop
  | .construct t m mode => mode = .exclusive ∨ s.owner m ≠ some t
  | _ => True

instance : (a : Act T M) → Decidable (s.Careful a)
  | .construct t m mode => inferInstanceAs (Decidable (mode = .exclusive ∨ s.owner m ≠ some t))
  | .lock _ | .unlock _ | .destroy _ => instDecidableTrue

end Step

/-! ### Who holds a lock -/

/-- The guard holds this lock alone, for this thread. -/
def alone [DecidableEq T] [DecidableEq M] (m : M) (t : T) (g : Guard T M) : Bool :=
  g.locked && g.mode ≠ .read && g.mutex = m && g.thread = t

/-- The guard holds this lock for reading, for this thread. -/
def reading [DecidableEq T] [DecidableEq M] (m : M) (t : T) (g : Guard T M) : Bool :=
  g.locked && g.mode = .read && g.mutex = m && g.thread = t

variable [DecidableEq T] [DecidableEq M] {rw : M → Bool} {s s' : Locks T M}

/-- The locks are held as the guards say. -/
structure Kept (rw : M → Bool) (s : Locks T M) : Prop where
  owner : ∀ m t, s.guards.countP (alone m t) = if s.owner m = some t then 1 else 0
  readers : ∀ m t, s.guards.countP (reading m t) = (s.readers m).count t
  apart : ∀ m, s.owner m ≠ none → s.readers m = []
  noReaders : ∀ m, rw m = false → s.readers m = []
  fits : ∀ g ∈ s.guards, g.Fits rw
  fault : s.fault = false

theorem kept_init : (init : Locks T M).Kept rw :=
  ⟨fun _ _ => rfl, fun _ _ => rfl, fun _ h => absurd rfl h, fun _ _ => rfl, by simp [init], rfl⟩

/-- A locked guard that is no reader owns its lock. -/
theorem Kept.owner_of_locked (h : s.Kept rw) {g : Guard T M} (hg : g ∈ s.guards)
    (hlocked : g.locked = true) (hmode : g.mode ≠ .read) : s.owner g.mutex = some g.thread := by
  have hcount := h.owner g.mutex g.thread
  by_contra hne
  rw [if_neg hne, List.countP_eq_zero] at hcount
  exact hcount g hg (by simp [alone, hlocked, hmode])

/-- A locked guard that is a reader is among the readers of its lock. -/
theorem Kept.mem_readers_of_locked (h : s.Kept rw) {g : Guard T M} (hg : g ∈ s.guards)
    (hlocked : g.locked = true) (hmode : g.mode = .read) : g.thread ∈ s.readers g.mutex := by
  rw [← List.count_pos_iff, ← h.readers, List.countP_pos_iff]
  exact ⟨g, hg, by simp [reading, hlocked, hmode]⟩

/-- Nobody owns a lock that has a reader. -/
theorem Kept.owner_of_reader (h : s.Kept rw) {m : M} {t : T} (ht : t ∈ s.readers m) :
    s.owner m = none := by
  by_contra hne
  rw [h.apart m hne] at ht
  exact absurd ht List.not_mem_nil

/-- What a call that locks does, when the thread does not hold the lock for writing. -/
inductive Acquired (s : Locks T M) (t : T) (m : M) : Mode → Locks T M → Prop where
  | alone {mode : Mode} (hmode : mode ≠ .read) (howner : s.owner m = none)
      (hreaders : mode = .write → s.readers m = []) :
      Acquired s t m mode { s with owner := Function.update s.owner m (some t) }
  | reading (howner : s.owner m = none) :
      Acquired s t m .read { s with readers := Function.update s.readers m (t :: s.readers m) }

theorem acquired {t : T} {m : M} {mode : Mode} (h : s.acquire t m mode = some s')
    (hcareful : mode = .exclusive ∨ s.owner m ≠ some t) : Acquired s t m mode s' := by
  cases mode with
  | exclusive =>
    obtain ⟨howner, h⟩ := Option.ite_none_right_eq_some.mp h
    obtain rfl := Option.some.inj h
    exact .alone (by decide) howner (by rintro ⟨⟩)
  | write =>
    rw [acquire, if_neg (hcareful.resolve_left (by decide)), Option.ite_none_right_eq_some] at h
    obtain ⟨⟨howner, hreaders⟩, h⟩ := h
    obtain rfl := Option.some.inj h
    exact .alone (by decide) howner fun _ => hreaders
  | read =>
    rw [acquire, if_neg (hcareful.resolve_left (by decide)), Option.ite_none_right_eq_some] at h
    obtain ⟨howner, h⟩ := h
    obtain rfl := Option.some.inj h
    exact .reading howner

omit [DecidableEq T] [DecidableEq M] in
/-- A guard in the place of another: what is counted. -/
theorem countP_set {i : ℕ} {g : Guard T M} (hg : s.guards[i]? = some g) (g' : Guard T M)
    (p : Guard T M → Bool) :
    (s.guards.set i g').countP p + (if p g then 1 else 0) =
      s.guards.countP p + if p g' then 1 else 0 := by
  obtain ⟨hi, rfl⟩ := List.getElem?_eq_some_iff.mp hg
  rw [List.countP_set hi]
  by_cases hp : p s.guards[i]
  · have hpos : 0 < s.guards.countP p := List.countP_pos_iff.mpr ⟨_, List.getElem_mem hi, hp⟩
    rw [if_pos hp]
    omega
  · rw [if_neg hp]
    omega

/-- A guard locks: it comes to hold the lock, and nothing else changes. -/
theorem Kept.lock (h : s.Kept rw) {t : T} {m : M} {mode : Mode} {guards : List (Guard T M)}
    (ha : Acquired s t m mode s') (hrw : rw m = decide (mode ≠ .exclusive))
    (hcount : ∀ p : Guard T M → Bool, (∀ g : Guard T M, g.locked = false → p g = false) →
      guards.countP p = s.guards.countP p + if p ⟨t, m, mode, true, true⟩ then 1 else 0)
    (hfits : ∀ g ∈ guards, g.Fits rw) :
    ({ s' with guards := guards } : Locks T M).Kept rw := by
  have halone (m' t') := hcount (alone m' t') fun g hg => by simp [alone, hg]
  have hreading (m' t') := hcount (reading m' t') fun g hg => by simp [reading, hg]
  cases ha with
  | alone hmode howner hreaders =>
    have hnil : s.readers m = [] := by
      cases mode with
      | exclusive => exact h.noReaders m hrw
      | write => exact hreaders rfl
      | read => exact absurd rfl hmode
    refine ⟨fun m' t' => ?_, fun m' t' => ?_, fun m' hne => ?_, h.noReaders, hfits, h.fault⟩
    · have hg : alone m' t' ⟨t, m, mode, true, true⟩ = decide (m = m' ∧ t = t') := by
        simp [alone, hmode]
      rw [halone, h.owner, hg]
      rcases eq_or_ne m' m with rfl | hm
      · simp [howner]
      · simp [Function.update_of_ne hm, hm.symm]
    · have hg : reading m' t' ⟨t, m, mode, true, true⟩ = false := by simp [reading, hmode]
      rw [hreading, h.readers, hg]
      rfl
    · rcases eq_or_ne m' m with rfl | hm
      · exact hnil
      · exact h.apart m' (by simpa [Function.update_of_ne hm] using hne)
  | reading howner =>
    refine ⟨fun m' t' => ?_, fun m' t' => ?_, fun m' hne => ?_, fun m' hm' => ?_, hfits, h.fault⟩
    · have hg : alone m' t' ⟨t, m, .read, true, true⟩ = false := by simp [alone]
      rw [halone, h.owner, hg]
      rfl
    · have hg : reading m' t' ⟨t, m, .read, true, true⟩ = decide (m = m' ∧ t = t') := by
        simp [reading]
      rw [hreading, h.readers, hg]
      rcases eq_or_ne m' m with rfl | hm
      · simp [List.count_cons]
      · simp [Function.update_of_ne hm, hm.symm]
    · rcases eq_or_ne m' m with rfl | hm
      · exact absurd howner hne
      · exact (Function.update_of_ne hm ..).trans (h.apart m' hne)
    · rcases eq_or_ne m' m with rfl | hm
      · rw [hm'] at hrw
        cases hrw
      · exact (Function.update_of_ne hm ..).trans (h.noReaders m' hm')

/-- A guard is replaced by one that holds no more, and its lock is as it was. -/
theorem Kept.put (h : s.Kept rw) {i : ℕ} {g g' : Guard T M} (hg : s.guards[i]? = some g)
    (hlocked : g.locked = false) (hlocked' : g'.locked = false) (hmutex : g'.mutex = g.mutex)
    (hmode : g'.mode = g.mode) : (s.put i g').Kept rw := by
  refine ⟨fun m t => ?_, fun m t => ?_, h.apart, h.noReaders, fun g₁ hg₁ => ?_, h.fault⟩
  · refine Eq.trans ?_ (h.owner m t)
    simpa [alone, hlocked, hlocked'] using countP_set hg g' (alone m t)
  · refine Eq.trans ?_ (h.readers m t)
    simpa [reading, hlocked, hlocked'] using countP_set hg g' (reading m t)
  · rcases List.mem_or_eq_of_mem_set hg₁ with hold | rfl
    · exact h.fits g₁ hold
    · refine ⟨?_, fun _ => hlocked'⟩
      rw [hmutex, hmode]
      exact (h.fits g (List.mem_of_getElem? hg)).1

theorem release_guards (t : T) (m : M) : (s.release t m).guards = s.guards := by
  unfold release
  split_ifs <;> rfl

/-- After `unlock()` the guard holds nothing. -/
theorem unlock_getElem? {i : ℕ} {g : Guard T M} (hg : s.guards[i]? = some g) :
    (s.unlock i g).guards[i]? = some { g with locked := false } := by
  obtain ⟨hi, -⟩ := List.getElem?_eq_some_iff.mp hg
  by_cases hlocked : g.locked
  · rw [Locks.unlock, if_pos hlocked, put_guards, release_guards, List.getElem?_set_self hi]
  · have hfalse : g.locked = false := by simpa using hlocked
    rw [Locks.unlock, if_neg hlocked, hg, ← hfalse]

/-- A guard unlocks: it held its lock, and gives it back. -/
theorem Kept.unlock (h : s.Kept rw) {i : ℕ} {g : Guard T M} (hg : s.guards[i]? = some g) :
    (s.unlock i g).Kept rw := by
  by_cases hlocked : g.locked
  swap
  · rw [Locks.unlock, if_neg hlocked]
    exact h
  rw [Locks.unlock, if_pos hlocked]
  have hmem := List.mem_of_getElem? hg
  have halone (m t) := countP_set hg { g with locked := false } (alone m t)
  have hreading (m t) := countP_set hg { g with locked := false } (reading m t)
  have hfits : ∀ g₁ ∈ s.guards.set i { g with locked := false }, g₁.Fits rw := fun g₁ hg₁ => by
    rcases List.mem_or_eq_of_mem_set hg₁ with hold | rfl
    · exact h.fits g₁ hold
    · exact ⟨(h.fits g hmem).1, fun _ => rfl⟩
  by_cases hmode : g.mode = .read
  · have hreader := h.mem_readers_of_locked hmem hlocked hmode
    have hcount := List.count_pos_iff.mpr hreader
    have howner := h.owner_of_reader hreader
    rw [release, if_neg (by simp [howner]), if_pos hreader]
    refine ⟨fun m t => ?_, fun m t => ?_, fun m hne => ?_, fun m hm => ?_, hfits, h.fault⟩
    · have hput := halone m t
      simpa [alone, hmode, h.owner m t] using hput
    · have hput := hreading m t
      rw [h.readers m t] at hput
      rcases eq_or_ne m g.mutex with rfl | hm
      · rcases eq_or_ne t g.thread with rfl | ht
        · have hon : reading g.mutex g.thread g = true := by simp [reading, hlocked, hmode]
          rw [if_pos hon, if_neg (by simp [reading])] at hput
          simp only [put_readers, put_guards, Function.update_self, List.count_erase_self]
          omega
        · simp only [put_readers, Function.update_self, List.count_erase_of_ne ht]
          simpa [reading, ht.symm] using hput
      · simp only [put_readers, Function.update_of_ne hm]
        simpa [reading, hm.symm] using hput
    · rcases eq_or_ne m g.mutex with rfl | hm
      · exact absurd howner hne
      · exact (Function.update_of_ne hm ..).trans (h.apart m hne)
    · rcases eq_or_ne m g.mutex with rfl | hm'
      · simp [h.noReaders _ hm]
      · exact (Function.update_of_ne hm' ..).trans (h.noReaders m hm)
  · have howner := h.owner_of_locked hmem hlocked hmode
    rw [release, if_pos howner]
    refine ⟨fun m t => ?_, fun m t => ?_, fun m hne => ?_, h.noReaders, hfits, h.fault⟩
    · have hput := halone m t
      rw [h.owner m t] at hput
      rcases eq_or_ne m g.mutex with rfl | hm
      · rcases eq_or_ne g.thread t with rfl | ht
        · have hon : alone g.mutex g.thread g = true := by simp [alone, hlocked, hmode]
          rw [if_pos hon, if_pos howner, if_neg (by simp [alone])] at hput
          simp only [put_owner, put_guards, Function.update_self, reduceCtorEq, if_false]
          omega
        · simpa [alone, howner, ht] using hput
      · simp only [put_owner, Function.update_of_ne hm]
        simpa [alone, hm.symm] using hput
    · have hput := hreading m t
      simpa [reading, hmode, h.readers m t] using hput
    · rcases eq_or_ne m g.mutex with rfl | hm
      · simp at hne
      · exact h.apart m (by simpa [Function.update_of_ne hm] using hne)

theorem Kept.of_step (h : s.Kept rw) {a : Act T M} (hcareful : s.Careful a)
    (hs : s.step rw a = some s') : s'.Kept rw := by
  rw [step, h.fault, if_neg Bool.false_ne_true] at hs
  cases a with
  | construct t m mode =>
    obtain ⟨hrw, hs⟩ := Option.ite_none_right_eq_some.mp hs
    obtain ⟨s₁, hacquire, rfl⟩ := Option.map_eq_some_iff.mp hs
    have hguards : s₁.guards = s.guards := by cases acquired hacquire hcareful <;> rfl
    refine h.lock (acquired hacquire hcareful) hrw (fun p _ => ?_) fun g hg => ?_
    · rw [hguards, List.countP_append, List.countP_singleton]
    · rcases List.mem_append.mp hg with hold | hnew
      · exact h.fits g (hguards ▸ hold)
      · obtain rfl := List.mem_singleton.mp hnew
        exact ⟨hrw, nofun⟩
  | lock i =>
    simp only [stepDefined] at hs
    split at hs
    · rename_i g hg
      obtain ⟨⟨halive, hmode⟩, hs⟩ := Option.ite_none_right_eq_some.mp hs
      split at hs
      · obtain rfl := Option.some.inj hs
        exact h
      · rename_i hlocked
        obtain ⟨s₁, hacquire, rfl⟩ := Option.map_eq_some_iff.mp hs
        have ha := acquired hacquire (.inl rfl)
        have hguards : s₁.guards = s.guards := by cases ha; rfl
        have hrw := (h.fits g (List.mem_of_getElem? hg)).1
        have hput : ({ g with locked := true } : Guard T M) =
            ⟨g.thread, g.mutex, .exclusive, true, true⟩ := by rw [halive, hmode]
        rw [hmode] at hrw
        rw [hput]
        refine h.lock ha hrw (fun p hp => ?_) fun g₁ hg₁ => ?_
        · have hset := countP_set hg ⟨g.thread, g.mutex, .exclusive, true, true⟩ p
          rw [if_neg (by simpa using hp g (by simpa using hlocked))] at hset
          rw [hguards]
          exact hset
        · rcases List.mem_or_eq_of_mem_set hg₁ with hold | rfl
          · exact h.fits g₁ (hguards ▸ hold)
          · exact ⟨hrw, nofun⟩
    · exact absurd hs (Option.some_ne_none _).symm
  | unlock i =>
    simp only [stepDefined] at hs
    split at hs
    · rename_i g hg
      obtain ⟨-, hs⟩ := Option.ite_none_right_eq_some.mp hs
      obtain rfl := Option.some.inj hs
      exact h.unlock hg
    · exact absurd hs (Option.some_ne_none _).symm
  | destroy i =>
    simp only [stepDefined] at hs
    split at hs
    · rename_i g hg
      obtain ⟨-, hs⟩ := Option.ite_none_right_eq_some.mp hs
      obtain rfl := Option.some.inj hs
      exact (h.unlock hg).put (unlock_getElem? hg) rfl rfl rfl rfl
    · exact absurd hs (Option.some_ne_none _).symm

theorem kept_of_reachable (hr : Reachable (step rw) Careful init s) : s.Kept rw :=
  hr.invariant (P := Kept rw) kept_init fun _ _ _ h ha hs => h.of_step ha hs

/-! ### Exclusion -/

/-- Two locked guards of one lock are readers. -/
theorem Kept.readers_of_shared (h : s.Kept rw) {i j : ℕ} {g g' : Guard T M} (hij : i ≠ j)
    (hg : s.guards[i]? = some g) (hg' : s.guards[j]? = some g') (hlocked : g.locked = true)
    (hlocked' : g'.locked = true) (hmutex : g.mutex = g'.mutex) : g.mode = .read := by
  have hmem := List.mem_of_getElem? hg
  have hmem' := List.mem_of_getElem? hg'
  by_contra hmode
  have howner := h.owner_of_locked hmem hlocked hmode
  rw [hmutex] at howner
  by_cases hmode' : g'.mode = .read
  · have hnone := h.owner_of_reader (h.mem_readers_of_locked hmem' hlocked' hmode')
    rw [howner] at hnone
    cases hnone
  · have howner' := h.owner_of_locked hmem' hlocked' hmode'
    have hthread : g.thread = g'.thread := Option.some.inj (howner.symm.trans howner')
    -- Without `g`, no guard holds the lock alone; but `g'` does.
    have hset := countP_set hg { g with locked := false } (alone g'.mutex g'.thread)
    rw [h.owner, if_pos howner', if_pos (by simp [alone, hlocked, hmode, hmutex, hthread]),
      if_neg (by simp [alone])] at hset
    have hzero := List.countP_eq_zero.mp (Nat.succ.inj hset)
    refine hzero g' (List.mem_of_getElem? (i := j) ?_) (by simp [alone, hlocked', hmode'])
    rw [List.getElem?_set_ne hij, hg']

/-- Nobody owns a lock that no guard holds. -/
theorem Kept.owner_eq_none (h : s.Kept rw) {m : M}
    (hm : ∀ g ∈ s.guards, g.mutex = m → g.locked = false) : s.owner m = none := by
  refine Option.eq_none_iff_forall_ne_some.mpr fun t howner => ?_
  have hcount := h.owner m t
  rw [if_pos howner] at hcount
  obtain ⟨g, hg, hp⟩ := List.countP_pos_iff.mp (hcount ▸ Nat.one_pos)
  obtain ⟨⟨⟨hlocked, -⟩, hmutex⟩, -⟩ : ((g.locked = true ∧ g.mode ≠ .read) ∧ g.mutex = m) ∧
      g.thread = t := by simpa [alone] using hp
  rw [hm g hg hmutex] at hlocked
  cases hlocked

/-- Nobody reads under a lock that no guard holds. -/
theorem Kept.readers_eq_nil (h : s.Kept rw) {m : M}
    (hm : ∀ g ∈ s.guards, g.mutex = m → g.locked = false) : s.readers m = [] := by
  refine List.eq_nil_iff_forall_not_mem.mpr fun t ht => ?_
  rw [← List.count_pos_iff, ← h.readers] at ht
  obtain ⟨g, hg, hp⟩ := List.countP_pos_iff.mp ht
  obtain ⟨⟨⟨hlocked, -⟩, hmutex⟩, -⟩ : ((g.locked = true ∧ g.mode = .read) ∧ g.mutex = m) ∧
      g.thread = t := by simpa [reading] using hp
  rw [hm g hg hmutex] at hlocked
  cases hlocked

/-- **The guards exclude each other.** In every run of any number of threads in which no thread
locks a `RWMutex` again that it holds for writing: no guard unlocks what its thread does not hold,
whichever of `lock`, `unlock` and the destructor are called and however often. Two guards that
believe to hold the same lock are both readers. And a lock none of whose guards is both alive and
locked is free, so that destroying the guards is enough. -/
theorem guards_exclude (hr : Reachable (step rw) Careful init s) :
    s.fault = false ∧
      (∀ (i j : ℕ) (g g' : Guard T M), i ≠ j → s.guards[i]? = some g → s.guards[j]? = some g' →
        g.locked = true → g'.locked = true → g.mutex = g'.mutex →
          g.mode = .read ∧ g'.mode = .read) ∧
      ∀ m, (∀ g ∈ s.guards, g.mutex = m → g.alive = true → g.locked = false) →
        s.owner m = none ∧ s.readers m = [] := by
  have h := kept_of_reachable hr
  refine ⟨h.fault, fun i j g g' hij hg hg' hl hl' hm => ?_, fun m hm => ?_⟩
  · exact ⟨h.readers_of_shared hij hg hg' hl hl' hm,
      h.readers_of_shared hij.symm hg' hg hl' hl hm.symm⟩
  · have hunlocked : ∀ g ∈ s.guards, g.mutex = m → g.locked = false := fun g hg hgm => by
      cases halive : g.alive with
      | true => exact hm g hg hgm halive
      | false => exact (h.fits g hg).2 halive
    exact ⟨h.owner_eq_none hunlocked, h.readers_eq_nil hunlocked⟩

/-- A guard of a `Mutex` that is unlocked, locked again and destroyed, and two readers. -/
def sharedRun : List (Act Bool Bool) :=
  [.construct false false .exclusive, .unlock 0, .unlock 0, .lock 0, .construct false true .read,
   .construct true true .read, .lock 0, .destroy 0]

/-- The locks after it. -/
def sharedEnd : Locks Bool Bool :=
  (exec (step id) Careful init sharedRun).get (by decide)

theorem guards_exclude_sharedEnd :
    sharedEnd.fault = false ∧ sharedEnd.owner false = none ∧ sharedEnd.readers false = [] := by
  have hr : Reachable (step id) Careful init sharedEnd := reachable_get _
  have h := guards_exclude hr
  exact ⟨h.1, h.2.2 false (by decide)⟩

end Locks

end Mutex

end Wille
