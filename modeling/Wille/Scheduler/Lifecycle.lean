import Mathlib.Data.List.Count
import Mathlib.Data.List.Range
import Wille.ForMathlib.Counting
import Wille.ForMathlib.TransitionSystem
import Wille.Scheduler.Basic

/-!
# Starting and stopping a scheduler

The constructor, `start` and `stop` of `scheduler.cpp`, called by any number of threads in any
order. `start` holds `m_mutex` all the time and is one step. `stop` takes it only to swap
`m_threads` out; its stores to the two flags, its look at the root fiber and each of its calls of
`join` are steps of their own.

The threads that `start` creates are numbered. What they do is the subject of the model of
`Scheduler::run`; here it matters only that their `run` returns at some time.

## What the model keeps

* `start` can fail to create a thread. `Thread`'s constructor throws, and `m_threads` keeps null
  pointers from there on. That the constructor throws because `sem_wait` fails, when the thread is
  already there, is left out.
* What `stopping` answers is a choice, but it is false unless both flags are set.
* When the root fiber is entered, `run` runs on the calling thread until the root fiber has ended.

## Main definitions

* `StopPc`, `LifeFault`, `Life`, `LifeAct`, `Life.step`
* `Life.Kept` — where each thread is

## Main results

* `Life.joined_once` — every thread is joined by one call of `stop`, once, and when `start` can fail
-/

namespace Wille

namespace Scheduler

open TransitionSystem Counting

/-- Where a thread stands in a call of `stop`. -/
inductive StopPc where
  /-- In no call. -/
  | outside
  /-- `m_autoStop` is set; about to look whether there is anything to stop. -/
  | begun
  /-- In the short cut, with `m_stopping` set; about to call `stopping`. -/
  | shortCut
  /-- About to check `GetThis`, and to set `m_stopping`. -/
  | checking
  /-- `m_stopping` is set; about to look at the root fiber. -/
  | flagged
  /-- In the root fiber. -/
  | inRoot
  /-- About to swap `m_threads`. -/
  | swapping
  /-- About to join these threads. -/
  | joining (thrs : List (Option ℕ))

/-- How often a caller is about to join this thread. -/
def StopPc.holds (i : ℕ) : StopPc → ℕ
  | .joining thrs => thrs.count (some i)
  | _ => 0

theorem StopPc.holds_joining (i : ℕ) (thrs : List (Option ℕ)) :
    (StopPc.joining thrs).holds i = thrs.count (some i) := rfl

theorem StopPc.holds_swapping (i : ℕ) : StopPc.swapping.holds i = 0 := rfl

/-- Between setting `m_stopping` and swapping `m_threads`. -/
def StopPc.Between : StopPc → Prop
  | .flagged | .inRoot | .swapping => True
  | _ => False

/-- How a call can end the program. -/
inductive LifeFault where
  /-- `WILLE_ASSERT(m_threads.empty())` in `start` -/
  | threads
  /-- `WILLE_ASSERT(GetThis() == this)` or `WILLE_ASSERT(GetThis() != this)` in `stop` -/
  | getThis
  /-- `WILLE_ASSERT(m_state != EXEC)` in `swapIn` of the root fiber -/
  | swapIn
  /-- The root fiber is entered after its end. -/
  | ended
  /-- `join` on a null pointer -/
  | null
  deriving DecidableEq

/-- A scheduler and the threads `T` that call `start` and `stop`. -/
structure Life (T : Type*) where
  /-- `m_stopping` -/
  isStopping : Bool
  /-- `m_autoStop` -/
  autoStop : Bool
  /-- `m_threads` -/
  threads : List (Option ℕ)
  /-- `m_threadIds`, without the id of the root thread -/
  threadIds : List ℕ
  /-- The state of `m_rootFiber`. -/
  root : Option Fiber.State
  /-- How many threads there have been. -/
  created : ℕ
  /-- `run` has returned in this thread. -/
  exited : ℕ → Bool
  /-- The threads that have been joined, in order. -/
  joined : List ℕ
  /-- Where each calling thread stands. -/
  pc : T → StopPc
  /-- How the program has ended. -/
  fault : Option LifeFault

/-- The steps. -/
inductive LifeAct (T : Type*) where
  /-- `start`, in which this many threads can be created. -/
  | start (t : T) (possible : ℕ)
  /-- `stop` begins. -/
  | stop (t : T)
  /-- `stop` looks whether it can take the short cut. -/
  | look (t : T)
  /-- `stopping` in the short cut. -/
  | askShort (t : T) (answer : Bool)
  /-- `stop` checks `GetThis`. -/
  | check (t : T)
  /-- `stop` looks at the root fiber; what `stopping` answers. -/
  | askRoot (t : T) (answer : Bool)
  /-- The root fiber has ended. -/
  | rootEnds (t : T)
  /-- `stop` swaps `m_threads`. -/
  | swap (t : T)
  /-- `stop` joins the next thread, or returns. -/
  | join (t : T)
  /-- `run` returns in a thread. -/
  | exit (i : ℕ)

namespace Life

variable {T : Type*}

/-- The constructor: with `use_caller` there is a root fiber. -/
def init (use_caller : Bool) : Life T where
  isStopping := true
  autoStop := false
  threads := []
  threadIds := []
  root := if use_caller then some .INIT else none
  created := 0
  exited := fun _ => false
  joined := []
  pc := fun _ => .outside
  fault := none

section Step

variable [DecidableEq T] (threadCount : ℕ) (getThis : T → Bool) (s : Life T)

/-- A caller goes on. -/
def goto (t : T) (p : StopPc) : Life T := { s with pc := Function.update s.pc t p }

/-- The program ends. -/
def fail (f : LifeFault) : Life T := { s with fault := some f }

/-- `Scheduler::start` -/
def start (possible : ℕ) : Life T :=
  if !s.isStopping then s
  else if s.threads ≠ [] then { s with isStopping := false }.fail .threads
  else
    let made := List.range' s.created (min threadCount possible)
    { s with
      isStopping := false
      threads := made.map some ++ List.replicate (threadCount - made.length) none
      threadIds := s.threadIds ++ made
      created := s.created + made.length }

/-- The test at the beginning of `Scheduler::stop`. -/
def shortCut : Bool := threadCount = 0 ∧ (s.root = some .TERM ∨ s.root = some .INIT)

/-- The step of `stop` that looks at the root fiber. -/
def askRoot (t : T) (answer : Bool) : Life T :=
  match s.root with
  | none => s.goto t .swapping
  | some st =>
    if answer then s.goto t .swapping
    else if st = .EXEC then s.fail .swapIn
    else if st.termOrExcept then s.fail .ended
    else { s with root := some .EXEC }.goto t .inRoot

/-- One step, in a program that is still running. -/
def stepRunning : LifeAct T → Option (Life T)
  | .start t possible =>
    match s.pc t with
    | .outside => some (s.start threadCount possible)
    | _ => none
  | .stop t =>
    match s.pc t with
    | .outside => some ({ s with autoStop := true }.goto t .begun)
    | _ => none
  | .look t =>
    match s.pc t with
    | .begun =>
      some (if s.shortCut threadCount then { s with isStopping := true }.goto t .shortCut
        else s.goto t .checking)
    | _ => none
  | .askShort t answer =>
    match s.pc t with
    | .shortCut =>
      if answer && !(s.autoStop && s.isStopping) then none
      else some (s.goto t (if answer then .outside else .checking))
    | _ => none
  | .check t =>
    match s.pc t with
    | .checking =>
      -- `m_rootThread` is -1 without a root fiber.
      some (if getThis t = s.root.isSome then { s with isStopping := true }.goto t .flagged
        else s.fail .getThis)
    | _ => none
  | .askRoot t answer =>
    match s.pc t with
    | .flagged =>
      if answer && !(s.autoStop && s.isStopping) then none else some (s.askRoot t answer)
    | _ => none
  | .rootEnds t =>
    match s.pc t with
    | .inRoot => some ({ s with root := some .TERM }.goto t .swapping)
    | _ => none
  | .swap t =>
    match s.pc t with
    | .swapping => some ({ s with threads := [] }.goto t (.joining s.threads))
    | _ => none
  | .join t =>
    match s.pc t with
    | .joining [] => some (s.goto t .outside)
    | .joining (none :: _) => some (s.fail .null)
    | .joining (some i :: thrs) =>
      if s.exited i then some ({ s with joined := s.joined ++ [i] }.goto t (.joining thrs))
      else none
    | _ => none
  | .exit i =>
    if i < s.created then some { s with exited := Function.update s.exited i true } else none

/-- One step. A program that has ended makes none. -/
def step (a : LifeAct T) : Option (Life T) :=
  if s.fault.isSome then none else s.stepRunning threadCount getThis a

end Step

/-! ### Where each thread is -/

section Kept

variable [Fintype T] {threadCount : ℕ} {getThis : T → Bool} {s s' : Life T}

/-- What every step keeps. -/
structure Kept (threadCount : ℕ) (s : Life T) : Prop where
  /-- Each thread is in one place, once. -/
  once : ∀ i, s.joined.count i + s.threads.count (some i) + ∑ t, (s.pc t).holds i
    = if i < s.created then 1 else 0
  /-- Only threads whose `run` has returned are joined. -/
  exited : ∀ i ∈ s.joined, s.exited i = true
  ids : s.threadIds = List.range s.created
  size : s.threads.length ≤ threadCount
  /-- While `m_stopping` is set, there are threads only until a call of `stop` takes them. -/
  between : s.isStopping = true → s.threads ≠ [] → ∃ t, (s.pc t).Between

theorem kept_init (use_caller : Bool) : (init use_caller : Life T).Kept threadCount := by
  refine ⟨fun i => ?_, by simp [init], by simp [init], by simp [init], by simp [init]⟩
  simp [init, StopPc.holds]

variable [DecidableEq T]

/-- A caller goes on, with no thread in its hands before or after. -/
theorem Kept.goto (h : s.Kept threadCount) {t : T} {p p' : StopPc} (hpc : s.pc t = p)
    (hpc' : s'.pc = Function.update s.pc t p') (hholds : ∀ i, p'.holds i = p.holds i)
    (hbetween : s'.isStopping = true → s.threads ≠ [] →
      p'.Between ∨ (s.isStopping = true ∧ ¬p.Between))
    (hthreads : s'.threads = s.threads := by rfl) (hids : s'.threadIds = s.threadIds := by rfl)
    (hcreated : s'.created = s.created := by rfl) (hexited : s'.exited = s.exited := by rfl)
    (hjoined : s'.joined = s.joined := by rfl) : s'.Kept threadCount := by
  refine ⟨fun i => ?_, ?_, ?_, ?_, fun hstop hne => ?_⟩
  · have hsum := sum_update_add (StopPc.holds i) s.pc t p'
    rw [← hpc', hpc, hholds i] at hsum
    rw [hjoined, hthreads, hcreated, ← h.once i]
    omega
  · rw [hjoined, hexited]
    exact h.exited
  · rw [hids, hcreated]
    exact h.ids
  · rw [hthreads]
    exact h.size
  · rw [hthreads] at hne
    rcases hbetween hstop hne with hp' | ⟨hold, hp⟩
    · exact ⟨t, by rwa [hpc', Function.update_self]⟩
    · obtain ⟨u, hu⟩ := h.between hold hne
      have hut : u ≠ t := by
        rintro rfl
        exact hp (hpc ▸ hu)
      exact ⟨u, by rwa [hpc', Function.update_of_ne hut]⟩

omit [DecidableEq T] in
theorem Kept.fail (h : s.Kept threadCount) (f : LifeFault) : (s.fail f).Kept threadCount :=
  ⟨h.once, h.exited, h.ids, h.size, h.between⟩

omit [Fintype T] [DecidableEq T] in
theorem count_map_some (l : List ℕ) (i : ℕ) : (l.map some).count (some i) = l.count i :=
  List.count_map_of_injective l some (Option.some_injective ℕ) i

omit [Fintype T] [DecidableEq T] in
theorem count_range' (m n i : ℕ) :
    (List.range' m n).count i = if m ≤ i ∧ i < m + n then 1 else 0 := by
  rw [List.Nodup.count List.nodup_range']
  simp only [List.mem_range'_1]

omit [DecidableEq T] in
theorem Kept.start (h : s.Kept threadCount) (possible : ℕ) :
    (s.start threadCount possible).Kept threadCount := by
  unfold Life.start
  split_ifs with hstop hthreads
  · exact h
  · exact ⟨h.once, h.exited, h.ids, h.size, fun hfalse => absurd hfalse (by simp [Life.fail])⟩
  · have hnil : s.threads = [] := by simpa using hthreads
    refine ⟨fun i => ?_, h.exited, ?_, ?_, by simp⟩
    · have hi := h.once i
      rw [hnil, List.count_nil, Nat.add_zero] at hi
      dsimp only
      rw [List.count_append, List.count_replicate, count_map_some, count_range']
      simp only [List.length_range', reduceCtorEq, beq_iff_eq, if_false]
      split_ifs at hi ⊢ <;> omega
    · dsimp only
      rw [h.ids, List.length_range', List.range_eq_range', List.range_eq_range',
        ← List.range'_append_1, Nat.zero_add]
    · dsimp only
      rw [List.length_append, List.length_map, List.length_replicate, List.length_range']
      omega

/-- **The step lemma.** -/
theorem Kept.of_step (h : s.Kept threadCount) {a : LifeAct T}
    (hs : s.step threadCount getThis a = some s') : s'.Kept threadCount := by
  rw [step, Option.ite_none_left_eq_some] at hs
  obtain ⟨-, hs⟩ := hs
  cases a with
  | start t possible =>
    simp only [stepRunning] at hs
    split at hs
    · obtain rfl := Option.some.inj hs
      exact h.start possible
    · exact absurd hs (Option.some_ne_none _).symm
  | stop t =>
    simp only [stepRunning] at hs
    split at hs
    · rename_i hpc
      obtain rfl := Option.some.inj hs
      exact h.goto hpc rfl (fun _ => rfl) fun hstop _ => .inr ⟨hstop, id⟩
    · exact absurd hs (Option.some_ne_none _).symm
  | look t =>
    simp only [stepRunning] at hs
    split at hs
    · rename_i hpc
      obtain rfl := Option.some.inj hs
      split_ifs with hshort
      · -- There is nothing to join with no thread but the caller.
        refine h.goto hpc rfl (fun _ => rfl) fun _ hne => ?_
        simp only [shortCut, decide_eq_true_eq] at hshort
        exact absurd (List.length_eq_zero_iff.mp (by have := h.size; omega)) hne
      · exact h.goto hpc rfl (fun _ => rfl) fun hstop _ => .inr ⟨hstop, id⟩
    · exact absurd hs (Option.some_ne_none _).symm
  | askShort t answer =>
    simp only [stepRunning] at hs
    split at hs
    · rename_i hpc
      obtain ⟨-, hs⟩ := Option.ite_none_left_eq_some.mp hs
      obtain rfl := Option.some.inj hs
      cases answer <;> exact h.goto hpc rfl (fun _ => rfl) fun hstop _ => .inr ⟨hstop, id⟩
    · exact absurd hs (Option.some_ne_none _).symm
  | check t =>
    simp only [stepRunning] at hs
    split at hs
    · rename_i hpc
      obtain rfl := Option.some.inj hs
      split_ifs
      · exact h.goto hpc rfl (fun _ => rfl) fun _ _ => .inl trivial
      · exact h.fail _
    · exact absurd hs (Option.some_ne_none _).symm
  | askRoot t answer =>
    simp only [stepRunning] at hs
    split at hs
    · rename_i hpc
      obtain ⟨-, hs⟩ := Option.ite_none_left_eq_some.mp hs
      obtain rfl := Option.some.inj hs
      unfold Life.askRoot
      split
      · exact h.goto hpc rfl (fun _ => rfl) fun _ _ => .inl trivial
      · split_ifs
        · exact h.goto hpc rfl (fun _ => rfl) fun _ _ => .inl trivial
        · exact h.fail _
        · exact h.fail _
        · exact h.goto hpc rfl (fun _ => rfl) fun _ _ => .inl trivial
    · exact absurd hs (Option.some_ne_none _).symm
  | rootEnds t =>
    simp only [stepRunning] at hs
    split at hs
    · rename_i hpc
      obtain rfl := Option.some.inj hs
      exact h.goto hpc rfl (fun _ => rfl) fun _ _ => .inl trivial
    · exact absurd hs (Option.some_ne_none _).symm
  | swap t =>
    simp only [stepRunning] at hs
    split at hs
    · rename_i hpc
      obtain rfl := Option.some.inj hs
      refine ⟨fun i => ?_, h.exited, h.ids, Nat.zero_le _, fun _ hne => absurd rfl hne⟩
      have hsum := sum_update_add (StopPc.holds i) s.pc t (.joining s.threads)
      rw [hpc, StopPc.holds_joining, StopPc.holds_swapping] at hsum
      refine Eq.trans ?_ (h.once i)
      simp only [Life.goto, List.count_nil]
      omega
    · exact absurd hs (Option.some_ne_none _).symm
  | join t =>
    simp only [stepRunning] at hs
    split at hs
    · rename_i hpc
      obtain rfl := Option.some.inj hs
      exact h.goto hpc rfl (fun _ => rfl) fun hstop _ => .inr ⟨hstop, id⟩
    · obtain rfl := Option.some.inj hs
      exact h.fail _
    · rename_i j thrs hpc
      split at hs
      · rename_i hexited
        obtain rfl := Option.some.inj hs
        refine ⟨fun i => ?_, ?_, h.ids, h.size, fun hstop hne => ?_⟩
        · have hsum := sum_update_add (StopPc.holds i) s.pc t (.joining thrs)
          rw [hpc, StopPc.holds_joining, StopPc.holds_joining, List.count_cons] at hsum
          have hij : (some j == some i) = (j == i) := rfl
          rw [hij] at hsum
          refine Eq.trans ?_ (h.once i)
          simp only [Life.goto, List.count_append, List.count_singleton]
          omega
        · intro i hi
          rcases List.mem_append.mp hi with hold | hnew
          · exact h.exited i hold
          · obtain rfl := List.mem_singleton.mp hnew
            exact hexited
        · obtain ⟨u, hu⟩ := h.between hstop hne
          have hut : u ≠ t := by
            rintro rfl
            rw [hpc] at hu
            exact hu
          exact ⟨u, by simpa [Life.goto, Function.update_of_ne hut] using hu⟩
      · exact absurd hs (Option.some_ne_none _).symm
    · exact absurd hs (Option.some_ne_none _).symm
  | exit i =>
    obtain ⟨-, hs⟩ := Option.ite_none_right_eq_some.mp hs
    obtain rfl := Option.some.inj hs
    refine ⟨h.once, fun j hj => ?_, h.ids, h.size, h.between⟩
    rcases eq_or_ne j i with rfl | hne
    · exact Function.update_self ..
    · exact (Function.update_of_ne hne ..).trans (h.exited j hj)

theorem kept_of_reachable {use_caller : Bool}
    (hr : Reachable (step threadCount getThis) anyAction (init use_caller) s) :
    s.Kept threadCount :=
  hr.invariant (P := Kept threadCount) (kept_init use_caller) fun _ _ _ h _ hs => h.of_step hs

omit [DecidableEq T] in
/-- A thread is in the hands of a caller exactly when one counts it. -/
theorem sum_holds_pos_iff (i : ℕ) : 0 < ∑ t, (s.pc t).holds i ↔
    ∃ t thrs, s.pc t = .joining thrs ∧ some i ∈ thrs := by
  rw [Nat.pos_iff_ne_zero, Ne, sum_eq_zero_iff_forall (StopPc.holds i) s.pc, not_forall]
  refine exists_congr fun t => ?_
  cases hpc : s.pc t with
  | joining thrs => simp [StopPc.holds, List.count_eq_zero]
  | _ => simp [StopPc.holds]

/-- **Every thread is joined once.** For any number of threads that call `start` and `stop`, in any
order and at the same time: each thread that `start` has created is joined, or in `m_threads`, or
in the hands of one call of `stop`, and there once; only threads whose `run` has returned are
joined. When `m_stopping` is set and no call of `stop` is under way, all have been joined. And the
assertion of `start` fails only while another call stands between setting `m_stopping` and swapping
`m_threads`. -/
theorem joined_once {use_caller : Bool}
    (hr : Reachable (step threadCount getThis) anyAction (init use_caller) s) :
    (∀ i < s.created, ExactlyOne (i ∈ s.joined) (some i ∈ s.threads)
      (∃ t thrs, s.pc t = .joining thrs ∧ some i ∈ thrs)) ∧
    s.joined.Nodup ∧ (∀ i ∈ s.joined, s.exited i = true) ∧
    (s.isStopping = true → (∀ t, s.pc t = .outside) → ∀ i < s.created, i ∈ s.joined) ∧
    ∀ t possible s', s.step threadCount getThis (.start t possible) = some s' →
      s'.fault = some .threads → ∃ u, (s.pc u).Between := by
  have h := kept_of_reachable hr
  have hplace : ∀ i < s.created, ExactlyOne (i ∈ s.joined) (some i ∈ s.threads)
      (∃ t thrs, s.pc t = .joining thrs ∧ some i ∈ thrs) := fun i hi => by
    refine (ExactlyOne.of_add_eq_one ((h.once i).trans (if_pos hi))).congr List.count_pos_iff
      List.count_pos_iff (sum_holds_pos_iff i)
  refine ⟨hplace, ?_, h.exited, fun hstop hout i hi => ?_, fun t possible s' hs hfault => ?_⟩
  · rw [List.nodup_iff_count_le_one]
    intro i
    have hi := h.once i
    split_ifs at hi <;> omega
  · have hnil : s.threads = [] := by
      by_contra hne
      obtain ⟨t, ht⟩ := h.between hstop hne
      rw [hout t] at ht
      exact ht
    rcases hplace i hi with ⟨hj, -, -⟩ | ⟨-, hthreads, -⟩ | ⟨-, -, t, thrs, hpc, -⟩
    · exact hj
    · rw [hnil] at hthreads
      exact absurd hthreads List.not_mem_nil
    · rw [hout t] at hpc
      cases hpc
  · rw [step, Option.ite_none_left_eq_some] at hs
    obtain ⟨hnone, hs⟩ := hs
    simp only [stepRunning] at hs
    split at hs
    · obtain rfl := Option.some.inj hs
      unfold Life.start at hfault
      split_ifs at hfault with hstop hthreads
      · exact absurd (by rw [hfault]; rfl) hnone
      · exact h.between (by simpa using hstop) hthreads
      · exact absurd (by rw [hfault]; rfl) hnone
    · exact absurd hs (Option.some_ne_none _).symm

end Kept

/-- Two threads are started and stopped, and after a restart a second call of `stop` comes in
between. -/
def restartRun : List (LifeAct Bool) :=
  [.start true 2, .stop true, .look true, .check true, .askRoot true false, .swap true, .exit 0,
   .exit 1, .join true, .join true, .join true, .start true 2, .stop true, .stop false, .look true,
   .look false, .check true, .check false, .askRoot false false, .swap false, .askRoot true false,
   .swap true, .join true, .exit 2, .exit 3, .join false, .join false, .join false]

/-- Where that run ends. -/
def restartEnd : Life Bool :=
  (exec (step 2 fun _ => false) anyAction (init false) restartRun).get (by decide)

theorem joined_once_restartEnd : 0 ∈ restartEnd.joined ∧ 3 ∈ restartEnd.joined := by
  have hr : Reachable (step 2 fun _ => false) anyAction (init false) restartEnd := reachable_get _
  have h := (joined_once hr).2.2.2.1 (by decide) (by rintro (_ | _) <;> rfl)
  exact ⟨h 0 (by decide), h 3 (by decide)⟩

end Life

end Scheduler

end Wille
