import Wille.ForMathlib.TransitionSystem
import Wille.Scheduler.Basic
import Mathlib.Tactic.Common

/-!
# What one step of a scheduler can do

Most steps of a worker only take it from one place in `run` to the next. These are the `Moves`;
each of the others has a case of its own in `Effect`. All invariants of the workers are proved
over these cases.

## Main definitions

* `Eligible`, `Sys.Takes` — the tasks a worker may take, and the ones it does
* `Moves`, `Woken`, `Effect` — what one step can do
* `Sys.Bounded` — every fiber that is mentioned has been created

## Main results

* `Sys.scan_cases`, `Sys.scheduleRange_spec` — the sections under the mutex
* `Sys.effect_of_step`
* `Sys.bounded`
-/

namespace Wille

namespace Scheduler

open TransitionSystem

variable {W Cb : Type*}

/-- The task may run on this worker. -/
def Eligible (tid : W → ℤ) (w : W) (t : Task Cb) : Prop := t.thread = -1 ∨ t.thread = tid w

instance (tid : W → ℤ) (w : W) (t : Task Cb) : Decidable (Eligible tid w t) :=
  inferInstanceAs (Decidable (_ ∨ _))

/-- The fiber a worker is concerned with. -/
def Pc.fiber : Pc Cb → Option ℕ
  | .picked tk | .counted tk | .tickling tk | .dispatch tk => tk.fiber
  | .enter f _ | .body f _ | .leave f _ | .back f _ | .done f _ | .notReady f _ | .requeue f _
  | .hold f _ | .finish f => some f
  | _ => none

namespace Sys

variable {k : Kind} {tid : W → ℤ} {s s' : Sys W Cb}

/-- The fiber of the task is executing. -/
def Executing (s : Sys W Cb) (t : Task Cb) : Prop := t.fiber.map s.state = some .EXEC

instance (s : Sys W Cb) (t : Task Cb) : Decidable (s.Executing t) :=
  inferInstanceAs (Decidable (_ = _))

/-- The search of this worker stops at the task. -/
def Takes (tid : W → ℤ) (s : Sys W Cb) (w : W) (t : Task Cb) : Prop :=
  Eligible tid w t ∧ ¬s.Executing t

/-! ### The sections under the mutex -/

/-- **The search** takes the first task it may take. -/
theorem scan_cases (w : W) (l : List (Task Cb)) :
    s.scan tid w l = .error .emptyTask ∨
    (s.scan tid w l = .ok none ∧ ∀ t ∈ l, ¬Takes tid s w t) ∨
    ∃ t l₁ l₂, s.scan tid w l = .ok (some (t, l₁ ++ l₂)) ∧ l = l₁ ++ t :: l₂ ∧ Takes tid s w t ∧
      ∀ u ∈ l₁, ¬Takes tid s w u := by
  induction l with
  | nil => exact Or.inr (Or.inl ⟨rfl, fun t ht => absurd ht List.not_mem_nil⟩)
  | cons t rest ih =>
    have hskip : ¬Takes tid s w t → s.scan tid w (t :: rest)
        = (s.scan tid w rest).map (fun r => r.map fun x => (x.1, t :: x.2)) →
      s.scan tid w (t :: rest) = .error .emptyTask ∨
      (s.scan tid w (t :: rest) = .ok none ∧ ∀ u ∈ t :: rest, ¬Takes tid s w u) ∨
      ∃ u l₁ l₂, s.scan tid w (t :: rest) = .ok (some (u, l₁ ++ l₂)) ∧
        t :: rest = l₁ ++ u :: l₂ ∧ Takes tid s w u ∧ ∀ v ∈ l₁, ¬Takes tid s w v := by
      intro ht heq
      rw [heq]
      rcases ih with h | ⟨h, hnone⟩ | ⟨u, l₁, l₂, h, rfl, hu, hfirst⟩ <;> rw [h]
      · exact Or.inl rfl
      · exact Or.inr (Or.inl ⟨rfl, List.forall_mem_cons.mpr ⟨ht, hnone⟩⟩)
      · exact Or.inr (Or.inr ⟨u, t :: l₁, l₂, rfl, rfl, hu,
          List.forall_mem_cons.mpr ⟨ht, hfirst⟩⟩)
    by_cases hthread : t.thread ≠ -1 ∧ t.thread ≠ tid w
    · exact hskip (fun h => h.1.elim hthread.1 hthread.2) (by rw [scan, if_pos hthread])
    by_cases hempty : t.fiber.isNone && t.cb.isNone
    · exact Or.inl (by rw [scan, if_neg hthread, if_pos hempty])
    by_cases hexec : t.fiber.map s.state = some .EXEC
    · exact hskip (fun h => h.2 hexec) (by rw [scan, if_neg hthread, if_neg hempty, if_pos hexec])
    refine Or.inr (Or.inr ⟨t, [], rest, ?_, rfl, ⟨?_, hexec⟩, fun u hu => absurd hu
      List.not_mem_nil⟩)
    · rw [scan, if_neg hthread, if_neg hempty, if_neg hexec]
      rfl
    · by_contra h
      exact hthread (not_or.mp h)

/-- What a call of `schedule` puts at the end of the queue. -/
def pushed (ts : List (Task Cb)) : List (Task Cb) :=
  ts.filter fun t => t.fiber.isSome || t.cb.isSome

theorem scheduleNoLock_spec (tasks : List (Task Cb)) (t : Task Cb) :
    scheduleNoLock tasks t = (tasks.isEmpty, tasks ++ pushed [t]) := by
  cases h : (t.fiber.isSome || t.cb.isSome) <;> simp [scheduleNoLock, pushed, h]

/-- A range of tasks ends up in the queue in order, and `tickle` is called if the queue was empty
and there is anything in the range. -/
theorem scheduleRange_spec (ts : List (Task Cb)) : ∀ (need : Bool) (tasks : List (Task Cb)),
    scheduleRange need tasks ts =
      ((scheduleRange need tasks ts).1,
        tasks ++ pushed (ts.map fun t => { t with thread := -1 })) ∧
    ((scheduleRange need tasks ts).1 = false → need = false ∧ (tasks = [] → ts = [])) := by
  induction ts with
  | nil => exact fun need tasks => ⟨by simp [scheduleRange, pushed], fun h => ⟨h, fun _ => rfl⟩⟩
  | cons t ts ih =>
    intro need tasks
    obtain ⟨hqueue, hneed⟩ := ih (tasks.isEmpty || need)
      (tasks ++ pushed [{ t with thread := -1 }])
    rw [scheduleRange, scheduleNoLock_spec]
    refine ⟨Prod.ext rfl ?_, fun h => ?_⟩
    · rw [hqueue, List.append_assoc]
      simp only [pushed, List.map_cons, ← List.filter_append, List.singleton_append]
    · obtain ⟨hor, -⟩ := hneed h
      rw [Bool.or_eq_false_iff] at hor
      refine ⟨hor.2, fun hnil => ?_⟩
      rw [hnil] at hor
      exact absurd hor.1 (by simp)


end Sys

/-- The tasks a call of `schedule` is given. -/
def Act.tasks : Act W Cb → List (Task Cb)
  | .schedule t => [t]
  | .scheduleRange ts => ts.map fun t => { t with thread := -1 }
  | _ => []

/-! ### The cases -/

/-- A step of a worker that changes nothing but its place. -/
inductive Moves (s : Sys W Cb) (w : W) : Pc Cb → Pc Cb → Prop where
  | tickling (tk : Task Cb) : Moves s w (.counted tk) (.tickling tk)
  | enter {tk : Task Cb} {f : ℕ} (hf : tk.fiber = some f) :
      Moves s w (.dispatch tk) (.enter f false)
  | prepare (tk : Task Cb) (cb : Cb) : Moves s w (.dispatch tk) (.prepare cb)
  | drop (tk : Task Cb) : Moves s w (.dispatch tk) .drop
  | back (f : ℕ) (own : Bool) : Moves s w (.leave f own) (.back f own)
  | requeue {f : ℕ} (own : Bool) (hst : s.state f = .READY) :
      Moves s w (.done f own) (.requeue f own)
  | notReady (f : ℕ) (own : Bool) : Moves s w (.done f own) (.notReady f own)
  | finish (f : ℕ) : Moves s w (.notReady f true) (.finish f)
  | ended (f : ℕ) : Moves s w (.notReady f false) .scan
  | hold (f : ℕ) (own : Bool) : Moves s w (.notReady f own) (.hold f own)
  | rewrite : Moves s w .retickle .rewrite
  | exited : Moves s w .noTask .exited
  | asked (noTimer : Bool) : Moves s w .idleBody (.asked noTimer)
  | quiet (noTimer : Bool) (hs : s.stopping = true) : Moves s w (.asked noTimer) .quiet
  | waiting (noTimer : Bool) : Moves s w (.asked noTimer) .waiting
  | pending : Moves s w .quiet .waiting
  | blocked (hpipe : s.unreported = false) : Moves s w .waiting .blocked
  | awake : Moves s w .blocked (.awake false)

/-- A test of `hasIdleThreads` in a `tickle` of a worker. -/
inductive AfterTickle : Pc Cb → Pc Cb → Prop where
  | counted (tk : Task Cb) : AfterTickle (.counted tk) (.dispatch tk)
  | retickle : AfterTickle .retickle .scan

/-- A write to the pipe in a `tickle` of a worker. -/
inductive AfterWrite : Pc Cb → Pc Cb → Prop where
  | tickling (tk : Task Cb) : AfterWrite (.tickling tk) (.dispatch tk)
  | rewrite : AfterWrite .rewrite .scan

/-- A decrement of `m_activeThreadCount`. -/
inductive AfterTask : Pc Cb → Pc Cb → Prop where
  | back (f : ℕ) (own : Bool) : AfterTask (.back f own) (.done f own)
  | drop : AfterTask .drop .scan

/-- An end of the idle fiber's turn after which its state is stored. -/
def Pc.InIdle : Pc Cb → Prop
  | .idleBody | .quiet => True
  | _ => False

section Step

variable [DecidableEq W]

/-- What a byte does. -/
inductive Woken (s : Sys W Cb) : Option W → Sys W Cb → Prop where
  | reader {x : W} (hx : s.pc x = .blocked) : Woken s (some x) (s.goto x (.awake true))
  | pipe (hnone : ∀ w, (s.pc w).isBlocked = false) : Woken s none { s with unreported := true }

/-- How a step ends the program. -/
inductive Fails (s : Sys W Cb) : Fault → Prop where
  | enter {w : W} {f : ℕ} {own : Bool} (hpc : s.pc w = .enter f own) (hst : s.state f = .EXEC) :
      Fails s .swapIn
  | idleEnter {w : W} (hpc : s.pc w = .idleEnter) (hst : s.idleFiber w = .EXEC) : Fails s .swapIn
  | other {f : Fault} (hf : f ≠ .swapIn) : Fails s f

/-- What one step can do, one case for each way. -/
inductive Effect (k : Kind) (tid : W → ℤ) (s : Sys W Cb) : Act W Cb → Sys W Cb → Prop where
  | move {a : Act W Cb} {w : W} {p p' : Pc Cb} (hpc : s.pc w = p) (hm : Moves s w p p') :
      Effect k tid s a (s.goto w p')
  | miss {w : W} (hpc : s.pc w = .scan) (hnone : ∀ t ∈ s.tasks, ¬s.Takes tid w t) :
      Effect k tid s (.run w) (s.goto w .noTask)
  | pick {w : W} {t : Task Cb} {l₁ l₂ : List (Task Cb)} (hpc : s.pc w = .scan)
      (hscan : s.scan tid w s.tasks = .ok (some (t, l₁ ++ l₂))) (htasks : s.tasks = l₁ ++ t :: l₂)
      (ht : s.Takes tid w t) :
      Effect k tid s (.run w) ({ s with tasks := l₁ ++ l₂ }.goto w (.picked t))
  | count {w : W} {tk : Task Cb} (hpc : s.pc w = .picked tk) :
      Effect k tid s (.run w) ({ s with active := s.active + 1 }.goto w (.counted tk))
  | uncount {w : W} {p p' : Pc Cb} (hpc : s.pc w = p) (hp : AfterTask p p') :
      Effect k tid s (.run w) ({ s with active := s.active - 1 }.goto w p')
  | deaf {w : W} {p p' : Pc Cb} (hpc : s.pc w = p) (hp : AfterTickle p p')
      (hidle : s.tickles k = false) : Effect k tid s (.run w) (s.goto w p')
  | reuse {w : W} {cb : Cb} {f : ℕ} (hpc : s.pc w = .prepare cb) (hown : s.cbFiber w = some f)
      (hst : (s.state f).resettable) :
      Effect k tid s (.run w) ((s.setState f .INIT).goto w (.enter f true))
  | create {w : W} {cb : Cb} (hpc : s.pc w = .prepare cb) (hown : s.cbFiber w = none) :
      Effect k tid s (.run w) ({ s.newFiber with
        cbFiber := Function.update s.cbFiber w (some s.created) }.goto w (.enter s.created true))
  | enter {w : W} {f : ℕ} {own : Bool} (hpc : s.pc w = .enter f own) (hst : s.state f ≠ .EXEC) :
      Effect k tid s (.run w) ((s.setState f .EXEC).goto w (.body f own))
  | leave {w : W} {f : ℕ} {own : Bool} {st : Fiber.State} (hpc : s.pc w = .body f own)
      (hst : st ≠ .EXEC) : Effect k tid s (.leave w st) ((s.setState f st).goto w (.leave f own))
  | requeue {w : W} {f : ℕ} {own : Bool} {p : Pc Cb} (hpc : s.pc w = .requeue f own)
      (hp : (s.tasks = [] ∧ p = .retickle) ∨ p = .scan) :
      Effect k tid s (.run w)
        (({ s with tasks := s.tasks ++ [(⟨some f, none, -1⟩ : Task Cb)] }.release w own).goto w p)
  | hold {w : W} {f : ℕ} {own : Bool} (hpc : s.pc w = .hold f own) :
      Effect k tid s (.run w) (((s.setState f .HOLD).release w own).goto w .scan)
  | finish {w : W} {f : ℕ} (hpc : s.pc w = .finish f) (hst : (s.state f).resettable) :
      Effect k tid s (.run w) ((s.setState f .INIT).goto w .scan)
  | idleUp {w : W} (hpc : s.pc w = .noTask) :
      Effect k tid s (.run w) ({ s with idle := s.idle + 1 }.goto w .idleEnter)
  | idleIn {w : W} (hpc : s.pc w = .idleEnter) :
      Effect k tid s (.run w)
        ({ s with idleFiber := Function.update s.idleFiber w .EXEC }.goto w .idleBody)
  | idleOut {a : Act W Cb} {w : W} {p : Pc Cb} {st : Fiber.State} (hpc : s.pc w = p)
      (hp : p.InIdle) (hst : st ≠ .EXEC) :
      Effect k tid s a ({ s with idleFiber := Function.update s.idleFiber w st }.goto w .idleLeave)
  | idleDown {w : W} (hpc : s.pc w = .idleLeave) :
      Effect k tid s (.run w) ({ s with idle := s.idle - 1 }.goto w .idleDone)
  | idleRest {w : W} {st : Fiber.State} (hpc : s.pc w = .idleDone) (hst : st ≠ .EXEC) :
      Effect k tid s (.run w)
        ({ s with idleFiber := Function.update s.idleFiber w st }.goto w .scan)
  | report {w : W} (hpc : s.pc w = .waiting) (hpipe : s.unreported = true) :
      Effect k tid s (.epoll_wait w) ({ s with unreported := false }.goto w (.awake true))
  | handled {w : W} {pipe left : Bool} (hpc : s.pc w = .awake pipe) :
      Effect k tid s (.handled w left)
        ({ s with unreported := s.unreported && (!pipe || left) }.goto w .idleLeave)
  | write {w : W} {p p' : Pc Cb} {reader : Option W} {s₁ : Sys W Cb} (hpc : s.pc w = p)
      (hp : AfterWrite p p') (hwake : Woken s reader s₁) :
      Effect k tid s (.write w reader) (s₁.goto w p')
  | callWrite {reader : Option W} {s₁ : Sys W Cb} (hwriting : s.writing ≠ 0)
      (hwake : Woken { s with writing := s.writing - 1 } reader s₁) :
      Effect k tid s (.callWrite reader) s₁
  | newFiber : Effect k tid s .newFiber s.newFiber
  | called {a : Act W Cb} {need : Bool} (hfibers : ∀ t ∈ a.tasks, ∀ f ∈ t.fiber, f < s.created)
      (hneed : need = false → s.tasks = [] → a.tasks = []) :
      Effect k tid s a (s.called (need, s.tasks ++ Sys.pushed a.tasks))
  | tickle : Effect k tid s .tickle { s with calling := s.calling + 1 }
  | callTickle (hcalling : s.calling ≠ 0) :
      Effect k tid s .callTickle { s with calling := s.calling - 1, writing := s.writing + 1 }
  | callDeaf (hcalling : s.calling ≠ 0) (hidle : s.tickles k = false) :
      Effect k tid s .callTickle { s with calling := s.calling - 1 }
  | flags {a : Act W Cb} (autoStop isStopping : Bool) :
      Effect k tid s a { s with autoStop := autoStop, isStopping := isStopping }
  | fail {a : Act W Cb} {f : Fault} (hf : Fails s f) : Effect k tid s a (s.fail f)

namespace Sys

variable [Fintype W] {k : Kind} {tid : W → ℤ} {s s' : Sys W Cb}

theorem woken_of_wake {reader : Option W} (h : s.wake reader = some s') : Woken s reader s' := by
  cases reader with
  | some x =>
    simp only [wake] at h
    split at h
    · obtain rfl := Option.some.inj h
      exact .reader ‹_›
    · exact absurd h (Option.some_ne_none _).symm
  | none =>
    obtain ⟨hnone, h⟩ := Option.ite_none_right_eq_some.mp h
    obtain rfl := Option.some.inj h
    exact .pipe fun w => by simpa using hnone w

omit [Fintype W] in
/-- Whoever writes is not the one that is woken. -/
theorem pc_of_afterWrite {w : W} {p p' : Pc Cb} {reader : Option W}
    (hw : Woken s reader s') (hpc : s.pc w = p) (hp : AfterWrite p p') : s'.pc w = p := by
  cases hw with
  | reader hx =>
    refine (goto_pc_of_ne s ?_ _).trans hpc
    rintro rfl
    rw [hx] at hpc
    subst hpc
    cases hp
  | pipe hnone => exact hpc

omit [Fintype W] in
/-- The steps of `run`. -/
theorem effect_of_run {w : W} (hs : s.run k tid w = some s') : Effect k tid s (.run w) s' := by
  cases hpc : s.pc w <;> simp only [run, hpc] at hs
  case scan =>
    rcases (scan_cases w s.tasks : s.scan tid w s.tasks = _ ∨ _) with
      h | ⟨h, hnone⟩ | ⟨t, l₁, l₂, h, htasks, ht, -⟩ <;> rw [h] at hs <;>
        obtain rfl := Option.some.inj hs
    · exact .fail (.other (by decide))
    · exact .miss hpc hnone
    · exact .pick hpc h htasks ht
  case picked tk =>
    obtain rfl := Option.some.inj hs
    exact .count hpc
  case counted tk =>
    split at hs <;> obtain rfl := Option.some.inj hs
    · exact .move hpc (.tickling tk)
    · rename_i hidle
      exact .deaf hpc (.counted tk) (Bool.eq_false_of_not_eq_true hidle)
  case dispatch tk =>
    have hcb : ∀ {u}, some (s.dispatchCb w tk.cb) = some u → Effect k tid s (.run w) u := by
      intro u hu
      obtain rfl := Option.some.inj hu
      cases tk.cb with
      | some cb => exact .move hpc (.prepare tk cb)
      | none => exact .move hpc (.drop tk)
    split at hs
    · rename_i f hf
      split at hs
      · obtain rfl := Option.some.inj hs
        exact .move hpc (.enter hf)
      · exact hcb hs
    · exact hcb hs
  case prepare cb =>
    split at hs
    · rename_i f hown
      split at hs <;> obtain rfl := Option.some.inj hs
      · exact .reuse hpc hown ‹_›
      · exact .fail (.other (by decide))
    · rename_i hown
      obtain rfl := Option.some.inj hs
      exact .create hpc hown
  case enter f own =>
    split at hs <;> obtain rfl := Option.some.inj hs
    · exact .fail (.enter hpc ‹_›)
    · exact .enter hpc ‹_›
  case leave f own =>
    obtain rfl := Option.some.inj hs
    exact .move hpc (.back f own)
  case back f own =>
    obtain rfl := Option.some.inj hs
    exact .uncount hpc (.back f own)
  case done f own =>
    split at hs <;> obtain rfl := Option.some.inj hs
    · exact .move hpc (.requeue own ‹_›)
    · exact .move hpc (.notReady f own)
  case notReady f own =>
    split at hs <;> obtain rfl := Option.some.inj hs
    · cases own with
      | true => exact .move hpc (.finish f)
      | false => exact .move hpc (.ended f)
    · exact .move hpc (.hold f own)
  case requeue f own =>
    obtain rfl := Option.some.inj hs
    rw [scheduleNoLock_spec]
    refine .requeue hpc ?_
    cases htasks : s.tasks with
    | nil => exact Or.inl ⟨rfl, rfl⟩
    | cons t ts => exact Or.inr rfl
  case retickle =>
    split at hs <;> obtain rfl := Option.some.inj hs
    · exact .move hpc .rewrite
    · rename_i hidle
      exact .deaf hpc .retickle (Bool.eq_false_of_not_eq_true hidle)
  case hold f own =>
    obtain rfl := Option.some.inj hs
    exact .hold hpc
  case finish f =>
    split at hs <;> obtain rfl := Option.some.inj hs
    · exact .finish hpc ‹_›
    · exact .fail (.other (by decide))
  case drop =>
    obtain rfl := Option.some.inj hs
    exact .uncount hpc .drop
  case noTask =>
    split at hs <;> obtain rfl := Option.some.inj hs
    · exact .move hpc .exited
    · exact .idleUp hpc
  case idleEnter =>
    split at hs <;> obtain rfl := Option.some.inj hs
    · exact .fail (.idleEnter hpc ‹_›)
    · exact .idleIn hpc
  case idleBody =>
    split at hs
    · obtain rfl := Option.some.inj hs
      exact .idleOut hpc trivial (by split <;> decide)
    · exact absurd hs (Option.some_ne_none _).symm
  case asked noTimer =>
    obtain rfl := Option.some.inj hs
    split
    · rename_i hquiet
      exact .move hpc (.quiet noTimer (Bool.and_eq_true_iff.mp hquiet).2)
    · exact .move hpc (.waiting noTimer)
  case idleLeave =>
    obtain rfl := Option.some.inj hs
    exact .idleDown hpc
  case idleDone =>
    obtain rfl := Option.some.inj hs
    refine .idleRest hpc ?_
    split
    · rename_i hend
      intro hexec
      rw [hexec] at hend
      exact absurd hend (by decide)
    · decide
  all_goals exact absurd hs (Option.some_ne_none _).symm

/-- **What one step can do.** -/
theorem effect_of_step {a : Act W Cb} (hs : s.step k tid a = some s') : Effect k tid s a s' := by
  rw [step, Option.ite_none_left_eq_some] at hs
  obtain ⟨-, hs⟩ := hs
  cases a with
  | newFiber =>
    obtain rfl := Option.some.inj hs
    exact .newFiber
  | schedule t =>
    obtain ⟨hfibers, hs⟩ := Option.ite_none_right_eq_some.mp hs
    obtain rfl := Option.some.inj hs
    rw [scheduleNoLock_spec]
    refine .called (by simpa [Act.tasks] using hfibers) fun hneed hnil => ?_
    rw [hnil] at hneed
    exact absurd hneed (by simp)
  | scheduleRange ts =>
    obtain ⟨hfibers, hs⟩ := Option.ite_none_right_eq_some.mp hs
    obtain rfl := Option.some.inj hs
    obtain ⟨heq, hneed⟩ := scheduleRange_spec ts false s.tasks
    rw [heq]
    refine .called (fun t ht => ?_) fun h hnil => ?_
    · obtain ⟨u, hu, rfl⟩ := List.mem_map.mp ht
      exact hfibers u hu
    · rw [Act.tasks, (hneed h).2 hnil]
      rfl
  | tickle =>
    obtain rfl := Option.some.inj hs
    exact .tickle
  | callTickle =>
    obtain ⟨hcalling, hs⟩ := Option.ite_none_left_eq_some.mp hs
    by_cases hidle : s.tickles k
    · rw [if_pos hidle] at hs
      obtain rfl := Option.some.inj hs
      exact .callTickle hcalling
    · rw [if_neg hidle] at hs
      obtain rfl := Option.some.inj hs
      exact .callDeaf hcalling (Bool.eq_false_of_not_eq_true hidle)
  | callWrite reader =>
    obtain ⟨hwriting, hs⟩ := Option.ite_none_left_eq_some.mp hs
    exact .callWrite hwriting (woken_of_wake hs)
  | setAutoStop =>
    obtain rfl := Option.some.inj hs
    exact .flags true s.isStopping
  | setStopping =>
    obtain rfl := Option.some.inj hs
    exact .flags s.autoStop true
  | run w => exact effect_of_run hs
  | leave w st =>
    simp only [stepRunning, leave] at hs
    split at hs
    all_goals first
      | exact absurd hs (Option.some_ne_none _).symm
      | split at hs <;> obtain rfl := Option.some.inj hs
        · exact .leave ‹_› (by decide)
        · exact .fail (.other (by decide))
      | obtain rfl := Option.some.inj hs
        exact .leave ‹_› (by decide)
  | write w reader =>
    simp only [stepRunning] at hs
    split at hs
    · obtain ⟨u, hu, rfl⟩ := Option.map_eq_some_iff.mp hs
      exact .write ‹_› (.tickling _) (woken_of_wake hu)
    · obtain ⟨u, hu, rfl⟩ := Option.map_eq_some_iff.mp hs
      exact .write ‹_› .rewrite (woken_of_wake hu)
    · exact absurd hs (Option.some_ne_none _).symm
  | askTimer w noTimer =>
    simp only [stepRunning] at hs
    split at hs
    · obtain rfl := Option.some.inj hs
      exact .move ‹_› (.asked noTimer)
    · exact absurd hs (Option.some_ne_none _).symm
  | askPending w zero =>
    simp only [stepRunning] at hs
    split at hs
    · rename_i hpc
      split at hs <;> obtain rfl := Option.some.inj hs
      · exact .idleOut hpc trivial (by decide)
      · exact .move hpc .pending
    · exact absurd hs (Option.some_ne_none _).symm
  | leaveIdle w st =>
    simp only [stepRunning, leaveIdle] at hs
    split at hs
    all_goals first
      | exact absurd hs (Option.some_ne_none _).symm
      | obtain rfl := Option.some.inj hs
        exact .idleOut (p := .idleBody) ‹_› trivial (by decide)
  | epoll_wait w =>
    simp only [stepRunning] at hs
    split at hs
    · rename_i hpc
      split at hs <;> obtain rfl := Option.some.inj hs
      · exact .report hpc ‹_›
      · rename_i hpipe
        exact .move hpc (.blocked (Bool.eq_false_of_not_eq_true hpipe))
    · exact absurd hs (Option.some_ne_none _).symm
  | epollReturn w =>
    simp only [stepRunning] at hs
    split at hs
    · obtain rfl := Option.some.inj hs
      exact .move ‹_› .awake
    · exact absurd hs (Option.some_ne_none _).symm
  | handled w left =>
    simp only [stepRunning] at hs
    split at hs
    · obtain rfl := Option.some.inj hs
      exact .handled ‹_›
    · exact absurd hs (Option.some_ne_none _).symm

/-! ### The fibers there are -/

/-- Every fiber that is mentioned has been created. -/
structure Bounded (s : Sys W Cb) : Prop where
  tasks : ∀ t ∈ s.tasks, ∀ f ∈ t.fiber, f < s.created
  pcs : ∀ w, ∀ f ∈ (s.pc w).fiber, f < s.created
  own : ∀ w, ∀ f ∈ s.cbFiber w, f < s.created

omit [DecidableEq W] [Fintype W] in
theorem mem_fiber_of_moves {w : W} {p p' : Pc Cb} (hm : Moves s w p p') {f : ℕ}
    (hf : f ∈ p'.fiber) : f ∈ p.fiber := by
  cases hm <;> first | exact hf | (rename_i h; rw [Pc.fiber, h]; exact hf) | cases hf

namespace Bounded

omit [DecidableEq W] [Fintype W] in
theorem of_pc (h : s.Bounded) {w : W} {p : Pc Cb} (hpc : s.pc w = p) :
    ∀ f ∈ p.fiber, f < s.created :=
  hpc ▸ h.pcs w

omit [DecidableEq W] [Fintype W] in
/-- Only the queue, the workers and their fibers matter. -/
theorem congr (h : s.Bounded) (htasks : s'.tasks = s.tasks := by rfl)
    (hcreated : s'.created = s.created := by rfl) (hpc : s'.pc = s.pc := by rfl)
    (hown : s'.cbFiber = s.cbFiber := by rfl) : s'.Bounded := by
  refine ⟨?_, ?_, ?_⟩
  · rw [htasks, hcreated]
    exact h.tasks
  · rw [hpc, hcreated]
    exact h.pcs
  · rw [hown, hcreated]
    exact h.own

omit [Fintype W] in
/-- A worker goes on. -/
theorem goto (h : s.Bounded) {w : W} {p : Pc Cb} (hpc : s'.pc = Function.update s.pc w p)
    (hp : ∀ f ∈ p.fiber, f < s.created) (htasks : s'.tasks = s.tasks := by rfl)
    (hcreated : s'.created = s.created := by rfl) (hown : s'.cbFiber = s.cbFiber := by rfl) :
    s'.Bounded := by
  refine ⟨?_, fun u => ?_, ?_⟩
  · rw [htasks, hcreated]
    exact h.tasks
  · rw [hpc, hcreated]
    rcases eq_or_ne u w with rfl | hne
    · rw [Function.update_self]
      exact hp
    · rw [Function.update_of_ne hne]
      exact h.pcs u
  · rw [hown, hcreated]
    exact h.own

omit [Fintype W] in
theorem release (h : s.Bounded) (w : W) (own : Bool) : (s.release w own).Bounded := by
  refine ⟨h.tasks, h.pcs, fun u f hf => ?_⟩
  rcases eq_or_ne u w with rfl | hne
  · rw [release_cbFiber_self] at hf
    cases own with
    | true => exact absurd hf (by simp)
    | false => exact h.own u f hf
  · rw [release_cbFiber_of_ne s hne] at hf
    exact h.own u f hf

omit [Fintype W] in
theorem woken (h : s.Bounded) {reader : Option W} (hw : Woken s reader s') : s'.Bounded := by
  cases hw with
  | reader hx => exact h.goto rfl (by simp [Pc.fiber])
  | pipe hnone => exact ⟨h.tasks, h.pcs, h.own⟩

omit [DecidableEq W] [Fintype W] in
theorem newFiber (h : s.Bounded) : s.newFiber.Bounded :=
  ⟨fun t ht f hf => Nat.lt_succ_of_lt (h.tasks t ht f hf),
    fun w f hf => Nat.lt_succ_of_lt (h.pcs w f hf), fun w f hf => Nat.lt_succ_of_lt (h.own w f hf)⟩

omit [DecidableEq W] [Fintype W] in
theorem init : (init : Sys W Cb).Bounded :=
  ⟨fun _ ht => absurd ht List.not_mem_nil, fun _ _ hf => absurd hf (Option.some_ne_none _).symm,
    fun _ _ hf => absurd hf (Option.some_ne_none _).symm⟩

omit [Fintype W] in
theorem of_effect (h : s.Bounded) {a : Act W Cb} (he : Effect k tid s a s') : s'.Bounded := by
  cases he with
  | move hpc hm =>
    exact h.goto rfl (fun f hf => h.of_pc hpc f (mem_fiber_of_moves hm hf))
  | miss hpc hnone => exact h.goto rfl (by simp [Pc.fiber])
  | @pick w t l₁ l₂ hpc hscan htasks ht =>
    have hmem : ∀ u ∈ l₁ ++ t :: l₂, ∀ f ∈ u.fiber, f < s.created := htasks ▸ h.tasks
    have h₁ : Bounded { s with tasks := l₁ ++ l₂ } := by
      refine ⟨fun u hu => hmem u ?_, h.pcs, h.own⟩
      rcases List.mem_append.mp hu with hu | hu <;> simp [hu]
    exact h₁.goto rfl (hmem t (by simp))
  | count hpc => exact h.goto rfl (fun f hf => h.of_pc hpc f hf)
  | uncount hpc hp =>
    refine h.goto rfl (fun f hf => h.of_pc hpc f ?_)
    cases hp with
    | back => exact hf
    | drop => cases hf
  | deaf hpc hp hidle =>
    refine h.goto rfl (fun f hf => h.of_pc hpc f ?_)
    cases hp with
    | counted => exact hf
    | retickle => cases hf
  | reuse hpc hown hst => exact h.goto rfl (fun f hf => h.own _ f (hown.trans hf))
  | @create w cb hpc hown =>
    have h₁ : Bounded { s.newFiber with
        cbFiber := Function.update s.cbFiber w (some s.created) } := by
      refine ⟨h.newFiber.tasks, h.newFiber.pcs, fun u f hf => ?_⟩
      rcases eq_or_ne u w with rfl | hne
      · obtain rfl := Option.some.inj ((Function.update_self u _ s.cbFiber).symm.trans hf)
        exact Nat.lt_succ_self _
      · exact h.newFiber.own u f ((Function.update_of_ne hne _ s.cbFiber).symm.trans hf)
    refine h₁.goto rfl (fun f hf => ?_)
    obtain rfl := Option.some.inj hf
    exact Nat.lt_succ_self _
  | enter hpc hst => exact h.goto rfl (fun f hf => h.of_pc hpc f hf)
  | leave hpc hst => exact h.goto rfl (fun f hf => h.of_pc hpc f hf)
  | @requeue w f own p hpc hp =>
    have h₁ : Bounded { s with tasks := s.tasks ++ [(⟨some f, none, -1⟩ : Task Cb)] } := by
      refine ⟨fun t ht => ?_, h.pcs, h.own⟩
      rcases List.mem_append.mp ht with ht | ht
      · exact h.tasks t ht
      · obtain rfl := List.mem_singleton.mp ht
        exact h.of_pc hpc
    refine (h₁.release w own).goto rfl ?_
    rcases hp with ⟨-, rfl⟩ | rfl <;> simp [Pc.fiber]
  | @hold w f own hpc => exact (h.release w own).goto rfl (by simp [Pc.fiber])
  | finish | idleUp | idleIn | idleOut | idleDown | idleRest | report | handled =>
    exact h.goto rfl (by simp [Pc.fiber])
  | @write w p p' reader s₁ hpc hp hwake =>
    refine (h.woken hwake).goto rfl (fun f hf => ?_)
    have hcreated : s₁.created = s.created := by cases hwake <;> rfl
    rw [hcreated]
    refine h.of_pc hpc f ?_
    cases hp with
    | tickling => exact hf
    | rewrite => cases hf
  | @callWrite reader s₁ hwriting hwake =>
    have h₁ : Bounded { s with writing := s.writing - 1 } := h.congr
    exact h₁.woken hwake
  | newFiber => exact h.newFiber
  | called hfibers hneed =>
    refine ⟨fun t ht => ?_, h.pcs, h.own⟩
    rcases List.mem_append.mp ht with ht | ht
    · exact h.tasks t ht
    · exact hfibers t (List.mem_filter.mp ht).1
  | tickle | callTickle | callDeaf | flags | fail => exact h.congr

end Bounded

theorem bounded {ok : Sys W Cb → Act W Cb → Prop}
    (hr : Reachable (step k tid) ok Sys.init s) : s.Bounded :=
  hr.invariant (P := Bounded) .init fun _ _ _ h _ hs => h.of_effect (effect_of_step hs)

end Sys

end Step

end Scheduler

end Wille
