import Wille.Scheduler.Queue

/-!
# The bodies that run in fibers

One worker, and the callbacks that it runs. `Sys` does not say which callback a fiber has and who
put a fiber into the queue. Here `m_cb` is added, and the fibers that wait in an event context. A
body may put the fiber it runs in into the queue, or register it with `addEvent`, any number of
times; what is registered is put into the queue by `triggerEvent`, at any time.

Every callback that is scheduled gets a number, and every task a note of what it is: a callback, or
a fiber and the body that put it there. The notes are ghosts, and `Sys.step` never looks at them.

What is left when everything is dropped that has nothing to do with bodies is a `View`. Each step is
one of the `Turn`s of the view.

## What the model keeps

* A fiber without a callback throws `std::bad_function_call` when it is resumed.
* No other fibers are created, and only a body puts a fiber into the queue or registers it.

## Main definitions

* `Bodies`, `BodyAct`, `Bodies.step` — the worker with its notes
* `Stage`, `View`, `Bodies.view` — what matters to the bodies
* `Turn` — what one step does to the view

## Main results

* `Bodies.Aligned.of_step` — the notes are right, and every step is a turn
-/

namespace Wille

namespace Scheduler

open TransitionSystem

/-- What a task is: a callback, or a fiber and the body that put it there. -/
inductive Entry where
  | callback (n : ℕ)
  | fiber (f : ℕ) (body : Option ℕ)
  deriving DecidableEq

/-- The fiber of the task. -/
def Entry.ref : Entry → Option ℕ
  | .callback _ => none
  | .fiber f _ => some f

/-- The callback of the task. -/
def Entry.number : Entry → Option ℕ
  | .callback n => some n
  | .fiber _ _ => none

/-- One worker, and the bodies that it runs. -/
structure Bodies (Cb : Type*) where
  /-- The scheduler. -/
  sys : Sys Unit Cb
  /-- `m_cb` of each fiber, by its number. -/
  m_cb : ℕ → Option ℕ
  /-- The fibers in event contexts, each with the body that registered it. -/
  registered : List (ℕ × ℕ)
  /-- What the tasks in the queue are. -/
  entries : List Entry
  /-- What the task is that was taken last. -/
  taken : Option Entry
  /-- How many callbacks have been scheduled. -/
  next : ℕ
  /-- The bodies that were started. -/
  started : List ℕ
  /-- The bodies that have returned or thrown. -/
  ended : List ℕ

/-- The steps. -/
inductive BodyAct (Cb : Type*) where
  /-- A step of the worker, or a call from elsewhere that schedules callbacks. -/
  | act (a : Act Unit Cb)
  /-- The running body calls `schedule` with `GetThis()`. -/
  | scheduleThis (thread : ℤ)
  /-- The running body calls `addEvent`. -/
  | addEvent
  /-- `triggerEvent` of a registered fiber. -/
  | triggerEvent (i : ℕ)

namespace Bodies

variable {Cb : Type*}

/-- Before anything has happened. -/
def init : Bodies Cb where
  sys := .init
  m_cb _ := none
  registered := []
  entries := []
  taken := none
  next := 0
  started := []
  ended := []

/-- Only callbacks are scheduled from elsewhere, and what has no callback throws. -/
def allowed (s : Bodies Cb) : Act Unit Cb → Bool
  | .schedule t => t.fiber.isNone
  | .scheduleRange ts => ts.all (·.fiber.isNone)
  | .newFiber => false
  | .leave w st =>
    match s.sys.pc w with
    | .body f _ => (s.m_cb f).isSome || st = .EXCEPT
    | _ => true
  | _ => true

/-- `k` new callbacks. -/
def numbered (next k : ℕ) : List Entry := (List.range' next k).map .callback

/-- What a step of the worker does to `m_cb` and to the notes. -/
def note (tid : ℤ) (s : Bodies Cb) (a : Act Unit Cb) (sys : Sys Unit Cb) : Bodies Cb :=
  match a with
  | .run w =>
    match s.sys.pc w with
    | .scan =>
      match s.sys.scan (fun _ => tid) w s.sys.tasks with
      | .ok (some _) =>
        let i := s.sys.tasks.findIdx fun t => decide (s.sys.Takes (fun _ => tid) w t)
        { s with sys := sys, entries := s.entries.eraseIdx i, taken := s.entries[i]? }
      | _ => { s with sys := sys }
    | .prepare _ =>
      -- `cb_fiber->reset(tk.cb)`, or `new Fiber(tk.cb)`
      let f := (s.sys.cbFiber w).getD s.sys.created
      { s with sys := sys, m_cb := Function.update s.m_cb f (s.taken.bind Entry.number) }
    | .enter f _ =>
      -- a new context begins with the callback
      let begun := if s.sys.state f = .INIT then (s.m_cb f).toList else []
      { s with sys := sys, started := s.started ++ begun }
    | .requeue f _ => { s with sys := sys, entries := s.entries ++ [.fiber f (s.m_cb f)] }
    | .finish f => { s with sys := sys, m_cb := Function.update s.m_cb f none }
    | _ => { s with sys := sys }
  | .leave w st =>
    match s.sys.pc w with
    | .body f _ =>
      if st.termOrExcept then
        { s with
          sys := sys
          ended := s.ended ++ (s.m_cb f).toList
          m_cb := if st = .TERM then Function.update s.m_cb f none else s.m_cb }
      else { s with sys := sys }
    | _ => { s with sys := sys }
  | a =>
    let k := (Sys.pushed a.tasks).length
    { s with sys := sys, entries := s.entries ++ numbered s.next k, next := s.next + k }

/-- The fiber is put into the queue for this body. -/
def put (k : Kind) (tid : ℤ) (s : Bodies Cb) (f b : ℕ) (thread : ℤ) : Option (Bodies Cb) :=
  (s.sys.step k (fun _ => tid) (.schedule ⟨some f, none, thread⟩)).map fun sys =>
    { s with sys := sys, entries := s.entries ++ [.fiber f (some b)] }

/-- One step. -/
def step (k : Kind) (tid : ℤ) (s : Bodies Cb) : BodyAct Cb → Option (Bodies Cb)
  | .act a =>
    if s.allowed a then (s.sys.step k (fun _ => tid) a).map (s.note tid a) else none
  | .scheduleThis thread =>
    match s.sys.pc () with
    | .body f _ => (s.m_cb f).bind fun b => s.put k tid f b thread
    | _ => none
  | .addEvent =>
    if s.sys.fault.isSome then none
    else
      match s.sys.pc () with
      | .body f _ => (s.m_cb f).map fun b => { s with registered := s.registered ++ [(f, b)] }
      | _ => none
  | .triggerEvent i =>
    s.registered[i]?.bind fun r =>
      (s.put k tid r.1 r.2 (-1)).map fun s => { s with registered := s.registered.eraseIdx i }

/-- A body ends in its first turn, in which its fiber is `cb_fiber`, only when the fiber is neither
in the queue nor registered. -/
def Clean (s : Bodies Cb) : BodyAct Cb → Prop
  | .act (.leave w st) =>
    match s.sys.pc w with
    | .body f true => st.termOrExcept = true →
        (∀ t ∈ s.sys.tasks, t.fiber ≠ some f) ∧ ∀ r ∈ s.registered, r.1 ≠ f
    | _ => True
  | _ => True

instance : DecidableRel (Clean : Bodies Cb → BodyAct Cb → Prop) := fun s a => by
  unfold Clean
  split
  · split <;> infer_instance
  · exact instDecidableTrue

end Bodies

/-! ### What matters to the bodies -/

/-- Where the worker stands, as far as the bodies are concerned. -/
inductive Stage where
  /-- It has no task. -/
  | free
  /-- It has taken a task. -/
  | got (e : Option Entry)
  /-- It is about to give `cb_fiber` a callback. -/
  | prepare (e : Option Entry)
  | enter (f : ℕ) (own : Bool)
  | body (f : ℕ) (own : Bool)
  /-- The fiber has stored its state. -/
  | left (f : ℕ) (own : Bool)
  | notReady (f : ℕ) (own : Bool)
  | requeue (f : ℕ) (own : Bool)
  | hold (f : ℕ) (own : Bool)
  | finish (f : ℕ)
  deriving DecidableEq

/-- The stage of a worker that has last taken this task. -/
def Pc.stage {Cb : Type*} (e : Option Entry) : Pc Cb → Stage
  | .picked _ | .counted _ | .tickling _ | .dispatch _ => .got e
  | .prepare _ => .prepare e
  | .enter f own => .enter f own
  | .body f own => .body f own
  | .leave f own | .back f own | .done f own => .left f own
  | .notReady f own => .notReady f own
  | .requeue f own => .requeue f own
  | .hold f own => .hold f own
  | .finish f => .finish f
  | _ => .free

/-- What matters to the bodies. -/
structure View where
  stage : Stage
  /-- `m_state` of each fiber. -/
  state : ℕ → Fiber.State
  /-- How many fibers there are. -/
  created : ℕ
  /-- `cb_fiber` -/
  cbFiber : Option ℕ
  /-- How the program has ended. -/
  fault : Option Fault
  m_cb : ℕ → Option ℕ
  registered : List (ℕ × ℕ)
  entries : List Entry
  next : ℕ
  started : List ℕ
  ended : List ℕ

/-- What of the bodies matters. -/
def Bodies.view {Cb : Type*} (s : Bodies Cb) : View where
  stage := (s.sys.pc ()).stage s.taken
  state := s.sys.state
  created := s.sys.created
  cbFiber := s.sys.cbFiber ()
  fault := s.sys.fault
  m_cb := s.m_cb
  registered := s.registered
  entries := s.entries
  next := s.next
  started := s.started
  ended := s.ended

/-- The assertion of `reset` is about to fail. -/
def View.ResetFails (v : View) : Prop :=
  (∃ e f, v.stage = .prepare e ∧ v.cbFiber = some f ∧ (v.state f).resettable = false) ∨
    ∃ f, v.stage = .finish f ∧ (v.state f).resettable = false

/-- What one step does to the view. With `ok`, a body ends in its first turn only when there is no
reference to its fiber. -/
inductive Turn (ok : Prop) (v : View) : View → Prop where
  | quiet : Turn ok v v
  | pick {e₁ e₂ : List Entry} {e : Entry} (hstage : v.stage = .free)
      (hentries : v.entries = e₁ ++ e :: e₂) :
      Turn ok v { v with stage := .got (some e), entries := e₁ ++ e₂ }
  | resume {f : ℕ} {body : Option ℕ} (hstage : v.stage = .got (some (.fiber f body)))
      (hst : (v.state f).termOrExcept = false) : Turn ok v { v with stage := .enter f false }
  | prepare {n : ℕ} (hstage : v.stage = .got (some (.callback n))) :
      Turn ok v { v with stage := .prepare (some (.callback n)) }
  | drop {f : ℕ} {body : Option ℕ} (hstage : v.stage = .got (some (.fiber f body)))
      (hst : (v.state f).termOrExcept) : Turn ok v { v with stage := .free }
  | reuse {n f : ℕ} (hstage : v.stage = .prepare (some (.callback n))) (hown : v.cbFiber = some f)
      (hst : (v.state f).resettable) :
      Turn ok v { v with
        stage := .enter f true
        state := Function.update v.state f .INIT
        m_cb := Function.update v.m_cb f (some n) }
  | create {n : ℕ} (hstage : v.stage = .prepare (some (.callback n))) (hown : v.cbFiber = none) :
      Turn ok v { v with
        stage := .enter v.created true
        state := Function.update v.state v.created .INIT
        created := v.created + 1
        cbFiber := some v.created
        m_cb := Function.update v.m_cb v.created (some n) }
  | enter {f : ℕ} {own : Bool} (hstage : v.stage = .enter f own) (hst : v.state f ≠ .EXEC) :
      Turn ok v { v with
        stage := .body f own
        state := Function.update v.state f .EXEC
        started := v.started ++ if v.state f = .INIT then (v.m_cb f).toList else [] }
  | yields {f : ℕ} {own : Bool} {st : Fiber.State} (hstage : v.stage = .body f own)
      (hst : st = .HOLD ∨ st = .READY) (hcb : (v.m_cb f).isSome) :
      Turn ok v { v with stage := .left f own, state := Function.update v.state f st }
  | ends {f : ℕ} {own : Bool} {st : Fiber.State} (hstage : v.stage = .body f own)
      (hst : st.termOrExcept) (hclean : ok → own = true →
        (∀ e ∈ v.entries, e.ref ≠ some f) ∧ ∀ r ∈ v.registered, r.1 ≠ f) :
      Turn ok v { v with
        stage := .left f own
        state := Function.update v.state f st
        ended := v.ended ++ (v.m_cb f).toList
        m_cb := if st = .TERM then Function.update v.m_cb f none else v.m_cb }
  | ready {f : ℕ} {own : Bool} (hstage : v.stage = .left f own) (hst : v.state f = .READY) :
      Turn ok v { v with stage := .requeue f own }
  | notReady {f : ℕ} {own : Bool} (hstage : v.stage = .left f own) (hst : v.state f ≠ .READY) :
      Turn ok v { v with stage := .notReady f own }
  | gone {f : ℕ} {own : Bool} (hstage : v.stage = .notReady f own)
      (hst : (v.state f).termOrExcept) :
      Turn ok v { v with stage := if own then .finish f else .free }
  | waits {f : ℕ} {own : Bool} (hstage : v.stage = .notReady f own)
      (hst : (v.state f).termOrExcept = false) : Turn ok v { v with stage := .hold f own }
  | requeue {f : ℕ} {own : Bool} (hstage : v.stage = .requeue f own) :
      Turn ok v { v with
        stage := .free
        cbFiber := if own then none else v.cbFiber
        entries := v.entries ++ [.fiber f (v.m_cb f)] }
  | hold {f : ℕ} {own : Bool} (hstage : v.stage = .hold f own) :
      Turn ok v { v with
        stage := .free
        state := Function.update v.state f .HOLD
        cbFiber := if own then none else v.cbFiber }
  | finish {f : ℕ} (hstage : v.stage = .finish f) (hst : (v.state f).resettable) :
      Turn ok v { v with
        stage := .free
        state := Function.update v.state f .INIT
        m_cb := Function.update v.m_cb f none }
  | called (k : ℕ) :
      Turn ok v { v with entries := v.entries ++ Bodies.numbered v.next k, next := v.next + k }
  | put {f b : ℕ} {own : Bool} (hstage : v.stage = .body f own) (hcb : v.m_cb f = some b) :
      Turn ok v { v with entries := v.entries ++ [.fiber f (some b)] }
  | register {f b : ℕ} {own : Bool} (hstage : v.stage = .body f own) (hcb : v.m_cb f = some b) :
      Turn ok v { v with registered := v.registered ++ [(f, b)] }
  | trigger {i f b : ℕ} (hreg : v.registered[i]? = some (f, b)) :
      Turn ok v { v with
        entries := v.entries ++ [.fiber f (some b)]
        registered := v.registered.eraseIdx i }
  | fail {fault : Fault} (hfault : fault ≠ .reset) : Turn ok v { v with fault := some fault }
  | failReset {v' : View} (hst : v.ResetFails) : Turn ok v v'

/-- The task that the worker has taken and not looked at. -/
def Pc.inHand {Cb : Type*} : Pc Cb → Option (Task Cb)
  | .picked tk | .counted tk | .tickling tk | .dispatch tk => some tk
  | _ => none

namespace Bodies

variable {Cb : Type*} {k : Kind} {tid : ℤ} {ok : Prop} {s s' : Bodies Cb}

/-- The notes are right. -/
structure Aligned (s : Bodies Cb) : Prop where
  refs : s.sys.tasks.map Task.fiber = s.entries.map Entry.ref
  cbs : ∀ t ∈ s.sys.tasks, t.cb.isSome = t.fiber.isNone
  inHand : ∀ tk, (s.sys.pc ()).inHand = some tk →
    ∃ e, s.taken = some e ∧ e.ref = tk.fiber ∧ tk.cb.isSome = tk.fiber.isNone
  prepare : ∀ cb, s.sys.pc () = .prepare cb → ∃ n, s.taken = some (.callback n)

theorem Aligned.init : (init : Bodies Cb).Aligned where
  refs := rfl
  cbs _ ht := absurd ht List.not_mem_nil
  inHand _ h := absurd h (Option.some_ne_none _).symm
  prepare _ h := by cases h

/-- The worker goes on, and takes nothing. -/
theorem Aligned.go (h : s.Aligned) {p : Pc Cb} (hpc : s'.sys.pc () = p)
    (hhand : ∀ tk, p.inHand = some tk → (s.sys.pc ()).inHand = some tk := by rintro _ ⟨⟩)
    (hprepare : ∀ cb, p ≠ .prepare cb := by rintro _ ⟨⟩)
    (htasks : s'.sys.tasks = s.sys.tasks := by rfl)
    (hentries : s'.entries = s.entries := by rfl) (htaken : s'.taken = s.taken := by rfl) :
    s'.Aligned where
  refs := by rw [htasks, hentries, h.refs]
  cbs := by rw [htasks]; exact h.cbs
  inHand tk htk := by
    rw [htaken]
    exact h.inHand tk (hhand tk (hpc ▸ htk))
  prepare cb hcb := absurd (hpc.symm.trans hcb) (hprepare cb)

/-- Tasks are added. -/
theorem Aligned.add (h : s.Aligned) {ts : List (Task Cb)} {es : List Entry}
    (htasks : s'.sys.tasks = s.sys.tasks ++ ts) (hentries : s'.entries = s.entries ++ es)
    (hrefs : ts.map Task.fiber = es.map Entry.ref) (hcbs : ∀ t ∈ ts, t.cb.isSome = t.fiber.isNone)
    (hpc : s'.sys.pc = s.sys.pc := by rfl) (htaken : s'.taken = s.taken := by rfl) :
    s'.Aligned where
  refs := by rw [htasks, hentries, List.map_append, List.map_append, h.refs, hrefs]
  cbs t ht := by
    rw [htasks] at ht
    exact (List.mem_append.mp ht).elim (h.cbs t) (hcbs t)
  inHand := by rw [hpc, htaken]; exact h.inHand
  prepare := by rw [hpc, htaken]; exact h.prepare

/-- A step of the worker or a call from elsewhere is one of `Sys`. -/
theorem stepRunning_of_step {a : Act Unit Cb} (hs : s.step k tid (.act a) = some s') :
    s.allowed a = true ∧ ∃ sys, s.sys.stepRunning k (fun _ => tid) a = some sys ∧
      s' = s.note tid a sys := by
  obtain ⟨hallowed, hs⟩ := Option.ite_none_right_eq_some.mp hs
  obtain ⟨sys, hsys, rfl⟩ := Option.map_eq_some_iff.mp hs
  exact ⟨hallowed, sys, (Option.ite_none_left_eq_some.mp hsys).2, rfl⟩

/-- A step that the view does not show. -/
theorem turn_quiet {sys : Sys Unit Cb}
    (hstage : (sys.pc ()).stage s.taken = (s.sys.pc ()).stage s.taken)
    (hstate : sys.state = s.sys.state := by rfl) (hcreated : sys.created = s.sys.created := by rfl)
    (hown : sys.cbFiber = s.sys.cbFiber := by rfl) (hfault : sys.fault = s.sys.fault := by rfl) :
    Turn ok s.view { s with sys := sys }.view := by
  have hview : { s with sys := sys }.view = s.view := by
    simp only [view, hstage, hstate, hcreated, hown, hfault]
  exact hview ▸ .quiet

/-- The worker only goes from one place to another, or changes what the view does not show. -/
theorem turn_move (h : s.Aligned) {sys : Sys Unit Cb} {p p' : Pc Cb} (hpc : s.sys.pc () = p)
    (hpc' : sys.pc () = p') (hstage : p'.stage s.taken = p.stage s.taken)
    (hhand : ∀ tk, p'.inHand = some tk → p.inHand = some tk := by rintro _ ⟨⟩)
    (hprepare : ∀ cb, p' ≠ .prepare cb := by rintro _ ⟨⟩)
    (hstate : sys.state = s.sys.state := by rfl) (hcreated : sys.created = s.sys.created := by rfl)
    (hown : sys.cbFiber = s.sys.cbFiber := by rfl) (hfault : sys.fault = s.sys.fault := by rfl)
    (htasks : sys.tasks = s.sys.tasks := by rfl) :
    Turn ok s.view { s with sys := sys }.view ∧ { s with sys := sys }.Aligned := by
  refine ⟨turn_quiet (by rw [hpc, hpc', hstage]) hstate hcreated hown hfault, ?_⟩
  exact h.go hpc' (fun tk htk => by rw [hpc]; exact hhand tk htk) hprepare htasks

/-- The worker stays where it is. -/
theorem turn_stay (h : s.Aligned) {sys : Sys Unit Cb} (hpc : sys.pc () = s.sys.pc () := by rfl)
    (hstate : sys.state = s.sys.state := by rfl) (hcreated : sys.created = s.sys.created := by rfl)
    (hown : sys.cbFiber = s.sys.cbFiber := by rfl) (hfault : sys.fault = s.sys.fault := by rfl)
    (htasks : sys.tasks = s.sys.tasks := by rfl) :
    Turn ok s.view { s with sys := sys }.view ∧ { s with sys := sys }.Aligned := by
  refine ⟨turn_quiet (by rw [hpc]) hstate hcreated hown hfault, ?_⟩
  exact ⟨htasks ▸ h.refs, htasks ▸ h.cbs, fun tk htk => h.inHand tk (hpc ▸ htk),
    fun cb hcb => h.prepare cb (hpc ▸ hcb)⟩

/-- The note of a task in the queue. -/
theorem Aligned.split (h : s.Aligned) {t : Task Cb} {l₁ l₂ : List (Task Cb)}
    (htasks : s.sys.tasks = l₁ ++ t :: l₂) :
    ∃ e₁ e e₂, s.entries = e₁ ++ e :: e₂ ∧ e₁.length = l₁.length ∧ e.ref = t.fiber ∧
      (l₁ ++ l₂).map Task.fiber = (e₁ ++ e₂).map Entry.ref := by
  have hrefs := h.refs
  rw [htasks, List.map_append, List.map_cons] at hrefs
  obtain ⟨e₁, es, hentries, he₁, hes⟩ := List.map_eq_append_iff.mp hrefs.symm
  obtain ⟨e, e₂, rfl, he, he₂⟩ := List.map_eq_cons_iff.mp hes
  refine ⟨e₁, e, e₂, hentries, ?_, he, ?_⟩
  · rw [← List.length_map Entry.ref, he₁, List.length_map]
  · rw [List.map_append, List.map_append, he₁, he₂]

/-- The search. -/
theorem turn_of_scan (h : s.Aligned) {sys : Sys Unit Cb} (hpc : s.sys.pc () = .scan)
    (hs : s.sys.run k (fun _ => tid) () = some sys) :
    Turn ok s.view (s.note tid (.run ()) sys).view ∧ (s.note tid (.run ()) sys).Aligned := by
  simp only [Sys.run, hpc] at hs
  rcases (Sys.scan_cases () s.sys.tasks : s.sys.scan (fun _ => tid) () s.sys.tasks = _ ∨ _) with
    hscan | ⟨hscan, -⟩ | ⟨t, l₁, l₂, hscan, htasks, ht, hfirst⟩ <;> rw [hscan] at hs <;>
      obtain rfl := Option.some.inj hs
  · simp only [note, hpc, hscan]
    exact ⟨.fail (by decide), h.go (p := .scan) hpc⟩
  · simp only [note, hpc, hscan]
    exact turn_move h hpc (Sys.goto_pc_self ..) rfl
  · obtain ⟨e₁, e, e₂, hentries, hlength, he, hrest⟩ := h.split htasks
    have hget : s.entries[l₁.length]? = some e := by
      rw [hentries, ← hlength, List.getElem?_append_right (Nat.le_refl _), Nat.sub_self,
        List.getElem?_cons_zero]
    have herase : s.entries.eraseIdx l₁.length = e₁ ++ e₂ := by
      rw [hentries, ← hlength, List.eraseIdx_append_of_length_le (Nat.le_refl _), Nat.sub_self,
        List.eraseIdx_cons_zero]
    have hnote : ∀ sys, s.note tid (.run ()) sys =
        { s with sys := sys, entries := e₁ ++ e₂, taken := some e } := by
      intro sys
      simp only [note, hpc, hscan, Sys.findIdx_takes htasks ht hfirst, hget, herase]
    rw [hnote]
    have hcbs := htasks ▸ h.cbs
    refine ⟨.pick (by rw [view, hpc]; rfl) hentries, hrest, fun u hu => hcbs u ?_, fun tk htk => ?_,
      by rintro _ ⟨⟩⟩
    · rcases List.mem_append.mp hu with hu | hu <;> simp [hu]
    · obtain rfl := Option.some.inj htk
      exact ⟨e, rfl, he, hcbs t (by simp)⟩

/-- The worker looks at its task. -/
theorem turn_of_dispatch (h : s.Aligned) {sys : Sys Unit Cb} {tk : Task Cb}
    (hpc : s.sys.pc () = .dispatch tk) (hs : s.sys.run k (fun _ => tid) () = some sys) :
    Turn ok s.view (s.note tid (.run ()) sys).view ∧ (s.note tid (.run ()) sys).Aligned := by
  have hnote : s.note tid (.run ()) sys = { s with sys := sys } := by simp only [note, hpc]
  obtain ⟨e, he, href, hcb⟩ := h.inHand tk (by rw [hpc]; rfl)
  have hstage : s.view.stage = .got (some e) := by rw [view, hpc, he]; rfl
  simp only [Sys.run, hpc] at hs
  rw [hnote]
  cases e with
  | callback n =>
    rw [← show none = tk.fiber from href] at hs hcb
    obtain ⟨cb, hcb⟩ := Option.isSome_iff_exists.mp hcb
    rw [hcb] at hs
    obtain rfl := Option.some.inj hs
    have hturn : Turn ok s.view { s with sys := s.sys.goto () (.prepare cb) }.view := by
      refine (congrArg (Turn ok s.view) ?_).mp (.prepare hstage)
      rw [view, he]
      rfl
    exact ⟨hturn, h.refs, h.cbs, by rintro _ ⟨⟩, fun _ _ => ⟨n, he⟩⟩
  | fiber f body =>
    rw [← show some f = tk.fiber from href] at hs hcb
    have hnone : tk.cb = none := Option.isSome_eq_false_iff.mp hcb |> Option.isNone_iff_eq_none.mp
    rw [hnone] at hs
    simp only at hs
    split at hs <;> obtain rfl := Option.some.inj hs
    · rename_i hst
      rw [Bool.not_eq_true'] at hst
      exact ⟨.resume hstage hst, h.go (Sys.goto_pc_self ..)⟩
    · rename_i hst
      rw [Bool.not_eq_true, Bool.not_eq_false'] at hst
      exact ⟨.drop hstage hst, h.go (Sys.goto_pc_self ..)⟩

/-- The worker gives its `cb_fiber` a callback. -/
theorem turn_of_prepare (h : s.Aligned) {sys : Sys Unit Cb} {cb : Cb}
    (hpc : s.sys.pc () = .prepare cb) (hs : s.sys.run k (fun _ => tid) () = some sys) :
    Turn ok s.view (s.note tid (.run ()) sys).view ∧ (s.note tid (.run ()) sys).Aligned := by
  obtain ⟨n, hn⟩ := h.prepare cb hpc
  have hstage : s.view.stage = .prepare (some (.callback n)) := by rw [view, hpc, hn]; rfl
  have hnote : s.note tid (.run ()) sys = { s with
      sys := sys
      m_cb := Function.update s.m_cb ((s.sys.cbFiber ()).getD s.sys.created) (some n) } := by
    simp only [note, hpc, hn]
    rfl
  simp only [Sys.run, hpc] at hs
  rw [hnote]
  split at hs
  · rename_i f hown
    rw [hown]
    split at hs <;> obtain rfl := Option.some.inj hs
    · exact ⟨.reuse hstage hown ‹_›, h.go (Sys.goto_pc_self ..)⟩
    · rename_i hst
      refine ⟨.failReset (Or.inl ⟨_, f, hstage, hown, Bool.eq_false_of_not_eq_true hst⟩), ?_⟩
      exact ⟨h.refs, h.cbs, fun tk htk => h.inHand tk htk, fun cb hcb => h.prepare cb hcb⟩
  · rename_i hown
    rw [hown]
    obtain rfl := Option.some.inj hs
    exact ⟨.create hstage hown, h.go (Sys.goto_pc_self ..)⟩

/-- The first callback is given a new fiber. -/
example :
    let as : List (BodyAct ℕ) :=
      .act (.schedule ⟨none, some 0, -1⟩) :: List.replicate 5 (.act (.run ()))
    (as.foldlM (step .scheduler 1) init).map (fun s : Bodies ℕ => (s.view.stage, s.m_cb 0)) =
      some (Stage.enter 0 true, some 0) := by
  decide +kernel

/-- The steps of `run`. -/
theorem turn_of_run (h : s.Aligned) {sys : Sys Unit Cb}
    (hs : s.sys.run k (fun _ => tid) () = some sys) :
    Turn ok s.view (s.note tid (.run ()) sys).view ∧ (s.note tid (.run ()) sys).Aligned := by
  cases hpc : s.sys.pc ()
  case scan => exact turn_of_scan h hpc hs
  case dispatch tk => exact turn_of_dispatch h hpc hs
  case prepare cb => exact turn_of_prepare h hpc hs
  all_goals simp only [Sys.run, hpc] at hs
  all_goals simp only [note, hpc]
  case picked tk =>
    obtain rfl := Option.some.inj hs
    exact turn_move h hpc (Sys.goto_pc_self ..) rfl (fun _ => id)
  case counted tk =>
    split at hs <;> obtain rfl := Option.some.inj hs <;>
      exact turn_move h hpc (Sys.goto_pc_self ..) rfl (fun _ => id)
  case enter f own =>
    have hstage : s.view.stage = .enter f own := by rw [view, hpc]; rfl
    split at hs <;> obtain rfl := Option.some.inj hs
    · rename_i hst
      rw [if_neg (by rw [hst]; decide), List.append_nil]
      exact ⟨.fail (by decide), h.go (p := .enter f own) hpc⟩
    · exact ⟨.enter hstage ‹_›, h.go (Sys.goto_pc_self ..)⟩
  case leave f own | back f own =>
    obtain rfl := Option.some.inj hs
    exact turn_move h hpc (Sys.goto_pc_self ..) rfl
  case done f own =>
    have hstage : s.view.stage = .left f own := by rw [view, hpc]; rfl
    split at hs <;> obtain rfl := Option.some.inj hs
    · exact ⟨.ready hstage ‹_›, h.go (Sys.goto_pc_self ..)⟩
    · exact ⟨.notReady hstage ‹_›, h.go (Sys.goto_pc_self ..)⟩
  case notReady f own =>
    have hstage : s.view.stage = .notReady f own := by rw [view, hpc]; rfl
    split at hs <;> obtain rfl := Option.some.inj hs
    · have hturn : Turn ok s.view _ := .gone hstage ‹_›
      cases own <;> exact ⟨hturn, h.go (Sys.goto_pc_self ..)⟩
    · rename_i hst
      exact ⟨.waits hstage (Bool.eq_false_of_not_eq_true hst), h.go (Sys.goto_pc_self ..)⟩
  case requeue f own =>
    have hstage : s.view.stage = .requeue f own := by rw [view, hpc]; rfl
    rw [Sys.scheduleNoLock_spec] at hs
    obtain rfl := Option.some.inj hs
    have hadd : Aligned { s with
        sys := { s.sys with tasks := s.sys.tasks ++ [⟨some f, none, -1⟩] }
        entries := s.entries ++ [.fiber f (s.m_cb f)] } :=
      h.add rfl rfl rfl (by simp)
    generalize s.sys.tasks.isEmpty = empty
    cases empty <;> exact ⟨.requeue hstage, hadd.go (Sys.goto_pc_self ..)⟩
  case retickle =>
    split at hs <;> obtain rfl := Option.some.inj hs <;>
      exact turn_move h hpc (Sys.goto_pc_self ..) rfl
  case hold f own =>
    have hstage : s.view.stage = .hold f own := by rw [view, hpc]; rfl
    obtain rfl := Option.some.inj hs
    exact ⟨.hold hstage, h.go (Sys.goto_pc_self ..)⟩
  case finish f =>
    have hstage : s.view.stage = .finish f := by rw [view, hpc]; rfl
    split at hs <;> obtain rfl := Option.some.inj hs
    · exact ⟨.finish hstage ‹_›, h.go (Sys.goto_pc_self ..)⟩
    · rename_i hst
      exact ⟨.failReset (Or.inr ⟨f, hstage, Bool.eq_false_of_not_eq_true hst⟩),
        h.go (p := .finish f) hpc⟩
  case drop =>
    obtain rfl := Option.some.inj hs
    exact turn_move h hpc (Sys.goto_pc_self ..) rfl
  case noTask =>
    split at hs <;> obtain rfl := Option.some.inj hs <;>
      exact turn_move h hpc (Sys.goto_pc_self ..) rfl
  case idleEnter =>
    split at hs <;> obtain rfl := Option.some.inj hs
    · exact ⟨.fail (by decide), h.go (p := .idleEnter) hpc⟩
    · exact turn_move h hpc (Sys.goto_pc_self ..) rfl
  case idleBody =>
    split at hs
    · obtain rfl := Option.some.inj hs
      exact turn_move h hpc (Sys.goto_pc_self ..) rfl
    · exact absurd hs (Option.some_ne_none _).symm
  case asked noTimer =>
    obtain rfl := Option.some.inj hs
    generalize (noTimer && s.sys.stopping) = quiet
    cases quiet <;> exact turn_move h hpc (Sys.goto_pc_self ..) rfl
  case idleLeave | idleDone =>
    obtain rfl := Option.some.inj hs
    exact turn_move h hpc (Sys.goto_pc_self ..) rfl
  all_goals exact absurd hs (Option.some_ne_none _).symm

/-- The turn of a fiber ends. -/
theorem turn_of_leave (h : s.Aligned) {sys : Sys Unit Cb} {st : Fiber.State}
    (hallowed : s.allowed (.leave () st) = true) (hclean : ok → s.Clean (.act (.leave () st)))
    (hs : s.sys.leave () st = some sys) :
    Turn ok s.view (s.note tid (.leave () st) sys).view ∧
      (s.note tid (.leave () st) sys).Aligned := by
  cases hpc : s.sys.pc ()
  case body f own =>
    have hstage : s.view.stage = .body f own := by rw [view, hpc]; rfl
    have hfail : Turn ok s.view { s with sys := s.sys.fail .yield }.view ∧
        { s with sys := s.sys.fail .yield }.Aligned :=
      ⟨.fail (by decide), h.go (p := .body f own) hpc⟩
    have hends : st.termOrExcept = true → sys = (s.sys.setState f st).goto () (.leave f own) →
        Turn ok s.view (s.note tid (.leave () st) sys).view ∧
          (s.note tid (.leave () st) sys).Aligned := by
      rintro hst rfl
      have hturn : Turn ok s.view _ := .ends hstage hst fun hok hown => by
        subst hown
        have hrefs := hclean hok
        simp only [Clean, hpc] at hrefs
        refine ⟨fun e he heq => ?_, (hrefs hst).2⟩
        have hmem : some f ∈ s.sys.tasks.map Task.fiber := by
          rw [h.refs, ← heq]
          exact List.mem_map_of_mem he
        obtain ⟨t, ht, htf⟩ := List.mem_map.mp hmem
        exact (hrefs hst).1 t ht htf
      simp only [note, hpc, if_pos hst]
      exact ⟨hturn, h.go (Sys.goto_pc_self ..)⟩
    have hyields : st = .HOLD ∨ st = .READY →
        sys = (s.sys.setState f st).goto () (.leave f own) →
        Turn ok s.view (s.note tid (.leave () st) sys).view ∧
          (s.note tid (.leave () st) sys).Aligned := by
      rintro hst rfl
      have hcb : (s.m_cb f).isSome := by
        simp only [allowed, hpc] at hallowed
        rcases hst with rfl | rfl <;> simpa using hallowed
      have hnot : ¬st.termOrExcept = true := by rcases hst with rfl | rfl <;> decide
      simp only [note, hpc, if_neg hnot]
      exact ⟨.yields hstage hst hcb, h.go (Sys.goto_pc_self ..)⟩
    cases st <;> simp only [Sys.leave, hpc] at hs
    case HOLD | READY =>
      split at hs <;> obtain rfl := Option.some.inj hs
      · exact hyields (by decide) rfl
      · simp only [note, hpc]
        exact hfail
    case TERM | EXCEPT => exact hends rfl (Option.some.inj hs).symm
    all_goals exact absurd hs (Option.some_ne_none _).symm
  all_goals
    simp only [Sys.leave, hpc] at hs
    exact absurd hs (Option.some_ne_none _).symm

/-- What schedules nothing leaves the notes alone. -/
theorem note_of_tasks {a : Act Unit Cb} (hrun : ∀ w, a ≠ .run w) (hleave : ∀ w st, a ≠ .leave w st)
    (htasks : a.tasks = []) (sys : Sys Unit Cb) : s.note tid a sys = { s with sys := sys } := by
  cases a
  case run w => exact absurd rfl (hrun w)
  case leave w st => exact absurd rfl (hleave w st)
  all_goals simp only [note, htasks, Sys.pushed, numbered, List.filter_nil, List.length_nil,
    List.range'_zero, List.map_nil, List.append_nil, Nat.add_zero]

/-- Callbacks are put into the queue. -/
theorem turn_of_called (h : s.Aligned) {a : Act Unit Cb} {need : Bool}
    (hfibers : ∀ t ∈ a.tasks, t.fiber = none)
    (hnote : ∀ sys, s.note tid a sys = { s with
      sys := sys
      entries := s.entries ++ numbered s.next (Sys.pushed a.tasks).length
      next := s.next + (Sys.pushed a.tasks).length }) :
    let sys := s.sys.called (need, s.sys.tasks ++ Sys.pushed a.tasks)
    Turn ok s.view (s.note tid a sys).view ∧ (s.note tid a sys).Aligned := by
  intro sys
  rw [hnote]
  have hpushed : ∀ t ∈ Sys.pushed a.tasks, t.fiber = none ∧ t.cb.isSome = true := by
    intro t ht
    obtain ⟨ht, hsome⟩ := List.mem_filter.mp ht
    rw [hfibers t ht] at hsome
    exact ⟨hfibers t ht, hsome⟩
  refine ⟨.called _, h.add rfl rfl ?_ fun t ht => ?_⟩
  · rw [numbered, List.map_map, List.map_congr_left fun t ht => (hpushed t ht).1]
    simp [Function.comp_def, Entry.ref]
  · rw [(hpushed t ht).1, (hpushed t ht).2]
    rfl

/-- A byte changes nothing but the place of a worker in `epoll_wait`. -/
theorem turn_of_wake (h : s.Aligned) {reader : Option Unit} {sys : Sys Unit Cb}
    (hw : s.sys.wake reader = some sys) :
    Turn ok s.view { s with sys := sys }.view ∧ { s with sys := sys }.Aligned := by
  cases Sys.woken_of_wake hw with
  | reader hx => exact turn_move h hx (Sys.goto_pc_self ..) rfl
  | pipe => exact turn_stay h

/-- A worker that writes goes on. -/
theorem turn_of_write (h : s.Aligned) {reader : Option Unit} {sys : Sys Unit Cb} {p p' : Pc Cb}
    (hpc : s.sys.pc () = p) (hw : s.sys.wake reader = some sys) (hne : p.isBlocked = false)
    (hstage : p'.stage s.taken = p.stage s.taken)
    (hhand : ∀ tk, p'.inHand = some tk → p.inHand = some tk)
    (hprepare : ∀ cb, p' ≠ .prepare cb) :
    Turn ok s.view { s with sys := sys.goto () p' }.view ∧
      { s with sys := sys.goto () p' }.Aligned := by
  cases Sys.woken_of_wake hw with
  | reader hx =>
    rw [← hpc, hx] at hne
    exact absurd hne.symm Bool.false_ne_true
  | pipe => exact turn_move h hpc (Sys.goto_pc_self ..) hstage hhand hprepare

/-- The steps of the worker that are choices, and of other calls. -/
theorem turn_of_other (h : s.Aligned) {a : Act Unit Cb} {sys : Sys Unit Cb}
    (hallowed : s.allowed a = true) (hrun : ∀ w, a ≠ .run w) (hleave : ∀ w st, a ≠ .leave w st)
    (hs : s.sys.stepRunning k (fun _ => tid) a = some sys) :
    Turn ok s.view (s.note tid a sys).view ∧ (s.note tid a sys).Aligned := by
  have hnote : a.tasks = [] → s.note tid a sys = { s with sys := sys } :=
    fun htasks => note_of_tasks hrun hleave htasks sys
  cases a with
  | run w => exact absurd rfl (hrun w)
  | leave w st => exact absurd rfl (hleave w st)
  | newFiber => exact absurd hallowed Bool.false_ne_true
  | schedule t =>
    obtain ⟨-, hs⟩ := Option.ite_none_right_eq_some.mp hs
    rw [Sys.scheduleNoLock_spec] at hs
    obtain rfl := Option.some.inj hs
    refine turn_of_called (a := .schedule t) h (fun u hu => ?_) fun _ => rfl
    obtain rfl := List.mem_singleton.mp hu
    exact Option.isNone_iff_eq_none.mp hallowed
  | scheduleRange ts =>
    obtain ⟨-, hs⟩ := Option.ite_none_right_eq_some.mp hs
    rw [(Sys.scheduleRange_spec ts false s.sys.tasks).1] at hs
    obtain rfl := Option.some.inj hs
    refine turn_of_called (a := .scheduleRange ts) h (fun u hu => ?_) fun _ => rfl
    obtain ⟨t, ht, rfl⟩ := List.mem_map.mp hu
    exact Option.isNone_iff_eq_none.mp (List.all_eq_true.mp hallowed t ht)
  | tickle | setAutoStop | setStopping =>
    rw [hnote rfl]
    obtain rfl := Option.some.inj hs
    exact turn_stay h
  | callTickle =>
    rw [hnote rfl]
    obtain ⟨-, hs⟩ := Option.ite_none_left_eq_some.mp hs
    split at hs <;> obtain rfl := Option.some.inj hs <;> exact turn_stay h
  | callWrite reader =>
    rw [hnote rfl]
    obtain ⟨-, hs⟩ := Option.ite_none_left_eq_some.mp hs
    have hwriting : Aligned { s with sys := { s.sys with writing := s.sys.writing - 1 } } :=
      ⟨h.refs, h.cbs, h.inHand, h.prepare⟩
    exact turn_of_wake hwriting hs
  | write w reader =>
    rw [hnote rfl]
    simp only [Sys.stepRunning] at hs
    split at hs
    · rename_i hpc
      obtain ⟨u, hu, rfl⟩ := Option.map_eq_some_iff.mp hs
      exact turn_of_write h hpc hu rfl rfl (fun _ => id) (by rintro _ ⟨⟩)
    · rename_i hpc
      obtain ⟨u, hu, rfl⟩ := Option.map_eq_some_iff.mp hs
      exact turn_of_write h hpc hu rfl rfl (by rintro _ ⟨⟩) (by rintro _ ⟨⟩)
    · exact absurd hs (Option.some_ne_none _).symm
  | askTimer | epollReturn | handled =>
    rw [hnote rfl]
    simp only [Sys.stepRunning] at hs
    split at hs
    · rename_i hpc
      obtain rfl := Option.some.inj hs
      exact turn_move h hpc (Sys.goto_pc_self ..) rfl
    · exact absurd hs (Option.some_ne_none _).symm
  | askPending | epoll_wait =>
    rw [hnote rfl]
    simp only [Sys.stepRunning] at hs
    split at hs
    · rename_i hpc
      split at hs <;> obtain rfl := Option.some.inj hs <;>
        exact turn_move h hpc (Sys.goto_pc_self ..) rfl
    · exact absurd hs (Option.some_ne_none _).symm
  | leaveIdle =>
    rw [hnote rfl]
    simp only [Sys.stepRunning, Sys.leaveIdle] at hs
    split at hs
    all_goals first
      | exact absurd hs (Option.some_ne_none _).symm
      | obtain rfl := Option.some.inj hs
        exact turn_move h (p := .idleBody) ‹_› (Sys.goto_pc_self ..) rfl

/-- A body puts its fiber into the queue, or `triggerEvent` does it for the body. -/
theorem turn_of_put (h : s.Aligned) {f b : ℕ} {thread : ℤ} (hs : s.put k tid f b thread = some s') :
    s'.Aligned ∧ s'.view = { s.view with entries := s.entries ++ [.fiber f (some b)] } ∧
      s'.registered = s.registered := by
  obtain ⟨sys, hsys, rfl⟩ := Option.map_eq_some_iff.mp hs
  obtain ⟨-, hrunning⟩ := Option.ite_none_left_eq_some.mp hsys
  obtain ⟨-, hcalled⟩ := Option.ite_none_right_eq_some.mp hrunning
  rw [Sys.scheduleNoLock_spec] at hcalled
  obtain rfl := Option.some.inj hcalled
  exact ⟨h.add rfl rfl rfl (by simp [Sys.pushed]), rfl, rfl⟩

/-- **Every step is a turn**, and the notes stay right. -/
theorem Aligned.of_step (h : s.Aligned) {a : BodyAct Cb} (hclean : ok → s.Clean a)
    (hs : s.step k tid a = some s') : Turn ok s.view s'.view ∧ s'.Aligned := by
  cases a with
  | act a =>
    obtain ⟨hallowed, sys, hrunning, rfl⟩ := stepRunning_of_step hs
    by_cases hrun : ∃ w, a = .run w
    · obtain ⟨w, rfl⟩ := hrun
      exact turn_of_run h hrunning
    · by_cases hleave : ∃ w st, a = .leave w st
      · obtain ⟨w, st, rfl⟩ := hleave
        exact turn_of_leave h hallowed hclean hrunning
      · exact turn_of_other h hallowed (fun w hw => hrun ⟨w, hw⟩)
          (fun w st hw => hleave ⟨w, st, hw⟩) hrunning
  | scheduleThis thread =>
    simp only [step] at hs
    split at hs
    · rename_i f own hpc
      obtain ⟨b, hb, hs⟩ := Option.bind_eq_some_iff.mp hs
      obtain ⟨haligned, hview, -⟩ := turn_of_put h hs
      exact ⟨hview ▸ .put (by rw [view, hpc]; rfl) hb, haligned⟩
    · exact absurd hs (Option.some_ne_none _).symm
  | addEvent =>
    obtain ⟨-, hs⟩ := Option.ite_none_left_eq_some.mp hs
    split at hs
    · rename_i f own hpc
      obtain ⟨b, hb, rfl⟩ := Option.map_eq_some_iff.mp hs
      exact ⟨.register (by rw [view, hpc]; rfl) hb, h.refs, h.cbs, h.inHand, h.prepare⟩
    · exact absurd hs (Option.some_ne_none _).symm
  | triggerEvent i =>
    obtain ⟨⟨f, b⟩, hreg, hs⟩ := Option.bind_eq_some_iff.mp hs
    obtain ⟨u, hput, rfl⟩ := Option.map_eq_some_iff.mp hs
    obtain ⟨haligned, hview, hregistered⟩ := turn_of_put h hput
    refine ⟨?_, haligned.refs, haligned.cbs, haligned.inHand, haligned.prepare⟩
    have hview' : { u with registered := u.registered.eraseIdx i }.view = { s.view with
        entries := s.entries ++ [.fiber f (some b)]
        registered := s.registered.eraseIdx i } := by
      rw [hregistered]
      exact congrArg (fun v : View => { v with registered := s.registered.eraseIdx i }) hview
    exact hview' ▸ .trigger hreg

end Bodies

end Scheduler

end Wille
