import Wille.Scheduler.Steps

/-!
# One thread for each fiber

A worker takes a fiber out of the queue if its `m_state` is not `EXEC`, and that is all that keeps
two threads off one fiber. But the state says `EXEC` too late and stops saying it too early: it is
set in `swapIn`, long after the search, and overwritten before the context is saved, or by the
`setState(HOLD)` of a worker that ran the fiber before. A fiber that is in the queue once more can
be taken up again in between, and so can a `cb_fiber` that its worker believes to be its own.

A worker *holds* a fiber from the moment it takes it up until its context is saved. If no worker
ever takes up a fiber that another one holds, then each fiber runs on one thread at a time.

## Main definitions

* `Pc.held`, `Pc.runs` — the fiber a worker holds, and the one that executes on it
* `Sys.Unheld` — a fiber that is taken up is held by nobody

## Main results

* `Sys.fiber_on_two_threads` — runs in which a fiber executes twice, and the assertion fails
* `Sys.one_thread_per_fiber` — as long as nobody takes up a fiber that is held, neither happens
-/

namespace Wille

namespace Scheduler

open TransitionSystem

variable {W Cb : Type*}

/-- The fiber that a worker has taken up and not entered yet. -/
def Pc.entering : Pc Cb → Option ℕ
  | .picked tk | .counted tk | .tickling tk | .dispatch tk => tk.fiber
  | .enter f _ => some f
  | _ => none

/-- The fiber that executes on a worker: it has been resumed and its context is not saved. -/
def Pc.runs : Pc Cb → Option ℕ
  | .body f _ | .leave f _ => some f
  | _ => none

/-- The fiber that a worker holds, from taking it up until its context is saved. -/
def Pc.held : Pc Cb → Option ℕ
  | .picked tk | .counted tk | .tickling tk | .dispatch tk => tk.fiber
  | .enter f _ | .body f _ | .leave f _ => some f
  | _ => none

/-- The worker is in its idle fiber, or about to set its state after leaving it. -/
def Pc.Idling : Pc Cb → Prop
  | .idleBody | .asked _ | .quiet | .waiting | .blocked | .awake _ | .idleLeave | .idleDone => True
  | _ => False

theorem Pc.held_of_entering {p : Pc Cb} {f : ℕ} (h : p.entering = some f) : p.held = some f := by
  cases p <;> first | exact h | exact absurd h (Option.some_ne_none f).symm

theorem Pc.held_of_runs {p : Pc Cb} {f : ℕ} (h : p.runs = some f) : p.held = some f := by
  cases p <;> first | exact h | exact absurd h (Option.some_ne_none f).symm

theorem Pc.fiber_of_held {p : Pc Cb} {f : ℕ} (h : p.held = some f) : p.fiber = some f := by
  cases p <;> first | exact h | exact absurd h (Option.some_ne_none f).symm

namespace Sys

/-- The fiber that the next step of a worker takes up: the one of the task it takes out of the
queue, or its `cb_fiber` for another callback. -/
def takesUp (tid : W → ℤ) (s : Sys W Cb) (w : W) : Option ℕ :=
  match s.pc w with
  | .scan =>
    match s.scan tid w s.tasks with
    | .ok (some (tk, _)) => tk.fiber
    | _ => none
  | .prepare _ => s.cbFiber w
  | _ => none

/-- A fiber that is taken up is held by nobody: nobody has taken it up and not entered it, has
stored its new state and not saved its context, or executes it with a state other than `EXEC`. -/
def Unheld (tid : W → ℤ) (s : Sys W Cb) : Act W Cb → Prop
  | .run w => ∀ f ∈ s.takesUp tid w, ∀ u, (s.pc u).held ≠ some f
  | _ => True

instance [Fintype W] (tid : W → ℤ) (s : Sys W Cb) : (a : Act W Cb) → Decidable (s.Unheld tid a)
  | .run w => inferInstanceAs (Decidable (∀ f ∈ s.takesUp tid w, ∀ u, (s.pc u).held ≠ some f))
  | .newFiber | .schedule _ | .scheduleRange _ | .tickle | .callTickle | .callWrite _ | .setAutoStop
  | .setStopping | .leave _ _ | .write _ _ | .askTimer _ _ | .askPending _ _ | .leaveIdle _ _
  | .epoll_wait _ | .epollReturn _ | .handled _ _ => instDecidableTrue

/-- Each fiber is held once, and whoever is about to enter one will not fail. -/
structure Exclusive (s : Sys W Cb) : Prop where
  unique : ∀ u w f, (s.pc u).held = some f → (s.pc w).held = some f → u = w
  entering : ∀ w f, (s.pc w).entering = some f → s.state f ≠ .EXEC
  idle : ∀ w, s.idleFiber w = .EXEC → (s.pc w).Idling
  fault : s.fault ≠ some .swapIn

section Step

variable [DecidableEq W] {k : Kind} {tid : W → ℤ} {s s' : Sys W Cb}

omit [DecidableEq W] in
theorem held_of_moves {w : W} {p p' : Pc Cb} (hm : Moves s w p p') {f : ℕ}
    (hf : p'.held = some f) : p.held = some f := by
  cases hm with
  | enter htask => exact htask.trans hf
  | _ => first | exact hf | exact absurd hf (Option.some_ne_none f).symm

omit [DecidableEq W] in
theorem entering_of_moves {w : W} {p p' : Pc Cb} (hm : Moves s w p p') {f : ℕ}
    (hf : p'.entering = some f) : p.entering = some f := by
  cases hm with
  | enter htask => exact htask.trans hf
  | _ => first | exact hf | exact absurd hf (Option.some_ne_none f).symm

omit [DecidableEq W] in
theorem idling_of_moves {w : W} {p p' : Pc Cb} (hm : Moves s w p p') (hp : p.Idling) :
    p'.Idling := by
  cases hm <;> exact hp

namespace Exclusive

/-- A worker goes on. -/
theorem goto (h : s.Exclusive) {w : W} {p p' : Pc Cb} (hpc : s.pc w = p)
    (hpc' : s'.pc = Function.update s.pc w p')
    (hheld : ∀ f, p'.held = some f → p.held = some f ∨ ∀ u, (s.pc u).held ≠ some f)
    (hentering : ∀ f, p'.entering = some f → s'.state f ≠ .EXEC)
    (hstate : ∀ f, s'.state f = .EXEC → s.state f = .EXEC ∨ p.held = some f)
    (hidle : s'.idleFiber w = .EXEC → p'.Idling)
    (hother : ∀ u, u ≠ w → s'.idleFiber u = s.idleFiber u := by intros; rfl)
    (hfault : s'.fault = s.fault := by rfl) : s'.Exclusive := by
  have hself : s'.pc w = p' := by rw [hpc', Function.update_self]
  have hne : ∀ u, u ≠ w → s'.pc u = s.pc u := fun u hu => by rw [hpc', Function.update_of_ne hu]
  -- nobody else has what the worker holds now
  have honly : ∀ u f, u ≠ w → p'.held = some f → (s.pc u).held ≠ some f := by
    intro u f hu hf hheldu
    rcases hheld f hf with hold | hnone
    · exact hu (h.unique u w f hheldu (hpc ▸ hold))
    · exact hnone u hheldu
  refine ⟨fun u v f hu hv => ?_, fun u f hu => ?_, fun u hu => ?_, hfault ▸ h.fault⟩
  · by_cases huw : u = w <;> by_cases hvw : v = w
    · rw [huw, hvw]
    · rw [huw, hself] at hu
      rw [hne v hvw] at hv
      exact absurd hv (honly v f hvw hu)
    · rw [hvw, hself] at hv
      rw [hne u huw] at hu
      exact absurd hu (honly u f huw hv)
    · rw [hne u huw] at hu
      rw [hne v hvw] at hv
      exact h.unique u v f hu hv
  · by_cases huw : u = w
    · rw [huw, hself] at hu
      exact hentering f hu
    · rw [hne u huw] at hu
      intro hexec
      rcases hstate f hexec with hold | hw
      · exact h.entering u f hu hold
      · exact huw (h.unique u w f (Pc.held_of_entering hu) (hpc ▸ hw))
  · by_cases huw : u = w
    · rw [huw] at hu ⊢
      rw [hself]
      exact hidle hu
    · rw [hother u huw] at hu
      rw [hne u huw]
      exact h.idle u hu

/-- A worker goes on and takes nothing up; only states other than `EXEC` are stored. -/
theorem go (h : s.Exclusive) {w : W} {p p' : Pc Cb} (hpc : s.pc w = p)
    (hpc' : s'.pc = Function.update s.pc w p') (hheld : ∀ f, p'.held = some f → p.held = some f)
    (hentering : ∀ f, p'.entering = some f → p.entering = some f) (hidle : p.Idling → p'.Idling)
    (hstate : ∀ f, s'.state f = .EXEC → s.state f = .EXEC := by exact fun _ => id)
    (hidle' : s'.idleFiber = s.idleFiber := by rfl) (hfault : s'.fault = s.fault := by rfl) :
    s'.Exclusive := by
  refine h.goto hpc hpc' (fun f hf => Or.inl (hheld f hf)) (fun f hf hexec => ?_)
    (fun f hf => Or.inl (hstate f hf)) (fun hexec => ?_) (fun u _ => by rw [hidle']) hfault
  · exact h.entering w f (hpc ▸ hentering f hf) (hstate f hexec)
  · rw [hidle'] at hexec
    exact hidle (hpc ▸ h.idle w hexec)

omit [DecidableEq W] in
/-- Nobody moves. -/
theorem congr (h : s.Exclusive)
    (hstate : ∀ f, s'.state f = .EXEC → s.state f = .EXEC := by exact fun _ => id)
    (hpc : s'.pc = s.pc := by rfl) (hidle : s'.idleFiber = s.idleFiber := by rfl)
    (hfault : s'.fault = s.fault := by rfl) : s'.Exclusive := by
  refine ⟨hpc ▸ h.unique, fun w f hw hexec => ?_, ?_, hfault ▸ h.fault⟩
  · exact h.entering w f (hpc ▸ hw) (hstate f hexec)
  · rw [hidle, hpc]
    exact h.idle

omit [DecidableEq W] in
/-- Storing another state than `EXEC`. -/
theorem exec_of_setState {f g : ℕ} {st : Fiber.State} (hst : st ≠ .EXEC)
    (h : (s.setState f st).state g = .EXEC) : s.state g = .EXEC := by
  rcases eq_or_ne g f with rfl | hne
  · rw [setState_state_self] at h
    exact absurd h hst
  · rwa [setState_state_of_ne s hne] at h

theorem woken (h : s.Exclusive) {reader : Option W} (hw : Woken s reader s') : s'.Exclusive := by
  cases hw with
  | reader hx => exact h.go hx rfl (fun _ => id) (fun _ => id) id
  | pipe hnone => exact h.congr

/-- **The step lemma.** -/
theorem of_effect (h : s.Exclusive) (b : s.Bounded) {a : Act W Cb} (hok : s.Unheld tid a)
    (he : Effect k tid s a s') : s'.Exclusive := by
  cases he with
  | move hpc hm =>
    exact h.go hpc rfl (fun _ => held_of_moves hm) (fun _ => entering_of_moves hm)
      (idling_of_moves hm)
  | @pick w t l₁ l₂ hpc hscan htasks ht =>
    have htakes : s.takesUp tid w = t.fiber := by simp only [takesUp, hpc, hscan]
    refine h.goto hpc rfl (fun f hf => Or.inr (hok f (htakes.trans hf))) (fun f hf hexec => ?_)
      (fun f => Or.inl) (fun hexec => ?_)
    · refine ht.2 ?_
      rw [Executing, show t.fiber = some f from hf]
      exact congrArg some hexec
    · exact (hpc ▸ h.idle w hexec : (Pc.scan : Pc Cb).Idling)
  | count hpc => exact h.go hpc rfl (fun _ => id) (fun _ => id) id
  | @uncount w p p' hpc hp =>
    cases hp <;> exact h.go hpc rfl nofun nofun id
  | @deaf w p p' hpc hp hidle =>
    cases hp with
    | counted => exact h.go hpc rfl (fun _ => id) (fun _ => id) id
    | retickle => exact h.go hpc rfl nofun nofun id
  | @reuse w cb f hpc hown hst =>
    have htakes : s.takesUp tid w = some f := by simp only [takesUp, hpc, hown]
    refine h.goto hpc rfl (fun g hg => Or.inr ?_) (fun g hg => ?_)
      (fun g hg => Or.inl (exec_of_setState (by decide) hg)) (fun hexec => ?_)
    · obtain rfl := Option.some.inj hg
      exact hok f htakes
    · obtain rfl := Option.some.inj hg
      show (s.setState f .INIT).state f ≠ .EXEC
      rw [setState_state_self]
      decide
    · exact (hpc ▸ h.idle w hexec : (Pc.prepare cb : Pc Cb).Idling)
  | @create w cb hpc hown =>
    refine h.goto hpc rfl (fun g hg => Or.inr fun u hu => ?_) (fun g hg => ?_)
      (fun g hg => Or.inl (exec_of_setState (by decide) hg)) (fun hexec => ?_)
    · obtain rfl := Option.some.inj hg
      exact absurd (b.pcs u _ (Pc.fiber_of_held hu)) (lt_irrefl _)
    · obtain rfl := Option.some.inj hg
      show (s.setState s.created .INIT).state s.created ≠ .EXEC
      rw [setState_state_self]
      decide
    · exact (hpc ▸ h.idle w hexec : (Pc.prepare cb : Pc Cb).Idling)
  | @enter w f own hpc hst =>
    refine h.goto hpc rfl (fun _ => Or.inl) nofun (fun g hg => ?_) (fun hexec => ?_)
    · rcases eq_or_ne g f with rfl | hne
      · exact Or.inr rfl
      · exact Or.inl ((setState_state_of_ne s hne _).symm.trans hg)
    · exact (hpc ▸ h.idle w hexec : (Pc.enter f own : Pc Cb).Idling)
  | leave hpc hst =>
    exact h.go hpc rfl (fun _ => id) nofun id (fun _ => exec_of_setState hst)
  | @requeue w f own p hpc hp =>
    rcases hp with ⟨-, rfl⟩ | rfl <;> exact h.go hpc rfl nofun nofun id
  | hold hpc | finish hpc =>
    exact h.go hpc rfl nofun nofun id (fun _ => exec_of_setState (by decide))
  | idleIn hpc =>
    exact h.goto hpc rfl nofun nofun (fun _ => Or.inl) (fun _ => trivial)
      (fun _ hu => Function.update_of_ne hu ..)
  | idleOut hpc hp hst =>
    exact h.goto hpc rfl nofun nofun (fun _ => Or.inl) (fun _ => trivial)
      (fun _ hu => Function.update_of_ne hu ..)
  | @idleRest w st hpc hst =>
    refine h.goto hpc rfl nofun nofun (fun _ => Or.inl) (fun hexec => ?_)
      (fun _ hu => Function.update_of_ne hu ..)
    have hself : Function.update s.idleFiber w st w = st := Function.update_self ..
    exact absurd (hself.symm.trans hexec) hst
  | miss hpc | idleUp hpc | idleDown hpc | report hpc | handled hpc =>
    exact h.go hpc rfl nofun nofun id
  | @write w p p' reader s₁ hpc hp hwake =>
    have hpc₁ := pc_of_afterWrite hwake hpc hp
    cases hp with
    | tickling =>
      exact (h.woken hwake).go hpc₁ rfl (fun _ => id) (fun _ => id) id
    | rewrite => exact (h.woken hwake).go hpc₁ rfl nofun nofun id
  | callWrite hwriting hwake =>
    have h₁ : Exclusive { s with writing := s.writing - 1 } := h.congr
    exact h₁.woken hwake
  | newFiber => exact h.congr fun _ => exec_of_setState (by decide)
  | called | tickle | callTickle | callDeaf | flags => exact h.congr
  | @fail a f hf =>
    refine ⟨h.unique, h.entering, h.idle, fun heq => ?_⟩
    obtain rfl := Option.some.inj heq
    cases hf with
    | @enter w g own hpc hst => exact h.entering w g (by rw [hpc]; rfl) hst
    | @idleEnter w hpc hst => exact (hpc ▸ h.idle w hst : (Pc.idleEnter : Pc Cb).Idling)
    | other hne => exact hne rfl

end Exclusive

section Run

variable [Fintype W]

/-- **One thread for each fiber.** In every run in which nobody takes up a fiber that another
worker holds, no fiber executes on two threads and the assertion of `swapIn` never fails. -/
theorem one_thread_per_fiber (hr : Reachable (step k tid) (Unheld tid) Sys.init s) :
    (∀ u w f, (s.pc u).runs = some f → (s.pc w).runs = some f → u = w) ∧
      s.fault ≠ some .swapIn := by
  have h : s.Exclusive := by
    refine hr.invariant_of_reachable (P := Exclusive) (J := Bounded) (fun _ hu => bounded hu) ?_
      fun _ _ _ b h hok hs => h.of_effect b hok (effect_of_step hs)
    exact ⟨nofun, nofun, nofun, nofun⟩
  exact ⟨fun u w f hu hw => h.unique u w f (Pc.held_of_runs hu) (Pc.held_of_runs hw), h.fault⟩

end Run

end Step

/-- The workers of the runs below. -/
def twoThreads (w : Bool) : ℤ := if w then 1 else 2

/-- A fiber that is in the queue again stores `HOLD`, and another worker resumes it before its
context is saved. -/
def yieldRun : List (Act Bool ℕ) :=
  [.newFiber, .schedule ⟨some 0, none, -1⟩, .run true, .run true, .run true, .run true, .run true,
    .schedule ⟨some 0, none, -1⟩, .leave true .HOLD, .run false, .run false, .run false,
    .run false, .run false]

/-- A fiber that is in the queue twice is taken up by two workers. -/
def twiceRun : List (Act Bool ℕ) :=
  [.newFiber, .schedule ⟨some 0, none, -1⟩, .schedule ⟨some 0, none, -1⟩, .run true, .run false,
    .run true, .run true, .run true, .run true, .run false, .run false, .run false, .run false]

/-- **A fiber on two threads.** It executes on two workers at once in one run, and in another one
the assertion of `swapIn` fails. -/
theorem fiber_on_two_threads :
    (¬∀ s : Sys Bool ℕ, Reachable (step .ioManager twoThreads) anyAction Sys.init s →
      ∀ u w f, (s.pc u).runs = some f → (s.pc w).runs = some f → u = w) ∧
    ¬∀ s : Sys Bool ℕ, Reachable (step .ioManager twoThreads) anyAction Sys.init s →
      s.fault ≠ some .swapIn := by
  refine ⟨fun h => ?_, fun h => ?_⟩
  · have hboth := h _ (reachable_get (by decide : (exec (step .ioManager twoThreads) anyAction
      Sys.init yieldRun).isSome)) true false 0 rfl rfl
    exact absurd hboth (by decide)
  · exact h _ (reachable_get (by decide : (exec (step .ioManager twoThreads) anyAction
      Sys.init twiceRun).isSome)) rfl

/-- A fiber yields, is put back, and goes on with the other worker. -/
def handoverRun : List (Act Bool ℕ) :=
  [.newFiber, .schedule ⟨some 0, none, -1⟩, .run true, .run true, .run true, .run true, .run true,
    .leave true .READY, .run true, .run true, .run true, .run true, .run false, .run false,
    .run false, .run false, .run false]

/-- The state it ends in. -/
def handoverEnd : Sys Bool ℕ :=
  (exec (step .ioManager twoThreads) (Unheld twoThreads) Sys.init handoverRun).get (by decide)

theorem one_thread_per_fiber_handoverEnd :
    (handoverEnd.pc false).runs = some 0 ∧ (handoverEnd.pc true).runs = none ∧
      ∀ u w f, (handoverEnd.pc u).runs = some f → (handoverEnd.pc w).runs = some f → u = w :=
  ⟨by decide, by decide, (one_thread_per_fiber (reachable_get (by decide : (exec
    (step .ioManager twoThreads) (Unheld twoThreads) Sys.init handoverRun).isSome))).1⟩

end Sys

end Scheduler

end Wille
