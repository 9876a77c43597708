import Wille.ForMathlib.Counting
import Wille.Scheduler.Active
import Wille.Scheduler.Exclusive

/-!
# The workers leave `run`

`stop` joins the threads of the workers, so it returns only if each of them leaves its loop. Here
the queue is empty, no worker has a task, both flags of `stop` are set, and for an `IOManager`
there is neither a timer nor a pending event. From then on, whatever the order of steps, each step
takes a worker nearer to the end of `run`: a worker that is blocked in `epoll_wait` comes out of it
at the latest after its timeout, and the next time round `stopping` holds.

## Main definitions

* `Pc.Settling`, `Sys.Drained` — every worker is looking for a task in vain, or idle
* `Sys.Settles` — the steps that are left
* `Sys.rest`, `Sys.measure` — how many steps a worker, and all of them, can still make

## Main results

* `Sys.Drained.of_step` — one step
* `Sys.workers_leave` — every run comes to an end, and there all workers have left `run`
-/

namespace Wille

namespace Scheduler

open TransitionSystem Counting

variable {W Cb : Type*}

/-- The worker has no task. -/
def Pc.Settling : Pc Cb → Prop
  | .scan | .noTask | .idleEnter | .idleBody | .asked _ | .quiet | .waiting | .blocked | .awake _
  | .idleLeave | .idleDone | .exited => True
  | _ => False

/-- How many steps a worker can still make, from the state of its idle fiber and its place. -/
def rest (st : Fiber.State) : Pc Cb → ℕ
  | .noTask => if st = .TERM then 1 else 9
  | .scan => if st = .TERM then 2 else 10
  | .idleDone => if st = .TERM then 3 else 11
  | .idleLeave => if st = .TERM then 4 else 12
  | .quiet => 5
  | .asked true => 6
  | .idleBody => 7
  | .idleEnter => 8
  | .awake _ => 13
  | .blocked => 14
  | .waiting => 15
  | .asked false => 16
  | _ => 0

namespace Sys

/-- After `stop` has set its flags, nothing is queued and no worker has a task. -/
structure Drained (s : Sys W Cb) : Prop where
  fault : s.fault = none
  tasks : s.tasks = []
  active : s.active = 0
  autoStop : s.autoStop = true
  isStopping : s.isStopping = true
  settling : ∀ w, (s.pc w).Settling
  idle : ∀ w, s.idleFiber w = .EXEC → (s.pc w).Idling

/-- The steps that are left when nobody schedules anything any more: those of the workers, with no
timer and no pending event, and the rest of the calls of `tickle` that have begun. -/
def Settles (_ : Sys W Cb) : Act W Cb → Prop
  | .run _ | .epoll_wait _ | .epollReturn _ | .handled _ _ | .callTickle | .callWrite _ => True
  | .askTimer _ noTimer => noTimer = true
  | .askPending _ zero => zero = true
  | _ => False

instance (s : Sys W Cb) : (a : Act W Cb) → Decidable (s.Settles a)
  | .run _ | .epoll_wait _ | .epollReturn _ | .handled _ _ | .callTickle | .callWrite _ =>
    instDecidableTrue
  | .askTimer _ noTimer => inferInstanceAs (Decidable (noTimer = true))
  | .askPending _ zero => inferInstanceAs (Decidable (zero = true))
  | .newFiber | .schedule _ | .scheduleRange _ | .tickle | .setAutoStop | .setStopping | .leave _ _
  | .write _ _ | .leaveIdle _ _ => instDecidableFalse

variable [Fintype W]

/-- How many steps there can still be. -/
def measure (s : Sys W Cb) : ℕ :=
  ∑ w, rest (s.idleFiber w) (s.pc w) + (2 * s.calling + s.writing)

variable [DecidableEq W] {k : Kind} {tid : W → ℤ} {s s' : Sys W Cb}

omit [Fintype W] [DecidableEq W] in
theorem Drained.stopping (h : s.Drained) : s.stopping = true := by
  simp [Sys.stopping, h.autoStop, h.isStopping, h.tasks, h.active]

/-- One worker goes on, and comes nearer to the end. -/
theorem Drained.turn (h : s.Drained) {w : W} {st : Fiber.State} {p : Pc Cb}
    (hpc : s'.pc = Function.update s.pc w p)
    (hidle : s'.idleFiber = Function.update s.idleFiber w st) (hp : p.Settling)
    (hst : st = .EXEC → p.Idling) (hlt : rest st p < rest (s.idleFiber w) (s.pc w))
    (htasks : s'.tasks = s.tasks := by rfl) (hactive : s'.active = s.active := by rfl)
    (hauto : s'.autoStop = s.autoStop := by rfl) (hstop : s'.isStopping = s.isStopping := by rfl)
    (hfault : s'.fault = s.fault := by rfl) (hcalling : s'.calling = s.calling := by rfl)
    (hwriting : s'.writing ≤ s.writing := by rfl) :
    s'.Drained ∧ s'.measure < s.measure := by
  have hplace : (fun u => (s'.idleFiber u, s'.pc u))
      = Function.update (fun u => (s.idleFiber u, s.pc u)) w (st, p) := by
    funext u
    rcases eq_or_ne u w with rfl | hne
    · simp [hpc, hidle]
    · simp [hpc, hidle, Function.update_of_ne hne]
  constructor
  · refine ⟨hfault.trans h.fault, htasks.trans h.tasks, hactive.trans h.active,
      hauto.trans h.autoStop, hstop.trans h.isStopping, fun u => ?_, fun u => ?_⟩
    · rcases eq_or_ne u w with rfl | hne
      · rwa [hpc, Function.update_self]
      · rw [hpc, Function.update_of_ne hne]
        exact h.settling u
    · rcases eq_or_ne u w with rfl | hne
      · rwa [hpc, hidle, Function.update_self, Function.update_self]
      · rw [hpc, hidle, Function.update_of_ne hne, Function.update_of_ne hne]
        exact h.idle u
  · have hsum := sum_update_add (fun x : Fiber.State × Pc Cb => rest x.1 x.2)
      (fun u => (s.idleFiber u, s.pc u)) w (st, p)
    rw [← hplace] at hsum
    simp only at hsum
    unfold measure
    omega

/-- One worker goes on, with the state of its idle fiber as it was. -/
theorem Drained.go (h : s.Drained) {w : W} {p : Pc Cb}
    (hpc : s'.pc = Function.update s.pc w p) (hp : p.Settling)
    (hidle : s.idleFiber w = .EXEC → p.Idling)
    (hlt : rest (s.idleFiber w) p < rest (s.idleFiber w) (s.pc w))
    (hsame : s'.idleFiber = s.idleFiber := by rfl)
    (htasks : s'.tasks = s.tasks := by rfl) (hactive : s'.active = s.active := by rfl)
    (hauto : s'.autoStop = s.autoStop := by rfl) (hstop : s'.isStopping = s.isStopping := by rfl)
    (hfault : s'.fault = s.fault := by rfl) (hcalling : s'.calling = s.calling := by rfl)
    (hwriting : s'.writing ≤ s.writing := by rfl) :
    s'.Drained ∧ s'.measure < s.measure :=
  h.turn hpc (hsame.trans (Function.update_eq_self w s.idleFiber).symm) hp hidle hlt htasks hactive
    hauto hstop hfault hcalling hwriting

omit [Fintype W] [DecidableEq W] in
/-- The search finds nothing. -/
theorem Drained.scan_eq (h : s.Drained) (w : W) : s.scan tid w s.tasks = .ok none := by
  rw [h.tasks]
  rfl

/-- The next step of a worker without a choice. -/
theorem Drained.of_run (h : s.Drained) {w : W}
    (hs : s.run k tid w = some s') : s'.Drained ∧ s'.measure < s.measure := by
  have hsettling := h.settling w
  have hidle := h.idle w
  cases hpc : s.pc w <;> simp only [hpc, Pc.Settling, Pc.Idling] at hsettling hidle <;>
    simp only [run, hpc] at hs
  case scan =>
    rw [h.scan_eq w] at hs
    obtain rfl := Option.some.inj hs
    exact h.go rfl trivial hidle (by rw [hpc]; simp only [rest]; split <;> omega)
  case noTask =>
    split at hs <;> obtain rfl := Option.some.inj hs
    · rename_i hterm
      exact h.go rfl trivial hidle (by simp [hpc, rest, hterm])
    · rename_i hterm
      exact h.go rfl trivial hidle (by simp [hpc, rest, hterm])
  case idleEnter =>
    split at hs <;> obtain rfl := Option.some.inj hs
    · exact (hidle ‹_›).elim
    · exact h.turn rfl rfl trivial (fun _ => trivial) (by simp [hpc, rest])
  case idleBody =>
    split at hs
    · rw [h.stopping] at hs
      obtain rfl := Option.some.inj hs
      exact h.turn rfl rfl trivial (fun _ => trivial) (by simp [hpc, rest])
    · exact absurd hs (Option.some_ne_none _).symm
  case asked noTimer =>
    rw [h.stopping] at hs
    obtain rfl := Option.some.inj hs
    cases noTimer
    · exact h.go rfl trivial (fun _ => trivial) (by simp [hpc, rest])
    · exact h.go rfl trivial (fun _ => trivial) (by simp [hpc, rest])
  case idleLeave =>
    obtain rfl := Option.some.inj hs
    exact h.go rfl trivial (fun _ => trivial) (by rw [hpc]; simp only [rest]; split <;> omega)
  case idleDone =>
    obtain rfl := Option.some.inj hs
    refine h.turn rfl rfl trivial ?_ ?_
    · split
      · rename_i hend
        intro hexec
        rw [hexec] at hend
        exact absurd hend (by decide)
      · rintro ⟨⟩
    · rw [hpc]
      cases s.idleFiber w <;> simp [rest, Fiber.State.termOrExcept]
  all_goals exact absurd hs (Option.some_ne_none _).symm

/-- A byte is written. -/
theorem Drained.wake (h : s.Drained) {reader : Option W} (hwriting : s.writing ≠ 0)
    (hw : ({ s with writing := s.writing - 1 } : Sys W Cb).wake reader = some s') :
    s'.Drained ∧ s'.measure < s.measure := by
  cases woken_of_wake hw with
  | @reader x hx =>
    have hpc : s.pc x = .blocked := hx
    exact h.go rfl trivial (fun _ => trivial) (by simp [hpc, rest])
      rfl rfl rfl rfl rfl rfl rfl (Nat.sub_le ..)
  | pipe hnone =>
    refine ⟨⟨h.fault, h.tasks, h.active, h.autoStop, h.isStopping, h.settling, h.idle⟩, ?_⟩
    unfold measure
    dsimp only
    omega

/-- **The step lemma.** -/
theorem Drained.of_step (h : s.Drained) {a : Act W Cb} (ha : s.Settles a)
    (hs : s.step k tid a = some s') : s'.Drained ∧ s'.measure < s.measure := by
  rw [step, Option.ite_none_left_eq_some] at hs
  obtain ⟨-, hs⟩ := hs
  cases a with
  | run w => exact h.of_run hs
  | callTickle =>
    obtain ⟨hcalling, hs⟩ := Option.ite_none_left_eq_some.mp hs
    split at hs <;> obtain rfl := Option.some.inj hs
    all_goals
      refine ⟨⟨h.fault, h.tasks, h.active, h.autoStop, h.isStopping, h.settling, h.idle⟩, ?_⟩
      unfold measure
      dsimp only
      omega
  | callWrite reader =>
    obtain ⟨hwriting, hs⟩ := Option.ite_none_left_eq_some.mp hs
    exact h.wake hwriting hs
  | askTimer w noTimer =>
    obtain rfl : noTimer = true := ha
    simp only [stepRunning] at hs
    split at hs
    · rename_i hpc
      obtain rfl := Option.some.inj hs
      exact h.go rfl trivial (fun _ => trivial) (by simp [hpc, rest])
    · exact absurd hs (Option.some_ne_none _).symm
  | askPending w zero =>
    obtain rfl : zero = true := ha
    simp only [stepRunning] at hs
    split at hs
    · rename_i hpc
      obtain rfl := Option.some.inj hs
      exact h.turn rfl rfl trivial (fun _ => trivial) (by simp [hpc, rest])
    · exact absurd hs (Option.some_ne_none _).symm
  | epoll_wait w =>
    simp only [stepRunning] at hs
    split at hs
    · rename_i hpc
      split at hs <;> obtain rfl := Option.some.inj hs
      · exact h.go rfl trivial (fun _ => trivial) (by simp [hpc, rest])
      · exact h.go rfl trivial (fun _ => trivial) (by simp [hpc, rest])
    · exact absurd hs (Option.some_ne_none _).symm
  | epollReturn w =>
    simp only [stepRunning] at hs
    split at hs
    · rename_i hpc
      obtain rfl := Option.some.inj hs
      exact h.go rfl trivial (fun _ => trivial) (by simp [hpc, rest])
    · exact absurd hs (Option.some_ne_none _).symm
  | handled w left =>
    simp only [stepRunning] at hs
    split at hs
    · rename_i pipe hpc
      obtain rfl := Option.some.inj hs
      exact h.go rfl trivial (fun _ => trivial) (by rw [hpc]; simp only [rest]; split <;> omega)
    · exact absurd hs (Option.some_ne_none _).symm
  | _ => exact ha.elim

/-- A worker that has not left `run` can go on. -/
theorem Drained.exists_step (h : s.Drained) (hk : k ≠ .custom) {w : W} (hw : s.pc w ≠ .exited) :
    ∃ a, s.Settles a ∧ s.step k tid a ≠ none := by
  have hsettling := h.settling w
  have hrun (hs : s.run k tid w ≠ none) : ∃ a, s.Settles a ∧ s.step k tid a ≠ none :=
    ⟨.run w, trivial, by simpa [step, h.fault, stepRunning] using hs⟩
  cases hpc : s.pc w <;> simp only [hpc, Pc.Settling] at hsettling hw
  case scan => exact hrun (by simp [run, hpc, h.scan_eq w])
  case noTask => exact hrun (by simp only [run, hpc]; split <;> simp)
  case idleEnter => exact hrun (by simp only [run, hpc]; split <;> simp)
  case idleBody =>
    cases k with
    | scheduler => exact hrun (by simp [run, hpc])
    | ioManager => exact ⟨.askTimer w true, rfl, by simp [step, h.fault, stepRunning, hpc]⟩
    | custom => exact absurd rfl hk
  case asked => exact hrun (by simp [run, hpc])
  case quiet => exact ⟨.askPending w true, rfl, by simp [step, h.fault, stepRunning, hpc]⟩
  case waiting =>
    refine ⟨.epoll_wait w, trivial, ?_⟩
    rw [step, if_neg (by simp [h.fault])]
    simp only [stepRunning, hpc]
    split <;> simp
  case blocked => exact ⟨.epollReturn w, trivial, by simp [step, h.fault, stepRunning, hpc]⟩
  case awake pipe =>
    exact ⟨.handled w false, trivial, by simp [step, h.fault, stepRunning, hpc]⟩
  case idleLeave => exact hrun (by simp [run, hpc])
  case idleDone => exact hrun (by simp [run, hpc])
  case exited => exact absurd rfl hw

/-! ### Whole runs -/

/-- Only inside `idle`, or right after it, is an idle fiber in `EXEC`. -/
def IdleInside (s : Sys W Cb) : Prop := ∀ w, s.idleFiber w = .EXEC → (s.pc w).Idling

omit [Fintype W] in
theorem IdleInside.goto (h : s.IdleInside) {w : W} {p p' : Pc Cb} (hpc : s.pc w = p)
    (hpc' : s'.pc = Function.update s.pc w p') (hp : p.Idling → p'.Idling)
    (hidle : s'.idleFiber = s.idleFiber := by rfl) : s'.IdleInside := by
  intro u hu
  rw [hidle] at hu
  rw [hpc']
  rcases eq_or_ne u w with rfl | hne
  · rw [Function.update_self]
    exact hp (hpc ▸ h u hu)
  · rw [Function.update_of_ne hne]
    exact h u hu

omit [Fintype W] in
/-- The state of one idle fiber is set. -/
theorem IdleInside.set (h : s.IdleInside) {w : W} {p' : Pc Cb} {st : Fiber.State}
    (hpc' : s'.pc = Function.update s.pc w p')
    (hidle : s'.idleFiber = Function.update s.idleFiber w st) (hp : st = .EXEC → p'.Idling) :
    s'.IdleInside := by
  intro u hu
  rw [hidle] at hu
  rw [hpc']
  rcases eq_or_ne u w with rfl | hne
  · rw [Function.update_self] at hu ⊢
    exact hp hu
  · rw [Function.update_of_ne hne] at hu ⊢
    exact h u hu

omit [Fintype W] in
theorem IdleInside.woken (h : s.IdleInside) {reader : Option W} (hw : Woken s reader s') :
    s'.IdleInside := by
  cases hw with
  | reader hx => exact h.goto hx rfl id
  | pipe => exact h

omit [Fintype W] in
theorem IdleInside.of_effect (h : s.IdleInside) {a : Act W Cb} (he : Effect k tid s a s') :
    s'.IdleInside := by
  cases he with
  | move hpc hm => exact h.goto hpc rfl (idling_of_moves hm)
  | uncount hpc hp | deaf hpc hp => exact h.goto hpc rfl (by cases hp <;> exact False.elim)
  | idleIn hpc => exact h.set rfl rfl fun _ => trivial
  | idleOut hpc hp hst | idleRest hpc hst => exact h.set rfl rfl fun hexec => absurd hexec hst
  | idleDown hpc | handled hpc | report hpc => exact h.goto hpc rfl fun _ => trivial
  | write hpc hp hwake =>
    exact (h.woken hwake).goto (pc_of_afterWrite hwake hpc hp) rfl
      (by cases hp <;> exact False.elim)
  | callWrite hwriting hwake =>
    have h₁ : IdleInside { s with writing := s.writing - 1 } := h
    exact h₁.woken hwake
  | newFiber | called | tickle | callTickle | callDeaf | flags | fail => exact h
  | miss hpc | pick hpc | count hpc | reuse hpc | create hpc | enter hpc | leave hpc | requeue hpc
  | hold hpc | finish hpc | idleUp hpc => exact h.goto hpc rfl False.elim

/-- **The workers leave `run`.** Take any state that a `Scheduler` or an `IOManager` reaches, by
whatever order of steps, in which `stop` has set both its flags, the queue is empty and no worker
has a task. If nothing is scheduled any more and there is neither a timer nor a pending event, then
every run from there comes to an end, after no more steps than `measure` says, and where no step is
left every worker has left `run`, so that `stop` can join its threads. -/
theorem workers_leave (hk : k ≠ .custom) (hr : Reachable (step k tid) anyAction Sys.init s)
    (hfault : s.fault = none) (htasks : s.tasks = []) (hauto : s.autoStop = true)
    (hstop : s.isStopping = true) (hsettling : ∀ w, (s.pc w).Settling) {as : List (Act W Cb)}
    {t : Sys W Cb} (hrun : exec (step k tid) Settles s as = some t) :
    as.length ≤ s.measure ∧
      ((∀ a, t.Settles a → t.step k tid a = none) → t.fault = none ∧ ∀ w, t.pc w = .exited) := by
  have hactive : s.active = 0 := by
    rw [active_eq hr]
    have hzero : ∀ w, (s.pc w).active = 0 := fun w => by
      have := hsettling w
      cases hpc : s.pc w <;> simp_all [Pc.Settling, Pc.active]
    simp [hzero]
  have hidle : s.IdleInside := hr.invariant (P := IdleInside) (by rintro w ⟨⟩)
    fun _ _ _ h _ hs => h.of_effect (effect_of_step hs)
  have hd : s.Drained := ⟨hfault, htasks, hactive, hauto, hstop, hsettling, hidle⟩
  obtain ⟨ht, hle⟩ := exec_measure measure hrun hd fun _ _ _ hu ha hs => hu.of_step ha hs
  refine ⟨by omega, fun hend => ⟨ht.fault, fun w => ?_⟩⟩
  by_contra hw
  obtain ⟨a, ha, hstep⟩ := ht.exists_step hk hw
  exact hstep (hend a ha)

/-- A worker blocks in `epoll_wait`, and `stop` sets its flags and calls `tickle`. -/
def stopRun : List (Act Unit ℕ) :=
  [.run (), .run (), .run (), .askTimer () true, .run (), .epoll_wait (), .setAutoStop,
   .setStopping, .tickle]

/-- Where that run ends. -/
def stopEnd : Sys Unit ℕ :=
  (exec (step .ioManager fun _ => 1) anyAction init stopRun).get (by decide)

/-- The byte wakes the worker, which goes round once more and leaves `run`. -/
def leaveRun : List (Act Unit ℕ) :=
  [.callTickle, .callWrite (some ()), .handled () false, .run (), .run (), .run (), .run (),
   .run (), .askTimer () true, .run (), .askPending () true, .run (), .run (), .run (), .run ()]

theorem workers_leave_stopEnd : leaveRun.length ≤ stopEnd.measure := by
  have hr : Reachable (step .ioManager fun _ => 1) anyAction init stopEnd := reachable_get _
  have hrun : (exec (step .ioManager fun _ => 1) Settles stopEnd leaveRun).isSome := by decide
  exact (workers_leave (by decide) hr (by decide) rfl rfl rfl (fun _ => trivial)
    (Option.some_get hrun).symm).1

end Sys

end Scheduler

end Wille
