import Wille.ForMathlib.TicketQueue
import Wille.Scheduler.Steps

/-!
# The queue of tasks

`m_tasks` mixes tasks for one thread with tasks for any, and callbacks with fibers, and a worker
takes a task out of the middle of the list. Each task that is put in gets a ticket here, and each
dequeue is written down with the worker that made it. The books are ghosts: they are kept next to
the queue, and `Sys.step` never looks at them.

A search takes the first task that suits the worker, and a callback for any thread suits everybody.
So these leave the queue in the order in which they came, whatever happens to the others.

## Main definitions

* `Sys.adds` — the tasks that a step gives to `schedule`
* `Recorded`, `Recorded.step` — a scheduler and the books of its queue

## Main results

* `Sys.queue_of_step` — what one step does to the queue
* `Recorded.queue_discipline` — nothing is lost or taken twice, pins are respected, the oldest
  suitable task is taken, and an empty queue is announced
-/

namespace Wille

namespace Scheduler

open TransitionSystem

variable {W Cb : Type*}

/-- A callback that any thread may run. -/
def Task.isFree (t : Task Cb) : Bool := t.thread = -1 && t.fiber.isNone

namespace Sys

variable {k : Kind} {tid : W → ℤ} {s s' : Sys W Cb}

/-- The tasks that a step gives to `schedule`. -/
def adds (s : Sys W Cb) : Act W Cb → List (Task Cb)
  | .run w =>
    match s.pc w with
    | .requeue f _ => [⟨some f, none, -1⟩]
    | _ => []
  | a => a.tasks

/-- The step is one in which a call of `schedule` goes on to call `tickle`. -/
def CallsTickle (s : Sys W Cb) (a : Act W Cb) (s' : Sys W Cb) : Prop :=
  match a with
  | .run w => s'.pc w = .retickle
  | _ => s'.calling = s.calling + 1

instance (w : W) (t : Task Cb) : Decidable (s.Takes tid w t) := inferInstanceAs (Decidable (_ ∧ _))

/-- A free callback suits every worker. -/
theorem takes_of_isFree {t : Task Cb} (h : t.isFree = true) (w : W) : s.Takes tid w t := by
  simp only [Task.isFree, Bool.and_eq_true, decide_eq_true_eq, Option.isNone_iff_eq_none] at h
  refine ⟨Or.inl h.1, fun hexec => ?_⟩
  rw [Executing, h.2] at hexec
  exact absurd hexec.symm (Option.some_ne_none _)

/-- The position at which a search stops. -/
theorem findIdx_takes {w : W} {t : Task Cb} {l₁ l₂ : List (Task Cb)}
    (htasks : s.tasks = l₁ ++ t :: l₂) (ht : s.Takes tid w t)
    (hfirst : ∀ u ∈ l₁, ¬s.Takes tid w u) :
    s.tasks.findIdx (fun t => decide (s.Takes tid w t)) = l₁.length := by
  have hskip : l₁.findIdx (fun t => decide (s.Takes tid w t)) = l₁.length :=
    List.findIdx_eq_length_of_false fun u hu => decide_eq_false (hfirst u hu)
  rw [htasks, List.findIdx_append, hskip, if_neg (lt_irrefl _), List.findIdx_cons,
    decide_eq_true ht]
  exact Nat.zero_add _

section Step

variable [DecidableEq W]

/-- What is not a call of `schedule` and neither searches the queue nor puts a fiber back leaves
the queue alone. -/
theorem tasks_of_effect {a : Act W Cb} (he : Effect k tid s a s') (ha : a.tasks = [])
    (hpc : ∀ w, a = .run w → s.pc w ≠ .scan ∧ ∀ f own, s.pc w ≠ .requeue f own) :
    s'.tasks = s.tasks := by
  cases he with
  | pick h => exact absurd h (hpc _ rfl).1
  | requeue h => exact absurd h ((hpc _ rfl).2 _ _)
  | called => rw [called, ha, pushed, List.filter_nil, List.append_nil]
  | write h hp hwake => cases hwake <;> rfl
  | callWrite h hwake => cases hwake <;> rfl
  | _ => rfl

variable [Fintype W]

/-- **What one step does to the queue.** It is a search that finds the first task the worker may
take, or none, or the step adds what it was given. -/
theorem queue_of_step {a : Act W Cb} (hs : s.step k tid a = some s') :
    (∃ w, a = .run w ∧ s.pc w = .scan ∧
      ((s'.tasks = s.tasks ∧ ∀ x, s.scan tid w s.tasks ≠ .ok (some x)) ∨
      ∃ t l₁ l₂, s.scan tid w s.tasks = .ok (some (t, l₁ ++ l₂)) ∧ s'.tasks = l₁ ++ l₂ ∧
        s.tasks = l₁ ++ t :: l₂ ∧ Takes tid s w t ∧ ∀ u ∈ l₁, ¬Takes tid s w u)) ∨
    ((∀ w, a = .run w → s.pc w ≠ .scan) ∧ s'.tasks = s.tasks ++ pushed (s.adds a) ∧
      (s.tasks = [] → s'.tasks ≠ [] → s.CallsTickle a s')) := by
  have he := effect_of_step hs
  rw [step, Option.ite_none_left_eq_some] at hs
  obtain ⟨-, hs⟩ := hs
  have hquiet : ∀ b, a = b → b.tasks = [] → s.adds b = [] →
      (∀ w, b = .run w → s.pc w ≠ .scan ∧ ∀ f own, s.pc w ≠ .requeue f own) →
      (∀ w, a = .run w → s.pc w ≠ .scan) ∧ s'.tasks = s.tasks ++ pushed (s.adds a) ∧
        (s.tasks = [] → s'.tasks ≠ [] → s.CallsTickle a s') := by
    rintro b rfl htasks hadds hpc
    have hsame := tasks_of_effect he htasks hpc
    refine ⟨fun w hw => (hpc w hw).1, ?_, fun hnil hne => absurd (hsame.trans hnil) hne⟩
    rw [hsame, hadds, pushed, List.filter_nil, List.append_nil]
  cases a with
  | schedule t =>
    refine Or.inr ⟨fun _ hrun => absurd hrun (by simp), ?_⟩
    obtain ⟨-, hs⟩ := Option.ite_none_right_eq_some.mp hs
    obtain rfl := Option.some.inj hs
    rw [scheduleNoLock_spec]
    refine ⟨rfl, fun hnil _ => ?_⟩
    show (if s.tasks.isEmpty then s.calling + 1 else s.calling) = s.calling + 1
    rw [hnil]
    rfl
  | scheduleRange ts =>
    refine Or.inr ⟨fun _ hrun => absurd hrun (by simp), ?_⟩
    obtain ⟨-, hs⟩ := Option.ite_none_right_eq_some.mp hs
    obtain rfl := Option.some.inj hs
    obtain ⟨hqueue, hneed⟩ := scheduleRange_spec ts false s.tasks
    have htasks : (s.called (scheduleRange false s.tasks ts)).tasks
        = s.tasks ++ pushed (ts.map fun t => { t with thread := -1 }) := congrArg Prod.snd hqueue
    refine ⟨htasks, fun hnil hne => ?_⟩
    have htrue : (scheduleRange false s.tasks ts).1 = true := by
      by_contra hfalse
      have hts := (hneed (Bool.eq_false_of_not_eq_true hfalse)).2 hnil
      rw [htasks, hnil, hts] at hne
      exact hne rfl
    exact if_pos htrue
  | run w =>
    by_cases hscan : s.pc w = .scan
    · refine Or.inl ⟨w, rfl, hscan, ?_⟩
      simp only [stepRunning, run, hscan] at hs
      rcases (scan_cases w s.tasks : s.scan tid w s.tasks = _ ∨ _) with
        h | ⟨h, -⟩ | ⟨t, l₁, l₂, h, htasks, ht, hfirst⟩ <;> rw [h] at hs <;>
          obtain rfl := Option.some.inj hs
      · exact Or.inl ⟨rfl, fun x hx => absurd (h.symm.trans hx) (by simp)⟩
      · exact Or.inl ⟨rfl, fun x hx => absurd (h.symm.trans hx) (by simp)⟩
      · exact Or.inr ⟨t, l₁, l₂, h, rfl, htasks, ht, hfirst⟩
    refine Or.inr ?_
    by_cases hrequeue : ∃ f own, s.pc w = .requeue f own
    · obtain ⟨f, own, hpc⟩ := hrequeue
      simp only [stepRunning, run, hpc, Option.some.injEq] at hs
      subst hs
      rw [scheduleNoLock_spec, adds, hpc]
      refine ⟨fun u hu => ?_, rfl, fun hnil _ => ?_⟩
      · obtain rfl := Act.run.inj hu
        exact hscan
      · show ((s.release w own).goto w _).pc w = .retickle
        rw [goto_pc_self, hnil]
        rfl
    · have hadds : s.adds (.run w) = [] := by
        rw [adds]
        split
        · rename_i f own hpc
          exact absurd ⟨f, own, hpc⟩ hrequeue
        · rfl
      refine hquiet _ rfl rfl hadds fun u hu => ?_
      obtain rfl := Act.run.inj hu
      exact ⟨hscan, fun f own hpc => hrequeue ⟨f, own, hpc⟩⟩
  | _ => exact Or.inr (hquiet _ rfl rfl rfl fun _ hrun => absurd hrun (by simp))

end Step

end Sys

/-- A scheduler and the books of its queue. -/
structure Recorded (W Cb : Type*) where
  /-- The scheduler. -/
  sys : Sys W Cb
  /-- The books. -/
  books : TicketQueue (Task Cb) W

namespace Recorded

variable [DecidableEq W] {k : Kind} {tid : W → ℤ}

/-- Before anything has happened. -/
def init : Recorded W Cb := { sys := .init, books := .empty }

/-- What a step enters into the books: the task that a search has found and who found it, or the
tasks that are put into the queue. -/
def enter (tid : W → ℤ) (r : Recorded W Cb) (a : Act W Cb) : TicketQueue (Task Cb) W :=
  let added := r.books.push (Sys.pushed (r.sys.adds a))
  match a with
  | .run w =>
    match r.sys.pc w with
    | .scan =>
      match r.sys.scan tid w r.sys.tasks with
      | .ok (some _) => r.books.take (r.sys.tasks.findIdx fun t => decide (r.sys.Takes tid w t)) w
      | _ => r.books
    | _ => added
  | _ => added

variable [Fintype W]

/-- One step, and its entry. -/
def step (k : Kind) (tid : W → ℤ) (r : Recorded W Cb) (a : Act W Cb) : Option (Recorded W Cb) :=
  (r.sys.step k tid a).map fun s => { sys := s, books := r.enter tid a }

variable {r r' : Recorded W Cb}

omit [DecidableEq W] [Fintype W] in
/-- The entry of a search that finds a task. -/
theorem enter_of_found {w : W} (hpc : r.sys.pc w = .scan) {t : Task Cb} {l₁ l₂ : List (Task Cb)}
    (hscan : r.sys.scan tid w r.sys.tasks = .ok (some (t, l₁ ++ l₂)))
    (htasks : r.sys.tasks = l₁ ++ t :: l₂) (ht : r.sys.Takes tid w t)
    (hfirst : ∀ u ∈ l₁, ¬r.sys.Takes tid w u) :
    r.enter tid (.run w) = r.books.take l₁.length w := by
  simp only [enter, hpc, hscan, Sys.findIdx_takes htasks ht hfirst]

/-- **One step of the books.** Either a worker takes the first task that suits it, or what the step
was given is added, or nothing happens to the queue. -/
theorem books_of_step {a : Act W Cb} (hbooks : r.books.items = r.sys.tasks)
    (hs : r.step k tid a = some r') :
    r'.books.items = r'.sys.tasks ∧
    ((∃ w t l₁ l₂, a = .run w ∧ r.sys.pc w = .scan ∧ r.sys.tasks = l₁ ++ t :: l₂ ∧
      r.sys.Takes tid w t ∧ (∀ u ∈ l₁, ¬r.sys.Takes tid w u) ∧
      r'.books = r.books.take l₁.length w) ∨
    (r'.books = r.books.push (Sys.pushed (r.sys.adds a)) ∧
      (r.sys.tasks = [] → r'.sys.tasks ≠ [] → r.sys.CallsTickle a r'.sys))) := by
  obtain ⟨s, hstep, rfl⟩ := Option.map_eq_some_iff.mp hs
  rcases Sys.queue_of_step hstep with
    ⟨w, rfl, hpc, ⟨htasks, hnone⟩ | ⟨t, l₁, l₂, hscan, htasks', htasks, ht, hfirst⟩⟩ |
      ⟨hpc, htasks, htickle⟩
  · have hentry : r.enter tid (.run w) = r.books := by simp only [enter, hpc]
    have hadds : r.books.push (Sys.pushed (r.sys.adds (.run w))) = r.books := by
      rw [Sys.adds, hpc, Sys.pushed, List.filter_nil, TicketQueue.push_nil]
    exact ⟨by rw [hentry, hbooks, htasks], Or.inr ⟨hentry.trans hadds.symm,
      fun hnil hne => absurd (htasks.trans hnil) hne⟩⟩
  · refine ⟨?_, Or.inl ⟨w, t, l₁, l₂, rfl, hpc, htasks, ht, hfirst, ?_⟩⟩ <;>
      rw [enter_of_found hpc hscan htasks ht hfirst]
    obtain ⟨n, q₁, q₂, -, hq₁, hq₂, htake⟩ := TicketQueue.exists_take (hbooks.trans htasks) w
    rw [htake, htasks', TicketQueue.items, List.map_append, hq₁, hq₂]
  · have hentry : r.enter tid a = r.books.push (Sys.pushed (r.sys.adds a)) := by
      cases a with
      | run w =>
        simp only [enter]
        split
        · exact absurd ‹_› (hpc w rfl)
        · rfl
      | _ => rfl
    exact ⟨by rw [hentry, TicketQueue.items_push, hbooks, htasks], Or.inr ⟨hentry, htickle⟩⟩

/-- The books are right. -/
structure Disciplined (tid : W → ℤ) (r : Recorded W Cb) : Prop where
  items : r.books.items = r.sys.tasks
  fair : r.books.Fair Task.isFree
  nonempty : ∀ t ∈ r.books.made, t.fiber.isSome ∨ t.cb.isSome
  pinned : ∀ x ∈ r.books.taken, Eligible tid x.2 x.1.1

namespace Disciplined

omit [DecidableEq W] [Fintype W] in
theorem init : (init : Recorded W Cb).Disciplined tid :=
  ⟨rfl, .empty, fun _ h => absurd h List.not_mem_nil, fun _ h => absurd h List.not_mem_nil⟩

/-- **The step lemma.** -/
theorem of_step (h : r.Disciplined tid) {a : Act W Cb} (hs : r.step k tid a = some r') :
    r'.Disciplined tid := by
  obtain ⟨hitems, ⟨w, t, l₁, l₂, -, -, htasks, ht, hfirst, hbooks⟩ | ⟨hbooks, -⟩⟩ :=
    books_of_step h.items hs
  · obtain ⟨n, q₁, q₂, -, -, -, htake⟩ := TicketQueue.exists_take (h.items.trans htasks) w
    refine ⟨hitems, hbooks ▸ h.fair.take (h.items.trans htasks) (fun _ u hu => ?_) w, ?_, ?_⟩
    · by_contra hfree
      exact hfirst u hu (Sys.takes_of_isFree (Bool.eq_true_of_not_eq_false hfree) w)
    · rw [hbooks, htake]
      exact h.nonempty
    · rw [hbooks, htake]
      intro x hx
      rcases List.mem_append.mp hx with hx | hx
      · exact h.pinned x hx
      · rw [List.mem_singleton.mp hx]
        exact ht.1
  · refine ⟨hitems, hbooks ▸ h.fair.push _, fun t ht => ?_, ?_⟩
    · rw [hbooks] at ht
      rcases List.mem_append.mp ht with ht | ht
      · exact h.nonempty t ht
      · exact Bool.or_eq_true_iff.mp (List.mem_filter.mp ht).2
    · rw [hbooks]
      exact h.pinned

end Disciplined

/-- What a step enters: the tasks it adds, and perhaps a dequeue, which is that of the oldest task
the worker may take. -/
theorem entered_of_step (h : r.Disciplined tid) {a : Act W Cb} (hs : r.step k tid a = some r') :
    r'.books.made = r.books.made ++ Sys.pushed (r.sys.adds a) ∧
    (r'.books.taken = r.books.taken ∨ ∃ w t n, a = .run w ∧
      r'.books.taken = r.books.taken ++ [((t, n), w)] ∧ (t, n) ∈ r.books.queued ∧
      r.sys.Takes tid w t ∧ ∀ x ∈ r.books.queued, x.2 < n → ¬r.sys.Takes tid w x.1) := by
  obtain ⟨-, ⟨w, t, l₁, l₂, rfl, hpc, htasks, ht, hfirst, hbooks⟩ | ⟨hbooks, -⟩⟩ :=
    books_of_step h.items hs
  · obtain ⟨n, q₁, q₂, hq, hq₁, -, htake⟩ :=
      TicketQueue.exists_take (h.items.trans htasks) w
    have hadds : r.sys.adds (.run w) = [] := by rw [Sys.adds, hpc]
    rw [hbooks, htake, hadds]
    refine ⟨(List.append_nil _).symm, Or.inr ⟨w, t, n, rfl, rfl, ?_, ht, fun x hx hlt => ?_⟩⟩
    · rw [hq]
      simp
    · exact hfirst x.1 (hq₁ ▸ List.mem_map_of_mem (h.fair.lt_of_before hq hx hlt))
  · rw [hbooks]
    exact ⟨rfl, Or.inl rfl⟩

/-- **The discipline of the queue.** In every state reached, by whatever order of steps: the books
describe the queue; no task in it is empty; each task put in is there or has been dequeued, once; a
task for one thread was dequeued by that thread; and the free callbacks were dequeued in the order
in which they came. Every step puts in the tasks that it was given and that are not empty, a dequeue
takes the oldest task that suits the worker, and who puts a task into an empty queue calls
`tickle`. -/
theorem queue_discipline (hr : Reachable (step k tid) anyAction init r) :
    r.books.items = r.sys.tasks ∧
    (∀ t ∈ r.books.made, t.fiber.isSome ∨ t.cb.isSome) ∧
    (∀ n < r.books.made.length,
      (r.books.queued.map Prod.snd).count n + (r.books.taken.map fun x => x.1.2).count n = 1) ∧
    (∀ x ∈ r.books.taken, r.books.made[x.1.2]? = some x.1.1 ∧
      (x.1.1.thread = -1 ∨ x.1.1.thread = tid x.2)) ∧
    (r.books.taken.map Prod.fst ++ r.books.queued).filter (fun x => x.1.isFree) =
      r.books.made.zipIdx.filter (fun x => x.1.isFree) ∧
    ∀ a r', r.step k tid a = some r' →
      r'.books.made = r.books.made ++ Sys.pushed (r.sys.adds a) ∧
      (r'.books.taken = r.books.taken ∨ ∃ w t n, a = .run w ∧
        r'.books.taken = r.books.taken ++ [((t, n), w)] ∧ (t, n) ∈ r.books.queued ∧
        r.sys.Takes tid w t ∧ ∀ x ∈ r.books.queued, x.2 < n → ¬r.sys.Takes tid w x.1) ∧
      (r.sys.tasks = [] → r'.sys.tasks ≠ [] → r.sys.CallsTickle a r'.sys) := by
  have h : r.Disciplined tid :=
    hr.invariant (P := Disciplined tid) .init fun _ _ _ h _ hs => h.of_step hs
  refine ⟨h.items, h.nonempty, fun n hn => h.fair.count_eq_one hn, fun x hx => ?_, h.fair.inOrder,
    fun a r' hs => ?_⟩
  · exact ⟨h.fair.made_of_mem (List.mem_append_left _ (List.mem_map_of_mem hx)), h.pinned x hx⟩
  · obtain ⟨hmade, htaken⟩ := entered_of_step h hs
    refine ⟨hmade, htaken, fun hnil hne => ?_⟩
    obtain ⟨-, ⟨w, t, l₁, l₂, -, -, htasks, -⟩ | ⟨-, htickle⟩⟩ := books_of_step h.items hs
    · rw [hnil] at htasks
      exact absurd htasks (by simp)
    · exact htickle hnil hne

/-- A task for the second worker, a range of a callback and nothing, and the first worker takes the
callback from behind the other task. -/
def pinnedRun : List (Act Bool ℕ) :=
  [.schedule ⟨none, some 7, 2⟩, .scheduleRange [⟨none, some 8, 2⟩, ⟨none, none, 5⟩], .run true,
    .run false]

/-- The state it ends in. -/
def pinnedEnd : Recorded Bool ℕ :=
  (exec (step .ioManager fun w => if w then 1 else 2) anyAction init pinnedRun).get (by decide)

theorem queue_discipline_pinnedEnd :
    pinnedEnd.books.made.length = 2 ∧ pinnedEnd.sys.tasks = [] ∧
      (pinnedEnd.books.taken.map fun x => (x.1.2, x.2)) = [(1, true), (0, false)] ∧
      ∀ x ∈ pinnedEnd.books.taken, pinnedEnd.books.made[x.1.2]? = some x.1.1 ∧
        (x.1.1.thread = -1 ∨ x.1.1.thread = if x.2 then 1 else 2) :=
  ⟨by decide, by decide, by decide, (queue_discipline (reachable_get (by decide : (exec
    (step .ioManager fun w => if w then 1 else 2) anyAction (init : Recorded Bool ℕ)
      pinnedRun).isSome))).2.2.2.1⟩

end Recorded

end Scheduler

end Wille
