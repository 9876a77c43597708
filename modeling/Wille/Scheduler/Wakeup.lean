import Wille.ForMathlib.Counting
import Wille.Scheduler.Steps

/-!
# Wake-ups that get lost

A worker that finds no task is *committed*: it will not look at the queue again before
`epoll_wait` has returned. A task is *stranded* if its fiber is not executing and every worker it
may run on is committed, and a *wake-up* is a byte that nobody has read, or a `tickle` that is not
over. The rule that keeps a task from being left behind is: while a task is stranded, there is a
wake-up.

The code does not keep it. `schedule` calls `tickle` only for a queue that was empty, `tickle`
writes only if `m_idleThreadCount` is positive, which a committed worker may not have raised yet,
and a byte may wake a worker that cannot run the task. The steps below are all the ways in which a
wake-up is used up or a task is stranded. If none of them breaks the rule, nothing does.

## Main definitions

* `Pc.committed`, `Sys.Stranded`, `Sys.wakes`
* `Sys.Heard` — no step uses up the last wake-up of a stranded task, or strands one without any
* `Sys.Asleep` — everybody is blocked, and there is a task for somebody

## Main results

* `Sys.asleep_with_a_task` — a run with one worker that ends so
* `Sys.never_asleep` — no run that keeps the rule does
-/

namespace Wille

namespace Scheduler

open TransitionSystem Counting

variable {W Cb : Type*}

/-- The worker will not look at the queue again before `epoll_wait` has returned. -/
def Pc.committed : Pc Cb → Bool
  | .noTask | .idleEnter | .idleBody | .asked _ | .quiet | .waiting | .blocked => true
  | _ => false

/-- The worker is about to call `tickle`, or in it. -/
def Pc.tickles : Pc Cb → ℕ
  | .picked _ | .counted _ | .tickling _ | .retickle | .rewrite => 1
  | _ => 0

namespace Sys

/-- Every worker that the task may run on is committed, and there is one. -/
def Waits (tid : W → ℤ) (s : Sys W Cb) (t : Task Cb) : Prop :=
  (∃ w, Eligible tid w t) ∧ ∀ w, Eligible tid w t → (s.pc w).committed = true

/-- The task waits, and could run. -/
def Stranded (tid : W → ℤ) (s : Sys W Cb) (t : Task Cb) : Prop :=
  ¬s.Executing t ∧ s.Waits tid t

/-- A `tickle` that writes nothing, or a byte that is drained before it was reported. -/
def mutes (k : Kind) (s : Sys W Cb) : Act W Cb → Bool
  | .run w =>
    match s.pc w with
    | .counted _ | .retickle => !s.tickles k
    | _ => false
  | .callTickle => !s.tickles k
  | .handled w left =>
    match s.pc w with
    | .awake pipe => s.unreported && pipe && !left
    | _ => false
  | _ => false

/-- The worker that a byte is reported to. -/
def reports (s : Sys W Cb) : Act W Cb → Option W
  | .callWrite reader | .write _ reader => reader
  | .epoll_wait w => if s.unreported then some w else none
  | _ => none

/-- The fiber whose state is stored by its own body, or by the worker that ran it. -/
def revives (s : Sys W Cb) : Act W Cb → Option ℕ
  | .leave w _ =>
    match s.pc w with
    | .body f _ => some f
    | _ => none
  | .run w =>
    match s.pc w with
    | .hold f _ => some f
    | _ => none
  | _ => none

/-- An unreported byte, and the other calls of `tickle` that are not over. -/
def signals (s : Sys W Cb) : ℕ := (if s.unreported then 1 else 0) + s.calling + s.writing

section Step

variable [Fintype W] {k : Kind} {tid : W → ℤ} {s s' : Sys W Cb}

instance (t : Task Cb) : Decidable (s.Waits tid t) := inferInstanceAs (Decidable (_ ∧ _))

instance (t : Task Cb) : Decidable (s.Stranded tid t) := inferInstanceAs (Decidable (_ ∧ _))

/-- The wake-ups: what is on its way, and the calls of `tickle` by workers that are not over. -/
def wakes (s : Sys W Cb) : ℕ := s.signals + ∑ w, (s.pc w).tickles

/-- A step does not use up the last wake-up while a task remains stranded, and strands none without
a wake-up:

* a `tickle` that writes nothing, or a byte that is drained unreported, is not the only wake-up;
* nor is a byte that is reported to a worker, unless that worker may run every stranded task;
* a fiber that stops executing is not in the queue for committed workers alone;
* nor is a task scheduled for them onto a queue that is not empty. -/
def Heard (k : Kind) (tid : W → ℤ) (s : Sys W Cb) (a : Act W Cb) : Prop :=
  (s.mutes k a → (∃ t ∈ s.tasks, s.Stranded tid t) → 2 ≤ s.wakes) ∧
  (∀ x ∈ s.reports a, (∃ t ∈ s.tasks, s.Stranded tid t ∧ ¬Eligible tid x t) → 2 ≤ s.wakes) ∧
  (∀ f ∈ s.revives a, (∃ t ∈ s.tasks, t.fiber = some f ∧ s.Waits tid t) → 0 < s.wakes) ∧
  (s.tasks ≠ [] → (∃ t ∈ a.tasks, s.Stranded tid t) → 0 < s.wakes)

instance (a : Act W Cb) : Decidable (Heard k tid s a) := by
  have : Decidable (s.tasks ≠ []) := decidable_of_iff (s.tasks.isEmpty = false) (by simp)
  exact inferInstanceAs (Decidable (_ ∧ _))

/-- While a task is stranded, there is a wake-up. -/
def Covered (tid : W → ℤ) (s : Sys W Cb) : Prop :=
  (∃ t ∈ s.tasks, s.Stranded tid t) → 0 < s.wakes

/-- Every worker is blocked, no byte is unreported, no call is in progress, and a task in the queue
could run on one of the workers. -/
def Asleep (tid : W → ℤ) (s : Sys W Cb) : Prop :=
  (∀ w, (s.pc w).isBlocked) ∧ s.unreported = false ∧ s.calling = 0 ∧ s.writing = 0 ∧
    ∃ t ∈ s.tasks, (∃ w, Eligible tid w t) ∧ ¬s.Executing t

instance : Decidable (s.Asleep tid) := inferInstanceAs (Decidable (_ ∧ _))

/-- Under the rule nobody is left asleep. -/
theorem Covered.not_asleep (h : s.Covered tid) : ¬s.Asleep tid := by
  rintro ⟨hblocked, hpipe, hcalling, hwriting, t, ht, heligible, hexec⟩
  have hcommitted : ∀ w, (s.pc w).committed = true ∧ (s.pc w).tickles = 0 := by
    intro w
    have hw := hblocked w
    cases hpc : s.pc w <;> rw [hpc] at hw <;> first | exact ⟨rfl, rfl⟩ | cases hw
  have hpos := h ⟨t, ht, hexec, heligible, fun w _ => (hcommitted w).1⟩
  have hzero : ∑ w, (s.pc w).tickles = 0 :=
    (sum_eq_zero_iff_forall Pc.tickles s.pc).mpr fun w => (hcommitted w).2
  rw [wakes, signals, hpipe, hcalling, hwriting, hzero] at hpos
  exact absurd hpos (by decide)

/-! ### What a step does to stranded tasks and to wake-ups -/

variable [DecidableEq W]

theorem wakes_goto {w : W} {p p' : Pc Cb} (hpc : s.pc w = p)
    (hpc' : s'.pc = Function.update s.pc w p') :
    s'.wakes + p.tickles + s.signals = s.wakes + p'.tickles + s'.signals := by
  have hsum := sum_update_add Pc.tickles s.pc w p'
  rw [hpc] at hsum
  rw [wakes, wakes, hpc']
  omega

theorem wakes_le_of_kept {w : W} {p p' : Pc Cb} (hpc : s.pc w = p)
    (hpc' : s'.pc = Function.update s.pc w p')
    (h : p.tickles + s.signals ≤ p'.tickles + s'.signals) : s.wakes ≤ s'.wakes := by
  have := wakes_goto hpc hpc'
  omega

theorem wakes_le_of_used {w : W} {p p' : Pc Cb} (hpc : s.pc w = p)
    (hpc' : s'.pc = Function.update s.pc w p')
    (h : p.tickles + s.signals ≤ p'.tickles + s'.signals + 1) : s.wakes ≤ s'.wakes + 1 := by
  have := wakes_goto hpc hpc'
  omega

omit [DecidableEq W] in
theorem wakes_pos_of_tickles {w : W} {p : Pc Cb} (hpc : s.pc w = p) (hp : 0 < p.tickles) :
    0 < s.wakes := by
  by_contra hnone
  have hzero : ∑ u, (s.pc u).tickles = 0 := by
    rw [wakes] at hnone
    omega
  have hw := (sum_eq_zero_iff_forall Pc.tickles s.pc).mp hzero w
  rw [hpc] at hw
  omega

omit [DecidableEq W] in
theorem wakes_pos_of_pipe (h : s.unreported = true) : 0 < s.wakes := by
  rw [wakes, signals, if_pos h]
  omega

omit [Fintype W] in
/-- A worker that goes on without committing itself strands no task, and neither does a state that
is stored, unless a fiber of the queue stops executing. -/
theorem Stranded.of_goto {w : W} {p p' : Pc Cb} {t : Task Cb} (hst : s'.Stranded tid t)
    (hpc : s.pc w = p) (hpc' : s'.pc = Function.update s.pc w p')
    (hp : p'.committed = true → p.committed = true)
    (hexec : s.Executing t → s'.Executing t) : s.Stranded tid t := by
  refine ⟨fun h => hst.1 (hexec h), hst.2.1, fun u hu => ?_⟩
  have hu' := hst.2.2 u hu
  rw [hpc'] at hu'
  rcases eq_or_ne u w with rfl | hne
  · rw [Function.update_self] at hu'
    rw [hpc]
    exact hp hu'
  · rwa [Function.update_of_ne hne] at hu'

namespace Covered

omit [DecidableEq W] in
theorem of_pos (h : 0 < s.wakes) : s.Covered tid := fun _ => h

omit [DecidableEq W] in
/-- Nothing is stranded that was not, and no wake-up is used up. -/
theorem keep (h : s.Covered tid)
    (hst : ∀ t ∈ s'.tasks, s'.Stranded tid t → t ∈ s.tasks ∧ s.Stranded tid t)
    (hwakes : s.wakes ≤ s'.wakes) : s'.Covered tid := by
  rintro ⟨t, ht, hs⟩
  exact (h ⟨t, hst t ht hs⟩).trans_le hwakes

omit [DecidableEq W] in
/-- One of two wake-ups is used up. -/
theorem of_two (htwo : (∃ t ∈ s'.tasks, s'.Stranded tid t) → 2 ≤ s.wakes)
    (hwakes : s.wakes ≤ s'.wakes + 1) : s'.Covered tid := by
  intro h
  have := htwo h
  omega

/-- A worker goes on and uses no wake-up. -/
theorem goto (h : s.Covered tid) {w : W} {p p' : Pc Cb} (hpc : s.pc w = p)
    (hpc' : s'.pc = Function.update s.pc w p') (hp : p'.committed = true → p.committed = true)
    (hexec : ∀ t ∈ s.tasks, s.Executing t → s'.Executing t := by exact fun _ _ => id)
    (hkept : p.tickles + s.signals ≤ p'.tickles + s'.signals := by exact le_rfl)
    (htasks : s'.tasks = s.tasks := by rfl) : s'.Covered tid := by
  refine h.keep (fun t ht hst => ?_) (wakes_le_of_kept hpc hpc' hkept)
  rw [htasks] at ht
  exact ⟨ht, hst.of_goto hpc hpc' hp (hexec t ht)⟩

/-- A worker goes on, and a fiber stores its state. -/
theorem revive (h : s.Covered tid) {w : W} {p p' : Pc Cb} {f : ℕ} {st : Fiber.State}
    (hpc : s.pc w = p) (hpc' : s'.pc = Function.update s.pc w p')
    (hstate : s'.state = (s.setState f st).state)
    (hok : (∃ t ∈ s.tasks, t.fiber = some f ∧ s.Waits tid t) → 0 < s.wakes)
    (hp : p'.committed = false := by rfl) (htickles : p.tickles = p'.tickles := by rfl)
    (htasks : s'.tasks = s.tasks := by rfl) (hsignals : s'.signals = s.signals := by rfl) :
    s'.Covered tid := by
  have hwakes : s'.wakes = s.wakes := by
    have := wakes_goto hpc hpc'
    omega
  rintro ⟨t, ht, hst⟩
  rw [hwakes]
  rw [htasks] at ht
  have hnot : p'.committed = true → p.committed = true := by simp [hp]
  by_cases hf : t.fiber = some f
  · refine hok ⟨t, ht, hf, hst.2.1, fun u hu => ?_⟩
    have hu' := hst.2.2 u hu
    rw [hpc'] at hu'
    rcases eq_or_ne u w with rfl | hne
    · rw [Function.update_self, hp] at hu'
      exact absurd hu' (by decide)
    · rwa [Function.update_of_ne hne] at hu'
  · refine h ⟨t, ht, hst.of_goto hpc hpc' hnot fun hexec => ?_⟩
    rw [Executing, hstate]
    obtain ⟨g, hg, hgexec⟩ := Option.map_eq_some_iff.mp hexec
    have hne : g ≠ f := fun heq => hf (hg.trans (congrArg some heq))
    rw [hg, Option.map_some, setState_state_of_ne s hne, hgexec]

omit [Fintype W] [DecidableEq W] in
/-- Storing a state keeps a fiber executing that executes. -/
theorem executing_setState {f : ℕ} {st : Fiber.State} {t : Task Cb}
    (hf : t.fiber = some f → s.state f = .EXEC → st = .EXEC) (h : s.Executing t) :
    (s.setState f st).Executing t := by
  obtain ⟨g, hg, hgexec⟩ := Option.map_eq_some_iff.mp h
  rw [Executing, hg, Option.map_some]
  rcases eq_or_ne g f with rfl | hne
  · rw [setState_state_self, hf hg hgexec]
  · rw [setState_state_of_ne s hne, hgexec]

omit [Fintype W] in
/-- A worker that is woken strands nothing, and looks at the queue again. -/
theorem stranded_of_awake {x : W} {p : Pc Cb} {t : Task Cb} (hst : s'.Stranded tid t)
    (hpc : s.pc x = p) (hp : p.committed = true)
    (hpc' : s'.pc = Function.update s.pc x (.awake true))
    (hexec : s.Executing t → s'.Executing t) : s.Stranded tid t ∧ ¬Eligible tid x t := by
  refine ⟨hst.of_goto hpc hpc' (fun _ => hp) hexec, fun hx => ?_⟩
  have hx' := hst.2.2 x hx
  rw [hpc', Function.update_self] at hx'
  exact absurd hx' Bool.false_ne_true

omit [Fintype W] [DecidableEq W] in
theorem committed_of_moves {w : W} {p p' : Pc Cb} (hm : Moves s w p p') :
    (p'.committed = true → p.committed = true) ∧ p.tickles = p'.tickles := by
  cases hm <;> exact ⟨by simp [Pc.committed], rfl⟩

/-- **The step lemma.** -/
theorem of_effect (h : s.Covered tid) (b : s.Bounded) {a : Act W Cb} (hok : s.Heard k tid a)
    (he : Effect k tid s a s') : s'.Covered tid := by
  obtain ⟨hmute, hreport, hrevive, hschedule⟩ := hok
  cases he with
  | move hpc hm =>
    obtain ⟨hp, htickles⟩ := committed_of_moves hm
    exact h.goto hpc rfl hp (fun _ _ => id) (Nat.add_le_add_right htickles.le _)
  | @miss w hpc hnone =>
    -- whatever the search passed over is not for this worker, or executes
    refine h.keep (fun t ht hst => ⟨ht, hst.1, hst.2.1, fun u hu => ?_⟩)
      (wakes_le_of_kept hpc rfl le_rfl)
    rcases eq_or_ne u w with rfl | hne
    · exact absurd ⟨hu, hst.1⟩ (hnone t ht)
    · rw [← goto_pc_of_ne s hne .noTask]
      exact hst.2.2 u hu
  | @pick w t l₁ l₂ hpc hscan htasks ht =>
    -- the worker will call `tickle`
    exact of_pos (wakes_pos_of_tickles (goto_pc_self _ w (.picked t)) Nat.one_pos)
  | uncount hpc hp =>
    cases hp <;> exact h.goto hpc rfl nofun
  | @deaf w p p' hpc hp hidle =>
    have hplaces : s.mutes k (.run w) = true ∧ p'.committed = false ∧ p.tickles = 1 ∧
        p'.tickles = 0 := by
      cases hp <;> exact ⟨by simp only [mutes, hpc, hidle]; rfl, rfl, rfl, rfl⟩
    obtain ⟨hm, hp', h1, h0⟩ := hplaces
    refine of_two (fun ⟨t, ht, hst⟩ => hmute hm ⟨t, ht, ?_⟩) (wakes_le_of_used hpc rfl ?_)
    · exact hst.of_goto hpc rfl (by simp [hp']) id
    · show p.tickles + s.signals ≤ p'.tickles + s.signals + 1
      omega
  | @reuse w cb f hpc hown hst =>
    refine h.goto hpc rfl nofun fun t _ => executing_setState fun _ hexec => ?_
    rw [hexec] at hst
    exact absurd hst (by decide)
  | @create w cb hpc hown =>
    refine h.goto hpc rfl nofun fun t ht => executing_setState fun hf _ => ?_
    exact absurd (b.tasks t ht _ hf) (lt_irrefl _)
  | enter hpc hst =>
    exact h.goto hpc rfl nofun fun _ _ => executing_setState fun _ _ => rfl
  | @leave w f own st hpc hst =>
    exact h.revive hpc rfl rfl (hrevive f (by simp [revives, hpc]))
  | @requeue w f own p hpc hp =>
    have hp' : p.committed = false := by rcases hp with ⟨-, rfl⟩ | rfl <;> rfl
    refine h.keep (fun t ht hst => ?_) (wakes_le_of_kept hpc rfl ?_)
    · rcases List.mem_append.mp ht with ht | ht
      · exact ⟨ht, hst.of_goto hpc rfl (by simp [hp']) id⟩
      · -- the fiber is for any worker, and this one is about to look for it
        obtain rfl := List.mem_singleton.mp ht
        have hw := hst.2.2 w (Or.inl rfl)
        rw [goto_pc_self, hp'] at hw
        exact absurd hw Bool.false_ne_true
    · exact Nat.add_le_add_right (Nat.zero_le _) s.signals
  | @hold w f own hpc =>
    exact h.revive hpc rfl rfl (hrevive f (by simp [revives, hpc]))
  | @finish w f hpc hst =>
    refine h.goto hpc rfl nofun fun t _ => executing_setState fun _ hexec => ?_
    rw [hexec] at hst
    exact absurd hst (by decide)
  | idleUp hpc | idleIn hpc => exact h.goto hpc rfl fun _ => rfl
  | @idleOut a w p st hpc hp hst =>
    cases p <;> first | exact h.goto hpc rfl nofun | exact absurd hp id
  | count hpc | idleDown hpc | idleRest hpc => exact h.goto hpc rfl nofun
  | @report w hpc hpipe =>
    refine of_two (fun ⟨t, ht, hst⟩ => hreport w (by simp [reports, hpipe]) ⟨t, ht, ?_⟩)
      (wakes_le_of_used hpc rfl ?_)
    · exact stranded_of_awake hst hpc rfl rfl id
    · rw [signals, hpipe]
      show 0 + (1 + s.calling + s.writing) ≤ 0 + (0 + s.calling + s.writing) + 1
      omega
  | @handled w pipe left hpc =>
    by_cases hdrained : (s.unreported && pipe && !left) = true
    · have hm : s.mutes k (.handled w left) = true := by simp only [mutes, hpc, hdrained]
      refine of_two (fun ⟨t, ht, hst⟩ => hmute hm ⟨t, ht, ?_⟩) (wakes_le_of_used hpc rfl ?_)
      · exact hst.of_goto hpc rfl nofun id
      · show 0 + ((if s.unreported then 1 else 0) + s.calling + s.writing) ≤
          0 + ((if (s.unreported && (!pipe || left)) then 1 else 0) + s.calling + s.writing) + 1
        split_ifs <;> omega
    · have hpipe : (s.unreported && (!pipe || left)) = s.unreported := by
        revert hdrained
        cases s.unreported <;> cases pipe <;> cases left <;> decide
      rw [hpipe]
      exact h.goto hpc rfl nofun
  | @write w p p' reader s₁ hpc hp hwake =>
    have hpc₁ := pc_of_afterWrite hwake hpc hp
    have hplaces : p'.committed = false ∧ p.tickles = 1 ∧ p'.tickles = 0 := by
      cases hp <;> exact ⟨rfl, rfl, rfl⟩
    obtain ⟨hp', h1, h0⟩ := hplaces
    cases hwake with
    | @reader x hx =>
      have hwoken : s.wakes ≤ (s.goto x (.awake true)).wakes := wakes_le_of_kept hx rfl le_rfl
      have hused : (s.goto x (.awake true)).wakes
          ≤ ((s.goto x (.awake true)).goto w p').wakes + 1 := by
        refine wakes_le_of_used hpc₁ rfl ?_
        show p.tickles + s.signals ≤ p'.tickles + s.signals + 1
        omega
      refine of_two (fun ⟨t, ht, hst⟩ => hreport x rfl ⟨t, ht, ?_⟩) (hwoken.trans hused)
      exact stranded_of_awake (hst.of_goto hpc₁ rfl (by simp [hp']) id) hx rfl rfl id
    | pipe hnone => exact of_pos (wakes_pos_of_pipe rfl)
  | @callWrite reader s₁ hwriting hwake =>
    cases hwake with
    | @reader x hx =>
      refine of_two (fun ⟨t, ht, hst⟩ => hreport x rfl ⟨t, ht, ?_⟩) (wakes_le_of_used hx rfl ?_)
      · exact stranded_of_awake hst hx rfl rfl id
      · show 0 + ((if s.unreported then 1 else 0) + s.calling + s.writing) ≤
          0 + ((if s.unreported then 1 else 0) + s.calling + (s.writing - 1)) + 1
        omega
    | pipe hnone => exact of_pos (wakes_pos_of_pipe rfl)
  | newFiber =>
    refine h.keep (fun t ht hst => ⟨ht, fun hexec => hst.1 ?_, hst.2⟩) le_rfl
    exact executing_setState (fun hf _ => absurd (b.tasks t ht _ hf) (lt_irrefl _)) hexec
  | @called a need hfibers hneed =>
    cases need with
    | true =>
      refine of_pos ?_
      simp only [wakes, signals, called, if_true]
      omega
    | false =>
      rintro ⟨t, ht, hst⟩
      show 0 < s.wakes
      rcases List.mem_append.mp ht with ht | ht
      · exact h ⟨t, ht, hst⟩
      · have ht' := (List.mem_filter.mp ht).1
        refine hschedule (fun hnil => ?_) ⟨t, ht', hst⟩
        rw [hneed rfl hnil] at ht'
        exact absurd ht' List.not_mem_nil
  | tickle =>
    refine of_pos ?_
    simp only [wakes, signals]
    omega
  | callTickle hcalling =>
    refine h.keep (fun t ht hst => ⟨ht, hst⟩) ?_
    simp only [wakes, signals]
    omega
  | callDeaf hcalling hidle =>
    have hm : s.mutes k .callTickle = true := by simp only [mutes, hidle]; rfl
    refine of_two (fun hst => hmute hm hst) ?_
    simp only [wakes, signals]
    omega
  | flags => exact h
  | fail => exact h

end Covered

/-- **Nobody is left asleep** in a run in which no step uses up the last wake-up of a stranded task
or strands one without any. -/
theorem never_asleep (hr : Reachable (step k tid) (Heard k tid) Sys.init s) : ¬s.Asleep tid := by
  have h : s.Covered tid := by
    refine hr.invariant_of_reachable (P := Covered tid) (J := Bounded) (fun _ hu => bounded hu) ?_
      fun _ _ _ b h hok hs => h.of_effect b hok (effect_of_step hs)
    exact fun ⟨t, ht, _⟩ => absurd ht List.not_mem_nil
  exact h.not_asleep

end Step

/-- The worker finds no task, a callback is scheduled, and only then the worker raises
`m_idleThreadCount` and calls `epoll_wait`. -/
def missedRun : List (Act Unit ℕ) :=
  [.run (), .schedule ⟨none, some 7, -1⟩, .callTickle, .run (), .run (), .askTimer () true,
    .run (), .epoll_wait ()]

/-- **A wake-up that is missed.** -/
theorem asleep_with_a_task :
    ¬∀ s : Sys Unit ℕ, Reachable (step .ioManager fun _ => 1) anyAction Sys.init s →
      ¬s.Asleep fun _ => 1 := by
  intro h
  exact h _ (reachable_get (by decide : (exec (step .ioManager fun _ => 1) anyAction Sys.init
    missedRun).isSome)) (by decide)

/-- Here the worker is in `epoll_wait` when the callback is scheduled. -/
def wokenRun : List (Act Unit ℕ) :=
  [.run (), .run (), .run (), .askTimer () true, .run (), .epoll_wait (),
    .schedule ⟨none, some 7, -1⟩, .callTickle]

/-- The state it ends in. -/
def wokenEnd : Sys Unit ℕ :=
  (exec (step .ioManager fun _ => 1) (Heard .ioManager fun _ => 1) Sys.init wokenRun).get
    (by decide)

theorem never_asleep_wokenEnd :
    (wokenEnd.pc ()).isBlocked ∧ wokenEnd.tasks.length = 1 ∧ wokenEnd.writing = 1 ∧
      ¬wokenEnd.Asleep fun _ => 1 :=
  ⟨by decide, by decide, by decide, never_asleep (reachable_get (by decide : (exec
    (step .ioManager fun _ => 1) (Heard .ioManager fun _ => 1) Sys.init wokenRun).isSome))⟩

end Sys

end Scheduler

end Wille
