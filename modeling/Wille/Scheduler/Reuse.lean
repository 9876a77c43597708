import Wille.Scheduler.Bodies
import Mathlib.Data.List.Range

/-!
# One fiber for many callbacks

`Scheduler::run` keeps a `cb_fiber` and gives it one callback after the other. It decides by the
state of the fiber: a body that has ended leaves it `INIT` for the next callback, and a body that
yields keeps it. A fiber in the queue is resumed unless its state is `TERM` or `EXCEPT`.

That every body is started once, and that `reset` finds a state that it allows, holds in every run.
But a reference to a fiber says nothing about the body that made it. When a body ends in its first
turn, `reset(nullptr)` turns `TERM` into `INIT`, and what the body has put into the queue, or
registered, is no longer dropped: it resumes whatever the fiber is used for by then.

## Main definitions

* `View.onTheWay`, `View.waiting` — the callbacks that are not started yet
* `View.Ref`, `View.Good` — the references to a fiber, and what they must lead to
* `Kept`, `Followed` — what holds in every run, and in every run without such an end
* `Bodies.Orderly` — each callback is started once, and each reference leads to its body

## Main results

* `Kept.of_turn`, `Followed.of_turn` — the step lemmas
* `Bodies.orderly_of_clean` — as long as no body ends in its first turn with a reference to its
  fiber
-/

namespace Wille

namespace Scheduler

open TransitionSystem

/-! ### Turns -/

namespace Stage

/-- The fiber whose turn it is, and whether it is `cb_fiber`. -/
def turn : Stage → Option (ℕ × Bool)
  | .enter f own | .body f own | .left f own | .notReady f own | .requeue f own | .hold f own =>
    some (f, own)
  | .finish f => some (f, true)
  | .free | .got _ | .prepare _ => none

/-- The fiber that is running. -/
def running : Stage → Option ℕ
  | .body f _ => some f
  | _ => none

/-- The state that a fiber has at this stage of its turn. -/
def Fits (state : ℕ → Fiber.State) : Stage → Prop
  | .enter f own => if own then state f = .INIT else (state f).termOrExcept = false
  | .body f _ => state f = .EXEC
  | .left f _ => state f ≠ .EXEC ∧ state f ≠ .INIT
  | .notReady f _ => state f ≠ .EXEC ∧ state f ≠ .INIT ∧ state f ≠ .READY
  | .requeue f _ => state f = .READY
  | .hold f _ => state f = .HOLD
  | .finish f => (state f).termOrExcept
  | .free | .got _ | .prepare _ => True

end Stage

namespace View

/-- The callback that the worker has taken and not started. -/
def onTheWay (v : View) : List ℕ :=
  match v.stage with
  | .got e | .prepare e => (e.bind Entry.number).toList
  | .enter f true => (v.m_cb f).toList
  | _ => []

/-- The callbacks that are not started yet. -/
def waiting (v : View) : List ℕ := v.onTheWay ++ v.entries.filterMap Entry.number

/-- A reference to the fiber, made by this body: in the queue, in the hand of the worker, or in an
event context. -/
def Ref (v : View) (f : ℕ) (body : Option ℕ) : Prop :=
  .fiber f body ∈ v.entries ∨ v.stage = .got (some (.fiber f body)) ∨
    ∃ b, body = some b ∧ (f, b) ∈ v.registered

/-- What a reference that `b` has made to `f` must lead to: a fiber that is given up, or the
body. -/
def Good (v : View) (f b : ℕ) : Prop :=
  if b ∈ v.ended then (v.state f).termOrExcept ∧ v.cbFiber ≠ some f
  else v.m_cb f = some b ∧ (v.state f).resettable = false

end View

/-! ### In every run -/

/-- What holds in every run. -/
structure Kept (v : View) : Prop where
  own : ∀ f, v.stage.turn = some (f, true) → v.cbFiber = some f
  fits : v.stage.Fits v.state
  exec : ∀ f, v.state f = .EXEC → v.stage.running = some f
  /-- Between its turns `cb_fiber` has no callback. -/
  parked : ∀ f, v.cbFiber = some f → v.stage.turn ≠ some (f, true) →
    v.m_cb f = none ∧ ((v.state f).resettable ∨ v.state f = .EXEC)
  fresh : ∀ f, v.created ≤ f → v.state f = .INIT ∧ v.m_cb f = none ∧ v.cbFiber ≠ some f
  made : ∀ f body, v.Ref f body → f < v.created
  madeTurn : ∀ f own, v.stage.turn = some (f, own) → f < v.created
  /-- A fiber has a body that was started, or is about to start it. -/
  known : ∀ f n, v.m_cb f = some n → n ∈ v.started ∨ v.stage = .enter f true
  notBegun : ∀ f n, v.state f = .INIT → v.m_cb f = some n → v.stage = .enter f true
  /-- No callback is in two fibers. -/
  inj : ∀ f g n, v.m_cb f = some n → v.m_cb g = some n → f = g
  ended : ∀ b ∈ v.ended, b ∈ v.started
  once : (v.waiting ++ v.started).Perm (List.range v.next)
  fault : v.fault ≠ some .reset

namespace Kept

variable {ok : Prop} {v v' : View}

theorem init {Cb : Type*} : Kept (Bodies.init : Bodies Cb).view where
  own := nofun
  fits := trivial
  exec := nofun
  parked := nofun
  fresh _ _ := ⟨rfl, rfl, nofun⟩
  made f body := by rintro (h | h | ⟨b, -, h⟩) <;> cases h
  madeTurn := nofun
  known := nofun
  notBegun := nofun
  inj := nofun
  ended := nofun
  once := List.Perm.refl _
  fault := nofun

/-- The assertion of `reset` holds. -/
@[grind →] theorem not_resetFails (h : Kept v) : ¬v.ResetFails := by
  rintro (⟨e, f, hstage, hown, hst⟩ | ⟨f, hstage, hst⟩)
  · rcases (h.parked f hown (by rw [hstage]; exact nofun)).2 with hreset | hexec
    · exact Bool.false_ne_true (hst.symm.trans hreset)
    · have hrunning := h.exec f hexec
      rw [hstage] at hrunning
      cases hrunning
  · have hfits := h.fits
    rw [hstage] at hfits
    have hend : (v.state f).termOrExcept = true := hfits
    revert hst hend
    cases v.state f <;> decide

/-- A callback that is about to get a fiber was not started. -/
theorem notMem_started (h : Kept v) {n : ℕ} (hstage : v.stage = .prepare (some (.callback n))) :
    n ∉ v.started := by
  have hnodup := h.once.nodup_iff.mpr List.nodup_range
  have hn : n ∈ v.waiting := by simp [View.waiting, View.onTheWay, hstage, Entry.number]
  exact fun hs => List.disjoint_of_nodup_append hnodup hn hs

theorem own_of_turn (h : Kept v) (ht : Turn ok v v') :
    ∀ f, v'.stage.turn = some (f, true) → v'.cbFiber = some f := by
  have hown := h.own
  cases ht <;> grind [Stage.turn]

theorem fits_of_turn (h : Kept v) (ht : Turn ok v v') : v'.stage.Fits v'.state := by
  have hfits := h.fits
  cases ht with
  | @waits f _ hstage hst =>
    rw [hstage] at hfits
    obtain ⟨hexec, hinit, hready⟩ := hfits
    -- what has stored a state and is neither ready nor over waits
    show v.state f = .HOLD
    cases hf : v.state f <;> simp_all [Fiber.State.termOrExcept]
  | _ => grind [Stage.Fits, Fiber.State.termOrExcept]

theorem exec_of_turn (h : Kept v) (ht : Turn ok v v') :
    ∀ f, v'.state f = .EXEC → v'.stage.running = some f := by
  have hexec := h.exec
  have hfits := h.fits
  cases ht <;> grind [Stage.Fits, Stage.running, Fiber.State.termOrExcept]

theorem parked_of_turn (h : Kept v) (ht : Turn ok v v') :
    ∀ f, v'.cbFiber = some f → v'.stage.turn ≠ some (f, true) →
      v'.m_cb f = none ∧ ((v'.state f).resettable ∨ v'.state f = .EXEC) := by
  have hparked := h.parked
  have hown := h.own
  have hfresh := h.fresh
  have hfits := h.fits
  cases ht <;> grind [Stage.turn, Stage.Fits, Fiber.State.termOrExcept, Fiber.State.resettable]

theorem fresh_of_turn (h : Kept v) (ht : Turn ok v v') :
    ∀ f, v'.created ≤ f → v'.state f = .INIT ∧ v'.m_cb f = none ∧ v'.cbFiber ≠ some f := by
  have hfresh := h.fresh
  have hown := h.own
  have hmade := h.madeTurn
  cases ht <;> grind [Stage.turn]

end Kept

/-- Only a body that runs and a fiber that is put back make references. -/
theorem View.Ref.of_turn {ok : Prop} {v v' : View} (h : Kept v) (ht : Turn ok v v') {f : ℕ}
    {body : Option ℕ} (href : v'.Ref f body) :
    v.Ref f body ∨ (∃ own, v.stage = .requeue f own ∨ v.stage = .body f own) ∧ body = v.m_cb f ∧
      v'.m_cb = v.m_cb ∧ v'.state = v.state ∧ v'.ended = v.ended := by
  unfold View.Ref at href
  cases ht <;> grind [View.Ref, Bodies.numbered, List.mem_of_mem_eraseIdx]

namespace Kept

variable {ok : Prop} {v v' : View}

theorem created_le (h : Kept v) (ht : Turn ok v v') : v.created ≤ v'.created := by
  cases ht <;> grind

theorem made_of_turn (h : Kept v) (ht : Turn ok v v') :
    ∀ f body, v'.Ref f body → f < v'.created := by
  intro f body href
  rcases href.of_turn h ht with href | ⟨⟨own, hstage⟩, -⟩
  · exact (h.made f body href).trans_le (h.created_le ht)
  · refine (h.madeTurn f own ?_).trans_le (h.created_le ht)
    rcases hstage with hstage | hstage <;> rw [hstage] <;> rfl

theorem madeTurn_of_turn (h : Kept v) (ht : Turn ok v v') :
    ∀ f own, v'.stage.turn = some (f, own) → f < v'.created := by
  have hgot : ∀ f body, v.stage = .got (some (.fiber f body)) → f < v.created :=
    fun f body hf => h.made f body (Or.inr (Or.inl hf))
  have hmade := h.madeTurn
  have hfresh := h.fresh
  cases ht <;> grind [Stage.turn]

theorem known_of_turn (h : Kept v) (ht : Turn ok v v') :
    ∀ f n, v'.m_cb f = some n → n ∈ v'.started ∨ v'.stage = .enter f true := by
  have hknown := h.known
  have hfits := h.fits
  cases ht <;> grind [Stage.Fits]

theorem notBegun_of_turn (h : Kept v) (ht : Turn ok v v') :
    ∀ f n, v'.state f = .INIT → v'.m_cb f = some n → v'.stage = .enter f true := by
  have hnotBegun := h.notBegun
  cases ht <;> grind [Fiber.State.termOrExcept]

theorem inj_of_turn (h : Kept v) (ht : Turn ok v v') :
    ∀ f g n, v'.m_cb f = some n → v'.m_cb g = some n → f = g := by
  have hinj := h.inj
  have hknown := h.known
  have hnew := @notMem_started _ h
  cases ht <;> grind

theorem ended_of_turn (h : Kept v) (ht : Turn ok v v') : ∀ b ∈ v'.ended, b ∈ v'.started := by
  have hended := h.ended
  have hknown := h.known
  cases ht <;> grind

theorem fault_of_turn (h : Kept v) (ht : Turn ok v v') : v'.fault ≠ some .reset := by
  have hfault := h.fault
  cases ht <;> grind

/-- **Each callback waits or was started, and that once.** -/
theorem once_of_turn (h : Kept v) (ht : Turn ok v v') :
    (v'.waiting ++ v'.started).Perm (List.range v'.next) := by
  cases ht with
  | quiet => exact h.once
  | @pick e₁ e₂ e hstage hentries =>
    refine List.Perm.trans ?_ h.once
    have hmiddle : (e.number.toList ++ (e₁ ++ e₂).filterMap Entry.number).Perm
        ((e₁ ++ e :: e₂).filterMap Entry.number) := by
      cases hn : e.number <;> simp [hn, List.filterMap_append, List.perm_middle.symm]
    simpa [View.waiting, View.onTheWay, hstage, hentries] using hmiddle.append_right v.started
  | @enter f own hstage hst =>
    refine List.Perm.trans ?_ h.once
    cases own with
    | true =>
      have hinit : v.state f = .INIT := by
        have hfits := h.fits
        rw [hstage] at hfits
        exact hfits
      simp only [View.waiting, View.onTheWay, hstage, if_pos hinit, List.nil_append]
      rw [← List.append_assoc]
      exact List.perm_append_comm.trans (List.Perm.of_eq (List.append_assoc ..).symm)
    | false =>
      -- a fiber that is resumed has begun, or has no callback
      have hnone : (if v.state f = .INIT then (v.m_cb f).toList else []) = [] := by
        split
        · cases hcb : v.m_cb f with
          | none => rfl
          | some n => exact absurd (hstage.symm.trans (h.notBegun f n ‹_› hcb)) (by simp)
        · rfl
      simp [View.waiting, View.onTheWay, hstage, hnone]
  | called k =>
    have hnumbered : (Bodies.numbered v.next k).filterMap Entry.number = List.range' v.next k := by
      simp [Bodies.numbered, List.filterMap_map, Function.comp_def, Entry.number]
    have hrange : List.range (v.next + k) = List.range v.next ++ List.range' v.next k := by
      rw [List.range_add, List.range'_eq_map_range]
    have hadd := h.once.append_right (List.range' v.next k)
    simp only [View.waiting, View.onTheWay] at hadd ⊢
    rw [List.filterMap_append, hnumbered, hrange]
    refine List.Perm.trans ?_ hadd
    simp only [List.append_assoc]
    exact (List.perm_append_comm.append_left _).append_left _
  | @gone f own hstage hst =>
    cases own <;> simpa [View.waiting, View.onTheWay, hstage] using h.once
  | failReset hst => exact absurd hst h.not_resetFails
  | _ =>
    -- only references to fibers come and go
    refine List.Perm.trans (List.Perm.of_eq ?_) h.once
    simp [View.waiting, View.onTheWay, *, Entry.number]

/-- **The step lemma.** -/
theorem of_turn (h : Kept v) (ht : Turn ok v v') : Kept v' where
  own := h.own_of_turn ht
  fits := h.fits_of_turn ht
  exec := h.exec_of_turn ht
  parked := h.parked_of_turn ht
  fresh := h.fresh_of_turn ht
  made := h.made_of_turn ht
  madeTurn := h.madeTurn_of_turn ht
  known := h.known_of_turn ht
  notBegun := h.notBegun_of_turn ht
  inj := h.inj_of_turn ht
  ended := h.ended_of_turn ht
  once := h.once_of_turn ht
  fault := h.fault_of_turn ht

end Kept

/-! ### As long as no body ends with a reference -/

/-- What holds as long as no body ends in its first turn with a reference to its fiber. -/
structure Followed (v : View) : Prop where
  refs : ∀ f body, v.Ref f body → ∃ b, body = some b ∧ v.Good f b
  /-- A fiber whose turn it is has a body that has not ended. -/
  live : ∀ f own, v.stage.turn = some (f, own) → (v.state f).termOrExcept = false →
    ∃ b, v.m_cb f = some b ∧ b ∉ v.ended
  /-- What is resumed is not `cb_fiber`. -/
  later : ∀ f, v.stage.turn = some (f, false) → v.cbFiber ≠ some f

namespace Followed

variable {v v' : View}

theorem init {Cb : Type*} : Followed (Bodies.init : Bodies Cb).view where
  refs f body := by rintro (h | h | ⟨b, -, h⟩) <;> cases h
  live := nofun
  later := nofun

/-- What the reference in the hand of the worker leads to. -/
theorem of_got (h : Followed v) (hk : Kept v) {f : ℕ} {body : Option ℕ}
    (hstage : v.stage = .got (some (.fiber f body))) (hst : (v.state f).termOrExcept = false) :
    v.cbFiber ≠ some f ∧ ∃ b, v.m_cb f = some b ∧ b ∉ v.ended := by
  obtain ⟨b, -, hgood⟩ := h.refs f body (Or.inr (Or.inl hstage))
  have hparked := hk.parked f
  have hexec := hk.exec f
  unfold View.Good at hgood
  grind [Stage.running, Stage.turn]

theorem later_of_turn (h : Followed v) (hk : Kept v) (ht : Turn True v v') :
    ∀ f, v'.stage.turn = some (f, false) → v'.cbFiber ≠ some f := by
  have hlater := h.later
  have hgot := @of_got _ h hk
  cases ht <;> grind [Stage.turn]

theorem live_of_turn (h : Followed v) (hk : Kept v) (ht : Turn True v v') :
    ∀ f own, v'.stage.turn = some (f, own) → (v'.state f).termOrExcept = false →
      ∃ b, v'.m_cb f = some b ∧ b ∉ v'.ended := by
  have hlive := h.live
  have hgot := @of_got _ h hk
  have hnew := @hk.notMem_started
  have hended := hk.ended
  have hfits := hk.fits
  cases ht <;> grind [Stage.turn, Stage.Fits, Fiber.State.termOrExcept]

theorem good_of_turn (h : Followed v) (hk : Kept v) (ht : Turn True v v') {f b : ℕ}
    (href : v.Ref f (some b)) (hgood : v.Good f b) : v'.Good f b := by
  have hlive := h.live
  have hlater := h.later
  have hinj := hk.inj
  have hown := hk.own
  have hmade := hk.made f _ href
  have hfits := hk.fits
  unfold View.Good at *
  cases ht with
  | @ends g own st hstage hst hclean =>
    have hne : own = true → f ≠ g := by
      rintro hown rfl
      obtain ⟨hentries, hregistered⟩ := hclean trivial hown
      rcases href with href | href | ⟨b', -, href⟩
      · exact hentries _ href rfl
      · exact Stage.noConfusion (hstage.symm.trans href)
      · exact hregistered _ href rfl
    grind [Stage.turn, Stage.Fits, Fiber.State.termOrExcept, Fiber.State.resettable]
  | _ => grind [Stage.turn, Stage.Fits, Fiber.State.termOrExcept, Fiber.State.resettable]

theorem refs_of_turn (h : Followed v) (hk : Kept v) (ht : Turn True v v') :
    ∀ f body, v'.Ref f body → ∃ b, body = some b ∧ v'.Good f b := by
  intro f body href
  rcases href.of_turn hk ht with hold | ⟨⟨own, hstage⟩, rfl, hcb, hstate, hended⟩
  · obtain ⟨b, rfl, hgood⟩ := h.refs f body hold
    exact ⟨b, rfl, h.good_of_turn hk ht hold hgood⟩
  · -- the fiber has run, so it has a body
    have hlive := h.live f own
    have hfits := hk.fits
    unfold View.Good
    grind [Stage.turn, Stage.Fits, Fiber.State.termOrExcept, Fiber.State.resettable]

/-- **The step lemma.** -/
theorem of_turn (h : Followed v) (hk : Kept v) (ht : Turn True v v') : Followed v' where
  refs := h.refs_of_turn hk ht
  live := h.live_of_turn hk ht
  later := h.later_of_turn hk ht

end Followed

/-! ### The worker -/

namespace Bodies

variable {Cb : Type*} {k : Kind} {tid : ℤ} {s s' : Bodies Cb}

/-- Each callback is started once, and the assertion of `reset` has not failed. -/
structure Started (tid : ℤ) (s : Bodies Cb) : Prop where
  /-- Each callback waits or was started, and that once. -/
  once : (s.view.waiting ++ s.started).Perm (List.range s.next)
  /-- When nothing is found, what was not started is for another thread. -/
  drained : s.sys.pc () = .scan → s.sys.scan (fun _ => tid) () s.sys.tasks = .ok none →
    ∀ n < s.next, n ∈ s.started ∨ ∃ (i : ℕ) (t : Task Cb), s.entries[i]? = some (.callback n) ∧
      s.sys.tasks[i]? = some t ∧ t.thread ≠ -1 ∧ t.thread ≠ tid
  reset : s.sys.fault ≠ some .reset

/-- Besides, a fiber from the queue goes on with the body that has put it there, and is dropped when
that body has ended. -/
structure Orderly (k : Kind) (tid : ℤ) (s : Bodies Cb) : Prop extends s.Started tid where
  follows : ∀ tk f, s.sys.pc () = .dispatch tk → tk.fiber = some f →
    ∃ b, s.taken = some (.fiber f (some b)) ∧
      ∀ s', s.step k tid (.act (.run ())) = some s' →
        if b ∈ s.ended then s'.sys.pc () = .drop
        else s'.sys.pc () = .enter f false ∧ s'.m_cb f = some b ∧ b ∈ s.started ∧
          (s.sys.state f = .HOLD ∨ s.sys.state f = .READY)

/-- The notes are right, and what holds in every run. -/
theorem kept_of_reachable {ok : Bodies Cb → BodyAct Cb → Prop}
    (h : Reachable (step k tid) ok init s) : s.Aligned ∧ Kept s.view := by
  refine h.invariant (P := fun s => s.Aligned ∧ Kept s.view) ⟨.init, .init⟩ ?_
  rintro s a s' ⟨ha, hk⟩ - hs
  obtain ⟨ht, ha'⟩ := ha.of_step (False.elim : False → s.Clean a) hs
  exact ⟨ha', hk.of_turn ht⟩

/-- What holds as long as no body ends in its first turn with a reference to its fiber. -/
theorem followed_of_reachable (h : Reachable (step k tid) Clean init s) : Followed s.view := by
  refine h.invariant_of_reachable (P := fun s => Followed s.view)
    (J := fun s => s.Aligned ∧ Kept s.view) (fun _ => kept_of_reachable) Followed.init ?_
  rintro s a s' ⟨ha, hk⟩ hf hclean hs
  exact hf.of_turn hk (ha.of_step (fun _ => hclean) hs).1

/-- The search passes over a callback only when it is for another thread. -/
theorem Aligned.drained (ha : s.Aligned) (hk : Kept s.view) (hpc : s.sys.pc () = .scan)
    (hscan : s.sys.scan (fun _ => tid) () s.sys.tasks = .ok none) {n : ℕ} (hn : n < s.next) :
    n ∈ s.started ∨ ∃ (i : ℕ) (t : Task Cb), s.entries[i]? = some (.callback n) ∧
      s.sys.tasks[i]? = some t ∧ t.thread ≠ -1 ∧ t.thread ≠ tid := by
  have hpassed : ∀ t ∈ s.sys.tasks, ¬s.sys.Takes (fun _ => tid) () t := by
    rcases (Sys.scan_cases () s.sys.tasks : s.sys.scan (fun _ => tid) () s.sys.tasks = _ ∨ _) with
      h | ⟨-, h⟩ | ⟨t, l₁, l₂, h, -⟩
    · exact absurd (hscan.symm.trans h) (by simp)
    · exact h
    · exact absurd (hscan.symm.trans h) (by simp)
  have hmem : n ∈ s.view.waiting ++ s.started := hk.once.mem_iff.mpr (List.mem_range.mpr hn)
  refine (List.mem_append.mp hmem).symm.imp_right fun hwaiting => ?_
  have hentry : .callback n ∈ s.entries := by
    have hstage : s.view.stage = .free := by rw [view, hpc]; rfl
    simp only [View.waiting, View.onTheWay, hstage, List.nil_append, List.mem_filterMap] at hwaiting
    obtain ⟨e, he, hnumber⟩ := hwaiting
    cases e with
    | callback m => exact Option.some.inj hnumber ▸ he
    | fiber f body => exact absurd hnumber (by simp [Entry.number])
  obtain ⟨i, hi⟩ := List.mem_iff_getElem?.mp hentry
  have href : (s.sys.tasks.map Task.fiber)[i]? = some none := by
    rw [ha.refs, List.getElem?_map, hi]
    rfl
  rw [List.getElem?_map] at href
  obtain ⟨t, ht, hfiber⟩ := Option.map_eq_some_iff.mp href
  have hnot := hpassed t (List.mem_of_getElem? ht)
  have hexec : ¬s.sys.Executing t := by simp [Sys.Executing, hfiber]
  have heligible : ¬Eligible (fun _ => tid) () t := fun h => hnot ⟨h, hexec⟩
  exact ⟨i, t, hi, ht, fun h => heligible (Or.inl h), fun h => heligible (Or.inr h)⟩

/-- What the worker does with a fiber from the queue. -/
theorem Aligned.dispatch (ha : s.Aligned) {tk : Task Cb} {f : ℕ}
    (hpc : s.sys.pc () = .dispatch tk) (hfiber : tk.fiber = some f)
    (hs : s.step k tid (.act (.run ())) = some s') :
    s'.m_cb = s.m_cb ∧
      s'.sys.pc () = if (s.sys.state f).termOrExcept then .drop else .enter f false := by
  obtain ⟨e, -, -, hcb⟩ := ha.inHand tk (by rw [hpc]; rfl)
  rw [hfiber] at hcb
  have hnone : tk.cb = none := Option.isNone_iff_eq_none.mp (Option.isSome_eq_false_iff.mp hcb)
  obtain ⟨-, sys, hrun, rfl⟩ := stepRunning_of_step hs
  simp only [Sys.stepRunning, Sys.run, hpc, hfiber, hnone] at hrun
  simp only [note, hpc]
  cases hst : (s.sys.state f).termOrExcept <;> rw [hst] at hrun <;>
    obtain rfl := Option.some.inj hrun <;> exact ⟨trivial, Sys.goto_pc_self ..⟩

/-- A fiber from the queue goes on with the body that has put it there, or is dropped. -/
theorem Aligned.follows (ha : s.Aligned) (hk : Kept s.view) (hf : Followed s.view) {tk : Task Cb}
    {f : ℕ} (hpc : s.sys.pc () = .dispatch tk) (hfiber : tk.fiber = some f) :
    ∃ b, s.taken = some (.fiber f (some b)) ∧
      ∀ s', s.step k tid (.act (.run ())) = some s' →
        if b ∈ s.ended then s'.sys.pc () = .drop
        else s'.sys.pc () = .enter f false ∧ s'.m_cb f = some b ∧ b ∈ s.started ∧
          (s.sys.state f = .HOLD ∨ s.sys.state f = .READY) := by
  obtain ⟨e, he, href, -⟩ := ha.inHand tk (by rw [hpc]; rfl)
  have hstage : s.view.stage = .got (some e) := by rw [view, hpc, he]; rfl
  rw [hfiber] at href
  cases e with
  | callback n => exact absurd href (by simp [Entry.ref])
  | fiber g body =>
    obtain rfl := Option.some.inj href
    obtain ⟨b, rfl, hgood⟩ := hf.refs g body (Or.inr (Or.inl hstage))
    refine ⟨b, he, fun s' hs => ?_⟩
    obtain ⟨hcb, hpc'⟩ := ha.dispatch hpc hfiber hs
    unfold View.Good at hgood
    split at hgood
    · rw [if_pos ‹_›, hpc']
      exact if_pos hgood.1
    · have hnotExec : s.sys.state g ≠ .EXEC := by
        intro hexec
        have hrunning := hk.exec g hexec
        rw [hstage] at hrunning
        cases hrunning
      have hwaits : s.sys.state g = .HOLD ∨ s.sys.state g = .READY := by
        have hst : (s.sys.state g).resettable = false := hgood.2
        cases hg : s.sys.state g <;> simp_all [Fiber.State.resettable]
      have hlive : (s.sys.state g).termOrExcept = false := by
        rcases hwaits with h | h <;> rw [h] <;> rfl
      rw [if_neg ‹_›, hpc', hlive, hcb]
      refine ⟨rfl, hgood.1, (hk.known g b hgood.1).resolve_right fun h => ?_, hwaits⟩
      exact Stage.noConfusion (hstage.symm.trans h)

/-- **In every run** each callback is started once, and the assertion of `reset` holds. -/
theorem started_of_reachable {ok : Bodies Cb → BodyAct Cb → Prop}
    (h : Reachable (step k tid) ok init s) : s.Started tid := by
  obtain ⟨ha, hk⟩ := kept_of_reachable h
  exact ⟨hk.once, fun hpc hscan _ hn => ha.drained hk hpc hscan hn, hk.fault⟩

/-- **As long as no body ends in its first turn with a reference to its fiber**, a fiber from the
queue goes on with the body that has put it there. -/
theorem orderly_of_clean (k : Kind) (tid : ℤ) (s : Bodies Cb)
    (h : Reachable (step k tid) Clean init s) : s.Orderly k tid := by
  obtain ⟨ha, hk⟩ := kept_of_reachable h
  have hf := followed_of_reachable h
  exact ⟨started_of_reachable h, fun _ _ hpc hfiber => ha.follows hk hf hpc hfiber⟩

/-- A body puts its fiber into the queue, registers it and yields, and is taken from the queue. -/
def resumedRun : List (BodyAct ℕ) :=
  [.act (.schedule ⟨none, some 0, -1⟩)] ++ List.replicate 6 (.act (.run ())) ++
    [.scheduleThis (-1), .addEvent, .act (.leave () .HOLD)] ++ List.replicate 8 (.act (.run ()))

theorem orderly_of_clean_resumedRun :
    let s := (exec (step .scheduler 1) Clean init resumedRun).get (by decide)
    s.view.stage = .got (some (.fiber 0 (some 0))) ∧ s.Orderly .scheduler 1 :=
  ⟨by decide, orderly_of_clean .scheduler 1 _ (reachable_get (by decide))⟩

/-- The first of two bodies puts its fiber into the queue and ends. The second is given the same
fiber, and yields. -/
def reusedRun : List (BodyAct ℕ) :=
  [.act (.schedule ⟨none, some 0, -1⟩), .act (.schedule ⟨none, some 1, -1⟩)] ++
    List.replicate 6 (.act (.run ())) ++ [.scheduleThis (-1), .act (.leave () .TERM)] ++
    List.replicate 11 (.act (.run ())) ++ [.act (.leave () .HOLD)] ++
    List.replicate 8 (.act (.run ()))

/-- The state it ends in: the reference of the first body is about to be looked at. -/
def reusedEnd : Bodies ℕ :=
  (exec (step .scheduler 1) anyAction init reusedRun).get (by decide)

/-- **The reference of the first body resumes the second.** -/
theorem not_orderly_reusedEnd :
    ¬∀ s : Bodies ℕ, Reachable (step .scheduler 1) anyAction init s → s.Orderly .scheduler 1 := by
  intro h
  have hend : reusedEnd.Orderly .scheduler 1 := h _ (reachable_get _)
  obtain ⟨b, htaken, hnext⟩ := hend.follows ⟨some 0, none, -1⟩ 0 rfl rfl
  have hb : reusedEnd.taken = some (.fiber 0 (some 0)) := by decide
  obtain rfl : 0 = b := by simpa using hb.symm.trans htaken
  have hdrop := hnext ((reusedEnd.step .scheduler 1 (.act (.run ()))).get (by decide))
    (Option.some_get _).symm
  rw [if_pos (by decide : 0 ∈ reusedEnd.ended)] at hdrop
  -- it is the fiber of the second body that is entered
  have henter : (((reusedEnd.step .scheduler 1 (.act (.run ()))).get (by decide)).sys.pc ()).stage
      none = .enter 0 false := by decide
  rw [hdrop] at henter
  exact Stage.noConfusion henter

end Bodies

end Scheduler

end Wille
