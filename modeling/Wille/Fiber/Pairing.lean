import Wille.Fiber.Basic
import Wille.ForMathlib.TransitionSystem

/-!
# Entering and leaving pair up

There are up to three levels of fibers on a thread: its main fiber, the scheduler's main fiber, and
the fibers that the scheduler runs. `swapIn` saves the caller into the slot of one of them, and
`swapOut` goes on at the slot of one of them, each by its own reading of `m_main` and of the
scheduler's main fiber. `home` is what both of them come to.

`Paired` says that a fiber that is executed or waits below one has its caller in the slot of its
home, and a fiber that waits to be resumed has its own last yield in its own slot.

Entering and leaving are both a switch that saves the executed fiber into its own slot, and most of
`Paired` is kept by that alone.

## Main definitions

* `ThreadState.home` — where `swapOut` of a fiber goes on
* `ThreadState.Paired`
* `ThreadState.Switches`, `Effect` — a switch, and what each operation does

## Main results

* `ThreadState.Paired.of_step` — the step lemma
* `ThreadState.control_pairs_up` — where each operation goes on
-/

namespace Wille

namespace ThreadState

open TransitionSystem

variable {Cb : Type*}

/-! ### Homes -/

/-- The fiber into whose slot `swapIn` saves, and at whose slot `swapOut` goes on. -/
def home (s : ThreadState Cb) (f : ℕ) : ℕ :=
  match s.mainFiber with
  | none => t_threadFiber
  | some main => if (s.fiber f).main then t_threadFiber else main

theorem mayEnter_iff {s : ThreadState Cb} {f : ℕ} : s.MayEnter f ↔ s.cpu.owner = s.home f := by
  rw [MayEnter, home]
  rcases s.mainFiber with - | main <;> rfl

instance (s : ThreadState Cb) (f : ℕ) : Decidable (s.MayEnter f) :=
  decidable_of_iff (s.cpu.owner = s.home f) mayEnter_iff.symm

instance : DecidableRel (Allowed : ThreadState Cb → Act Cb → Prop) := fun s a =>
  match a with
  | .newFiber _ _ => instDecidableTrue
  | .setMainFiber f =>
    inferInstanceAs (Decidable (s.cpu.owner = t_threadFiber ∧ f < s.created ∧
      (f = t_threadFiber ∨ (s.fiber f).main = true)))
  | .swapIn f =>
    inferInstanceAs (Decidable (f < s.created ∧ (s.fiber f).state ∈ [.INIT, .HOLD, .READY] ∧
      s.MayEnter f))
  | .YieldToReady | .YieldToHold | .returns | .throws =>
    inferInstanceAs (Decidable (s.cpu.owner ≠ t_threadFiber))
  | .reset f _ => inferInstanceAs (Decidable (f < s.created))

theorem home_congr {s s' : ThreadState Cb} {f : ℕ} (hmain : s'.mainFiber = s.mainFiber)
    (hfiber : (s'.fiber f).main = (s.fiber f).main) : s'.home f = s.home f := by
  rw [home, home, hmain, hfiber]

theorem swapIn_eq {s : ThreadState Cb} {f : ℕ} (h : (s.fiber f).state ≠ .EXEC) :
    s.swapIn f =
      some (((s.SetThis f).setState f .EXEC).swapcontext (s.home f) f (.swapIn f)) := by
  have hmain : (((s.SetThis f).setState f .EXEC).fiber f).main = (s.fiber f).main := by
    simp [setState, modify, SetThis]
  rw [swapIn, if_neg (show ((s.SetThis f).fiber f).state ≠ .EXEC from h), home]
  change (match s.mainFiber with | none => _ | some _ => _) = _
  rcases s.mainFiber with - | main
  · rfl
  · simp only [hmain]
    cases (s.fiber f).main <;> rfl

theorem swapOut_eq (s : ThreadState Cb) (f : ℕ) (purpose : Purpose) :
    s.swapOut f purpose = (s.SetThis (s.home f)).swapcontext f (s.home f) purpose := by
  rw [swapOut, home]
  rcases s.mainFiber with - | main
  · rfl
  · cases (s.fiber f).main <;> rfl

/-! ### What a call of `swapcontext` changes -/

section Swapcontext

variable {s : ThreadState Cb} {save load : ℕ} {purpose : Purpose}

@[simp] theorem swapcontext_created : (s.swapcontext save load purpose).created = s.created := rfl

@[simp] theorem swapcontext_t_fiber : (s.swapcontext save load purpose).t_fiber = s.t_fiber := rfl

@[simp] theorem swapcontext_calls :
    (s.swapcontext save load purpose).calls = ⟨s.cpu.owner, purpose⟩ :: s.calls := rfl

@[simp] theorem swapcontext_ctx_self :
    ((s.swapcontext save load purpose).fiber save).ctx = .after s.calls.length := by
  simp [swapcontext, modify]

theorem swapcontext_ctx_of_ne {g : ℕ} (h : g ≠ save) :
    ((s.swapcontext save load purpose).fiber g).ctx = (s.fiber g).ctx := by
  simp [swapcontext, modify, h]

@[simp] theorem swapcontext_state {g : ℕ} :
    ((s.swapcontext save load purpose).fiber g).state = (s.fiber g).state := by
  by_cases h : g = save
  · subst h
    simp [swapcontext, modify]
  · simp [swapcontext, modify, h]

@[simp] theorem swapcontext_main {g : ℕ} :
    ((s.swapcontext save load purpose).fiber g).main = (s.fiber g).main := by
  by_cases h : g = save
  · subst h
    simp [swapcontext, modify]
  · simp [swapcontext, modify, h]

/-- At the start of `MainFunc` the callback of `t_fiber` is run. -/
theorem swapcontext_start (hne : load ≠ save) (h : (s.fiber load).ctx = .start) :
    (s.swapcontext save load purpose).cpu = ⟨s.t_fiber, .start⟩ := by
  simp [swapcontext, modify, hne, h, ownerOf]

/-- After an earlier call the code of its caller goes on. -/
theorem swapcontext_after (hne : load ≠ save) {n : ℕ} (h : (s.fiber load).ctx = .after n)
    {call : Call} (hcall : Journal.get? s.calls n = some call) :
    (s.swapcontext save load purpose).cpu = ⟨call.caller, .after n⟩ := by
  simp [swapcontext, modify, hne, h, ownerOf, Journal.get?_cons hcall]

end Swapcontext

/-! ### The invariant -/

/-- The call enters the fiber. -/
def enters (f : ℕ) (call : Call) : Bool := call.purpose = .swapIn f

/-- The fiber yields in the call. -/
def yields (f : ℕ) (call : Call) : Bool := call.caller = f && call.purpose = .yield

/-- The slots hold what the next operation will look for in them. -/
structure Paired (s : ThreadState Cb) : Prop where
  current : s.t_fiber = s.cpu.owner
  owner_lt : s.cpu.owner < s.created
  exec : (s.fiber s.cpu.owner).state = .EXEC
  thread : (s.fiber t_threadFiber).main = true ∧ (s.fiber t_threadFiber).state = .EXEC
  main : ∀ m, s.mainFiber = some m → m < s.created ∧ (s.fiber m).main = true
  /-- Nothing is in `EXEC` but the fiber that is executed and what it goes on at when it leaves. -/
  only : ∀ f < s.created, (s.fiber f).state = .EXEC →
    f = s.cpu.owner ∨ f = s.home s.cpu.owner ∨ f = t_threadFiber
  home_exec : (s.fiber (s.home s.cpu.owner)).state = .EXEC
  fresh : ∀ f < s.created, (s.fiber f).state = .INIT → (s.fiber f).ctx = .start
  suspended : ∀ f < s.created, (s.fiber f).state = .HOLD ∨ (s.fiber f).state = .READY →
    ∃ n, Journal.last (yields f) s.calls = some n ∧ (s.fiber f).ctx = .after n
  entered : ∀ f < s.created, f ≠ t_threadFiber → (s.fiber f).state = .EXEC →
    ∃ n, Journal.last (enters f) s.calls = some n ∧
      (s.fiber (s.home f)).ctx = .after n ∧
        Journal.get? s.calls n = some ⟨s.home f, .swapIn f⟩

namespace Paired

variable {s s' : ThreadState Cb}

theorem init (object : ℕ → Fiber Cb) : (ThreadState.init object).Paired where
  current := rfl
  owner_lt := Nat.zero_lt_one
  exec := by simp [ThreadState.init]
  thread := by simp [ThreadState.init, t_threadFiber]
  main m hm := absurd hm (Option.some_ne_none m).symm
  only f hf _ := Or.inl (Nat.lt_one_iff.mp hf)
  home_exec := by simp [ThreadState.init, home, t_threadFiber]
  fresh f hf hst := by
    obtain rfl := Nat.lt_one_iff.mp hf
    simp [ThreadState.init] at hst
  suspended f hf hst := by
    obtain rfl := Nat.lt_one_iff.mp hf
    simp [ThreadState.init] at hst
  entered f hf hne _ := absurd (Nat.lt_one_iff.mp hf) hne

/-- A home is the main fiber of the thread, or the scheduler's. -/
theorem home_main (h : s.Paired) (f : ℕ) : (s.fiber (s.home f)).main = true := by
  rw [home]
  split
  · exact h.thread.1
  · rename_i m hm
    split
    · exact h.thread.1
    · exact (h.main m hm).2

theorem home_lt (h : s.Paired) (f : ℕ) : s.home f < s.created := by
  have hpos : t_threadFiber < s.created := (Nat.zero_le _).trans_lt h.owner_lt
  rw [home]
  split
  · exact hpos
  · rename_i m hm
    split
    · exact hpos
    · exact (h.main m hm).1

theorem home_of_main {f : ℕ} (h : (s.fiber f).main = true) : s.home f = t_threadFiber := by
  rw [home]
  split
  · rfl
  · rw [if_pos h]

theorem home_home (h : s.Paired) (f : ℕ) : s.home (s.home f) = t_threadFiber :=
  home_of_main (h.home_main f)

/-- Only the main fiber of the thread is its own home. -/
theorem home_ne (h : s.Paired) {f : ℕ} (hf : f ≠ t_threadFiber) : s.home f ≠ f := by
  intro heq
  have hmain := h.home_main f
  rw [heq] at hmain
  exact hf (heq.symm.trans (home_of_main hmain))

/-- What is executed is the home of no other fiber that is in `EXEC`. -/
theorem home_ne_owner (h : s.Paired) {f : ℕ} (hf : f < s.created) (hne : f ≠ t_threadFiber)
    (hexec : (s.fiber f).state = .EXEC) : s.home f ≠ s.cpu.owner := by
  rcases h.only f hf hexec with rfl | rfl | rfl
  · exact h.home_ne hne
  · intro heq
    rw [h.home_home] at heq
    rw [← heq, home_of_main h.thread.1] at hne
    exact hne rfl
  · exact absurd rfl hne

/-- The home of what is in `EXEC` is in `EXEC`. -/
theorem exec_home (h : s.Paired) {f : ℕ} (hf : f < s.created) (hexec : (s.fiber f).state = .EXEC) :
    (s.fiber (s.home f)).state = .EXEC := by
  rcases h.only f hf hexec with rfl | rfl | rfl
  · exact h.home_exec
  · rw [h.home_home]
    exact h.thread.2
  · rw [home_of_main h.thread.1]
    exact h.thread.2

end Paired

/-! ### A switch -/

/-- Before a switch the state of one fiber is set, and perhaps `t_fiber`. -/
structure Marks (s s₁ : ThreadState Cb) (f : ℕ) (st : Fiber.State) : Prop where
  created : s₁.created = s.created
  mainFiber : s₁.mainFiber = s.mainFiber
  cpu : s₁.cpu = s.cpu
  calls : s₁.calls = s.calls
  state : (s₁.fiber f).state = st
  main : (s₁.fiber f).main = (s.fiber f).main
  ctx : (s₁.fiber f).ctx = (s.fiber f).ctx
  other : ∀ g, g ≠ f → s₁.fiber g = s.fiber g

theorem Marks.main_eq {s s₁ : ThreadState Cb} {f : ℕ} {st : Fiber.State} (h : s.Marks s₁ f st)
    (g : ℕ) : (s₁.fiber g).main = (s.fiber g).main := by
  by_cases hg : g = f
  · rw [hg, h.main]
  · rw [h.other g hg]

theorem Marks.ctx_eq {s s₁ : ThreadState Cb} {f : ℕ} {st : Fiber.State} (h : s.Marks s₁ f st)
    (g : ℕ) : (s₁.fiber g).ctx = (s.fiber g).ctx := by
  by_cases hg : g = f
  · rw [hg, h.ctx]
  · rw [h.other g hg]

theorem Marks.setThis {s s₁ : ThreadState Cb} {f : ℕ} {st : Fiber.State} (h : s.Marks s₁ f st)
    (g : ℕ) : s.Marks (s₁.SetThis g) f st :=
  ⟨h.created, h.mainFiber, h.cpu, h.calls, h.state, h.main, h.ctx, h.other⟩

theorem marks_setState (s : ThreadState Cb) (f : ℕ) (st : Fiber.State) :
    s.Marks (s.setState f st) f st where
  created := rfl
  mainFiber := rfl
  cpu := rfl
  calls := rfl
  state := by simp [setState, modify]
  main := by simp [setState, modify]
  ctx := by simp [setState, modify]
  other g hg := by simp [setState, modify, hg]

/-- A switch. The context of the executed fiber is saved into its own slot. -/
structure Switches (s s' : ThreadState Cb) (f : ℕ) (st : Fiber.State) (purpose : Purpose) :
    Prop where
  created : s'.created = s.created
  mainFiber : s'.mainFiber = s.mainFiber
  calls : s'.calls = ⟨s.cpu.owner, purpose⟩ :: s.calls
  state : (s'.fiber f).state = st
  state_other : ∀ g, g ≠ f → (s'.fiber g).state = (s.fiber g).state
  main : ∀ g, (s'.fiber g).main = (s.fiber g).main
  saved : (s'.fiber s.cpu.owner).ctx = .after s.calls.length
  ctx : ∀ g, g ≠ s.cpu.owner → (s'.fiber g).ctx = (s.fiber g).ctx

theorem Marks.switches {s s₁ : ThreadState Cb} {f : ℕ} {st : Fiber.State} (h : s.Marks s₁ f st)
    (load : ℕ) (purpose : Purpose) :
    s.Switches (s₁.swapcontext s.cpu.owner load purpose) f st purpose where
  created := h.created
  mainFiber := h.mainFiber
  calls := by rw [swapcontext_calls, h.cpu, h.calls]
  state := swapcontext_state.trans h.state
  state_other g hg := swapcontext_state.trans (congrArg Fiber.state (h.other g hg))
  main g := swapcontext_main.trans (h.main_eq g)
  saved := by rw [swapcontext_ctx_self, h.calls]
  ctx g hg := (swapcontext_ctx_of_ne hg).trans (h.ctx_eq g)

namespace Switches

variable {s s' : ThreadState Cb} {f : ℕ} {st : Fiber.State} {purpose : Purpose}

theorem home_eq (hs : s.Switches s' f st purpose) (g : ℕ) : s'.home g = s.home g :=
  home_congr hs.mainFiber (hs.main g)

theorem thread (hs : s.Switches s' f st purpose) (h : s.Paired) (hne : f ≠ t_threadFiber) :
    (s'.fiber t_threadFiber).main = true ∧ (s'.fiber t_threadFiber).state = .EXEC := by
  rw [hs.main, hs.state_other _ hne.symm]
  exact h.thread

theorem main_main (hs : s.Switches s' f st purpose) (h : s.Paired) (m : ℕ)
    (hm : s'.mainFiber = some m) : m < s'.created ∧ (s'.fiber m).main = true := by
  rw [hs.created, hs.main]
  exact h.main m (hs.mainFiber ▸ hm)

theorem fresh (hs : s.Switches s' f st purpose) (h : s.Paired) (hst : st ≠ .INIT) (g : ℕ)
    (hg : g < s'.created) (hinit : (s'.fiber g).state = .INIT) : (s'.fiber g).ctx = .start := by
  have hgf : g ≠ f := by
    rintro rfl
    exact hst (hs.state.symm.trans hinit)
  rw [hs.state_other g hgf] at hinit
  have howner : g ≠ s.cpu.owner := by
    rintro rfl
    exact Fiber.State.noConfusion (h.exec.symm.trans hinit)
  rw [hs.ctx g howner]
  exact h.fresh g (hs.created ▸ hg) hinit

theorem suspended (hs : s.Switches s' f st purpose) (h : s.Paired)
    (hwaits : st = .HOLD ∨ st = .READY → f = s.cpu.owner ∧ purpose = .yield) (g : ℕ)
    (hg : g < s'.created) (hst : (s'.fiber g).state = .HOLD ∨ (s'.fiber g).state = .READY) :
    ∃ n, Journal.last (yields g) s'.calls = some n ∧ (s'.fiber g).ctx = .after n := by
  rw [hs.calls]
  by_cases hgf : g = f
  · rw [hgf, hs.state] at hst
    obtain ⟨rfl, rfl⟩ := hwaits hst
    subst hgf
    exact ⟨_, Journal.last_cons_of_pos (by simp [yields]) _, hs.saved⟩
  · rw [hs.state_other g hgf] at hst
    have howner : g ≠ s.cpu.owner := by
      rintro rfl
      simp [h.exec] at hst
    obtain ⟨n, hlast, hafter⟩ := h.suspended g (hs.created ▸ hg) hst
    refine ⟨n, ?_, (hs.ctx g howner).trans hafter⟩
    rw [Journal.last_cons_of_neg (by simp [yields, Ne.symm howner]), hlast]

theorem entered (hs : s.Switches s' f st purpose) (h : s.Paired)
    (hself : st = .EXEC → s.home f = s.cpu.owner ∧ purpose = .swapIn f)
    (hother : ∀ g, g ≠ f → purpose ≠ .swapIn g) (g : ℕ) (hg : g < s'.created)
    (hne : g ≠ t_threadFiber) (hexec : (s'.fiber g).state = .EXEC) :
    ∃ n, Journal.last (enters g) s'.calls = some n ∧ (s'.fiber (s'.home g)).ctx = .after n ∧
      Journal.get? s'.calls n = some ⟨s'.home g, .swapIn g⟩ := by
  rw [hs.calls, hs.home_eq]
  by_cases hgf : g = f
  · rw [hgf, hs.state] at hexec
    obtain ⟨hhome, rfl⟩ := hself hexec
    rw [hgf, hhome]
    exact ⟨_, Journal.last_cons_of_pos (by simp [enters]) _, hs.saved, Journal.get?_cons_self ..⟩
  · rw [hs.state_other g hgf] at hexec
    have hg := hs.created ▸ hg
    obtain ⟨n, hlast, hafter, hcall⟩ := h.entered g hg hne hexec
    -- the slot that is written is that of the executed fiber, which is the home of no other
    refine ⟨n, ?_, (hs.ctx _ (h.home_ne_owner hg hne hexec)).trans hafter,
      Journal.get?_cons hcall _⟩
    rw [Journal.last_cons_of_neg (by simp [enters, hother g hgf]), hlast]

end Switches

/-! ### Entering -/

/-- A fiber that may be entered is not in `EXEC`. -/
theorem ne_exec_of_mem {st : Fiber.State} (h : st ∈ [.INIT, .HOLD, .READY]) : st ≠ .EXEC := by
  rintro rfl
  exact absurd h (by decide)

section Enter

variable {s : ThreadState Cb} {f : ℕ}

/-- **Where a fiber goes on that is entered**: where its slot says, in its own code. -/
theorem Paired.cpu_of_enter (h : s.Paired) (hf : f < s.created)
    (hst : (s.fiber f).state ∈ [.INIT, .HOLD, .READY]) {s₁ : ThreadState Cb}
    (hs₁ : s.Marks s₁ f .EXEC) (hthis : s₁.t_fiber = f) (hne : f ≠ s.home f) (purpose : Purpose) :
    (s₁.swapcontext (s.home f) f purpose).cpu = ⟨f, (s.fiber f).ctx⟩ ∧
      ((s.fiber f).state = .INIT → (s.fiber f).ctx = .start) ∧
      ((s.fiber f).state ≠ .INIT → ∃ n, Journal.last (yields f) s.calls = some n ∧
        (s.fiber f).ctx = .after n) := by
  have hctx : (s₁.fiber f).ctx = (s.fiber f).ctx := hs₁.ctx
  by_cases hinit : (s.fiber f).state = .INIT
  · have hstart := h.fresh f hf hinit
    refine ⟨?_, fun _ => hstart, fun hne => absurd hinit hne⟩
    rw [swapcontext_start hne (hctx.trans hstart), hthis, hstart]
  · have hwaits : (s.fiber f).state = .HOLD ∨ (s.fiber f).state = .READY := by
      simpa [hinit] using hst
    obtain ⟨n, hlast, hafter⟩ := h.suspended f hf hwaits
    refine ⟨?_, fun hst => absurd hst hinit, fun _ => ⟨n, hlast, hafter⟩⟩
    obtain ⟨call, hcall, hyields⟩ := Journal.get?_last hlast
    have hcaller : call.caller = f := by
      simp only [yields, Bool.and_eq_true, decide_eq_true_eq] at hyields
      exact hyields.1
    rw [swapcontext_after hne (hctx.trans hafter) (hs₁.calls ▸ hcall), hcaller, hafter]

/-- Entering a fiber from its home keeps the pairing. -/
theorem Paired.of_enter (h : s.Paired) (hf : f < s.created)
    (hst : (s.fiber f).state ∈ [.INIT, .HOLD, .READY]) (howner : s.cpu.owner = s.home f)
    {s₁ : ThreadState Cb} (hs₁ : s.Marks s₁ f .EXEC) (hthis : s₁.t_fiber = f) :
    (s₁.swapcontext (s.home f) f (.swapIn f)).Paired := by
  have hnotExec := ne_exec_of_mem hst
  have hne : f ≠ s.home f := by
    intro heq
    exact hnotExec (heq.trans howner.symm ▸ h.exec)
  have hroot : f ≠ t_threadFiber := by
    rintro rfl
    exact hnotExec h.thread.2
  have hs : s.Switches (s₁.swapcontext (s.home f) f (.swapIn f)) f .EXEC (.swapIn f) :=
    howner ▸ hs₁.switches f (.swapIn f)
  have hcpu := (h.cpu_of_enter hf hst hs₁ hthis hne (.swapIn f)).1
  constructor
  · rw [swapcontext_t_fiber, hthis, hcpu]
  · rw [hcpu, hs.created]
    exact hf
  · rw [hcpu, hs.state]
  · exact hs.thread h hroot
  · exact hs.main_main h
  · intro g hg hexec
    rw [hcpu, hs.home_eq, ← howner]
    by_cases hgf : g = f
    · exact Or.inl hgf
    · rw [hs.state_other g hgf] at hexec
      rcases h.only g (hs.created ▸ hg) hexec with hg | hg | hg
      · exact Or.inr (Or.inl hg)
      · rw [howner, h.home_home] at hg
        exact Or.inr (Or.inr hg)
      · exact Or.inr (Or.inr hg)
  · rw [hcpu, hs.home_eq, hs.state_other _ hne.symm, ← howner]
    exact h.exec
  · exact hs.fresh h (by decide)
  · exact hs.suspended h fun hst => absurd hst (by decide)
  · refine hs.entered h (fun _ => ⟨howner.symm, rfl⟩) fun g hg heq => ?_
    exact hg (Purpose.swapIn.inj heq).symm

end Enter

/-! ### Leaving -/

section Leave

variable {s : ThreadState Cb}

/-- **Where it goes on when a fiber is left**: just after the call that entered it. -/
theorem Paired.cpu_of_leave (h : s.Paired) (hne : s.cpu.owner ≠ t_threadFiber) {st : Fiber.State}
    {s₁ : ThreadState Cb} (hs₁ : s.Marks s₁ s.cpu.owner st) (purpose : Purpose) :
    ∃ n, Journal.last (enters s.cpu.owner) s.calls = some n ∧
      Journal.get? s.calls n = some ⟨s.home s.cpu.owner, .swapIn s.cpu.owner⟩ ∧
        (s₁.swapOut s.cpu.owner purpose).cpu = ⟨s.home s.cpu.owner, .after n⟩ := by
  obtain ⟨n, hlast, hafter, hcall⟩ := h.entered s.cpu.owner h.owner_lt hne h.exec
  refine ⟨n, hlast, hcall, ?_⟩
  have hhome : s₁.home s.cpu.owner = s.home s.cpu.owner := home_congr hs₁.mainFiber hs₁.main
  have hafter₁ : ((s₁.SetThis (s.home s.cpu.owner)).fiber (s.home s.cpu.owner)).ctx = .after n :=
    (hs₁.ctx_eq _).trans hafter
  have hcall₁ : Journal.get? (s₁.SetThis (s.home s.cpu.owner)).calls n =
      some ⟨s.home s.cpu.owner, .swapIn s.cpu.owner⟩ := hs₁.calls.symm ▸ hcall
  rw [swapOut_eq, hhome, swapcontext_after (h.home_ne hne) hafter₁ hcall₁]

/-- Leaving a fiber keeps the pairing. -/
theorem Paired.of_leave (h : s.Paired) (hne : s.cpu.owner ≠ t_threadFiber) {st : Fiber.State}
    {s₁ : ThreadState Cb} (hs₁ : s.Marks s₁ s.cpu.owner st) {purpose : Purpose}
    (hexec : st ≠ .EXEC) (hinit : st ≠ .INIT) (hpurpose : ∀ g, purpose ≠ .swapIn g)
    (hyield : st = .HOLD ∨ st = .READY → purpose = .yield) :
    (s₁.swapOut s.cpu.owner purpose).Paired := by
  obtain ⟨n, -, -, hcpu⟩ := h.cpu_of_leave hne hs₁ purpose
  have hhome : s₁.home s.cpu.owner = s.home s.cpu.owner := home_congr hs₁.mainFiber hs₁.main
  have hthis : (s₁.swapOut s.cpu.owner purpose).t_fiber = s.home s.cpu.owner := by
    rw [swapOut_eq, swapcontext_t_fiber]
    exact hhome
  have hs : s.Switches (s₁.swapOut s.cpu.owner purpose) s.cpu.owner st purpose := by
    rw [swapOut_eq]
    exact (hs₁.setThis _).switches _ purpose
  have hhomene : s.home s.cpu.owner ≠ s.cpu.owner := h.home_ne hne
  constructor
  · rw [hthis, hcpu]
  · rw [hcpu, hs.created]
    exact h.home_lt _
  · rw [hcpu, hs.state_other _ hhomene]
    exact h.home_exec
  · exact hs.thread h hne
  · exact hs.main_main h
  · intro g hg hgexec
    rw [hcpu]
    have hgf : g ≠ s.cpu.owner := by
      rintro rfl
      exact hexec (hs.state.symm.trans hgexec)
    rw [hs.state_other g hgf] at hgexec
    rcases h.only g (hs.created ▸ hg) hgexec with hg | hg | hg
    · exact absurd hg hgf
    · exact Or.inl hg
    · exact Or.inr (Or.inr hg)
  · rw [hcpu, hs.home_eq, h.home_home, hs.state_other _ hne.symm]
    exact h.thread.2
  · exact hs.fresh h hinit
  · exact hs.suspended h fun hst => ⟨rfl, hyield hst⟩
  · exact hs.entered h (fun hst => absurd hst hexec) fun g _ => hpurpose g

end Leave

/-! ### The other operations -/

section Others

variable {s s' : ThreadState Cb}

/-- One fiber, which is not in `EXEC`, is made or made anew. -/
structure Renews (s s' : ThreadState Cb) (f : ℕ) : Prop where
  exec : f < s.created → (s.fiber f).state ≠ .EXEC
  created_le : s.created ≤ s'.created
  lt : ∀ g < s'.created, g ≠ f → g < s.created
  t_fiber : s'.t_fiber = s.t_fiber
  mainFiber : s'.mainFiber = s.mainFiber
  cpu : s'.cpu = s.cpu
  calls : s'.calls = s.calls
  state : (s'.fiber f).state = .INIT
  ctx : (s'.fiber f).ctx = .start
  main : f < s.created → (s'.fiber f).main = (s.fiber f).main
  other : ∀ g, g ≠ f → s'.fiber g = s.fiber g

theorem Paired.of_renews (h : s.Paired) {f : ℕ} (hf : s.Renews s' f) : s'.Paired := by
  have hne : ∀ g < s.created, (s.fiber g).state = .EXEC → g ≠ f := by
    rintro g hg hexec rfl
    exact hf.exec hg hexec
  have hroot : t_threadFiber < s.created := (Nat.zero_le _).trans_lt h.owner_lt
  have hmain : ∀ g < s.created, (s'.fiber g).main = (s.fiber g).main := by
    intro g hg
    by_cases hgf : g = f
    · rw [hgf, hf.main (hgf ▸ hg)]
    · rw [hf.other g hgf]
  have hhome : ∀ g < s.created, s'.home g = s.home g :=
    fun g hg => home_congr hf.mainFiber (hmain g hg)
  have hhomene : ∀ g < s.created, (s.fiber g).state = .EXEC → s.home g ≠ f :=
    fun g hg hexec => hne _ (h.home_lt g) (h.exec_home hg hexec)
  have hnot : ∀ g, (s'.fiber g).state ≠ .INIT → g ≠ f := by
    rintro g hg rfl
    exact hg hf.state
  constructor
  · rw [hf.t_fiber, hf.cpu]
    exact h.current
  · rw [hf.cpu]
    exact h.owner_lt.trans_le hf.created_le
  · rw [hf.cpu, hf.other _ (hne _ h.owner_lt h.exec)]
    exact h.exec
  · rw [hmain _ hroot, hf.other _ (hne _ hroot h.thread.2)]
    exact h.thread
  · intro m hm
    obtain ⟨hlt, hmain'⟩ := h.main m (hf.mainFiber ▸ hm)
    exact ⟨hlt.trans_le hf.created_le, (hmain m hlt).trans hmain'⟩
  · intro g hg hexec
    have hgf := hnot g (by rw [hexec]; decide)
    rw [hf.cpu, hhome _ h.owner_lt]
    exact h.only g (hf.lt g hg hgf) (hf.other g hgf ▸ hexec)
  · rw [hf.cpu, hhome _ h.owner_lt, hf.other _ (hhomene _ h.owner_lt h.exec)]
    exact h.home_exec
  · intro g hg hinit
    by_cases hgf : g = f
    · rw [hgf, hf.ctx]
    · rw [hf.other g hgf] at hinit ⊢
      exact h.fresh g (hf.lt g hg hgf) hinit
  · intro g hg hwaits
    have hgf := hnot g (by rcases hwaits with hst | hst <;> rw [hst] <;> decide)
    rw [hf.other g hgf] at hwaits ⊢
    rw [hf.calls]
    exact h.suspended g (hf.lt g hg hgf) hwaits
  · intro g hg hgroot hexec
    have hgf := hnot g (by rw [hexec]; decide)
    rw [hf.other g hgf] at hexec
    have hg := hf.lt g hg hgf
    rw [hhome g hg, hf.other _ (hhomene g hg hexec), hf.calls]
    exact h.entered g hg hgroot hexec

theorem renews_newFiber (s : ThreadState Cb) (cb : Option Cb) (main : Bool) :
    s.Renews (s.newFiber cb main) s.created where
  exec h := absurd h (Nat.lt_irrefl _)
  created_le := Nat.le_succ _
  lt g hg hne := Nat.lt_of_le_of_ne (Nat.le_of_lt_succ hg) hne
  t_fiber := rfl
  mainFiber := rfl
  cpu := rfl
  calls := rfl
  state := by simp [newFiber, modify]
  ctx := by simp [newFiber, modify]
  main h := absurd h (Nat.lt_irrefl _)
  other g hg := by simp [newFiber, modify, hg]

theorem renews_reset {f : ℕ} {cb : Option Cb} (hs : s.reset f cb = some s') : s.Renews s' f := by
  obtain ⟨hst, hs⟩ := Option.ite_none_right_eq_some.mp hs
  obtain rfl := Option.some.inj hs
  constructor
  · intro _ hexec
    rw [hexec] at hst
    exact absurd hst (by decide)
  · exact Nat.le_refl _
  · exact fun g hg _ => hg
  all_goals try rfl
  all_goals simp [modify]
  exact fun g hg => Function.update_of_ne hg ..

/-- Another main fiber of the scheduler, while the main fiber of the thread is executed. -/
theorem Paired.of_setMainFiber (h : s.Paired) (howner : s.cpu.owner = t_threadFiber) {m : ℕ}
    (hm : m < s.created) (hmain : m = t_threadFiber ∨ (s.fiber m).main = true) :
    Paired { s with mainFiber := some m } := by
  have hroot : s.home t_threadFiber = t_threadFiber := home_of_main h.thread.1
  have hhome : home { s with mainFiber := some m } t_threadFiber = t_threadFiber :=
    home_of_main h.thread.1
  have honly : ∀ g < s.created, (s.fiber g).state = .EXEC → g = t_threadFiber := by
    intro g hg hexec
    have := h.only g hg hexec
    rwa [howner, hroot, or_self, or_self] at this
  constructor
  · exact h.current
  · exact h.owner_lt
  · exact h.exec
  · exact h.thread
  · intro m' hm'
    obtain rfl := Option.some.inj hm'
    rcases hmain with rfl | hmain
    · exact ⟨hm, h.thread.1⟩
    · exact ⟨hm, hmain⟩
  · intro g hg hexec
    exact Or.inr (Or.inr (honly g hg hexec))
  · change (s.fiber (home { s with mainFiber := some m } s.cpu.owner)).state = .EXEC
    rw [howner, hhome]
    exact h.thread.2
  · exact h.fresh
  · exact h.suspended
  · intro g hg hne hexec
    exact absurd (honly g hg hexec) hne

end Others

/-! ### The step lemma -/

theorem marks_enter (s : ThreadState Cb) (f : ℕ) :
    s.Marks ((s.SetThis f).setState f .EXEC) f .EXEC where
  created := rfl
  mainFiber := rfl
  cpu := rfl
  calls := rfl
  state := by simp [setState, modify, SetThis]
  main := by simp [setState, modify, SetThis]
  ctx := by simp [setState, modify, SetThis]
  other g hg := by simp [setState, modify, SetThis, hg]

theorem marks_leave (s : ThreadState Cb) (f : ℕ) (st : Fiber.State) :
    s.Marks ((if st = .TERM then s.modify f fun fiber => { fiber with cb := none } else s).setState
      f st) f st := by
  split
  · exact {
      created := rfl
      mainFiber := rfl
      cpu := rfl
      calls := rfl
      state := by simp [setState, modify]
      main := by simp [setState, modify]
      ctx := by simp [setState, modify]
      other := fun g hg => by simp [setState, modify, hg] }
  · exact marks_setState s f st

/-- The operations that leave the executed fiber, the state it gets, and what for. -/
inductive Leaves : Act Cb → Fiber.State → Purpose → Prop where
  | YieldToReady : Leaves .YieldToReady .READY .yield
  | YieldToHold : Leaves .YieldToHold .HOLD .yield
  | returns : Leaves .returns .TERM .leave
  | throws : Leaves .throws .EXCEPT .leave

/-- What an operation does that is allowed. -/
inductive Effect (s : ThreadState Cb) : Act Cb → ThreadState Cb → Prop where
  | newFiber (cb : Option Cb) (main : Bool) : Effect s (.newFiber cb main) (s.newFiber cb main)
  | setMainFiber {m : ℕ} (howner : s.cpu.owner = t_threadFiber) (hm : m < s.created)
      (hmain : m = t_threadFiber ∨ (s.fiber m).main = true) :
      Effect s (.setMainFiber m) { s with mainFiber := some m }
  | enter {f : ℕ} (hf : f < s.created) (hst : (s.fiber f).state ∈ [.INIT, .HOLD, .READY])
      (howner : s.cpu.owner = s.home f) :
      Effect s (.swapIn f)
        (((s.SetThis f).setState f .EXEC).swapcontext (s.home f) f (.swapIn f))
  | leave {a : Act Cb} {st : Fiber.State} {purpose : Purpose} {s₁ : ThreadState Cb}
      (ha : Leaves a st purpose) (hne : s.cpu.owner ≠ t_threadFiber)
      (hs₁ : s.Marks s₁ s.cpu.owner st) : Effect s a (s₁.swapOut s.cpu.owner purpose)
  | reset {f : ℕ} {cb : Option Cb} {s' : ThreadState Cb} (hs : s.Renews s' f) :
      Effect s (.reset f cb) s'

namespace Paired

variable {s s' : ThreadState Cb}

theorem yieldTo_eq (h : s.Paired) (st : Fiber.State) :
    s.yieldTo st = some ((s.setState s.cpu.owner st).swapOut s.cpu.owner .yield) := by
  rw [yieldTo, h.current]
  exact if_pos h.exec

theorem effect_of_step (h : s.Paired) {a : Act Cb} (ha : s.Allowed a) (hs : s.step a = some s') :
    s.Effect a s' := by
  cases a with
  | newFiber cb main =>
    obtain rfl := Option.some.inj hs
    exact .newFiber cb main
  | setMainFiber m =>
    obtain rfl := Option.some.inj hs
    exact .setMainFiber ha.1 ha.2.1 ha.2.2
  | swapIn f =>
    obtain ⟨hf, hst, hmay⟩ := ha
    obtain rfl := Option.some.inj ((swapIn_eq (ne_exec_of_mem hst)).symm.trans hs)
    exact .enter hf hst (mayEnter_iff.mp hmay)
  | YieldToReady =>
    obtain rfl := Option.some.inj ((h.yieldTo_eq .READY).symm.trans hs)
    exact .leave .YieldToReady ha (s.marks_setState _ .READY)
  | YieldToHold =>
    obtain rfl := Option.some.inj ((h.yieldTo_eq .HOLD).symm.trans hs)
    exact .leave .YieldToHold ha (s.marks_setState _ .HOLD)
  | returns =>
    obtain rfl := Option.some.inj hs
    exact .leave .returns ha (s.marks_leave _ .TERM)
  | throws =>
    obtain rfl := Option.some.inj hs
    exact .leave .throws ha (s.marks_leave _ .EXCEPT)
  | reset f cb => exact .reset (renews_reset hs)

/-- The step lemma. -/
theorem of_step (h : s.Paired) {a : Act Cb} (ha : s.Allowed a) (hs : s.step a = some s') :
    s'.Paired := by
  cases h.effect_of_step ha hs with
  | newFiber cb main => exact h.of_renews (s.renews_newFiber cb main)
  | setMainFiber howner hm hmain => exact h.of_setMainFiber howner hm hmain
  | enter hf hst howner => exact h.of_enter hf hst howner (s.marks_enter _) rfl
  | leave hleaves hne hs₁ =>
    cases hleaves <;>
      exact h.of_leave hne hs₁ (by decide) (by decide) (fun _ => Purpose.noConfusion)
        (by decide)
  | reset hrenews => exact h.of_renews hrenews

end Paired

/-- In every run the slots hold what the next operation will look for. -/
theorem paired_of_reachable {object : ℕ → Fiber Cb} {s : ThreadState Cb}
    (hs : Reachable step Allowed (ThreadState.init object) s) : s.Paired :=
  hs.invariant (Paired.init object) fun _ _ _ h ha hstep => h.of_step ha hstep

/-! ### Where each operation goes on -/

/-- Where the thread goes on after an operation that leads from `s` to `s'`. -/
def GoesOn (s s' : ThreadState Cb) : Act Cb → Prop
  | .swapIn f =>
    ∃ place, s'.cpu = ⟨f, place⟩ ∧
      ((s.fiber f).state = .INIT → place = .start) ∧
        ((s.fiber f).state ≠ .INIT →
          ∃ n, Journal.last (yields f) s.calls = some n ∧ place = .after n)
  | .YieldToReady | .YieldToHold | .returns | .throws =>
    ∃ n, Journal.last (enters s.cpu.owner) s.calls = some n ∧
      ∃ caller, Journal.get? s.calls n = some ⟨caller, .swapIn s.cpu.owner⟩ ∧
        s'.cpu = ⟨caller, .after n⟩
  | .newFiber _ _ | .setMainFiber _ | .reset _ _ => s'.cpu = s.cpu

namespace Paired

variable {s s' : ThreadState Cb}

/-- Every operation that is allowed goes on, but for a `reset` that fails its assertion. -/
theorem exists_step (h : s.Paired) {a : Act Cb} (ha : s.Allowed a)
    (hreset : ∀ f cb, a = .reset f cb → (s.fiber f).state.resettable) :
    ∃ s', s.step a = some s' := by
  cases a with
  | newFiber cb main => exact ⟨_, rfl⟩
  | setMainFiber f => exact ⟨_, rfl⟩
  | swapIn f => exact ⟨_, swapIn_eq (ne_exec_of_mem ha.2.1)⟩
  | YieldToReady => exact ⟨_, h.yieldTo_eq .READY⟩
  | YieldToHold => exact ⟨_, h.yieldTo_eq .HOLD⟩
  | returns => exact ⟨_, rfl⟩
  | throws => exact ⟨_, rfl⟩
  | reset f cb => exact ⟨_, if_pos (hreset f cb rfl)⟩

theorem goesOn (h : s.Paired) {a : Act Cb} (ha : s.Allowed a) (hs : s.step a = some s') :
    s.GoesOn s' a := by
  cases h.effect_of_step ha hs with
  | newFiber cb main => rfl
  | setMainFiber => rfl
  | @enter f hf hst howner =>
    have hne : f ≠ s.home f := by
      intro heq
      exact ne_exec_of_mem hst (heq.trans howner.symm ▸ h.exec)
    exact ⟨_, h.cpu_of_enter hf hst (s.marks_enter f) rfl hne (.swapIn f)⟩
  | @leave _ _ purpose _ hleaves hne hs₁ =>
    obtain ⟨n, hlast, hcall, hcpu⟩ := h.cpu_of_leave hne hs₁ purpose
    cases hleaves <;> exact ⟨n, hlast, _, hcall, hcpu⟩
  | reset hrenews => exact hrenews.cpu

/-- A fiber in `TERM` or `EXCEPT` stays so in every operation but its own `reset`. -/
theorem ended_of_step (h : s.Paired) {a : Act Cb} (ha : s.Allowed a) (hs : s.step a = some s')
    {f : ℕ} {st : Fiber.State} (hst : st = .TERM ∨ st = .EXCEPT) (hreset : ∀ cb, a ≠ .reset f cb)
    (hf : f < s.created ∧ (s.fiber f).state = st) :
    f < s'.created ∧ (s'.fiber f).state = st := by
  obtain ⟨hf, rfl⟩ := hf
  cases h.effect_of_step ha hs with
  | newFiber cb main =>
    rw [(s.renews_newFiber cb main).other f (Nat.ne_of_lt hf)]
    exact ⟨Nat.lt_succ_of_lt hf, rfl⟩
  | setMainFiber => exact ⟨hf, rfl⟩
  | @enter g _ hmem _ =>
    have hfg : f ≠ g := by
      rintro rfl
      rcases hst with hst | hst <;> simp [hst] at hmem
    rw [swapcontext_state, (s.marks_enter g).other f hfg]
    exact ⟨hf, rfl⟩
  | leave _ _ hs₁ =>
    have howner : f ≠ s.cpu.owner := by
      rintro rfl
      rw [h.exec] at hst
      simp at hst
    rw [swapOut_eq, swapcontext_state, swapcontext_created]
    exact ⟨hf.trans_eq hs₁.created.symm, congrArg Fiber.state (hs₁.other f howner)⟩
  | @reset g cb _ hrenews =>
    have hfg : f ≠ g := by
      rintro rfl
      exact hreset cb rfl
    rw [hrenews.other f hfg]
    exact ⟨hf.trans_le hrenews.created_le, rfl⟩

/-- The code of a fiber that has ended is not executed before its `reset`. -/
theorem ended_of_reachable (h : s.Paired) {f : ℕ} (hf : f < s.created) {st : Fiber.State}
    (hst : st = .TERM ∨ st = .EXCEPT) (hended : (s.fiber f).state = st) {u : ThreadState Cb}
    (hu : Reachable step (fun s a => s.Allowed a ∧ ∀ cb, a ≠ .reset f cb) s u) :
    u.cpu.owner ≠ f ∧ (u.fiber f).state = st := by
  have key : u.Paired ∧ f < u.created ∧ (u.fiber f).state = st := by
    refine hu.invariant (P := fun u => u.Paired ∧ f < u.created ∧ (u.fiber f).state = st)
      ⟨h, hf, hended⟩ ?_
    rintro v a w ⟨hv, hended⟩ ⟨ha, hreset⟩ hs
    exact ⟨hv.of_step ha hs, hv.ended_of_step ha hs hst hreset hended⟩
  obtain ⟨hpaired, -, hended⟩ := key
  refine ⟨?_, hended⟩
  rintro rfl
  rw [hpaired.exec] at hended
  simp [← hended] at hst

end Paired

/-- **Entering and leaving pair up.** In every state that is reached the executed code is that of
`t_fiber`. Every operation then goes on where it should. A fiber that has ended is not executed
before it is reset. -/
theorem control_pairs_up {object : ℕ → Fiber Cb} {s : ThreadState Cb}
    (hs : Reachable step Allowed (ThreadState.init object) s) :
    s.t_fiber = s.cpu.owner ∧
    (∀ a, s.Allowed a → (∀ f cb, a = .reset f cb → (s.fiber f).state.resettable) →
      ∃ s', s.step a = some s' ∧ s'.t_fiber = s'.cpu.owner ∧ s.GoesOn s' a) ∧
    ∀ f < s.created, (s.fiber f).state = .TERM ∨ (s.fiber f).state = .EXCEPT →
      ∀ u, Reachable step (fun s a => s.Allowed a ∧ ∀ cb, a ≠ .reset f cb) s u →
        u.cpu.owner ≠ f ∧ (u.fiber f).state = (s.fiber f).state := by
  have h := paired_of_reachable hs
  refine ⟨h.current, ?_, ?_⟩
  · intro a ha hreset
    obtain ⟨s', hstep⟩ := h.exists_step ha hreset
    exact ⟨s', hstep, (h.of_step ha hstep).current, h.goesOn ha hstep⟩
  · intro f hf hst u hu
    exact h.ended_of_reachable hf hst rfl hu

/-- Three levels: the scheduler's main fiber, fiber 1, is entered from the main fiber of the thread
and enters fiber 2, the callback of which returns. -/
def sampleLevels : List (Act Unit) :=
  [.newFiber (some ()) true, .setMainFiber 1, .swapIn 1, .newFiber (some ()) false, .swapIn 2,
    .returns]

theorem isSome_sampleLevels :
    (exec step Allowed (init fun _ => ⟨.INIT, false, .start, none⟩) sampleLevels).isSome := by
  decide

def sampleEnded : ThreadState Unit :=
  (exec step Allowed (init fun _ => ⟨.INIT, false, .start, none⟩) sampleLevels).get
    isSome_sampleLevels

theorem control_pairs_up_sampleEnded :
    sampleEnded.t_fiber = sampleEnded.cpu.owner ∧
    (∃ s', sampleEnded.step .YieldToHold = some s' ∧ s'.t_fiber = s'.cpu.owner ∧
      sampleEnded.GoesOn s' .YieldToHold) ∧ sampleEnded.cpu.owner ≠ 2 := by
  have hs := control_pairs_up (reachable_get isSome_sampleLevels)
  exact ⟨hs.1, hs.2.1 .YieldToHold (by decide) (fun _ _ h => absurd h (by simp)),
    (hs.2.2 2 (by decide) (by decide) _ (Reachable.refl _)).1⟩

end ThreadState

end Wille
