import Wille.Scheduler.Queue
import Mathlib.Data.List.Forall2

/-!
# Code for one thread

`schedule(fc, thread)` puts the thread into the queue entry, and `run` respects it when it searches
the queue. But when the code yields with `YieldToReady`, `run` puts its fiber back with
`schedule(tk.fiber)` or `schedule(cb_fiber)`, and the new entry is for any thread. So the thread is
forgotten at the first yield, for a fiber as for a callback.

The *pin* of an entry is the thread its code was scheduled for. It is a ghost, kept next to the
queue: who takes an entry takes its pin, and what is put back has the pin of the one who puts it
back. A `YieldToHold` ends this; whoever wakes the fiber schedules it anew.

## Main definitions

* `Pinned`, `Pinned.step` — a scheduler and the pins of its queue and of its workers
* `Pinned.KeepsPins` — nothing pinned is put back, or there is no other thread

## Main results

* `Pinned.pin_forgotten` — a callback for one thread goes on in another
* `Pinned.runs_where_pinned` — as long as nothing pinned is put back, it does not
-/

namespace Wille

namespace Scheduler

open TransitionSystem

variable {W Cb : Type*}

/-- A scheduler and its pins. -/
structure Pinned (W Cb : Type*) where
  /-- The scheduler. -/
  sys : Sys W Cb
  /-- For each task in the queue, the thread its code was scheduled for, or `-1`. -/
  pins : List ℤ
  /-- The pin of the task a worker has taken last. -/
  turn : W → ℤ

namespace Pinned

/-- Before anything has happened. -/
def init : Pinned W Cb := { sys := .init, pins := [], turn := fun _ => -1 }

variable [DecidableEq W]

/-- What a step does to the pins. -/
def note (tid : W → ℤ) (s : Pinned W Cb) (a : Act W Cb) (sys : Sys W Cb) : Pinned W Cb :=
  match a with
  | .run w =>
    match s.sys.pc w with
    | .scan =>
      match s.sys.scan tid w s.sys.tasks with
      | .ok (some _) =>
        let i := s.sys.tasks.findIdx fun t => decide (s.sys.Takes tid w t)
        { sys := sys
          pins := s.pins.eraseIdx i
          turn := Function.update s.turn w (s.pins[i]?.getD (-1)) }
      | _ => { s with sys := sys }
    -- `schedule(tk.fiber)` or `schedule(cb_fiber)`
    | .requeue _ _ => { s with sys := sys, pins := s.pins ++ [s.turn w] }
    | _ => { s with sys := sys }
  | a => { s with sys := sys, pins := s.pins ++ (Sys.pushed a.tasks).map Task.thread }

/-- Nothing that is put back has a pin, unless all workers are that thread. -/
def KeepsPins (tid : W → ℤ) (s : Pinned W Cb) : Act W Cb → Prop
  | .run w =>
    match s.sys.pc w with
    | .requeue _ _ => s.turn w = -1 ∨ ∀ u, tid u = s.turn w
    | _ => True
  | _ => True

variable [Fintype W]

/-- One step. -/
def step (k : Kind) (tid : W → ℤ) (s : Pinned W Cb) (a : Act W Cb) : Option (Pinned W Cb) :=
  (s.sys.step k tid a).map (s.note tid a)

instance (tid : W → ℤ) : DecidableRel (KeepsPins tid : Pinned W Cb → Act W Cb → Prop) :=
  fun s a => by
    unfold KeepsPins
    split
    · split <;> infer_instance
    · exact instDecidableTrue

/-! ### The invariant -/

/-- Only this thread takes an entry with this pin. -/
def Fits (tid : W → ℤ) (t : Task Cb) (pin : ℤ) : Prop :=
  pin = -1 ∨ t.thread = pin ∨ ∀ u, tid u = pin

/-- The pins are kept. -/
structure Kept (tid : W → ℤ) (s : Pinned W Cb) : Prop where
  fits : List.Forall₂ (Fits tid) s.sys.tasks s.pins
  turn : ∀ w, s.turn w = -1 ∨ tid w = s.turn w

end Pinned

/-- Two lists that match, cut at an element of the first. -/
theorem exists_split_of_forall₂ {α β : Type*} {R : α → β → Prop} {x : α} {l₁ l₂ : List α}
    {q : List β} (h : List.Forall₂ R (l₁ ++ x :: l₂) q) :
    ∃ q₁ y q₂, q = q₁ ++ y :: q₂ ∧ q₁.length = l₁.length ∧ R x y ∧
      List.Forall₂ R (l₁ ++ l₂) (q₁ ++ q₂) := by
  induction l₁ generalizing q with
  | nil =>
    obtain ⟨y, q₂, hxy, hrest, rfl⟩ := List.forall₂_cons_left_iff.mp h
    exact ⟨[], y, q₂, rfl, rfl, hxy, hrest⟩
  | cons z l₁ ih =>
    obtain ⟨v, q', hzv, hrest, rfl⟩ := List.forall₂_cons_left_iff.mp h
    obtain ⟨q₁, y, q₂, rfl, hlen, hxy, hboth⟩ := ih hrest
    exact ⟨v :: q₁, y, q₂, rfl, congrArg Nat.succ hlen, hxy, hboth.cons hzv⟩

namespace Pinned

variable [DecidableEq W] [Fintype W] {k : Kind} {tid : W → ℤ} {s s' : Pinned W Cb}

namespace Kept

omit [DecidableEq W] [Fintype W] in
theorem init : (init : Pinned W Cb).Kept tid := ⟨.nil, fun _ => Or.inl rfl⟩

omit [DecidableEq W] [Fintype W] in
/-- Entries are added with pins that fit. -/
theorem add (h : s.Kept tid) {sys : Sys W Cb} {ts : List (Task Cb)} {ps : List ℤ}
    (htasks : sys.tasks = s.sys.tasks ++ ts) (hfit : List.Forall₂ (Fits tid) ts ps) :
    Kept tid { s with sys := sys, pins := s.pins ++ ps } where
  fits := by
    rw [htasks]
    exact List.rel_append h.fits hfit
  turn := h.turn

omit [Fintype W] in
/-- A worker takes the first entry that suits it, and its pin. -/
theorem take (h : s.Kept tid) {w : W} {t : Task Cb} {l₁ l₂ : List (Task Cb)} {sys : Sys W Cb}
    (hpc : s.sys.pc w = .scan)
    (hscan : s.sys.scan tid w s.sys.tasks = .ok (some (t, l₁ ++ l₂)))
    (htasks' : sys.tasks = l₁ ++ l₂) (htasks : s.sys.tasks = l₁ ++ t :: l₂)
    (ht : s.sys.Takes tid w t) (hfirst : ∀ u ∈ l₁, ¬s.sys.Takes tid w u) :
    (s.note tid (.run w) sys).Kept tid := by
  have hfits := h.fits
  rw [htasks] at hfits
  obtain ⟨q₁, pin, q₂, hpins, hlen, hpin, hrest⟩ := exists_split_of_forall₂ hfits
  have hidx := Sys.findIdx_takes htasks ht hfirst
  have herase : s.pins.eraseIdx l₁.length = q₁ ++ q₂ := by
    rw [hpins, ← hlen, List.eraseIdx_append_of_length_le (Nat.le_refl _), Nat.sub_self,
      List.eraseIdx_cons_zero]
  have hget : s.pins[l₁.length]? = some pin := by
    rw [hpins, ← hlen, List.getElem?_append_right (Nat.le_refl _), Nat.sub_self,
      List.getElem?_cons_zero]
  simp only [note, hpc, hscan, hidx, herase, hget, Option.getD_some]
  refine ⟨htasks' ▸ hrest, fun u => ?_⟩
  show Function.update s.turn w pin u = -1 ∨ tid u = Function.update s.turn w pin u
  rcases eq_or_ne u w with rfl | hne
  · rw [Function.update_self]
    rcases hpin with hfree | hthread | hall
    · exact Or.inl hfree
    · -- the entry is for this thread
      rw [← hthread]
      exact ht.1.imp id Eq.symm
    · exact Or.inr (hall u)
  · rw [Function.update_of_ne hne]
    exact h.turn u

/-- **The step lemma.** -/
theorem of_step (h : s.Kept tid) {a : Act W Cb} (ha : s.KeepsPins tid a)
    (hs : s.step k tid a = some s') : s'.Kept tid := by
  obtain ⟨sys, hstep, rfl⟩ := Option.map_eq_some_iff.mp hs
  rcases Sys.queue_of_step hstep with
    ⟨w, rfl, hpc, ⟨htasks, hnone⟩ | ⟨t, l₁, l₂, hscan, htasks', htasks, ht, hfirst⟩⟩ |
      ⟨hpc, htasks, -⟩
  · have hadd := h.add (htasks.trans (List.append_nil _).symm) .nil
    rw [List.append_nil] at hadd
    simp only [note, hpc]
    exact hadd
  · exact h.take hpc hscan htasks' htasks ht hfirst
  · have hfit : ∀ ts : List (Task Cb), List.Forall₂ (Fits tid) ts (ts.map Task.thread) := by
      intro ts
      rw [List.forall₂_map_right_iff, List.forall₂_same]
      exact fun t _ => Or.inr (Or.inl rfl)
    cases a with
    | run w =>
      simp only [note]
      split
      · exact absurd ‹_› (hpc w rfl)
      · -- what is put back has the pin of the worker
        rename_i f own hrequeue
        rw [Sys.adds, hrequeue] at htasks
        simp only [KeepsPins, hrequeue] at ha
        exact h.add htasks (.cons (ha.imp id Or.inr) .nil)
      · rename_i hno
        rw [Sys.adds] at htasks
        split at htasks
        · rename_i f own hrequeue
          exact absurd hrequeue (hno f own)
        · have hadd := h.add htasks .nil
          rwa [List.append_nil] at hadd
    | _ => exact h.add htasks (hfit _)

end Kept

/-- **Code for one thread runs there, as long as nothing pinned is put back.** In every state
reached, by whatever order of steps: what a worker is running was scheduled for any thread or for
this one. -/
theorem runs_where_pinned (hr : Reachable (step k tid) (KeepsPins tid) init s) {w : W} {f : ℕ}
    {own : Bool} (_ : s.sys.pc w = .body f own) (hpin : s.turn w ≠ -1) : tid w = s.turn w :=
  have h : s.Kept tid :=
    hr.invariant (P := Kept tid) .init fun _ _ _ h ha hs => h.of_step ha hs
  (h.turn w).resolve_left hpin

/-- A callback for thread `1` is scheduled, and the worker that is this thread runs it until it
stores this state. -/
def onceRun (st : Fiber.State) : List (Act Bool ℕ) :=
  [.schedule ⟨none, some 7, 1⟩, .run true, .run true, .run true, .run true, .run true, .run true,
    .leave true st]

/-- The worker leaves the fiber, and looks at what has become of it. -/
def backRun : List (Act Bool ℕ) := [.run true, .run true, .run true, .run true]

/-- Another callback for the thread has been taken up, after the first one has gone to `HOLD`. -/
def heldEnd : Pinned Bool ℕ :=
  (exec (step .scheduler fun w => if w then 1 else 2) (KeepsPins fun w => if w then 1 else 2) init
    (onceRun .HOLD ++ backRun ++ [.run true] ++ (onceRun .HOLD).dropLast)).get (by decide)

theorem runs_where_pinned_heldEnd : (1 : ℤ) = heldEnd.turn true :=
  have hpc : heldEnd.sys.pc true = .body 1 true := rfl
  runs_where_pinned (reachable_get (by decide : (exec (step .scheduler fun w => if w then 1 else 2)
    (KeepsPins fun w => if w then 1 else 2) init
    (onceRun .HOLD ++ backRun ++ [.run true] ++ (onceRun .HOLD).dropLast)).isSome)) hpc (by decide)

/-- **The pin is forgotten.** The callback for thread `1` yields with `YieldToReady`, and goes on in
thread `2`. -/
theorem pin_forgotten :
    ¬∀ s : Pinned Bool ℕ,
      Reachable (step .scheduler fun w => if w then 1 else 2) anyAction init s →
      ∀ w f own, s.sys.pc w = .body f own → s.turn w ≠ -1 →
        (if w then 1 else 2) = s.turn w := by
  intro h
  have hbad := h _ (reachable_get (by decide : (exec (step .scheduler fun w => if w then 1 else 2)
    anyAction init (onceRun .READY ++ backRun ++ [.run false, .run false, .run false, .run false,
      .run false])).isSome)) false 0 false rfl (by decide)
  exact absurd hbad (by decide)

end Pinned

end Scheduler

end Wille
