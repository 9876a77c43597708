import Mathlib.Tactic.SplitIfs
import Wille.ForMathlib.TransitionSystem
import Wille.Thread.Basic

/-!
# What the constructor of a thread has waited for

The constructor starts the new thread and waits for the semaphore that `run` notifies. So it
returns only when `run` has stored `m_id`, taken the callback over and taken up the name.

## Main definitions

* `RunPc.done` — how much of `run` is behind the new thread
* `Act.rename`, `lastName` — the name a step and a run leave
* `Posted`, `Copied` — what every step keeps

## Main results

* `constructor_hands_over` — what holds when the constructor returns, and that it can return
-/

namespace Wille

namespace Thread

open TransitionSystem

variable {Cb : Type*} {handle : ℕ} {tid : UInt64} {cb : Cb} {name : Bytes} {s s' : Sys Cb}
  {a : Act}

/-! ### What a step does -/

/-- What each step does while the meaning of the program is defined. -/
inductive Effect (handle : ℕ) (tid : UInt64) (s : Sys Cb) : Act → Sys Cb → Prop where
  | created : s.creator = .create →
    Effect handle tid s (.pthread_create true) { s with creator := .store, runner := .start }
  | refused : s.creator = .create →
    Effect handle tid s (.pthread_create false) { s with creator := .threw, alive := false }
  | stored : s.creator = .store → Effect handle tid s .store
    { s with object := { s.object with thread := handle }, creator := .wait }
  | woken : s.creator = .wait → 0 < s.object.semaphore → Effect handle tid s (.wait true)
    { s with object := { s.object with semaphore := s.object.semaphore - 1 }, creator := .ready }
  | interrupted : s.creator = .wait →
    Effect handle tid s (.wait false) { s with creator := .threw, alive := false }
  | begins : s.runner = .start →
    Effect handle tid s .run { s with t_thread := true, runner := .copyName }
  | copies : s.runner = .copyName → Effect handle tid s .run
    (s.access { s with t_thread_name := s.object.name, runner := .storeId })
  | storesId : s.runner = .storeId → Effect handle tid s .run
    (s.access { s with object := { s.object with id := tid }, runner := .setName })
  | names : s.runner = .setName →
    Effect handle tid s .run { s.SetName s.t_thread_name with runner := .swap }
  | swaps : s.runner = .swap → Effect handle tid s .run
    (s.access { s with object := { s.object with cb := s.cb }, cb := s.object.cb,
                       runner := .notify })
  | notifies : s.runner = .notify → Effect handle tid s .run
    (s.access { s with object := { s.object with semaphore := s.object.semaphore + 1 },
                       runner := .body })
  | renames (name : Bytes) : s.runner = .body →
    Effect handle tid s (.SetName name) (s.SetName name)
  | finishes : s.runner = .body → Effect handle tid s .finish { s with runner := .exited }
  | joins : s.creator = .ready → s.object.thread ≠ 0 → s.runner = .exited →
    Effect handle tid s (.join true)
      { s with object := { s.object with thread := 0 }, joined := s.joined + 1 }
  | joinsNot (ok : Bool) : s.creator = .ready → Effect handle tid s (.join ok) s
  | destroys : s.creator = .ready → Effect handle tid s .destroy
    { s with alive := false, creator := .destroyed,
             detached := if s.object.thread ≠ 0 then s.detached + 1 else s.detached }

theorem effect_of_step (hs : s.step handle tid a = some s') :
    s.dangling = false ∧ Effect handle tid s a s' := by
  unfold Sys.step at hs
  split_ifs at hs with hd
  refine ⟨by simpa using hd, ?_⟩
  cases a with
  | pthread_create ok =>
    simp only [Sys.stepDefined] at hs
    split_ifs at hs with hc hok <;> cases hs
    · subst hok; exact .created hc
    · obtain rfl : ok = false := by simpa using hok
      exact .refused hc
  | store =>
    simp only [Sys.stepDefined] at hs
    split_ifs at hs with hc
    cases hs
    exact .stored hc
  | wait ok =>
    simp only [Sys.stepDefined] at hs
    split_ifs at hs with hc hok hpos <;> cases hs
    · subst hok; exact .woken hc hpos
    · obtain rfl : ok = false := by simpa using hok
      exact .interrupted hc
  | run =>
    simp only [Sys.stepDefined, Sys.run] at hs
    split at hs <;> cases hs
    case h_1 hr => exact .begins hr
    case h_2 hr => exact .copies hr
    case h_3 hr => exact .storesId hr
    case h_4 hr => exact .names hr
    case h_5 hr => exact .swaps hr
    case h_6 hr => exact .notifies hr
  | SetName new =>
    simp only [Sys.stepDefined] at hs
    split_ifs at hs with hr
    cases hs
    exact .renames new hr
  | finish =>
    simp only [Sys.stepDefined] at hs
    split_ifs at hs with hr
    cases hs
    exact .finishes hr
  | join ok =>
    simp only [Sys.stepDefined] at hs
    split_ifs at hs with hc hj hr <;> cases hs
    · obtain rfl : ok = true := hj.2
      exact .joins hc hj.1 hr
    · exact .joinsNot ok hc
  | destroy =>
    by_cases hc : s.creator = .ready
    · simp only [Sys.stepDefined, if_pos hc, Option.some.injEq] at hs
      exact hs ▸ .destroys hc
    · simp only [Sys.stepDefined, if_neg hc, reduceCtorEq] at hs

/-! ### The handshake -/

/-- How many steps of `run` are done, up to the call of the callback. -/
def RunPc.done : RunPc → ℕ
  | .absent | .start => 0
  | .copyName => 1
  | .storeId => 2
  | .setName => 3
  | .swap => 4
  | .notify => 5
  | .body | .exited => 6

/-- The name after a step: a non-empty one given to `SetName` replaces it. -/
def Act.rename (name : Bytes) : Act → Bytes
  | .SetName new => if new = [] then name else new
  | _ => name

/-- What the owner knows of `run` through the semaphore. -/
def Posted (s : Sys Cb) : Prop :=
  match s.creator with
  | .create => s.alive = true ∧ s.runner = .absent ∧ s.object.semaphore = 0
  | .store | .wait =>
    s.alive = true ∧ s.runner ≠ .absent ∧
      s.object.semaphore = if s.runner.done = 6 then 1 else 0
  | .ready => s.alive = true ∧ s.runner.done = 6 ∧ s.object.semaphore = 0
  | .threw => s.alive = false
  | .destroyed => s.alive = false ∧ s.runner.done = 6

/-- What `run` has made of the object and of the new thread's own variables. -/
structure Copied (tid : UInt64) (cb : Cb) (name : Bytes) (s : Sys Cb) : Prop where
  name_ne : name ≠ []
  object_name : s.object.name = name
  current : s.t_thread = decide (1 ≤ s.runner.done)
  copied : 2 ≤ s.runner.done → s.t_thread_name = name
  stored : 3 ≤ s.runner.done → s.object.id = tid
  named : 4 ≤ s.runner.done → s.kernelName = some (shortName name)
  waiting : s.runner.done ≤ 4 → s.object.cb = some cb ∧ s.cb = none
  swapped : 5 ≤ s.runner.done → s.object.cb = none ∧ s.cb = some cb

/-- An access that is not dangling is one to an object that has not ended. -/
theorem Sys.access_eq {next : Sys Cb} (h : (s.access next).dangling = false) :
    s.alive = true ∧ s.access next = next := by
  unfold Sys.access at h ⊢
  split_ifs at h ⊢ with ha
  exact ⟨ha, rfl⟩

/-- `SetName` changes names only, unless its access is dangling. -/
theorem Sys.SetName_cases (s : Sys Cb) (name : Bytes) :
    ∃ objectName threadName kernelName dangling, s.SetName name =
      { s with object := { s.object with name := objectName }, t_thread_name := threadName,
               kernelName := kernelName, dangling := dangling } := by
  unfold Sys.SetName Sys.access
  split_ifs
  · exact ⟨_, _, _, _, rfl⟩
  · exact ⟨_, _, _, _, rfl⟩
  · exact ⟨_, _, _, _, rfl⟩
  · exact ⟨_, _, _, _, rfl⟩

/-- `SetName` with a name, on a thread that knows its object. -/
theorem Sys.SetName_eq (ht : s.t_thread = true) (hname : name ≠ [])
    (h : (s.SetName name).dangling = false) :
    s.SetName name =
      { s with t_thread_name := name, kernelName := some (shortName name),
               object := { s.object with name := name } } := by
  unfold Sys.SetName at h ⊢
  rw [if_neg hname] at h ⊢
  simp only [ht, if_true] at h ⊢
  exact (Sys.access_eq h).2

theorem posted_init (cb : Cb) (name : Bytes) : Posted (Sys.init cb name) := ⟨rfl, rfl, rfl⟩

theorem copied_init (cb : Cb) (name : Bytes) :
    Copied tid cb (initialName name) (Sys.init cb name) := by
  have hne : initialName name ≠ [] := by
    unfold initialName
    split_ifs with h
    · decide
    · exact h
  refine ⟨hne, ?_, ?_, ?_, ?_, ?_, ?_, ?_⟩ <;> simp [Sys.init, RunPc.done]

/-- `run` goes on without notifying the semaphore. -/
theorem Posted.of_runner (h : Posted s) (hc : s'.creator = s.creator) (ha : s'.alive = s.alive)
    (hsem : s'.object.semaphore = s.object.semaphore) (hr : s.runner ≠ .absent)
    (hr' : s'.runner ≠ .absent) (hd : s'.runner.done = 6 ↔ s.runner.done = 6) : Posted s' := by
  unfold Posted at h ⊢
  rw [hc, ha, hsem]
  cases hs : s.creator <;> simp only [hs] at h ⊢
  case create => exact absurd h.2.1 hr
  case store | wait => exact ⟨h.1, hr', by simp only [hd]; exact h.2.2⟩
  case ready => exact ⟨h.1, hd.mpr h.2.1, h.2.2⟩
  case threw => exact h
  case destroyed => exact ⟨h.1, hd.mpr h.2⟩

theorem Posted.of_effect (h : Posted s) (he : Effect handle tid s a s')
    (hd : s'.dangling = false) : Posted s' := by
  cases he with
  | created hc =>
    simp only [Posted, hc] at h ⊢
    exact ⟨h.1, by simp, h.2.2⟩
  | refused | interrupted => exact rfl
  | stored hc | joins hc =>
    simp only [Posted, hc] at h ⊢
    exact h
  | woken hc hpos =>
    simp only [Posted, hc] at h ⊢
    obtain ⟨ha, -, hsem⟩ := h
    split_ifs at hsem with hdone
    · exact ⟨ha, hdone, by omega⟩
    · omega
  | joinsNot => exact h
  | destroys hc =>
    simp only [Posted, hc] at h ⊢
    exact ⟨trivial, h.2.1⟩
  | begins hr | finishes hr =>
    exact h.of_runner rfl rfl rfl (by simp [hr]) (by simp) (by simp [hr, RunPc.done])
  | copies hr | storesId hr | swaps hr =>
    rw [(Sys.access_eq hd).2]
    exact h.of_runner rfl rfl rfl (by simp [hr]) (by simp) (by simp [hr, RunPc.done])
  | notifies hr =>
    obtain ⟨ha, he⟩ := Sys.access_eq hd
    rw [he]
    unfold Posted at h ⊢
    cases hc : s.creator <;> simp_all [RunPc.done]
  | names hr =>
    obtain ⟨_, _, _, _, he⟩ := s.SetName_cases s.t_thread_name
    rw [he]
    exact h.of_runner rfl rfl rfl (by simp [hr]) (by simp) (by simp [hr, RunPc.done])
  | renames name hr =>
    obtain ⟨_, _, _, _, he⟩ := s.SetName_cases name
    rw [he]
    exact h.of_runner rfl rfl rfl (by simp [hr]) (by simp [hr]) Iff.rfl

/-- What the owner does leaves this alone. -/
theorem Copied.frame (h : Copied tid cb name s) (hr : s'.runner.done = s.runner.done)
    (hname : s'.object.name = s.object.name) (hid : s'.object.id = s.object.id)
    (hocb : s'.object.cb = s.object.cb) (hcb : s'.cb = s.cb) (ht : s'.t_thread = s.t_thread)
    (htn : s'.t_thread_name = s.t_thread_name) (hk : s'.kernelName = s.kernelName) :
    Copied tid cb name s' := by
  obtain ⟨h1, h2, h3, h4, h5, h6, h7, h8⟩ := h
  constructor
  · exact h1
  · rw [hname, h2]
  · rw [ht, hr, h3]
  · rwa [htn, hr]
  · rwa [hid, hr]
  · rwa [hk, hr]
  · rwa [hocb, hcb, hr]
  · rwa [hocb, hcb, hr]

theorem Copied.of_effect (h : Copied tid cb name s) (hp : Posted s)
    (he : Effect handle tid s a s') (hd : s'.dangling = false) :
    Copied tid cb (a.rename name) s' := by
  cases he with
  | created hc =>
    have habsent : s.runner = .absent := by
      simp only [Posted, hc] at hp
      exact hp.2.1
    exact h.frame (by simp [habsent, RunPc.done]) rfl rfl rfl rfl rfl rfl rfl
  | refused | stored | woken | interrupted | joins | joinsNot | destroys =>
    exact h.frame rfl rfl rfl rfl rfl rfl rfl rfl
  | finishes hr => exact h.frame (by simp [hr, RunPc.done]) rfl rfl rfl rfl rfl rfl rfl
  | begins hr =>
    obtain ⟨h1, h2, h3, h4, h5, h6, h7, h8⟩ := h
    simp only [hr, RunPc.done] at h7
    constructor <;> simp [RunPc.done, Act.rename, h1, h2, h7]
  | copies hr =>
    obtain ⟨h1, h2, h3, h4, h5, h6, h7, h8⟩ := h
    simp only [hr, RunPc.done] at h3 h7
    rw [(Sys.access_eq hd).2]
    constructor <;> simp [RunPc.done, Act.rename, h1, h2, h3, h7]
  | storesId hr =>
    obtain ⟨h1, h2, h3, h4, h5, h6, h7, h8⟩ := h
    simp only [hr, RunPc.done] at h3 h4 h7
    rw [(Sys.access_eq hd).2]
    constructor <;> simp [RunPc.done, Act.rename, h1, h2, h3, h4, h7]
  | names hr =>
    obtain ⟨h1, h2, h3, h4, h5, h6, h7, h8⟩ := h
    simp only [hr, RunPc.done] at h3 h4 h5 h7
    have htn : s.t_thread_name = name := h4 (by decide)
    have hne : s.t_thread_name ≠ [] := by rwa [htn]
    rw [Sys.SetName_eq (by simpa using h3) hne hd]
    constructor <;> simp [RunPc.done, Act.rename, h1, htn, h3, h5, h7]
  | swaps hr =>
    obtain ⟨h1, h2, h3, h4, h5, h6, h7, h8⟩ := h
    simp only [hr, RunPc.done] at h3 h4 h5 h6 h7
    rw [(Sys.access_eq hd).2]
    constructor <;> simp [RunPc.done, Act.rename, h1, h2, h3, h4, h5, h6, h7]
  | notifies hr =>
    rw [(Sys.access_eq hd).2]
    obtain ⟨h1, h2, h3, h4, h5, h6, h7, h8⟩ := h
    simp only [hr, RunPc.done] at h3 h4 h5 h6 h8
    constructor <;> simp [RunPc.done, Act.rename, h1, h2, h3, h4, h5, h6, h8]
  | renames new hr =>
    by_cases hnew : new = []
    · subst hnew
      simpa [Sys.SetName, Act.rename] using h
    · obtain ⟨h1, h2, h3, h4, h5, h6, h7, h8⟩ := h
      simp only [hr, RunPc.done] at h3 h5 h8
      rw [Sys.SetName_eq (by simpa using h3) hnew hd]
      constructor <;> simp [RunPc.done, Act.rename, hr, hnew, h3, h5, h8]

/-- The name that a run leaves. -/
def lastName (name : Bytes) (as : List Act) : Bytes := as.foldl Act.rename (initialName name)

theorem kept_of_exec {as : List Act}
    (h : exec (Sys.step handle tid) anyAction (Sys.init cb name) as = some s)
    (hd : s.dangling = false) : Posted s ∧ Copied tid cb (lastName name as) s := by
  refine exec_foldl (P := fun n s => s.dangling = false → Posted s ∧ Copied tid cb n s) Act.rename
    h (fun _ => ⟨posted_init cb name, copied_init cb name⟩) ?_ hd
  intro n u a v hu _ hs hv
  obtain ⟨hdu, he⟩ := effect_of_step hs
  obtain ⟨hp, hc⟩ := hu hdu
  exact ⟨hp.of_effect he hv, hc.of_effect hp he hv⟩

/-- The object lasts from the constructor to its end, and only then is an access dangling. -/
theorem alive_of_reachable
    (h : Reachable (Sys.step handle tid) anyAction (Sys.init cb name) s) :
    (s.alive = true ↔ s.creator ≠ .threw ∧ s.creator ≠ .destroyed) ∧
      (s.alive = true → s.dangling = false) := by
  refine h.invariant (P := fun s => (s.alive = true ↔ s.creator ≠ .threw ∧ s.creator ≠ .destroyed) ∧
    (s.alive = true → s.dangling = false)) (by simp [Sys.init]) ?_
  rintro u a v ⟨hiff, -⟩ _ hs
  obtain ⟨hdu, he⟩ := effect_of_step hs
  cases he with
  | created | refused | stored | woken | interrupted | begins | joins | destroys | finishes =>
    simp_all
  | joinsNot => exact ⟨hiff, fun _ => hdu⟩
  | copies | storesId | swaps | notifies =>
    unfold Sys.access
    split_ifs with ha <;> simp_all
  | names | renames =>
    unfold Sys.SetName Sys.access
    split_ifs with ha <;> simp_all

/-- While the constructor waits, `run` goes on. -/
theorem Posted.run_step (handle : ℕ) (tid : UInt64) (h : Posted s) (hc : s.creator = .wait)
    (hd : s.dangling = false) (hlt : s.runner.done < 6) :
    ∃ s', s.step handle tid .run = some s' ∧ s'.creator = .wait ∧ s'.dangling = false ∧
      s'.runner.done = s.runner.done + 1 := by
  simp only [Posted, hc] at h
  obtain ⟨ha, hp, -⟩ := h
  cases hr : s.runner <;>
    simp_all [Sys.step, Sys.stepDefined, Sys.run, Sys.access, RunPc.done]
  unfold Sys.SetName
  split_ifs <;> simp_all [Sys.access]

theorem Posted.returns (n : ℕ) (h : Posted s) (hc : s.creator = .wait) (hd : s.dangling = false)
    (hn : s.runner.done + n = 6) :
    ∃ s', exec (Sys.step handle tid) anyAction s (List.replicate n .run ++ [.wait true]) = some s' ∧
      s'.creator = .ready := by
  induction n generalizing s with
  | zero =>
    simp only [Posted, hc] at h
    have hsem : s.object.semaphore = 1 := by rw [h.2.2, if_pos (by simpa using hn)]
    refine ⟨{ s with object := { s.object with semaphore := s.object.semaphore - 1 },
                     creator := .ready }, ?_, rfl⟩
    refine exec_cons_eq_some.mpr ⟨trivial, _, ?_, rfl⟩
    simp [Sys.step, Sys.stepDefined, hd, hc, hsem]
  | succ n ih =>
    obtain ⟨u, hs, hcu, hdu, hdone⟩ := h.run_step handle tid hc hd (by omega)
    obtain ⟨s', hrest, hready⟩ :=
      ih (h.of_effect (effect_of_step hs).2 hdu) hcu hdu (by omega)
    exact ⟨s', exec_cons_eq_some.mpr ⟨trivial, u, hs, hrest⟩, hready⟩

/-- **The constructor returns when `run` has the callback.** Whatever the order of steps: once the
constructor has returned, `m_id` is the id of the new thread, `m_cb` has been moved to `run`, which
has reached the callback, the semaphore is back at zero, and the object, the thread and the kernel
agree on the last name given, cut to 15 bytes in the kernel. And while the constructor still waits,
the remaining steps of `run` are possible and let it return. -/
theorem constructor_hands_over {as : List Act}
    (h : exec (Sys.step handle tid) anyAction (Sys.init cb name) as = some s) :
    (s.creator = .ready →
      s.object.id = tid ∧ s.object.cb = none ∧ s.cb = some cb ∧ s.object.semaphore = 0 ∧
      (s.runner = .body ∨ s.runner = .exited) ∧ s.object.name = lastName name as ∧
      s.t_thread_name = lastName name as ∧ s.kernelName = some (shortName (lastName name as))) ∧
    (s.creator = .wait →
      ∃ s', exec (Sys.step handle tid) anyAction s
        (List.replicate (6 - s.runner.done) .run ++ [.wait true]) = some s' ∧
        s'.creator = .ready) := by
  obtain ⟨hiff, hdangling⟩ := alive_of_reachable (reachable_iff_exec.mpr ⟨as, h⟩)
  refine ⟨fun hc => ?_, fun hc => ?_⟩
  · have ha : s.alive = true := hiff.mpr (by simp [hc])
    obtain ⟨hp, hcopied⟩ := kept_of_exec h (hdangling ha)
    simp only [Posted, hc] at hp
    obtain ⟨-, hdone, hsem⟩ := hp
    obtain ⟨hnone, hsome⟩ := hcopied.swapped (by omega)
    refine ⟨hcopied.stored (by omega), hnone, hsome, hsem, ?_, hcopied.object_name,
      hcopied.copied (by omega), hcopied.named (by omega)⟩
    cases hr : s.runner <;> simp_all [RunPc.done]
  · have ha : s.alive = true := hiff.mpr (by simp [hc])
    obtain ⟨hp, -⟩ := kept_of_exec h (hdangling ha)
    have hle : s.runner.done ≤ 6 := by cases s.runner <;> decide
    exact hp.returns (6 - s.runner.done) hc (hdangling ha) (by omega)

/-- The handle is stored late, and the callback renames its thread. The name has one letter of two
bytes. -/
def sampleRun : List Act :=
  [.pthread_create true, .run, .run, .store, .run, .run, .run, .run, .wait true,
   .SetName (bytes "worker_für_verbindungen")]

/-- Where that run ends. -/
def sampleEnd : Sys Unit :=
  (exec (Sys.step 7 42) anyAction (Sys.init () []) sampleRun).get (by decide)

theorem constructor_hands_over_sampleEnd :
    sampleEnd.creator = .ready ∧ sampleEnd.object.id = 42 ∧ sampleEnd.cb = some () ∧
      sampleEnd.kernelName = some (bytes "worker_für_ver") := by
  have h : exec (Sys.step 7 42) anyAction (Sys.init () []) sampleRun = some sampleEnd :=
    (Option.some_get _).symm
  obtain ⟨hid, -, hcb, -, -, -, -, hkernel⟩ := (constructor_hands_over h).1 (by decide)
  exact ⟨by decide, hid, hcb, hkernel.trans (by decide)⟩

end Thread

end Wille
