import Wille.ForMathlib.Counting
import Wille.ForMathlib.TransitionSystem
import Wille.Timer.Expiry

/-!
# Histories of a timer manager

A run of a `TimerManager` is any sequence of its operations, each atomic under `m_mutex`, with
whatever readings the clock happens to give. The state of a run is the manager and a record of
what it has told its callers: which `cancel` calls returned `true`, and what each `listExpiredCb`
call handed over.

A timer may be created with an empty callback. No operation on its handle does anything then, and
when it is due the empty callback is handed over.

Two facts carry everything. `Agrees` says that the set is ordered and that the timers in it still
have the callbacks they were given. On top of it `Accounted` keeps the books: a one-shot timer is
pending, cancelled or handed over, exactly one of them and exactly once, and a recurring one is
pending until it is cancelled.

## Main definitions

* `Op`, `History`, `History.step` — the operations and what is recorded of them
* `History.Agrees`, `History.Accounted` — the set and the callbacks, and the books
* `History.WithCallbacks` — the runs in which no callback is empty

## Main results

* `History.timers_ordered` — the set stays ordered and agrees with the callbacks
* `History.Accounted.of_reachable` — the books balance in every reachable state
* `History.callback_fate` — what can become of one timer over a whole run
-/

namespace Wille

open TransitionSystem

/-- The operations on a `TimerManager`, with the clock reading each of them uses. -/
inductive Op (Fn Obj : Type*) where
  /-- `addTimer(ms, cb, recurring)`; the object is put at `addr`. -/
  | addTimer (addr : ℕ) (ms : UInt64) (cb : Option Fn) (recurring : Bool) (now : UInt64)
  /-- `addConditionTimer(ms, cb, weak_cond, recurring)` -/
  | addConditionTimer (addr : ℕ) (ms : UInt64) (cb : Option Fn) (weak_cond : Obj)
      (recurring : Bool) (now : UInt64)
  /-- `Timer::cancel` -/
  | cancel (t : ℕ)
  /-- `Timer::refresh` -/
  | refresh (t : ℕ) (now : UInt64)
  /-- `Timer::reset(ms, from_now)` -/
  | reset (t : ℕ) (ms : UInt64) (from_now : Bool) (now : UInt64)
  /-- `getNextTimer` -/
  | getNextTimer (now : UInt64)
  /-- `listExpiredCb`; `addr` is where `now_timer` lives. -/
  | listExpiredCb (now : UInt64) (addr : ℕ)

/-- The callback of the timer that the operation creates, if it creates one. -/
def Op.creates {Fn Obj : Type*} : Op Fn Obj → Option (Option (Callback Fn Obj))
  | .addTimer _ _ cb _ _ => some (cb.map .fn)
  | .addConditionTimer _ _ cb weak_cond _ _ => some (some (.onTimer weak_cond cb))
  | _ => none

/-- A manager and what it has told its callers. -/
structure History (Fn Obj : Type*) where
  /-- The manager. -/
  manager : TimerManager (Callback Fn Obj)
  /-- The callback each handle was created with. -/
  given : ℕ → Option (Callback Fn Obj)
  /-- The handles on which `cancel` returned `true`, latest first. -/
  cancelled : List ℕ
  /-- The results of the `listExpiredCb` calls, latest first. -/
  handed : List (List (ℕ × Option (Callback Fn Obj)))

namespace History

variable {Fn Obj : Type*}

/-- A new manager. -/
def init (object : ℕ → Timer (Callback Fn Obj)) (now : UInt64) : History Fn Obj :=
  { manager := TimerManager.make object now, given := fun _ => none, cancelled := [], handed := [] }

/-- Create a timer. The allocator gives out no address a pending timer has. -/
def create (h : History Fn Obj) (addr : ℕ) (cb : Option (Callback Fn Obj))
    (m : TimerManager (Callback Fn Obj)) : Option (History Fn Obj) :=
  if ∀ t ∈ h.manager.timers, (h.manager.timer t).addr ≠ addr then
    some { h with manager := m, given := Function.update h.given h.manager.created cb }
  else none

/-- An operation on a handle needs a handle, which only creation gives out. -/
def onHandle (h : History Fn Obj) (t : ℕ) (m : TimerManager (Callback Fn Obj)) :
    Option (History Fn Obj) :=
  if t < h.manager.created then some { h with manager := m } else none

/-- One operation. The result is `none` for an operation nobody can call in this state, and for a
`cancel` that would erase `end()`. -/
def step (h : History Fn Obj) : Op Fn Obj → Option (History Fn Obj)
  | .addTimer addr ms cb recurring now =>
    h.create addr (cb.map .fn) (h.manager.addTimer addr ms (cb.map .fn) recurring now).1
  | .addConditionTimer addr ms cb weak_cond recurring now =>
    h.create addr (some (.onTimer weak_cond cb))
      (h.manager.addConditionTimer addr ms cb weak_cond recurring now).1
  | .cancel t =>
    (h.manager.cancel t).bind fun r =>
      h.onHandle t r.2 |>.map fun h' =>
        { h' with cancelled := if r.1 then t :: h.cancelled else h.cancelled }
  | .refresh t now => h.onHandle t (h.manager.refresh t now).2
  | .reset t ms from_now now => h.onHandle t (h.manager.reset t ms from_now now).2.1
  | .getNextTimer now => some { h with manager := (h.manager.getNextTimer now).1 }
  | .listExpiredCb now addr =>
    let r := h.manager.listExpiredCb now addr
    some { h with manager := r.2, handed := r.1 :: h.handed }

/-- The timer is in `m_timers`. -/
def Pending (h : History Fn Obj) (t : ℕ) : Prop := t ∈ h.manager.timers

/-- Some `cancel` on the timer has returned `true`. -/
def Cancelled (h : History Fn Obj) (t : ℕ) : Prop := t ∈ h.cancelled

/-- How often the timer's callback has been handed over, over all calls. -/
def handedCount (h : History Fn Obj) (t : ℕ) : ℕ := (h.handed.flatten.map Prod.fst).count t

/-- The timer's callback has been handed over. -/
def HandedOver (h : History Fn Obj) (t : ℕ) : Prop := 0 < h.handedCount t

instance (h : History Fn Obj) (t : ℕ) : Decidable (h.Pending t) :=
  inferInstanceAs (Decidable (t ∈ h.manager.timers))

instance (h : History Fn Obj) (t : ℕ) : Decidable (h.Cancelled t) :=
  inferInstanceAs (Decidable (t ∈ h.cancelled))

/-! ### What one operation can do -/

/-- What one operation can do to the set and to the record, one case for each way. -/
inductive Effect (op : Op Fn Obj) (h h' : History Fn Obj) : Prop where
  /-- A timer is created. -/
  | create (cb : Option (Callback Fn Obj)) (hop : op.creates = some cb)
      (hcreated : h'.manager.created = h.manager.created + 1)
      (hset : ∀ s, h'.Pending s ↔ s = h.manager.created ∨ h.Pending s)
      (hrec : ∀ s < h.manager.created,
        (h'.manager.timer s).recurring = (h.manager.timer s).recurring)
      (hgiven : h'.given = Function.update h.given h.manager.created cb)
      (hcancelled : h'.cancelled = h.cancelled) (hhanded : h'.handed = h.handed)
  /-- Due times may change, but not who is in the set. -/
  | keep (hcreated : h'.manager.created = h.manager.created)
      (hset : ∀ s, h'.Pending s ↔ h.Pending s)
      (hrec : ∀ s, (h'.manager.timer s).recurring = (h.manager.timer s).recurring)
      (hgiven : h'.given = h.given) (hcancelled : h'.cancelled = h.cancelled)
      (hhanded : h'.handed = h.handed)
  /-- A pending timer is cancelled. -/
  | cancel (t : ℕ) (hpending : h.Pending t) (hcreated : h'.manager.created = h.manager.created)
      (hset : ∀ s, h'.Pending s ↔ s ≠ t ∧ h.Pending s)
      (hrec : ∀ s, (h'.manager.timer s).recurring = (h.manager.timer s).recurring)
      (hgiven : h'.given = h.given) (hcancelled : h'.cancelled = t :: h.cancelled)
      (hhanded : h'.handed = h.handed)
  /-- The expired timers are handed over; the one-shot ones among them leave the set. -/
  | expire (now : UInt64) (hcreated : h'.manager.created = h.manager.created)
      (hset : ∀ s, h'.Pending s ↔
        h.Pending s ∧ ¬(s ∈ h.manager.expired now ∧ (h.manager.timer s).recurring = false))
      (hrec : ∀ s, (h'.manager.timer s).recurring = (h.manager.timer s).recurring)
      (hgiven : h'.given = h.given) (hcancelled : h'.cancelled = h.cancelled)
      (hhanded : h'.handed =
        (h.manager.expired now).map (fun t => (t, (h.manager.timer t).cb)) :: h.handed)

theorem onHandle_eq_some {h h' : History Fn Obj} {t : ℕ} {m : TimerManager (Callback Fn Obj)} :
    h.onHandle t m = some h' ↔ t < h.manager.created ∧ { h with manager := m } = h' := by
  rw [onHandle, Option.ite_none_right_eq_some, Option.some.injEq]

theorem create_eq_some {h h' : History Fn Obj} {addr : ℕ} {cb : Option (Callback Fn Obj)}
    {m : TimerManager (Callback Fn Obj)} :
    h.create addr cb m = some h' ↔
      (∀ t ∈ h.manager.timers, (h.manager.timer t).addr ≠ addr) ∧
        { h with manager := m, given := Function.update h.given h.manager.created cb } = h' := by
  rw [create, Option.ite_none_right_eq_some, Option.some.injEq]

/-- The set is ordered, and the timers in it have what they were given. -/
structure Agrees (h : History Fn Obj) : Prop extends h.manager.WellFormed [] where
  /-- A pending timer has the callback it was created with. -/
  slot : ∀ t, h.Pending t → (h.manager.timer t).cb = h.given t

namespace Agrees

variable {h h' : History Fn Obj}

theorem lt_created (ag : h.Agrees) {t : ℕ} (ht : h.Pending t) : t < h.manager.created :=
  ag.bound t ht

/-- A timer that was given a callback is pending while the slot is filled. -/
theorem mem_iff (ag : h.Agrees) {t : ℕ} (ht : t < h.manager.created) (hg : (h.given t).isSome) :
    t ∈ h.manager.timers ↔ (h.manager.timer t).cb.isSome :=
  ⟨fun hmem => by rwa [ag.slot t hmem], fun hcb => ag.complete t ht hcb⟩

/-- Operations that create nothing: who is pending afterwards was pending before, with the same
callback. -/
theorem of_frame (ag : h.Agrees) (wf' : h'.manager.WellFormed []) (hgiven : h'.given = h.given)
    (hframe : ∀ t, h'.Pending t → h.Pending t ∧
      (h'.manager.timer t).cb = (h.manager.timer t).cb) : h'.Agrees where
  toWellFormed := wf'
  slot t ht := by
    obtain ⟨hpending, hcb⟩ := hframe t ht
    rw [hcb, hgiven]
    exact ag.slot t hpending

end Agrees

/-- Both ways of adding a timer come down to this. -/
theorem effect_of_create {h h' : History Fn Obj} {op : Op Fn Obj} (ag : h.Agrees) {addr : ℕ}
    {ms : UInt64} {cb : Option (Callback Fn Obj)} {recurring : Bool} {now : UInt64}
    (hop : op.creates = some cb)
    (hs : h.create addr cb (h.manager.addTimer addr ms cb recurring now).1 = some h') :
    h'.Agrees ∧ Effect op h h' := by
  obtain ⟨haddr, rfl⟩ := create_eq_some.mp hs
  have hset : ∀ s, s ∈ (h.manager.addTimer addr ms cb recurring now).1.timers ↔
      s = h.manager.created ∨ s ∈ h.manager.timers := fun s => ag.mem_addTimer haddr
  refine ⟨⟨ag.addTimer haddr, fun t ht => ?_⟩, .create cb hop rfl hset (fun s hs => ?_) rfl rfl rfl⟩
  · show _ = Function.update h.given h.manager.created cb t
    rcases (hset t).mp ht with rfl | ht
    · rw [TimerManager.addTimer_timer_new, Function.update_self]
      rfl
    · have hlt := ag.bound t ht
      rw [TimerManager.addTimer_timer_old hlt, Function.update_of_ne (Nat.ne_of_lt hlt)]
      exact ag.slot t ht
  · rw [TimerManager.addTimer_timer_old hs]

/-- **Every operation keeps the set ordered and has one of the four effects.** -/
theorem effect_of_step {h h' : History Fn Obj} {op : Op Fn Obj} (ag : h.Agrees)
    (hs : h.step op = some h') : h'.Agrees ∧ Effect op h h' := by
  cases op with
  | addTimer addr ms cb recurring now => exact effect_of_create ag rfl hs
  | addConditionTimer addr ms cb weak_cond recurring now => exact effect_of_create ag rfl hs
  | cancel t =>
    simp only [step, Option.bind_eq_some_iff, Option.map_eq_some_iff] at hs
    obtain ⟨r, hr, h₁, hon, rfl⟩ := hs
    obtain ⟨hc, rfl⟩ := onHandle_eq_some.mp hon
    obtain ⟨r', hr', wf'⟩ := ag.cancel hc
    obtain rfl := Option.some.inj (hr'.symm.trans hr)
    by_cases hcb : (h.manager.timer t).cb.isSome
    · have hpending := ag.complete t hc hcb
      rw [ag.cancel_of_isSome hc hcb, Option.some.injEq] at hr
      subst hr
      refine ⟨ag.of_frame wf' rfl fun s hs => ?_,
        .cancel t hpending rfl (fun s => ag.mem_takeOut) (fun s => ?_) rfl rfl rfl⟩
      · obtain ⟨hst, hmem⟩ := ag.mem_takeOut.mp hs
        exact ⟨hmem, by rw [TimerManager.modify_timer_of_ne _ hst]⟩
      · rcases eq_or_ne s t with rfl | hst
        · rw [TimerManager.modify_timer_self]
        · rw [TimerManager.modify_timer_of_ne _ hst]
    · rw [TimerManager.cancel, if_neg hcb, Option.some.injEq] at hr
      subst hr
      exact ⟨⟨ag.toWellFormed, ag.slot⟩,
        .keep rfl (fun _ => Iff.rfl) (fun _ => rfl) rfl rfl rfl⟩
  | refresh t now =>
    obtain ⟨hc, rfl⟩ := onHandle_eq_some.mp hs
    obtain ⟨hcreated, hold⟩ := TimerManager.refresh_frame (m := h.manager) t now
    have hset := fun s => ag.mem_refresh (s := s) hc now
    exact ⟨ag.of_frame (ag.refresh hc now) rfl fun s hs => ⟨(hset s).mp hs, (hold s).1⟩,
      .keep hcreated hset (fun s => (hold s).2) rfl rfl rfl⟩
  | reset t ms from_now now =>
    obtain ⟨hc, rfl⟩ := onHandle_eq_some.mp hs
    obtain ⟨hcreated, hold⟩ := TimerManager.resetLocked_frame (m := h.manager) t ms from_now now
    have hset := fun s => ag.mem_resetLocked (s := s) hc ms from_now now
    rcases h.manager.reset_cases t ms from_now now with heq | heq <;> rw [heq]
    · exact ⟨⟨ag.toWellFormed, ag.slot⟩, .keep rfl (fun _ => Iff.rfl) (fun _ => rfl) rfl rfl rfl⟩
    · exact ⟨ag.of_frame (ag.resetLocked hc ms from_now now) rfl fun s hs =>
          ⟨(hset s).mp hs, (hold s).1⟩,
        .keep hcreated hset (fun s => (hold s).2) rfl rfl rfl⟩
  | getNextTimer now =>
    obtain rfl := Option.some.inj hs
    refine ⟨ag.of_frame (ag.getNextTimer now) rfl ?_, .keep ?_ ?_ ?_ rfl rfl rfl⟩ <;>
      simp [Pending, TimerManager.getNextTimer_fst]
  | listExpiredCb now addr =>
    obtain rfl := Option.some.inj hs
    have htimer := ag.ordered.listExpiredCb_timer now addr
    have hset := ag.ordered.mem_listExpiredCb now addr
    refine ⟨ag.of_frame (ag.listExpiredCb now addr) rfl fun s hs => ?_,
      .expire now (ag.ordered.listExpiredCb_created now addr) hset (fun s => ?_) rfl rfl ?_⟩
    · obtain ⟨hmem, hnot⟩ := (hset s).mp hs
      refine ⟨hmem, ?_⟩
      show ((h.manager.listExpiredCb now addr).2.timer s).cb = _
      rw [htimer s]
      by_cases hexp : s ∈ h.manager.expired now
      · have hrec : (h.manager.timer s).recurring = true := by simpa [hexp] using hnot
        rw [if_pos hexp, Timer.fired, if_pos hrec]
      · rw [if_neg hexp]
    · show ((h.manager.listExpiredCb now addr).2.timer s).recurring = _
      rw [htimer s]
      by_cases hexp : s ∈ h.manager.expired now
      · cases hrec : (h.manager.timer s).recurring <;> simp [hexp, hrec, Timer.fired]
      · simp [hexp]
    · show (h.manager.listExpiredCb now addr).1 :: h.handed = _
      rw [ag.ordered.listExpiredCb_fst now addr]

/-! ### The books -/

/-- `1` while the timer is pending. -/
def pendingCount (h : History Fn Obj) (t : ℕ) : ℕ := if h.Pending t then 1 else 0

/-- The books balance. -/
structure Accounted (h : History Fn Obj) : Prop where
  /-- The set is ordered, and the timers in it have what they were given. -/
  agrees : h.Agrees
  /-- A one-shot timer is in exactly one of the three books, once. -/
  oneShot : ∀ t < h.manager.created, (h.manager.timer t).recurring = false →
    h.pendingCount t + h.cancelled.count t + h.handedCount t = 1
  /-- A recurring timer is pending until it is cancelled. -/
  recurring : ∀ t < h.manager.created, (h.manager.timer t).recurring = true →
    h.pendingCount t + h.cancelled.count t = 1
  /-- Nothing is recorded of handles that do not exist yet. -/
  unused : ∀ t, h.manager.created ≤ t → h.cancelled.count t = 0 ∧ h.handedCount t = 0
  /-- No call hands a callback over twice. -/
  calls : ∀ call ∈ h.handed, (call.map Prod.fst).Nodup
  /-- What is handed over for a handle is the callback it was created with. -/
  handedGiven : ∀ call ∈ h.handed, ∀ p ∈ call, p.1 < h.manager.created ∧ p.2 = h.given p.1

theorem handedCount_of_cons {h h' : History Fn Obj} {call : List (ℕ × Option (Callback Fn Obj))}
    (hh : h'.handed = call :: h.handed) (t : ℕ) :
    h'.handedCount t = (call.map Prod.fst).count t + h.handedCount t := by
  simp [handedCount, hh, List.count_append]

theorem handedCount_of_eq {h h' : History Fn Obj} (hh : h'.handed = h.handed) (t : ℕ) :
    h'.handedCount t = h.handedCount t := by rw [handedCount, handedCount, hh]

/-- How often one call hands a timer over. -/
theorem count_expired {m : TimerManager (Callback Fn Obj)} (wf : m.WellFormed []) (now : UInt64)
    (t : ℕ) :
    (((m.expired now).map fun t => (t, (m.timer t).cb)).map Prod.fst).count t =
      if t ∈ m.expired now then 1 else 0 := by
  rw [List.map_map, show (Prod.fst ∘ fun t => (t, (m.timer t).cb)) = id from rfl, List.map_id]
  exact (wf.ordered.nodup_expired now).count

theorem pending_of_mem_expired {h : History Fn Obj} {now : UInt64} {t : ℕ}
    (ht : t ∈ h.manager.expired now) : h.Pending t :=
  (TimerManager.mem_expired.mp ht).1

theorem pendingCount_congr {h h' : History Fn Obj} {t : ℕ} (hset : h'.Pending t ↔ h.Pending t) :
    h'.pendingCount t = h.pendingCount t := if_congr hset rfl rfl

namespace Accounted

theorem init (object : ℕ → Timer (Callback Fn Obj)) (now₀ : UInt64) :
    Accounted (History.init object now₀) where
  agrees := ⟨.make object now₀, fun _ ht => absurd ht List.not_mem_nil⟩
  oneShot t ht := absurd ht (Nat.not_lt_zero t)
  recurring t ht := absurd ht (Nat.not_lt_zero t)
  unused _ _ := ⟨rfl, rfl⟩
  calls _ hcall := absurd hcall List.not_mem_nil
  handedGiven _ hcall := absurd hcall List.not_mem_nil

/-- **The step lemma.** -/
theorem of_effect {h h' : History Fn Obj} {op : Op Fn Obj} (a : h.Accounted) (ag' : h'.Agrees)
    (he : Effect op h h') : h'.Accounted := by
  cases he with
  | create cb hop hcreated hset hrec' hgiven hcancelled hhanded =>
    -- old handles keep their entries; the new one is pending and nothing is recorded of it
    have hpend : h'.pendingCount h.manager.created = 1 := if_pos ((hset _).mpr (.inl rfl))
    have hold : ∀ t < h.manager.created, h'.pendingCount t = h.pendingCount t := fun t ht =>
      pendingCount_congr ((hset t).trans (or_iff_right (Nat.ne_of_lt ht)))
    have hunused := a.unused h.manager.created (Nat.le_refl _)
    have hcount : ∀ t, h'.cancelled.count t = h.cancelled.count t ∧
        h'.handedCount t = h.handedCount t :=
      fun t => ⟨by rw [hcancelled], handedCount_of_eq hhanded t⟩
    refine ⟨ag', ?_, ?_, ?_, hhanded ▸ a.calls, ?_⟩
    · intro t ht hrec
      rw [(hcount t).1, (hcount t).2]
      rcases Nat.lt_succ_iff_lt_or_eq.mp (hcreated ▸ ht) with ht | rfl
      · rw [hold t ht]
        exact a.oneShot t ht (hrec' t ht ▸ hrec)
      · omega
    · intro t ht hrec
      rw [(hcount t).1]
      rcases Nat.lt_succ_iff_lt_or_eq.mp (hcreated ▸ ht) with ht | rfl
      · rw [hold t ht]
        exact a.recurring t ht (hrec' t ht ▸ hrec)
      · omega
    · intro t ht
      rw [(hcount t).1, (hcount t).2]
      exact a.unused t (by omega)
    · intro call hcall p hp
      obtain ⟨hlt, hpg⟩ := a.handedGiven call (hhanded ▸ hcall) p hp
      refine ⟨by omega, ?_⟩
      rw [hgiven, Function.update_of_ne (Nat.ne_of_lt hlt), hpg]
  | keep hcreated hset hrec' hgiven hcancelled hhanded =>
    refine ⟨ag', ?_, ?_, ?_, hhanded ▸ a.calls, ?_⟩
    · intro t ht hrec
      rw [pendingCount_congr (hset t), hcancelled, handedCount_of_eq hhanded]
      exact a.oneShot t (hcreated ▸ ht) (hrec' t ▸ hrec)
    · intro t ht hrec
      rw [pendingCount_congr (hset t), hcancelled]
      exact a.recurring t (hcreated ▸ ht) (hrec' t ▸ hrec)
    · intro t ht
      rw [hcancelled, handedCount_of_eq hhanded]
      exact a.unused t (hcreated ▸ ht)
    · intro call hcall p hp
      rw [hcreated, hgiven]
      exact a.handedGiven call (hhanded ▸ hcall) p hp
  | cancel t₀ hpending hcreated hset hrec' hgiven hcancelled hhanded =>
    have hmoved : ∀ t,
        h'.pendingCount t + h'.cancelled.count t = h.pendingCount t + h.cancelled.count t := by
      intro t
      rw [hcancelled, List.count_cons]
      rcases eq_or_ne t t₀ with rfl | hne
      · have h0 : h'.pendingCount t = 0 := if_neg fun hp => ((hset t).mp hp).1 rfl
        have h1 : h.pendingCount t = 1 := if_pos hpending
        simp only [beq_self_eq_true, if_true]
        omega
      · rw [pendingCount_congr ((hset t).trans (and_iff_right hne)),
          if_neg (by simpa using hne.symm)]
        omega
    refine ⟨ag', ?_, ?_, ?_, hhanded ▸ a.calls, ?_⟩
    · intro t ht hrec
      rw [hmoved t, handedCount_of_eq hhanded]
      exact a.oneShot t (hcreated ▸ ht) (hrec' t ▸ hrec)
    · intro t ht hrec
      rw [hmoved t]
      exact a.recurring t (hcreated ▸ ht) (hrec' t ▸ hrec)
    · intro t ht
      have hne : t ≠ t₀ := by
        have := a.agrees.lt_created hpending
        omega
      rw [hcancelled, List.count_cons, if_neg (by simpa using hne.symm), handedCount_of_eq hhanded]
      exact a.unused t (hcreated ▸ ht)
    · intro call hcall p hp
      rw [hcreated, hgiven]
      exact a.handedGiven call (hhanded ▸ hcall) p hp
  | expire now hcreated hset hrec' hgiven hcancelled hhanded =>
    have hcount : ∀ t, h'.handedCount t =
        (if t ∈ h.manager.expired now then 1 else 0) + h.handedCount t := fun t => by
      rw [handedCount_of_cons hhanded, count_expired a.agrees.toWellFormed]
    have hstay : ∀ t, ¬(t ∈ h.manager.expired now ∧ (h.manager.timer t).recurring = false) →
        h'.pendingCount t = h.pendingCount t := fun t hnot =>
      pendingCount_congr ((hset t).trans (and_iff_left hnot))
    refine ⟨ag', ?_, ?_, ?_, ?_, ?_⟩
    · intro t ht hrec
      have hrec₀ : (h.manager.timer t).recurring = false := hrec' t ▸ hrec
      have hold := a.oneShot t (hcreated ▸ ht) hrec₀
      rw [hcancelled, hcount]
      by_cases hexp : t ∈ h.manager.expired now
      · -- it moves from the first book to the third
        have h1 : h.pendingCount t = 1 := if_pos (pending_of_mem_expired hexp)
        have h0 : h'.pendingCount t = 0 := if_neg fun hp => ((hset t).mp hp).2 ⟨hexp, hrec₀⟩
        rw [if_pos hexp]
        omega
      · rw [hstay t fun hc => hexp hc.1, if_neg hexp]
        omega
    · intro t ht hrec
      have hrec₀ : (h.manager.timer t).recurring = true := hrec' t ▸ hrec
      rw [hcancelled, hstay t fun hc => by simp [hrec₀] at hc]
      exact a.recurring t (hcreated ▸ ht) hrec₀
    · intro t ht
      have hnot : t ∉ h.manager.expired now := fun hexp => by
        have := a.agrees.lt_created (pending_of_mem_expired hexp)
        omega
      rw [hcancelled, hcount, if_neg hnot, Nat.zero_add]
      exact a.unused t (hcreated ▸ ht)
    · rw [hhanded]
      intro call hcall
      rcases List.mem_cons.mp hcall with rfl | hcall
      · rw [List.map_map, show (Prod.fst ∘ fun t => (t, (h.manager.timer t).cb)) = id from rfl,
          List.map_id]
        exact a.agrees.ordered.nodup_expired now
      · exact a.calls call hcall
    · rw [hhanded, hcreated, hgiven]
      intro call hcall p hp
      rcases List.mem_cons.mp hcall with rfl | hcall
      · obtain ⟨t, ht, rfl⟩ := List.mem_map.mp hp
        have hpend := pending_of_mem_expired ht
        exact ⟨a.agrees.lt_created hpend, a.agrees.slot t hpend⟩
      · exact a.handedGiven call hcall p hp

end Accounted

theorem Accounted.of_step {h h' : History Fn Obj} {op : Op Fn Obj} (a : h.Accounted)
    (hs : h.step op = some h') : h'.Accounted :=
  let ⟨ag', he⟩ := effect_of_step a.agrees hs
  a.of_effect ag' he

/-- **The books balance in every state reached from one in which they do.** -/
theorem Accounted.of_reachable {ok : History Fn Obj → Op Fn Obj → Prop} {h h' : History Fn Obj}
    (a : h.Accounted) (hr : Reachable step ok h h') : h'.Accounted :=
  hr.invariant (P := Accounted) a fun _ _ _ a _ hs => a.of_step hs

/-- **A timer that is not pending stays as it is**: nothing brings it back, and its callback is not
handed over again. -/
theorem stays_gone {h h' : History Fn Obj} (a : h.Accounted)
    (hr : Reachable step anyAction h h') {t : ℕ} (ht : t < h.manager.created)
    (hgone : ¬h.Pending t) : ¬h'.Pending t ∧ h'.handedCount t = h.handedCount t ∧
      h'.cancelled.count t = h.cancelled.count t ∧
      (h'.manager.timer t).recurring = (h.manager.timer t).recurring := by
  have key : h'.Accounted ∧ t < h'.manager.created ∧ ¬h'.Pending t ∧
      h'.handedCount t = h.handedCount t ∧ h'.cancelled.count t = h.cancelled.count t ∧
      (h'.manager.timer t).recurring = (h.manager.timer t).recurring := by
    refine hr.invariant (P := fun u => u.Accounted ∧ t < u.manager.created ∧ ¬u.Pending t ∧
      u.handedCount t = h.handedCount t ∧ u.cancelled.count t = h.cancelled.count t ∧
      (u.manager.timer t).recurring = (h.manager.timer t).recurring)
      ⟨a, ht, hgone, rfl, rfl, rfl⟩ ?_
    rintro u op v ⟨au, hlt, hnot, hcount, hcan, hrec⟩ - hs
    obtain ⟨ag', he⟩ := effect_of_step au.agrees hs
    have av := au.of_effect ag' he
    cases he with
    | create cb hop hcreated hset hrec' hgiven hcancelled hhanded =>
      refine ⟨av, by omega, fun hp => ?_, (handedCount_of_eq hhanded t).trans hcount,
        by rw [hcancelled, hcan], (hrec' t hlt).trans hrec⟩
      rcases (hset t).mp hp with rfl | hp
      · exact absurd hlt (Nat.lt_irrefl _)
      · exact hnot hp
    | keep hcreated hset hrec' hgiven hcancelled hhanded =>
      exact ⟨av, by omega, fun hp => hnot ((hset t).mp hp),
        (handedCount_of_eq hhanded t).trans hcount, by rw [hcancelled, hcan],
        (hrec' t).trans hrec⟩
    | cancel t₀ hpending hcreated hset hrec' hgiven hcancelled hhanded =>
      have hne : t₀ ≠ t := by
        rintro rfl
        exact hnot hpending
      refine ⟨av, by omega, fun hp => hnot ((hset t).mp hp).2,
        (handedCount_of_eq hhanded t).trans hcount, ?_, (hrec' t).trans hrec⟩
      rw [hcancelled, List.count_cons, if_neg (by simpa using hne), hcan]
      rfl
    | expire now hcreated hset hrec' hgiven hcancelled hhanded =>
      have hexp : t ∉ u.manager.expired now := fun hexp => hnot (pending_of_mem_expired hexp)
      refine ⟨av, by omega, fun hp => hnot ((hset t).mp hp).1, ?_, by rw [hcancelled, hcan],
        (hrec' t).trans hrec⟩
      rw [handedCount_of_cons hhanded, count_expired au.agrees.toWellFormed, if_neg hexp, hcount,
        Nat.zero_add]
  exact key.2.2

/-! ### What holds of every run -/

/-- Only timers with a callback are added. -/
def WithCallbacks (_ : History Fn Obj) (op : Op Fn Obj) : Prop := ∀ cb ∈ op.creates, cb.isSome

instance : DecidableRel (@WithCallbacks Fn Obj) := fun _ op =>
  inferInstanceAs (Decidable (∀ cb ∈ op.creates, cb.isSome))

/-- Then every timer was created with a callback. -/
theorem given_of_withCallbacks {object : ℕ → Timer (Callback Fn Obj)} {now₀ : UInt64}
    {h : History Fn Obj} (hr : Reachable step WithCallbacks (init object now₀) h) :
    ∀ t < h.manager.created, (h.given t).isSome := by
  refine hr.invariant_of_reachable (P := fun u => ∀ t < u.manager.created, (u.given t).isSome)
    (fun u hu => (Accounted.init object now₀).of_reachable hu)
    (fun t ht => absurd ht (Nat.not_lt_zero t)) fun u op v au hu hok hs t ht => ?_
  obtain ⟨-, he⟩ := effect_of_step au.agrees hs
  cases he with
  | create cb hop hcreated hset hrec hgiven hcancelled hhanded =>
    rw [hgiven]
    rcases Nat.lt_succ_iff_lt_or_eq.mp (hcreated ▸ ht) with ht | rfl
    · rw [Function.update_of_ne (Nat.ne_of_lt ht)]
      exact hu t ht
    · rw [Function.update_self]
      exact hok cb hop
  | keep hcreated _ _ hgiven | cancel _ _ hcreated _ _ hgiven | expire _ hcreated _ _ hgiven =>
    rw [hgiven]
    exact hu t (hcreated ▸ ht)

/-- **The set stays ordered and agrees with the callbacks**, whatever the clock did and whatever
the operations were. So `cancel` never erases `end()`. -/
theorem timers_ordered {object : ℕ → Timer (Callback Fn Obj)} {now₀ : UInt64} {h : History Fn Obj}
    (hr : Reachable step WithCallbacks (init object now₀) h) :
    OrderedSet.Sorted h.manager.lt h.manager.timers ∧ h.manager.timers.Nodup ∧
      (∀ t ∈ h.manager.timers, (h.manager.timer t).next = h.manager.insertedNext t) ∧
      (∀ t < h.manager.created, t ∈ h.manager.timers ↔ (h.manager.timer t).cb.isSome) ∧
      ∀ t < h.manager.created, h.manager.cancel t ≠ none := by
  have ag := ((Accounted.init object now₀).of_reachable hr).agrees
  refine ⟨ag.sorted, ag.nodup, ag.key, fun t ht => ?_, fun t ht => ?_⟩
  · exact ag.mem_iff ht (given_of_withCallbacks hr t ht)
  · obtain ⟨r, hr, -⟩ := ag.cancel ht
    rw [hr]
    exact Option.some_ne_none r

/-- A run with a clock that goes back: a recurring and a one-shot timer, the second of which expires
while the first is refreshed before its due time. -/
def sampleRun : List (Op ℕ ℕ) :=
  [.addTimer 16 5 (some 0) true 100, .addConditionTimer 32 3 (some 1) 7 false 101,
    .getNextTimer 102, .listExpiredCb 104 48, .refresh 0 50, .reset 0 9 false 60, .cancel 1]

/-- The state it ends in. -/
def sampleEnd : History ℕ ℕ :=
  (exec step WithCallbacks (init (fun _ => Timer.probe 0 0) 0) sampleRun).get (by decide)

theorem timers_ordered_sampleEnd :
    sampleEnd.manager.timers = [0] ∧
      OrderedSet.Sorted sampleEnd.manager.lt sampleEnd.manager.timers ∧
      ∀ t < sampleEnd.manager.created, sampleEnd.manager.cancel t ≠ none :=
  have hrun := timers_ordered (reachable_get (by decide : (exec step WithCallbacks
    (init (fun _ => Timer.probe 0 0) 0) sampleRun).isSome))
  ⟨by decide, hrun.1, hrun.2.2.2.2⟩

section Runs

variable {object : ℕ → Timer (Callback Fn Obj)} {now₀ : UInt64} {h : History Fn Obj}
  (hr : Reachable step anyAction (init object now₀) h)
include hr

/-- **What can become of a timer.** A one-shot timer is pending, cancelled or handed over, exactly
one of them, handed over at most once, and after leaving the set it never comes back. A recurring
timer is pending until it is cancelled, no call hands it over twice, and none does so after the
cancellation. What is handed over is the callback the timer was created with, and a timer that was
created without one is no exception. -/
theorem callback_fate {t : ℕ} (ht : t < h.manager.created) :
    ((h.manager.timer t).recurring = false →
      h.handedCount t ≤ 1 ∧ Counting.ExactlyOne (h.Pending t) (h.Cancelled t) (h.HandedOver t) ∧
        ∀ h', Reachable step anyAction h h' → h.Cancelled t ∨ h.HandedOver t →
          ¬h'.Pending t ∧ (h'.Cancelled t ↔ h.Cancelled t) ∧
            h'.handedCount t = h.handedCount t) ∧
    ((h.manager.timer t).recurring = true →
      (∀ call ∈ h.handed, (call.map Prod.fst).count t ≤ 1) ∧
        (h.Pending t ↔ ¬h.Cancelled t) ∧
        ∀ h', Reachable step anyAction h h' → h.Cancelled t →
          ¬h'.Pending t ∧ h'.handedCount t = h.handedCount t) ∧
    ∀ call ∈ h.handed, ∀ cb, (t, cb) ∈ call → cb = h.given t := by
  have a := (Accounted.init object now₀).of_reachable hr
  have hpend : 0 < h.pendingCount t ↔ h.Pending t := by
    rw [pendingCount]
    split <;> simp_all
  have hcan : 0 < h.cancelled.count t ↔ h.Cancelled t := List.count_pos_iff
  refine ⟨fun hrec => ?_, fun hrec => ?_, fun call hcall cb hcb => ?_⟩
  · have hsum := a.oneShot t ht hrec
    have hone := (Counting.ExactlyOne.of_add_eq_one hsum).congr hpend hcan Iff.rfl
    refine ⟨by omega, hone, fun h' hr' hgone => ?_⟩
    have hnot : ¬h.Pending t := by
      rw [Counting.ExactlyOne] at hone
      tauto
    obtain ⟨hnot', hcount, hcan', -⟩ := stays_gone a hr' ht hnot
    refine ⟨hnot', ?_, hcount⟩
    rw [← hcan, ← hcan', List.count_pos_iff]
    rfl
  · have hsum := a.recurring t ht hrec
    have hiff : h.Pending t ↔ ¬h.Cancelled t := by
      rw [← hpend, ← hcan]
      omega
    refine ⟨fun call hcall => List.nodup_iff_count.mp (a.calls call hcall) t, hiff,
      fun h' hr' hc => ?_⟩
    obtain ⟨hnot', hcount, -⟩ := stays_gone a hr' ht fun hp => hiff.mp hp hc
    exact ⟨hnot', hcount⟩
  · exact (a.handedGiven call hcall (t, cb) hcb).2

end Runs

/-- A timer without a callback comes in beside them, and the recurring one is cancelled. -/
def besideRun : List (Op ℕ ℕ) :=
  sampleRun ++ [.addTimer 64 1 none true 60, .listExpiredCb 62 48, .cancel 0]

/-- The state it ends in. -/
def besideEnd : History ℕ ℕ :=
  (exec step anyAction (init (fun _ => Timer.probe 0 0) 0) besideRun).get (by decide)

theorem callback_fate_besideEnd :
    besideEnd.manager.timers = [2] ∧ besideEnd.handedCount 1 = 1 ∧
      Counting.ExactlyOne (besideEnd.Pending 1) (besideEnd.Cancelled 1)
        (besideEnd.HandedOver 1) ∧
      (besideEnd.Pending 0 ↔ ¬besideEnd.Cancelled 0) :=
  have hr := reachable_get (by decide : (exec step anyAction
    (init (fun _ => Timer.probe 0 0) 0) besideRun).isSome)
  have hone := callback_fate hr (t := 1) (by decide)
  have hrec := callback_fate hr (t := 0) (by decide)
  ⟨by decide, by decide, (hone.1 (by decide)).2.1, (hrec.2.1 (by decide)).2.1⟩

end History

end Wille
