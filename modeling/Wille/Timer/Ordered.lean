import Wille.Timer.Basic
import Mathlib.Tactic.Common

/-!
# The timer set stays ordered

`m_timers` is ordered by a field of the objects it points to, and `m_cb` says a second time which
objects are in it. `WellFormed m held` is the relation between the two records while the handles
in `held` are *in hand*: taken out of the set by an operation that has not put them back yet.

Every operation of the manager is a composition of five moves, and each move keeps the relation:
take a timer out, change the due time of a timer in hand, put one back, retire one (empty its
callback), and put a new object in hand. So no operation needs an argument of its own about the
order.

`Ordered m held` is the part of it that speaks of the order alone. It is all the expiry of timers
needs, whatever the callback slots hold.

## Main results

* `Ordered.takePrefix`, `rekey`, `letGo`, `putBack` — the moves and the order
* `WellFormed.find_eq_some` — a pending timer is found, so no operation erases `end()`
* `WellFormed.takeOut`, `rekey`, `putBack`, `retire`, `construct` — the moves
* `WellFormed.cancel_of_isSome`, `refresh_of_isSome`, `resetLocked_of_isSome` — what the operations
  on a handle do
* `WellFormed.cancel`, `refresh`, `resetLocked`, `addTimer`, `getNextTimer` — they keep the relation
* `WellFormed.mem_cancel`, `mem_refresh`, `mem_resetLocked`, `mem_addTimer` — who is in the set
-/

namespace Wille

namespace TimerManager

variable {Cb : Type*} {m : TimerManager Cb} {held : List ℕ}

/-! ### The comparator -/

theorem lt_iff {s t : ℕ} : m.lt s t = true ↔
    (m.timer s).next < (m.timer t).next ∨
      (m.timer s).next = (m.timer t).next ∧ (m.timer s).addr < (m.timer t).addr := by
  simp only [lt, Timer.Comparator]
  grind

theorem strictOrder_lt (m : TimerManager Cb) : OrderedSet.StrictOrder m.lt where
  irrefl t := by
    rw [← Bool.not_eq_true, lt_iff]
    grind
  trans r s t hrs hst := by
    rw [lt_iff] at hrs hst ⊢
    grind

/-- Objects at different addresses are ordered one way or the other. -/
theorem lt_or_lt {s t : ℕ} (h : (m.timer s).addr ≠ (m.timer t).addr) :
    m.lt s t = true ∨ m.lt t s = true := by
  rw [lt_iff, lt_iff]
  grind

/-- The comparator reads only the due time and the address. -/
theorem lt_congr {m' : TimerManager Cb} {s t : ℕ} (hs : (m'.timer s).next = (m.timer s).next)
    (ht : (m'.timer t).next = (m.timer t).next) (has : (m'.timer s).addr = (m.timer s).addr)
    (hat : (m'.timer t).addr = (m.timer t).addr) : m'.lt s t = m.lt s t := by
  rw [Bool.eq_iff_iff, lt_iff, lt_iff, hs, ht, has, hat]

/-! ### Reading the state after an update -/

@[simp] theorem modify_timer_self (t : ℕ) (f : Timer Cb → Timer Cb) :
    (m.modify t f).timer t = f (m.timer t) := by simp [modify]

theorem modify_timer_of_ne {s t : ℕ} (f : Timer Cb → Timer Cb) (h : s ≠ t) :
    (m.modify t f).timer s = m.timer s := by simp [modify, h]

@[simp] theorem modify_timers (t : ℕ) (f : Timer Cb → Timer Cb) :
    (m.modify t f).timers = m.timers := rfl

@[simp] theorem insert_timer (t : ℕ) : (m.insert t).1.timer = m.timer := rfl

@[simp] theorem insert_tickled (t : ℕ) : (m.insert t).1.tickled = m.tickled := rfl

/-- The new object of `addTimer` is the one that was made, -/
theorem addTimer_timer_new (addr : ℕ) (ms : UInt64) (cb : Option Cb) (recurring : Bool)
    (now : UInt64) : (m.addTimer addr ms cb recurring now).1.timer m.created =
      Timer.make addr ms cb recurring now := Function.update_self ..

/-- and the other objects are what they were. -/
theorem addTimer_timer_old {s : ℕ} (hs : s < m.created) (addr : ℕ) (ms : UInt64) (cb : Option Cb)
    (recurring : Bool) (now : UInt64) :
    (m.addTimer addr ms cb recurring now).1.timer s = m.timer s :=
  Function.update_of_ne (Nat.ne_of_lt hs) ..

theorem modify_lt_of_ne {r s t : ℕ} (f : Timer Cb → Timer Cb) (hr : r ≠ t) (hs : s ≠ t) :
    (m.modify t f).lt r s = m.lt r s := by
  simp only [lt, modify_timer_of_ne f hr, modify_timer_of_ne f hs]

/-- Changing the due time or the period of one object leaves every callback in place. -/
theorem modify_frame {t : ℕ} {f : Timer Cb → Timer Cb} (hcb : (f (m.timer t)).cb = (m.timer t).cb)
    (hrec : (f (m.timer t)).recurring = (m.timer t).recurring) (s : ℕ) :
    ((m.modify t f).timer s).cb = (m.timer s).cb ∧
      ((m.modify t f).timer s).recurring = (m.timer s).recurring := by
  rcases eq_or_ne s t with rfl | hs
  · rw [modify_timer_self]
    exact ⟨hcb, hrec⟩
  · rw [modify_timer_of_ne f hs]
    exact ⟨rfl, rfl⟩

theorem refresh_frame (t : ℕ) (now : UInt64) :
    (m.refresh t now).2.created = m.created ∧
      ∀ s, ((m.refresh t now).2.timer s).cb = (m.timer s).cb ∧
        ((m.refresh t now).2.timer s).recurring = (m.timer s).recurring := by
  rw [refresh]
  split
  · exact ⟨rfl, fun _ => ⟨rfl, rfl⟩⟩
  · split
    · exact ⟨rfl, fun _ => ⟨rfl, rfl⟩⟩
    · rename_i it _
      exact ⟨rfl, modify_frame (m := m.erase it)
        (f := fun timer => { timer with next := now + timer.ms }) rfl rfl⟩

theorem resetLocked_frame (t : ℕ) (ms : UInt64) (from_now : Bool) (now : UInt64) :
    (m.resetLocked t ms from_now now).2.1.created = m.created ∧
      ∀ s, ((m.resetLocked t ms from_now now).2.1.timer s).cb = (m.timer s).cb ∧
        ((m.resetLocked t ms from_now now).2.1.timer s).recurring = (m.timer s).recurring := by
  rw [resetLocked]
  split
  · exact ⟨rfl, fun _ => ⟨rfl, rfl⟩⟩
  · split
    · exact ⟨rfl, fun _ => ⟨rfl, rfl⟩⟩
    · rename_i it _
      exact ⟨rfl, modify_frame (m := m.erase it)
        (f := fun timer =>
          { timer with
            ms := ms
            next := (if from_now then now else (m.timer t).next - (m.timer t).ms) + ms })
        rfl rfl⟩

/-- `reset` does nothing, or what it does under the lock. -/
theorem reset_cases (t : ℕ) (ms : UInt64) (from_now : Bool) (now : UInt64) :
    m.reset t ms from_now now = (true, m, false) ∨
      m.reset t ms from_now now = m.resetLocked t ms from_now now := by
  rw [reset]
  split
  · exact Or.inl rfl
  · exact Or.inr rfl

theorem getNextTimer_fst (now_ms : UInt64) :
    (m.getNextTimer now_ms).1 = { m with tickled := false } := by
  rw [getNextTimer]
  split <;> rfl

/-! ### The relation -/

/-- The set is ordered, while the timers in `held` are in hand. -/
structure Ordered (m : TimerManager Cb) (held : List ℕ) : Prop where
  /-- The set is strictly increasing. -/
  sorted : OrderedSet.Sorted m.lt m.timers
  /-- A timer is in hand or in the set, and only once. -/
  nodup : (held ++ m.timers).Nodup
  /-- No two of these timers share an address. -/
  addr_inj : ∀ s ∈ held ++ m.timers, ∀ t ∈ held ++ m.timers,
    (m.timer s).addr = (m.timer t).addr → s = t

namespace Ordered

theorem ne_of_mem {t : ℕ} (h : Ordered m (t :: held)) {s : ℕ} (hs : s ∈ held ++ m.timers) :
    s ≠ t := by
  rintro rfl
  exact (List.nodup_cons.mp h.nodup).1 hs

/-- A timer in hand is comparable with every member. -/
theorem comparable {t : ℕ} (h : Ordered m (t :: held)) :
    ∀ s ∈ m.timers, m.lt t s = true ∨ m.lt s t = true := by
  intro s hs
  refine lt_or_lt fun haddr => ?_
  have hts : t = s := h.addr_inj t (by simp) s (by simp [hs]) haddr
  exact h.ne_of_mem (List.mem_append_right held hs) hts.symm

/-- Take a prefix of the set out at once. -/
theorem takePrefix (h : Ordered m []) (it : ℕ) :
    Ordered { m with timers := m.timers.drop it } (m.timers.take it) := by
  refine ⟨h.sorted.sublist (List.drop_sublist it _), ?_, ?_⟩
  · exact (List.take_append_drop it m.timers).symm ▸ h.nodup
  · intro r hr s hs
    rw [List.take_append_drop] at hr hs
    exact h.addr_inj r hr s hs

/-- Change a timer in hand, but not where it lives. -/
theorem rekey {t : ℕ} (h : Ordered m (t :: held)) {f : Timer Cb → Timer Cb}
    (haddr : (f (m.timer t)).addr = (m.timer t).addr) : Ordered (m.modify t f) (t :: held) := by
  have hne : ∀ s ∈ m.timers, s ≠ t := fun s hs => h.ne_of_mem (List.mem_append_right held hs)
  have haddr' : ∀ s, ((m.modify t f).timer s).addr = (m.timer s).addr := by
    intro s
    rcases eq_or_ne s t with rfl | hs
    · rw [modify_timer_self, haddr]
    · rw [modify_timer_of_ne f hs]
  refine ⟨?_, h.nodup, ?_⟩
  · exact h.sorted.congr fun r hr s hs => (modify_lt_of_ne f (hne r hr) (hne s hs)).symm
  · intro r hr s hs
    rw [haddr', haddr']
    exact h.addr_inj r hr s hs

/-- Let go of a timer in hand. -/
theorem letGo {t : ℕ} (h : Ordered m (t :: held)) : Ordered m held where
  sorted := h.sorted
  nodup := (List.nodup_cons.mp h.nodup).2
  addr_inj r hr s hs := h.addr_inj r (List.mem_cons_of_mem t hr) s (List.mem_cons_of_mem t hs)

theorem mem_insert {t s : ℕ} (h : Ordered m (t :: held)) :
    s ∈ (m.insert t).1.timers ↔ s = t ∨ s ∈ m.timers :=
  OrderedSet.mem_insert m.strictOrder_lt h.sorted h.comparable

theorem mem_append_insert {t : ℕ} (h : Ordered m (t :: held)) (s : ℕ) :
    s ∈ held ++ (m.insert t).1.timers ↔ s ∈ t :: held ++ m.timers := by
  rw [List.mem_append, h.mem_insert]
  simp only [List.cons_append, List.mem_cons, List.mem_append]
  tauto

/-- Put a timer in hand back into the set. -/
theorem putBack {t : ℕ} (h : Ordered m (t :: held)) : Ordered (m.insert t).1 held := by
  have hsorted : OrderedSet.Sorted m.lt (m.insert t).1.timers :=
    h.sorted.insert m.strictOrder_lt h.comparable
  have hheld := List.nodup_cons.mp h.nodup
  refine ⟨hsorted, ?_, ?_⟩
  · refine List.nodup_append.mpr ⟨hheld.2.of_append_left, hsorted.nodup m.strictOrder_lt, ?_⟩
    rintro s hs r hr rfl
    rcases h.mem_insert.mp hr with rfl | hr
    · exact hheld.1 (List.mem_append_left _ hs)
    · exact (List.nodup_append.mp hheld.2).2.2 s hs s hr rfl
  · intro r hr s hs
    exact h.addr_inj r ((h.mem_append_insert r).mp hr) s ((h.mem_append_insert s).mp hs)

end Ordered

/-- The set and the objects agree, while the timers in `held` are in hand. -/
structure WellFormed (m : TimerManager Cb) (held : List ℕ) : Prop where
  /-- The set is strictly increasing. -/
  sorted : OrderedSet.Sorted m.lt m.timers
  /-- A timer is in hand or in the set, and only once. -/
  nodup : (held ++ m.timers).Nodup
  /-- No two of these timers share an address. -/
  addr_inj : ∀ s ∈ held ++ m.timers, ∀ t ∈ held ++ m.timers,
    (m.timer s).addr = (m.timer t).addr → s = t
  /-- They are objects. -/
  bound : ∀ t ∈ held ++ m.timers, t < m.created
  /-- Every object with a callback is among them. -/
  complete : ∀ t < m.created, (m.timer t).cb.isSome → t ∈ held ++ m.timers
  /-- A member has the due time it was inserted with. -/
  key : ∀ t ∈ m.timers, (m.timer t).next = m.insertedNext t

namespace WellFormed

theorem make (object : ℕ → Timer Cb) (now : UInt64) :
    WellFormed (TimerManager.make object now) [] where
  sorted := List.Pairwise.nil
  nodup := List.nodup_nil
  addr_inj := by simp [TimerManager.make]
  bound := by simp [TimerManager.make]
  complete := by simp [TimerManager.make]
  key := by simp [TimerManager.make]

theorem ordered (h : WellFormed m held) : Ordered m held := ⟨h.sorted, h.nodup, h.addr_inj⟩

/-- What is known of the order is what makes up the rest of the relation. -/
theorem of_ordered {m' : TimerManager Cb} {held' : List ℕ} (ho : Ordered m' held')
    (hbound : ∀ t ∈ held' ++ m'.timers, t < m'.created)
    (hcomplete : ∀ t < m'.created, (m'.timer t).cb.isSome → t ∈ held' ++ m'.timers)
    (hkey : ∀ t ∈ m'.timers, (m'.timer t).next = m'.insertedNext t) : WellFormed m' held' :=
  ⟨ho.sorted, ho.nodup, ho.addr_inj, hbound, hcomplete, hkey⟩

/-! ### The moves -/

/-- **A pending timer is found.** -/
theorem find_eq_some (h : WellFormed m held) {t : ℕ} (ht : t ∈ m.timers) :
    ∃ it, OrderedSet.find m.lt t m.timers = some it ∧
      (m.erase it).timers = m.timers.erase t := by
  obtain ⟨l₁, l₂, -, hfind⟩ := OrderedSet.find_of_mem m.strictOrder_lt h.sorted ht
  exact ⟨l₁.length, hfind, OrderedSet.eraseIdx_of_find m.strictOrder_lt h.sorted ht hfind⟩

/-- Take a timer out of the set. -/
theorem takeOut (h : WellFormed m held) {t : ℕ} (ht : t ∈ m.timers) :
    WellFormed { m with timers := m.timers.erase t } (t :: held) := by
  have hperm : (t :: held ++ m.timers.erase t).Perm (held ++ m.timers) :=
    List.perm_middle.symm.trans ((List.perm_cons_erase ht).symm.append_left held)
  refine ⟨h.sorted.sublist List.erase_sublist, hperm.nodup_iff.mpr h.nodup, ?_, ?_, ?_, ?_⟩
  · intro r hr s hs
    exact h.addr_inj r (hperm.mem_iff.mp hr) s (hperm.mem_iff.mp hs)
  · intro s hs
    exact h.bound s (hperm.mem_iff.mp hs)
  · intro s hs hcb
    exact hperm.mem_iff.mpr (h.complete s hs hcb)
  · intro s hs
    exact h.key s (List.mem_of_mem_erase hs)

/-- Take a prefix of the set out at once. -/
theorem takePrefix (h : WellFormed m []) (it : ℕ) :
    WellFormed { m with timers := m.timers.drop it } (m.timers.take it) := by
  refine .of_ordered (h.ordered.takePrefix it) ?_ ?_ ?_
  · intro s hs
    rw [List.take_append_drop] at hs
    exact h.bound s hs
  · intro s hs hcb
    rw [List.take_append_drop]
    exact h.complete s hs hcb
  · intro s hs
    exact h.key s (List.mem_of_mem_drop hs)

/-- Change the due time or the period of a timer in hand. -/
theorem rekey {t : ℕ} (h : WellFormed m (t :: held)) {f : Timer Cb → Timer Cb}
    (haddr : (f (m.timer t)).addr = (m.timer t).addr)
    (hcb : (f (m.timer t)).cb = (m.timer t).cb) : WellFormed (m.modify t f) (t :: held) := by
  have hcb' : ∀ s, ((m.modify t f).timer s).cb = (m.timer s).cb := by
    intro s
    rcases eq_or_ne s t with rfl | hs
    · rw [modify_timer_self, hcb]
    · rw [modify_timer_of_ne f hs]
  refine .of_ordered (h.ordered.rekey haddr) h.bound ?_ ?_
  · intro s hs
    rw [hcb']
    exact h.complete s hs
  · intro s hs
    rw [modify_timer_of_ne f (h.ordered.ne_of_mem (List.mem_append_right held hs))]
    exact h.key s hs

/-- Empty the callback of a timer in hand, which lets go of it. -/
theorem retire {t : ℕ} (h : WellFormed m (t :: held)) :
    WellFormed (m.modify t fun timer => { timer with cb := none }) held := by
  refine .of_ordered (h.ordered.rekey rfl).letGo ?_ ?_ ?_
  · intro s hs
    exact h.bound s (List.mem_cons_of_mem t hs)
  · intro s hs hcb
    rcases eq_or_ne s t with rfl | hst
    · simp at hcb
    · rw [modify_timer_of_ne _ hst] at hcb
      exact (List.mem_cons.mp (h.complete s hs hcb)).resolve_left hst
  · intro s hs
    rw [modify_timer_of_ne _ (h.ordered.ne_of_mem (List.mem_append_right held hs))]
    exact h.key s hs

theorem mem_insert {t s : ℕ} (h : WellFormed m (t :: held)) :
    s ∈ (m.insert t).1.timers ↔ s = t ∨ s ∈ m.timers :=
  h.ordered.mem_insert

/-- Put a timer in hand back into the set. -/
theorem putBack {t : ℕ} (h : WellFormed m (t :: held)) : WellFormed (m.insert t).1 held := by
  refine .of_ordered h.ordered.putBack ?_ ?_ ?_
  · intro s hs
    exact h.bound s ((h.ordered.mem_append_insert s).mp hs)
  · intro s hs hcb
    exact (h.ordered.mem_append_insert s).mpr (h.complete s hs hcb)
  · intro s hs
    have hflag : (OrderedSet.insert m.lt t m.timers).2.2 = true := by
      rw [OrderedSet.insert_of_comparable m.strictOrder_lt h.sorted h.ordered.comparable]
    simp only [TimerManager.insert, hflag, if_true]
    rcases eq_or_ne s t with rfl | hst
    · rw [Function.update_self]
    · rw [Function.update_of_ne hst]
      exact h.key s ((h.mem_insert.mp hs).resolve_left hst)

/-- Create an object, at an address no pending timer has. -/
theorem construct (h : WellFormed m held) {timer : Timer Cb}
    (haddr : ∀ t ∈ held ++ m.timers, (m.timer t).addr ≠ timer.addr) :
    WellFormed (m.construct timer) (m.created :: held) := by
  have hne : ∀ t ∈ held ++ m.timers, t ≠ m.created := fun t ht => Nat.ne_of_lt (h.bound t ht)
  have hold : ∀ t, t ≠ m.created → (m.construct timer).timer t = m.timer t := fun t ht => by
    simp [TimerManager.construct, ht]
  have hnew : (m.construct timer).timer m.created = timer := by simp [TimerManager.construct]
  refine ⟨?_, ?_, ?_, ?_, ?_, ?_⟩
  · refine h.sorted.congr fun r hr s hs => ?_
    rw [lt, lt, hold r (hne r (by simp [hr])), hold s (hne s (by simp [hs]))]
  · exact List.nodup_cons.mpr ⟨fun hmem => hne _ hmem rfl, h.nodup⟩
  · intro r hr s hs
    rcases List.mem_cons.mp hr with rfl | hr <;> rcases List.mem_cons.mp hs with rfl | hs
    · exact fun _ => rfl
    · rw [hnew, hold s (hne s hs)]
      exact fun he => absurd he.symm (haddr s hs)
    · rw [hnew, hold r (hne r hr)]
      exact fun he => absurd he (haddr r hr)
    · rw [hold r (hne r hr), hold s (hne s hs)]
      exact h.addr_inj r hr s hs
  · intro s hs
    rcases List.mem_cons.mp hs with rfl | hs
    · exact Nat.lt_succ_self _
    · exact Nat.lt_succ_of_lt (h.bound s hs)
  · intro s hs hcb
    rcases Nat.lt_succ_iff_lt_or_eq.mp hs with hlt | rfl
    · rw [hold s (Nat.ne_of_lt hlt)] at hcb
      exact List.mem_cons_of_mem _ (h.complete s hlt hcb)
    · exact List.mem_cons_self ..
  · intro s hs
    rw [hold s (hne s (List.mem_append_right _ hs))]
    exact h.key s hs

/-! ### The operations -/

/-- The state after `cancel` on a timer with a callback. -/
theorem cancel_of_isSome (h : WellFormed m []) {t : ℕ} (hc : t < m.created)
    (hcb : (m.timer t).cb.isSome) :
    m.cancel t = some (true,
      { m with timers := m.timers.erase t }.modify t fun timer => { timer with cb := none }) := by
  obtain ⟨it, hfind, herase⟩ := h.find_eq_some (h.complete t hc hcb)
  have hlt : (m.modify t fun timer => { timer with cb := none }).lt = m.lt := by
    funext r s
    refine lt_congr ?_ ?_ ?_ ?_ <;>
      · simp only [TimerManager.modify, Function.update_apply]
        split <;> simp_all
  rw [TimerManager.cancel, if_pos hcb]
  simp only [hlt, modify_timers, hfind, Option.map_some]
  rw [TimerManager.erase] at herase
  simp only at herase
  simp [TimerManager.erase, herase, TimerManager.modify]

/-- The state after `refresh` on a timer with a callback. -/
theorem refresh_of_isSome (h : WellFormed m []) {t : ℕ} (hc : t < m.created)
    (hcb : (m.timer t).cb.isSome) (now : UInt64) :
    m.refresh t now = (true,
      (({ m with timers := m.timers.erase t }.modify t fun timer =>
        { timer with next := now + timer.ms }).insert t).1) := by
  obtain ⟨it, hfind, herase⟩ := h.find_eq_some (h.complete t hc hcb)
  have herase' : m.erase it = { m with timers := m.timers.erase t } := by
    rw [← herase]; rfl
  rw [TimerManager.refresh, if_neg (by simpa [Option.isSome_iff_ne_none] using hcb), hfind]
  simp only [herase']

theorem refresh_of_isNone {t : ℕ} (hcb : ¬(m.timer t).cb.isSome) (now : UInt64) :
    m.refresh t now = (false, m) := by
  rw [TimerManager.refresh, if_pos (by simpa using hcb)]

/-- The state after `reset` on a timer with a callback. -/
theorem resetLocked_of_isSome (h : WellFormed m []) {t : ℕ} (hc : t < m.created)
    (hcb : (m.timer t).cb.isSome) (ms : UInt64) (from_now : Bool) (now : UInt64) :
    m.resetLocked t ms from_now now = (true,
      ({ m with timers := m.timers.erase t }.modify t fun timer =>
        { timer with
          ms := ms
          next := (if from_now then now else timer.next - timer.ms) + ms }).addTimerLocked t) := by
  obtain ⟨it, hfind, herase⟩ := h.find_eq_some (h.complete t hc hcb)
  have herase' : m.erase it = { m with timers := m.timers.erase t } := by
    rw [← herase]; rfl
  rw [TimerManager.resetLocked, if_neg (by simpa [Option.isSome_iff_ne_none] using hcb), hfind]
  simp only [herase']
  rfl

theorem resetLocked_of_isNone {t : ℕ} (hcb : ¬(m.timer t).cb.isSome) (ms : UInt64)
    (from_now : Bool) (now : UInt64) : m.resetLocked t ms from_now now = (false, m, false) := by
  rw [TimerManager.resetLocked, if_pos (by simpa using hcb)]

theorem addTimerLocked {t : ℕ} (h : WellFormed m (t :: held)) :
    WellFormed (m.addTimerLocked t).1 held :=
  have h' := h.putBack
  ⟨h'.sorted, h'.nodup, h'.addr_inj, h'.bound, h'.complete, h'.key⟩

/-- **`cancel` keeps the set ordered and never erases `end()`.** -/
theorem cancel {t : ℕ} (h : WellFormed m []) (hc : t < m.created) :
    ∃ r, m.cancel t = some r ∧ WellFormed r.2 [] := by
  by_cases hcb : (m.timer t).cb.isSome
  · exact ⟨_, h.cancel_of_isSome hc hcb, (h.takeOut (h.complete t hc hcb)).retire⟩
  · exact ⟨(false, m), by rw [TimerManager.cancel, if_neg hcb], h⟩

theorem refresh (h : WellFormed m []) {t : ℕ} (hc : t < m.created) (now : UInt64) :
    WellFormed (m.refresh t now).2 [] := by
  by_cases hcb : (m.timer t).cb.isSome
  · rw [h.refresh_of_isSome hc hcb]
    exact ((h.takeOut (h.complete t hc hcb)).rekey rfl rfl).putBack
  · rw [refresh_of_isNone hcb]
    exact h

theorem resetLocked (h : WellFormed m []) {t : ℕ} (hc : t < m.created) (ms : UInt64)
    (from_now : Bool) (now : UInt64) : WellFormed (m.resetLocked t ms from_now now).2.1 [] := by
  by_cases hcb : (m.timer t).cb.isSome
  · rw [h.resetLocked_of_isSome hc hcb]
    exact ((h.takeOut (h.complete t hc hcb)).rekey rfl rfl).addTimerLocked
  · rw [resetLocked_of_isNone hcb]
    exact h

theorem getNextTimer (h : WellFormed m []) (now_ms : UInt64) :
    WellFormed (m.getNextTimer now_ms).1 [] := by
  rw [getNextTimer_fst]
  exact ⟨h.sorted, h.nodup, h.addr_inj, h.bound, h.complete, h.key⟩

theorem construct_make (h : WellFormed m []) {addr : ℕ} (ms : UInt64) (cb : Option Cb)
    (recurring : Bool) (now : UInt64) (haddr : ∀ t ∈ m.timers, (m.timer t).addr ≠ addr) :
    WellFormed (m.construct (Timer.make addr ms cb recurring now)) [m.created] :=
  h.construct haddr

theorem addTimer (h : WellFormed m []) {addr : ℕ} {ms : UInt64} {cb : Option Cb}
    {recurring : Bool} {now : UInt64} (haddr : ∀ t ∈ m.timers, (m.timer t).addr ≠ addr) :
    WellFormed (m.addTimer addr ms cb recurring now).1 [] :=
  (h.construct_make ms cb recurring now haddr).addTimerLocked

/-! ### Who is in the set afterwards -/

theorem mem_takeOut (h : WellFormed m held) {s t : ℕ} :
    s ∈ m.timers.erase t ↔ s ≠ t ∧ s ∈ m.timers :=
  h.nodup.of_append_right.mem_erase_iff

theorem mem_cancel (h : WellFormed m []) {s t : ℕ} (hc : t < m.created) {r : Bool × TimerManager Cb}
    (hr : m.cancel t = some r) : s ∈ r.2.timers ↔ ¬(s = t ∧ r.1 = true) ∧ s ∈ m.timers := by
  by_cases hcb : (m.timer t).cb.isSome
  · rw [h.cancel_of_isSome hc hcb, Option.some.injEq] at hr
    subst hr
    simpa using h.mem_takeOut
  · rw [TimerManager.cancel, if_neg hcb, Option.some.injEq] at hr
    subst hr
    simp

theorem mem_refresh (h : WellFormed m []) {s t : ℕ} (hc : t < m.created) (now : UInt64) :
    s ∈ (m.refresh t now).2.timers ↔ s ∈ m.timers := by
  by_cases hcb : (m.timer t).cb.isSome
  · have ht := h.complete t hc hcb
    rw [h.refresh_of_isSome hc hcb, ((h.takeOut ht).rekey rfl rfl).mem_insert, modify_timers,
      h.mem_takeOut]
    by_cases hst : s = t <;> simp_all
  · rw [refresh_of_isNone hcb]

theorem mem_resetLocked (h : WellFormed m []) {s t : ℕ} (hc : t < m.created) (ms : UInt64)
    (from_now : Bool) (now : UInt64) :
    s ∈ (m.resetLocked t ms from_now now).2.1.timers ↔ s ∈ m.timers := by
  by_cases hcb : (m.timer t).cb.isSome
  · have ht := h.complete t hc hcb
    rw [h.resetLocked_of_isSome hc hcb]
    refine (((h.takeOut ht).rekey rfl rfl).mem_insert).trans ?_
    rw [modify_timers, h.mem_takeOut]
    by_cases hst : s = t <;> simp_all
  · rw [resetLocked_of_isNone hcb]

theorem mem_addTimer (h : WellFormed m []) {addr : ℕ} {ms : UInt64} {cb : Option Cb}
    {recurring : Bool} {now : UInt64} (haddr : ∀ t ∈ m.timers, (m.timer t).addr ≠ addr) {s : ℕ} :
    s ∈ (m.addTimer addr ms cb recurring now).1.timers ↔ s = m.created ∨ s ∈ m.timers :=
  (h.construct_make ms cb recurring now haddr).mem_insert

/-- A new timer is at the front exactly when no member is before it. -/
theorem addTimerLocked_snd {t : ℕ} (h : WellFormed m (t :: held)) :
    (m.addTimerLocked t).2 = true ↔ (∀ s ∈ m.timers, m.lt s t = false) ∧ m.tickled = false := by
  have hins := OrderedSet.insert_of_comparable m.strictOrder_lt h.sorted h.ordered.comparable
  have hit : (m.insert t).2 = OrderedSet.lowerBound (m.lt · t) m.timers := by
    simp only [TimerManager.insert, hins]
  have hdown : ∀ r s, m.lt r s = true → m.lt s t = true → m.lt r t = true :=
    fun r s => m.strictOrder_lt.trans r s t
  rw [← OrderedSet.lowerBound_eq_zero_iff hdown h.sorted, ← hit]
  simp [TimerManager.addTimerLocked]

end WellFormed

end TimerManager

end Wille
