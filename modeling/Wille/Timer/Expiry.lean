import Wille.Timer.Ordered
import Mathlib.Algebra.Ring.Nat

/-!
# Expiry

`listExpiredCb` cuts the set with a probe object, erases the prefix, copies the callbacks out and
puts the recurring timers back under new keys. Its effect is the one a reader would write down
without looking at the probe: the expired timers are those due by `now_ms` (all of them after a
rollover), each is handed over once, and everything else is untouched.

## Main results

* `Ordered.cut_expiredEnd` — the cut is exactly the expired timers
* `Ordered.listExpiredCb_fst`, `listExpiredCb_timer`, `mem_listExpiredCb` — what is handed over,
  what becomes of the objects, and who is in the set afterwards
* `Ordered.expiry` — all of it together
* `getNextTimer_snd_eq_max_iff` — when `getNextTimer` tells that there is no timer
* `Ordered.sleep_until_due` — `getNextTimer` tells when the first callback is due
* `WellFormed.listExpiredCb` — the relation is kept
-/

namespace Wille

namespace TimerManager

variable {Cb : Type*} {m : TimerManager Cb} {held : List ℕ}

/-! ### The cut -/

/-- Whether `listExpiredCb` counts a timer as expired. -/
def isExpired (m : TimerManager Cb) (now_ms : UInt64) (rollover : Bool) (t : ℕ) : Bool :=
  rollover || decide ((m.timer t).next ≤ now_ms)

/-- **The cut of `listExpiredCb`.** The probe's address decides where among the timers due right
now the lower bound falls; the loop after it makes up for that. -/
theorem Ordered.cut_expiredEnd (h : Ordered m held) (now_ms : UInt64) (rollover : Bool)
    (addr : ℕ) :
    m.timers.take (m.expiredEnd now_ms rollover addr)
        = m.timers.filter (m.isExpired now_ms rollover) ∧
      m.timers.drop (m.expiredEnd now_ms rollover addr)
        = m.timers.filter fun t => !m.isExpired now_ms rollover t := by
  cases rollover with
  | true =>
    have hend : m.timers.length ≤ m.expiredEnd now_ms true addr := Nat.le_add_right _ _
    rw [List.take_of_length_le hend, List.drop_of_length_le hend]
    exact ⟨(List.filter_eq_self.mpr fun _ _ => rfl).symm,
      (List.filter_eq_nil_iff.mpr fun _ _ => Bool.false_ne_true).symm⟩
  | false =>
    have hbefore : ∀ t,
        Timer.Comparator (some (m.timer t)) (some (Timer.probe addr now_ms)) = true ↔
          (m.timer t).next < now_ms ∨ (m.timer t).next = now_ms ∧ (m.timer t).addr < addr := by
      intro t
      simp only [Timer.Comparator, Timer.probe]
      grind
    refine @OrderedSet.cut_advanceWhile_lowerBound _ m.lt _ _ _ ?_ ?_ ?_ ?_ _ h.sorted
    · intro s t hst ht
      rw [lt_iff] at hst
      rw [hbefore] at ht ⊢
      grind
    · intro s t hst ht
      rw [lt_iff] at hst
      simp only [isExpired, Bool.false_or, decide_eq_true_eq] at ht ⊢
      grind
    · intro t ht
      rw [hbefore] at ht
      simp only [isExpired, Bool.false_or, decide_eq_true_eq]
      grind
    · intro t ht
      rw [← Bool.not_eq_true, hbefore] at ht
      rw [Bool.eq_iff_iff]
      simp only [isExpired, Bool.false_or, decide_eq_true_eq, beq_iff_eq]
      grind

/-- Nothing is due before the front is. -/
theorem Ordered.front_le (h : Ordered m held) {front : ℕ} {rest : List ℕ}
    (hcons : m.timers = front :: rest) :
    ∀ t ∈ m.timers, (m.timer front).next ≤ (m.timer t).next := by
  intro t ht
  rw [hcons] at ht
  rcases List.mem_cons.mp ht with rfl | ht
  · exact UInt64.le_refl _
  · have hlt := (List.pairwise_cons.mp (hcons ▸ h.sorted)).1 t ht
    rw [lt_iff] at hlt
    grind

/-- **What one call of `listExpiredCb` does.** The early return for a front that is not due yet is
the case of an empty cut. -/
theorem Ordered.listExpiredCb_eq (h : Ordered m []) (hne : m.timers ≠ [])
    (now_ms : UInt64) (addr : ℕ) :
    m.listExpiredCb now_ms addr =
      fire now_ms (m.timers.filter (m.isExpired now_ms (m.detectClockRollover now_ms).1))
        { m with
          timers := m.timers.filter fun t =>
            !m.isExpired now_ms (m.detectClockRollover now_ms).1 t
          previousTime := now_ms } := by
  obtain ⟨front, rest, htimers⟩ := List.exists_cons_of_ne_nil hne
  set rollover := (m.detectClockRollover now_ms).1 with hroll
  obtain ⟨htake, hdrop⟩ := h.cut_expiredEnd now_ms rollover addr
  rw [TimerManager.listExpiredCb, if_neg (by simpa using hne), listExpiredCbLocked]
  split
  · rename_i hnil; exact absurd hnil hne
  rename_i front' rest' hcons
  obtain ⟨rfl, rfl⟩ := List.cons.inj (hcons.symm.trans htimers)
  simp only [← hroll]
  split
  · -- the front is not due, so nothing behind it is
    rename_i hearly
    have hnone : ∀ t ∈ m.timers, m.isExpired now_ms rollover t = false := by
      simp only [Bool.and_eq_true, Bool.not_eq_true', decide_eq_true_eq] at hearly
      intro t ht
      have hfront := h.front_le hcons t ht
      have hnow : now_ms < (m.timer front').next := hearly.2
      simp only [isExpired, hearly.1, Bool.false_or, decide_eq_false_iff_not]
      grind
    rw [List.filter_eq_nil_iff.mpr fun t ht => by simp [hnone t ht],
      List.filter_eq_self.mpr fun t ht => by simp [hnone t ht]]
    rfl
  · show fire now_ms (m.timers.take (m.expiredEnd now_ms rollover addr)) _ = _
    rw [← htake, ← hdrop]
    rfl

/-! ### The loop -/

end TimerManager

/-- An expired timer after the loop of `listExpiredCb` has passed it. -/
def Timer.fired {Cb : Type*} (now_ms : UInt64) (timer : Timer Cb) : Timer Cb :=
  if timer.recurring then { timer with next := now_ms + timer.ms } else { timer with cb := none }

namespace TimerManager

variable {Cb : Type*} {m : TimerManager Cb} {held : List ℕ}

theorem rearm_timer_self (now_ms : UInt64) (t : ℕ) :
    (m.rearm now_ms t).timer t = (m.timer t).fired now_ms := by
  by_cases hrec : (m.timer t).recurring <;> simp [rearm, Timer.fired, hrec]

theorem rearm_timer_of_ne (now_ms : UInt64) {s t : ℕ} (hs : s ≠ t) :
    (m.rearm now_ms t).timer s = m.timer s := by
  by_cases hrec : (m.timer t).recurring <;> simp [rearm, hrec, modify_timer_of_ne _ hs]

theorem Ordered.rearm {t : ℕ} (h : Ordered m (t :: held)) (now_ms : UInt64) :
    Ordered (m.rearm now_ms t) held := by
  rw [TimerManager.rearm]
  split
  · exact (h.rekey rfl).putBack
  · exact (h.rekey rfl).letGo

theorem WellFormed.rearm {t : ℕ} (h : WellFormed m (t :: held)) (now_ms : UInt64) :
    WellFormed (m.rearm now_ms t) held := by
  rw [TimerManager.rearm]
  split
  · exact (h.rekey rfl rfl).putBack
  · exact h.retire

theorem WellFormed.fire {now_ms : UInt64} : ∀ {expired : List ℕ} {m : TimerManager Cb},
    WellFormed m expired → WellFormed (fire now_ms expired m).2 []
  | [], _, h => h
  | _ :: _, _, h => by
    rw [TimerManager.fire]
    exact WellFormed.fire (h.rearm now_ms)

/-- Each object in hand is fired, and only those. -/
theorem fire_timer {now_ms : UInt64} : ∀ {expired : List ℕ} {m : TimerManager Cb}, expired.Nodup →
    ∀ s, (fire now_ms expired m).2.timer s =
      if s ∈ expired then (m.timer s).fired now_ms else m.timer s
  | [], _, _, _ => by simp [TimerManager.fire]
  | t :: expired, m, hnd, s => by
    obtain ⟨ht, hnd'⟩ := List.nodup_cons.mp hnd
    rw [TimerManager.fire, fire_timer hnd']
    rcases eq_or_ne s t with rfl | hs
    · rw [if_neg ht, if_pos (List.mem_cons_self ..), rearm_timer_self]
    · simp only [rearm_timer_of_ne now_ms hs, List.mem_cons, hs, false_or]

/-- The callbacks handed over are those the timers had before the loop. -/
theorem fire_fst {now_ms : UInt64} : ∀ {expired : List ℕ} {m : TimerManager Cb}, expired.Nodup →
    (fire now_ms expired m).1 = expired.map fun t => (t, (m.timer t).cb)
  | [], _, _ => rfl
  | t :: expired, m, hnd => by
    obtain ⟨ht, hnd'⟩ := List.nodup_cons.mp hnd
    rw [TimerManager.fire, fire_fst hnd', List.map_cons]
    refine congrArg _ (List.map_congr_left fun s hs => ?_)
    have hst : s ≠ t := by
      rintro rfl
      exact ht hs
    rw [rearm_timer_of_ne now_ms hst]

theorem fire_frame {now_ms : UInt64} : ∀ {expired : List ℕ} {m : TimerManager Cb},
    (fire now_ms expired m).2.created = m.created ∧
      (fire now_ms expired m).2.tickled = m.tickled ∧
      (fire now_ms expired m).2.previousTime = m.previousTime
  | [], _ => ⟨rfl, rfl, rfl⟩
  | t :: expired, m => by
    have h := @fire_frame now_ms expired (m.rearm now_ms t)
    have hrearm : (m.rearm now_ms t).created = m.created ∧
        (m.rearm now_ms t).tickled = m.tickled ∧
        (m.rearm now_ms t).previousTime = m.previousTime := by
      rw [TimerManager.rearm]
      split <;> exact ⟨rfl, rfl, rfl⟩
    exact ⟨h.1.trans hrearm.1, h.2.1.trans hrearm.2.1, h.2.2.trans hrearm.2.2⟩

/-- The recurring ones come back, and nobody else does. -/
theorem Ordered.mem_fire {now_ms : UInt64} : ∀ {expired : List ℕ} {m : TimerManager Cb},
    Ordered m expired → ∀ s, s ∈ (TimerManager.fire now_ms expired m).2.timers ↔
      s ∈ m.timers ∨ s ∈ expired ∧ (m.timer s).recurring = true
  | [], _, _, _ => by simp [TimerManager.fire]
  | t :: expired, m, h, s => by
    have ht : t ∉ expired := fun hmem => h.ne_of_mem (List.mem_append_left _ hmem) rfl
    have hrest : s ∈ expired → ((m.rearm now_ms t).timer s).recurring = (m.timer s).recurring := by
      intro hs
      rw [rearm_timer_of_ne now_ms]
      rintro rfl
      exact ht hs
    have hmem : s ∈ (m.rearm now_ms t).timers ↔
        s ∈ m.timers ∨ s = t ∧ (m.timer s).recurring = true := by
      rw [TimerManager.rearm]
      split
      · rename_i hrec
        rw [(h.rekey rfl).mem_insert, modify_timers, or_comm]
        exact or_congr_right (and_iff_left_of_imp fun hst => hst ▸ hrec).symm
      · rename_i hrec
        rw [modify_timers]
        refine (or_iff_left ?_).symm
        rintro ⟨rfl, hrec'⟩
        exact hrec hrec'
    rw [TimerManager.fire, Ordered.mem_fire (h.rearm now_ms), hmem, List.mem_cons, or_assoc]
    refine or_congr_right ?_
    rw [or_and_right]
    refine or_congr_right (and_congr_right fun hs => ?_)
    rw [hrest hs]

/-! ### The whole call -/

/-- The timers one call of `listExpiredCb` hands over, in order. -/
def expired (m : TimerManager Cb) (now_ms : UInt64) : List ℕ :=
  m.timers.filter (m.isExpired now_ms (m.detectClockRollover now_ms).1)

theorem mem_expired {now_ms : UInt64} {t : ℕ} : t ∈ m.expired now_ms ↔
    t ∈ m.timers ∧
      ((m.detectClockRollover now_ms).1 = true ∨ (m.timer t).next ≤ now_ms) := by
  simp [expired, isExpired]

/-- With no timer pending the call returns before it has looked at anything. -/
theorem listExpiredCb_of_nil (hnil : m.timers = []) (now_ms : UInt64) (addr : ℕ) :
    m.listExpiredCb now_ms addr = ([], m) := by
  simp [TimerManager.listExpiredCb, hnil]

/-- The test under the read lock makes no difference to the result. -/
theorem listExpiredCbLocked_eq (now_ms : UInt64) (addr : ℕ) :
    m.listExpiredCbLocked now_ms addr = m.listExpiredCb now_ms addr := by
  rw [TimerManager.listExpiredCb]
  split
  · rename_i hnil
    rw [listExpiredCbLocked, List.isEmpty_iff.mp hnil]
  · rfl

namespace Ordered

/-- The state the loop starts from, with the expired timers in hand. -/
theorem cut (h : Ordered m []) (now_ms : UInt64) :
    Ordered { m with
      timers := m.timers.filter fun t =>
        !m.isExpired now_ms (m.detectClockRollover now_ms).1 t
      previousTime := now_ms } (m.expired now_ms) := by
  obtain ⟨htake, hdrop⟩ := h.cut_expiredEnd now_ms (m.detectClockRollover now_ms).1 0
  have h' := h.takePrefix (m.expiredEnd now_ms (m.detectClockRollover now_ms).1 0)
  rw [htake, hdrop] at h'
  exact ⟨h'.sorted, h'.nodup, h'.addr_inj⟩

theorem nodup_expired (h : Ordered m []) (now_ms : UInt64) : (m.expired now_ms).Nodup :=
  (h.cut now_ms).nodup.of_append_left

theorem listExpiredCb_fst (h : Ordered m []) (now_ms : UInt64) (addr : ℕ) :
    (m.listExpiredCb now_ms addr).1 = (m.expired now_ms).map fun t => (t, (m.timer t).cb) := by
  by_cases hne : m.timers = []
  · rw [listExpiredCb_of_nil hne, expired, hne]; rfl
  · rw [h.listExpiredCb_eq hne]
    exact fire_fst (h.nodup_expired now_ms)

theorem mem_expired_of_handed (h : Ordered m []) {t : ℕ} {cb : Option Cb} {now_ms : UInt64}
    {addr : ℕ} (ht : (t, cb) ∈ (m.listExpiredCb now_ms addr).1) : t ∈ m.expired now_ms := by
  rw [h.listExpiredCb_fst now_ms addr] at ht
  obtain ⟨s, hs, heq⟩ := List.mem_map.mp ht
  obtain ⟨rfl, -⟩ := Prod.ext_iff.mp heq
  exact hs

theorem listExpiredCb_timer (h : Ordered m []) (now_ms : UInt64) (addr s : ℕ) :
    (m.listExpiredCb now_ms addr).2.timer s =
      if s ∈ m.expired now_ms then (m.timer s).fired now_ms else m.timer s := by
  by_cases hne : m.timers = []
  · rw [listExpiredCb_of_nil hne, expired, hne]; rfl
  · rw [h.listExpiredCb_eq hne]
    exact fire_timer (h.nodup_expired now_ms) s

theorem listExpiredCb_created (h : Ordered m []) (now_ms : UInt64) (addr : ℕ) :
    (m.listExpiredCb now_ms addr).2.created = m.created := by
  by_cases hne : m.timers = []
  · rw [listExpiredCb_of_nil hne]
  · rw [h.listExpiredCb_eq hne]
    exact fire_frame.1

theorem listExpiredCb_tickled (h : Ordered m []) (now_ms : UInt64) (addr : ℕ) :
    (m.listExpiredCb now_ms addr).2.tickled = m.tickled := by
  by_cases hne : m.timers = []
  · rw [listExpiredCb_of_nil hne]
  · rw [h.listExpiredCb_eq hne]
    exact fire_frame.2.1

theorem listExpiredCb_previousTime (h : Ordered m []) (now_ms : UInt64) (addr : ℕ) :
    (m.listExpiredCb now_ms addr).2.previousTime =
      if m.timers = [] then m.previousTime else now_ms := by
  by_cases hne : m.timers = []
  · rw [listExpiredCb_of_nil hne, if_pos hne]
  · rw [h.listExpiredCb_eq hne, if_neg hne]
    exact fire_frame.2.2

/-- Who is in the set after the call: everyone but the expired one-shot timers. -/
theorem mem_listExpiredCb (h : Ordered m []) (now_ms : UInt64) (addr s : ℕ) :
    s ∈ (m.listExpiredCb now_ms addr).2.timers ↔
      s ∈ m.timers ∧ ¬(s ∈ m.expired now_ms ∧ (m.timer s).recurring = false) := by
  by_cases hne : m.timers = []
  · rw [listExpiredCb_of_nil hne, expired, hne]
    simp
  · rw [h.listExpiredCb_eq hne]
    refine ((h.cut now_ms).mem_fire s).trans ?_
    simp only [expired, List.mem_filter, Bool.not_eq_true']
    cases m.isExpired now_ms (m.detectClockRollover now_ms).1 s <;>
      cases (m.timer s).recurring <;> simp

/-- **One call of `listExpiredCb`.** With the set sorted by the comparator, the call hands over the
callbacks of the timers that are due, all of them after a rollover, once each and in the order of
due time and address. A recurring one is in the set afterwards, due a period from now; a one-shot
one is out of it and has lost its callback; the others are as they were. -/
theorem expiry (h : Ordered m []) (now_ms : UInt64) (addr : ℕ) :
    ∃ due : List ℕ,
      (∀ t, t ∈ due ↔ t ∈ m.timers ∧
        ((m.detectClockRollover now_ms).1 = true ∨ (m.timer t).next ≤ now_ms)) ∧
      (due.Pairwise fun s t => (m.timer s).next < (m.timer t).next ∨
        (m.timer s).next = (m.timer t).next ∧ (m.timer s).addr < (m.timer t).addr) ∧
      (m.listExpiredCb now_ms addr).1 = (due.map fun t => (t, (m.timer t).cb)) ∧
      (∀ t ∈ due, (m.timer t).recurring = true →
        t ∈ (m.listExpiredCb now_ms addr).2.timers ∧
          (m.listExpiredCb now_ms addr).2.timer t =
            { m.timer t with next := now_ms + (m.timer t).ms } ∧
          ((m.listExpiredCb now_ms addr).2.timer t).next.toNat =
            (now_ms.toNat + (m.timer t).ms.toNat) % 2 ^ 64) ∧
      (∀ t ∈ due, (m.timer t).recurring = false →
        t ∉ (m.listExpiredCb now_ms addr).2.timers ∧
          (m.listExpiredCb now_ms addr).2.timer t = { m.timer t with cb := none }) ∧
      ∀ t ∉ due, (t ∈ (m.listExpiredCb now_ms addr).2.timers ↔ t ∈ m.timers) ∧
        (m.listExpiredCb now_ms addr).2.timer t = m.timer t := by
  have htimer := h.listExpiredCb_timer now_ms addr
  have hmem := h.mem_listExpiredCb now_ms addr
  refine ⟨m.expired now_ms, fun t => mem_expired, ?_, h.listExpiredCb_fst now_ms addr, ?_, ?_, ?_⟩
  · exact (h.sorted.sublist List.filter_sublist).imp fun hst => lt_iff.mp hst
  · intro t ht hrec
    have hnew : (m.listExpiredCb now_ms addr).2.timer t =
        { m.timer t with next := now_ms + (m.timer t).ms } := by
      rw [htimer, if_pos ht, Timer.fired, if_pos hrec]
    refine ⟨(hmem t).mpr ⟨(mem_expired.mp ht).1, by simp [hrec]⟩, hnew, ?_⟩
    rw [hnew]
    exact UInt64.toNat_add now_ms (m.timer t).ms
  · intro t ht hrec
    refine ⟨fun hin => ((hmem t).mp hin).2 ⟨ht, hrec⟩, ?_⟩
    rw [htimer, if_pos ht, Timer.fired, if_neg (by simp [hrec])]
  · intro t ht
    refine ⟨(hmem t).trans (and_iff_left fun hc => ht hc.1), ?_⟩
    rw [htimer, if_neg ht]

end Ordered

/-- Three timers: one due before the others, two due together, of which one is recurring with the
period `0`. -/
def sampleTies : TimerManager ℕ :=
  let m := TimerManager.make (fun _ => Timer.probe 0 0) 90
  let m := (m.addTimer 48 10 (some 7) false 90).1
  let m := (m.addTimer 16 0 (some 8) true 100).1
  (m.addTimer 32 20 (some 9) false 100).1

theorem sampleTies_ordered : Ordered sampleTies [] :=
  have hpair : sampleTies.timers.Pairwise fun s t => sampleTies.lt s t = true := by decide
  ⟨hpair, by decide, by decide⟩

theorem expiry_sampleTies :
    (sampleTies.listExpiredCb 100 40).1 = [(1, some 8), (0, some 7)] ∧
      ∃ due : List ℕ, (∀ t, t ∈ due ↔ t ∈ sampleTies.timers ∧
        ((sampleTies.detectClockRollover 100).1 = true ∨ (sampleTies.timer t).next ≤ 100)) ∧
        (sampleTies.listExpiredCb 100 40).1 = due.map fun t => (t, (sampleTies.timer t).cb) := by
  obtain ⟨due, hdue, -, hhanded, -⟩ := sampleTies_ordered.expiry 100 40
  exact ⟨by decide, due, hdue, hhanded⟩

/-! ### The sleep before it -/

/-- If the clock is not seen to have gone back at some reading, then at no later one either. -/
theorem rollover_of_le {now now' : UInt64} (hle : now ≤ now')
    (hroll : (m.detectClockRollover now).1 = false) : (m.detectClockRollover now').1 = false := by
  simp only [detectClockRollover, Bool.and_eq_false_iff, decide_eq_false_iff_not] at hroll ⊢
  grind

theorem Ordered.listExpiredCb_eq_nil_iff (h : Ordered m []) {now_ms : UInt64}
    (hroll : (m.detectClockRollover now_ms).1 = false) {front : ℕ} {rest : List ℕ}
    (hcons : m.timers = front :: rest) (addr : ℕ) :
    (m.listExpiredCb now_ms addr).1 = [] ↔ now_ms < (m.timer front).next := by
  have hfront := h.front_le hcons
  have hmem : front ∈ m.timers := hcons ▸ List.mem_cons_self ..
  rw [h.listExpiredCb_fst, List.map_eq_nil_iff, List.eq_nil_iff_forall_not_mem]
  simp only [mem_expired, hroll, Bool.false_eq_true, false_or, not_and]
  constructor
  · intro hnone
    have := hnone front hmem
    grind
  · intro hlt t ht
    have := hfront t ht
    grind

theorem getNextTimer_snd_of_cons {now_ms : UInt64} {front : ℕ} {rest : List ℕ}
    (hcons : m.timers = front :: rest) : (m.getNextTimer now_ms).2 =
      if now_ms ≥ (m.timer front).next then 0 else (m.timer front).next - now_ms := by
  simp [TimerManager.getNextTimer, hcons]

/-- `~0ull` is told where there is no timer, and where the first one is as far away as that. -/
theorem getNextTimer_snd_eq_max_iff {now_ms : UInt64} :
    (m.getNextTimer now_ms).2 = ~~~0 ↔
      m.timers = [] ∨ ∃ front ∈ m.timers.head?, (m.timer front).next = ~~~0 ∧ now_ms = 0 := by
  rcases hcons : m.timers with - | ⟨front, rest⟩
  · simp [TimerManager.getNextTimer, hcons]
  · have hmax : (~~~0 : UInt64) = 18446744073709551615 := rfl
    rw [getNextTimer_snd_of_cons hcons, hmax]
    simp only [reduceCtorEq, List.head?_cons, Option.mem_some_iff, exists_eq_left', false_or]
    generalize (m.timer front).next = next
    split
    · constructor
      · intro h
        exact absurd h (by decide)
      · rintro ⟨rfl, rfl⟩
        rename_i hle
        exact absurd hle (by decide)
    · grind

/-- **The sleep ends when there is something to deliver.** `getNextTimer` reads the front of the
set, `listExpiredCb` searches it with a probe; the two agree on when the first timer is due. A
timer that is due `2 ^ 64 - 1` ms from now is told by the same value as an empty set. -/
theorem Ordered.sleep_until_due (h : Ordered m []) {now_ms : UInt64}
    (hroll : (m.detectClockRollover now_ms).1 = false)
    (hfar : ∀ front ∈ m.timers.head?, ¬((m.timer front).next = ~~~0 ∧ now_ms = 0)) :
    ((m.getNextTimer now_ms).2 = ~~~0 ↔ m.timers = []) ∧
      (∀ addr, (m.getNextTimer now_ms).2 = 0 ↔ (m.listExpiredCb now_ms addr).1 ≠ []) ∧
      ((m.getNextTimer now_ms).2 ≠ ~~~0 → (m.getNextTimer now_ms).2 ≠ 0 →
        now_ms < now_ms + (m.getNextTimer now_ms).2 ∧
        (∀ k < (m.getNextTimer now_ms).2, ∀ addr, (m.listExpiredCb (now_ms + k) addr).1 = []) ∧
        ∀ addr, (m.listExpiredCb (now_ms + (m.getNextTimer now_ms).2) addr).1 ≠ []) := by
  have hempty : (m.getNextTimer now_ms).2 = ~~~0 ↔ m.timers = [] := by
    rw [getNextTimer_snd_eq_max_iff, or_iff_left]
    rintro ⟨front, hfront, hmax⟩
    exact hfar front hfront hmax
  refine ⟨hempty, ?_⟩
  rcases hcons : m.timers with - | ⟨front, rest⟩
  · have hnext : (m.getNextTimer now_ms).2 = ~~~0 := hempty.mpr hcons
    refine ⟨fun addr => ?_, fun hne => absurd hnext hne⟩
    rw [hnext, listExpiredCb_of_nil hcons]
    exact ⟨fun h0 => absurd h0 (by decide), fun hne => absurd rfl hne⟩
  · have hnil : ∀ {now'}, now_ms ≤ now' → ∀ addr,
        (m.listExpiredCb now' addr).1 = [] ↔ now' < (m.timer front).next := fun hle addr =>
      h.listExpiredCb_eq_nil_iff (rollover_of_le hle hroll) hcons addr
    rw [getNextTimer_snd_of_cons hcons]
    by_cases hdue : (m.timer front).next ≤ now_ms
    · rw [if_pos hdue]
      refine ⟨fun addr => ?_, fun _ h0 => absurd rfl h0⟩
      rw [ne_eq, hnil (UInt64.le_refl _)]
      simpa using hdue
    · have hlt : now_ms < (m.timer front).next := by simpa using hdue
      rw [if_neg hdue]
      generalize (m.timer front).next = next at hlt hnil
      have hsum : now_ms + (next - now_ms) = next := by grind
      refine ⟨fun addr => ?_, fun _ _ => ⟨?_, fun k hk addr => ?_, fun addr => ?_⟩⟩
      · rw [ne_eq, hnil (UInt64.le_refl _)]
        grind
      · rwa [hsum]
      · rw [hnil (by grind)]
        grind
      · rw [hsum, ne_eq, hnil (UInt64.le_of_lt hlt)]
        exact UInt64.lt_irrefl _

theorem sleep_until_due_sampleTies :
    (sampleTies.getNextTimer 95).2 = 5 ∧
      (∀ k < (5 : UInt64), ∀ addr, (sampleTies.listExpiredCb (95 + k) addr).1 = []) ∧
      ∀ addr, (sampleTies.listExpiredCb 100 addr).1 ≠ [] := by
  have hnext : (sampleTies.getNextTimer 95).2 = 5 := by decide
  have hroll : (sampleTies.detectClockRollover 95).1 = false := by decide
  obtain ⟨-, -, hsleep⟩ := sampleTies_ordered.sleep_until_due hroll (by decide)
  rw [hnext] at hsleep
  obtain ⟨-, hearly, hdue⟩ := hsleep (by decide) (by decide)
  exact ⟨hnext, hearly, hdue⟩

/-- **`listExpiredCb` keeps the set ordered.** -/
theorem WellFormed.listExpiredCb (h : WellFormed m []) (now_ms : UInt64) (addr : ℕ) :
    WellFormed (m.listExpiredCb now_ms addr).2 [] := by
  by_cases hne : m.timers = []
  · rw [listExpiredCb_of_nil hne]; exact h
  · obtain ⟨htake, hdrop⟩ := h.ordered.cut_expiredEnd now_ms (m.detectClockRollover now_ms).1 0
    have h' := h.takePrefix (m.expiredEnd now_ms (m.detectClockRollover now_ms).1 0)
    rw [htake, hdrop] at h'
    rw [h.ordered.listExpiredCb_eq hne]
    exact WellFormed.fire (m := { m with
      timers := m.timers.filter fun t =>
        !m.isExpired now_ms (m.detectClockRollover now_ms).1 t
      previousTime := now_ms }) ⟨h'.sorted, h'.nodup, h'.addr_inj, h'.bound, h'.complete, h'.key⟩

end TimerManager

end Wille
