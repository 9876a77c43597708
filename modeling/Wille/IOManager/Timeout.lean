import Wille.Timer.Expiry
import Mathlib.Data.Int.Notation

/-!
# How long an idle worker blocks

`idle` asks `stopping` for the time to the next timer and passes it to `epoll_wait`, which takes an
`int`. The limit `MAX_TIMEOUT` is meant to cut a long wait short, but the comparison with it is
made after the cast: of a wait of `2 ^ 31` ms or more only the low 32 bits are looked at, and they
may be anything.

## Main definitions

* `IOManager.castInt` — the cast from `uint64_t` to `int`
* `IOManager.stoppingTimeout`, `idleTimeouts` — `stopping(timeout)`, and the calls of `epoll_wait`
  in one pass of `idle`

## Main results

* `IOManager.idleTimeouts_iff` — when the timeout is the time to the next timer, at most
  `MAX_TIMEOUT`
* `IOManager.idle_blocks_forever` — a timer that is due in `2 ^ 31` ms
-/

namespace Wille

namespace IOManager

variable {Cb : Type*}

/-- `(int)x`, of a `uint64_t`. -/
def castInt (x : UInt64) : Int32 := x.toUInt32.toInt32

/-- `MAX_TIMEOUT` -/
def MAX_TIMEOUT : Int32 := 3000

/-- The body of the loop around `epoll_wait`, up to the call. -/
def limitTimeout (next_timeout : UInt64) : UInt64 :=
  if next_timeout = ~~~0 ∨ castInt next_timeout > MAX_TIMEOUT then MAX_TIMEOUT.toInt64.toUInt64
  else next_timeout

/-- The timeouts of the calls of `epoll_wait` in the loop, of which `interrupted` fail with
`EINTR` before one does not. -/
def waitTimeouts (next_timeout : UInt64) : ℕ → List Int32
  | 0 => [castInt (limitTimeout next_timeout)]
  | interrupted + 1 =>
    castInt (limitTimeout next_timeout) :: waitTimeouts (limitTimeout next_timeout) interrupted

/-- `IOManager::stopping(timeout)`, with what `Scheduler::stopping` returns. -/
def stoppingTimeout (timers : TimerManager Cb) (now : UInt64) (schedulerStopping : Bool)
    (pendingEventCount : ℤ) : TimerManager Cb × UInt64 × Bool :=
  let (timers, timeout) := timers.getNextTimer now
  (timers, timeout, timeout == ~~~0 && schedulerStopping && pendingEventCount == 0)

/-- One pass of `idle`, up to the end of the loop around `epoll_wait`: the timeouts passed to it,
or `none` if the worker stops. -/
def idleTimeouts (timers : TimerManager Cb) (now : UInt64) (schedulerStopping : Bool)
    (pendingEventCount : ℤ) (interrupted : ℕ) : Option (List Int32) :=
  let (_, next_timeout, stop) := stoppingTimeout timers now schedulerStopping pendingEventCount
  if stop then none else some (waitTimeouts next_timeout interrupted)

/-- The time to the first timer; `0` if it is due. -/
def distance (timers : TimerManager Cb) (now : UInt64) (front : ℕ) : ℕ :=
  (timers.timer front).next.toNat - now.toNat

/-- The waits that come out right: up to the limit, or with low 32 bits that exceed it as an `int`
or are just it, or the value that stands for no timer at all. -/
def Fits (distance : ℕ) : Prop :=
  distance ≤ 3000 ∨ 3000 ≤ distance % 2 ^ 32 ∧ distance % 2 ^ 32 < 2 ^ 31 ∨
    distance = 2 ^ 64 - 1

instance (distance : ℕ) : Decidable (Fits distance) :=
  inferInstanceAs (Decidable (_ ∨ _ ∨ _))

/-! ### The cast -/

/-- The cast keeps the low 32 bits and reads them as a signed number. -/
theorem castInt_cases (x : UInt64) :
    x.toNat % 2 ^ 32 < 2 ^ 31 ∧ (castInt x).toInt = (x.toNat % 2 ^ 32 : ℕ) ∨
      2 ^ 31 ≤ x.toNat % 2 ^ 32 ∧ (castInt x).toInt = (x.toNat % 2 ^ 32 : ℕ) - (2 ^ 32 : ℕ) := by
  have hbits : (castInt x).toInt =
      (BitVec.ofNat 32 x.toNat).toInt := by
    rw [castInt, Int32.toInt]
    congr 1
  rw [hbits, BitVec.toInt_eq_toNat_cond, BitVec.toNat_ofNat]
  split
  · exact Or.inl ⟨by omega, rfl⟩
  · exact Or.inr ⟨by omega, rfl⟩

/-! ### The loop -/

theorem limitTimeout_limitTimeout (x : UInt64) :
    limitTimeout (limitTimeout x) = limitTimeout x := by
  by_cases hx : x = ~~~0 ∨ castInt x > MAX_TIMEOUT
  · have hlimit : limitTimeout x = 3000 := if_pos hx
    rw [hlimit]
    decide
  · have hlimit : limitTimeout x = x := if_neg hx
    rw [hlimit, hlimit]

/-- A wait that is interrupted is repeated with the same timeout. -/
theorem mem_waitTimeouts {timeout : Int32} : ∀ {interrupted : ℕ} {x : UInt64},
    timeout ∈ waitTimeouts x interrupted ↔ timeout = castInt (limitTimeout x)
  | 0, _ => List.mem_singleton
  | interrupted + 1, x => by
    rw [waitTimeouts, List.mem_cons, mem_waitTimeouts, limitTimeout_limitTimeout, or_self]

/-- The limit works for the waits that fit. -/
theorem castInt_limitTimeout (x : UInt64) :
    (0 ≤ (castInt (limitTimeout x)).toInt ∧ (castInt (limitTimeout x)).toInt ≤ 3000 ∧
      (castInt (limitTimeout x)).toInt ≤ x.toNat ∧
      (castInt (limitTimeout x)).toInt = (min x.toNat 3000 : ℕ)) ↔ Fits x.toNat := by
  have hbound := x.toNat_lt
  have hmax : x = ~~~0 ↔ x.toNat = 2 ^ 64 - 1 := UInt64.toNat_inj.symm
  have hgt : castInt x > MAX_TIMEOUT ↔ 3000 < (castInt x).toInt := Int32.lt_iff_toInt_lt
  have hcast := castInt_cases x
  by_cases hx : x = ~~~0 ∨ castInt x > MAX_TIMEOUT
  · have hlimit : (castInt (limitTimeout x)).toInt = 3000 := by
      rw [show limitTimeout x = 3000 from if_pos hx]
      decide
    rw [hmax, hgt] at hx
    rw [hlimit, Fits]
    omega
  · have hlimit : limitTimeout x = x := if_neg hx
    rw [hmax, hgt] at hx
    rw [hlimit, Fits]
    omega

/-- What `stopping` stores in `timeout`. -/
theorem getNextTimer_toNat (timers : TimerManager Cb) (now : UInt64) :
    (timers.getNextTimer now).2.toNat =
      match timers.timers with
      | [] => 2 ^ 64 - 1
      | front :: _ => distance timers now front := by
  rcases hcons : timers.timers with - | ⟨front, rest⟩
  · simp [TimerManager.getNextTimer, hcons]
  · simp only [TimerManager.getNextTimer, hcons, distance, ge_iff_le, UInt64.le_iff_toNat_le]
    split
    · rename_i hdue
      exact (Nat.sub_eq_zero_of_le hdue).symm
    · rename_i hdue
      exact UInt64.toNat_sub_of_le _ _ (UInt64.le_iff_toNat_le.mpr (Nat.le_of_not_le hdue))

theorem eq_waitTimeouts {timers : TimerManager Cb} {now : UInt64} {schedulerStopping : Bool}
    {pendingEventCount : ℤ} {interrupted : ℕ} {timeouts : List Int32}
    (h : idleTimeouts timers now schedulerStopping pendingEventCount interrupted =
      some timeouts) : timeouts = waitTimeouts (timers.getNextTimer now).2 interrupted :=
  (Option.some.inj (Option.ite_none_left_eq_some.mp h).2).symm

/-- **When an idle worker blocks for the right time.** Every timeout passed to `epoll_wait` in a
pass is the time to the next timer or `MAX_TIMEOUT`, whichever is less, exactly if no timer is
pending or the distance of the first one fits. -/
theorem idleTimeouts_iff {timers : TimerManager Cb} {now : UInt64} {schedulerStopping : Bool}
    {pendingEventCount : ℤ} {interrupted : ℕ} {timeouts : List Int32}
    (h : idleTimeouts timers now schedulerStopping pendingEventCount interrupted =
      some timeouts) :
    (∀ timeout ∈ timeouts, 0 ≤ timeout.toInt ∧ timeout.toInt ≤ 3000 ∧
        timeout.toInt ≤ (timers.getNextTimer now).2.toNat ∧
        timeout.toInt = (min (timers.getNextTimer now).2.toNat 3000 : ℕ)) ↔
      ∀ front ∈ timers.timers.head?, Fits (distance timers now front) := by
  rw [eq_waitTimeouts h]
  simp only [mem_waitTimeouts, forall_eq]
  rw [castInt_limitTimeout, getNextTimer_toNat]
  rcases timers.timers with - | ⟨front, rest⟩
  · exact iff_of_true (Or.inr (Or.inr rfl)) fun front hmem => absurd hmem (by simp)
  · simp

/-- A manager with one timer, added with the given period when the clock read `1000`. -/
def oneTimer (ms : UInt64) : TimerManager ℕ :=
  ((TimerManager.make (fun _ => Timer.probe 0 0) 1000).addTimer 16 ms (some 0) false 1000).1

theorem idleTimeouts_iff_oneTimer :
    idleTimeouts (oneTimer 60000) 1000 true 0 1 = some [3000, 3000] ∧
      0 ≤ (3000 : Int32).toInt ∧ (3000 : Int32).toInt ≤ 3000 ∧
      (3000 : Int32).toInt ≤ ((oneTimer 60000).getNextTimer 1000).2.toNat ∧
      (3000 : Int32).toInt = (min ((oneTimer 60000).getNextTimer 1000).2.toNat 3000 : ℕ) :=
  have h : idleTimeouts (oneTimer 60000) 1000 true 0 1 = some [3000, 3000] := by decide
  ⟨h, (idleTimeouts_iff h).mpr (by decide) 3000 (by simp)⟩

/-- **A timer that is due in `2 ^ 31` ms.** The cast makes the wait negative, which passes the
comparison with the limit and makes `epoll_wait` block without one. -/
theorem idle_blocks_forever :
    ((oneTimer 2147483648).getNextTimer 1000).2 = 2147483648 ∧
      idleTimeouts (oneTimer 2147483648) 1000 true 0 0 = some [-2147483648] := by decide

end IOManager

end Wille
