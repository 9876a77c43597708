import Wille.IOManager.Registrations

/-!
# Stale batches

`epoll_wait` returns a batch before the lock of any of its contexts is taken, and the other
operations work in between. `idle` looks at the mask again, but only to see whether *some* reported
direction is still registered: then it triggers every reported direction, registered or not.

So an entry that reports both directions of a context ends the program if one of them was deleted,
cancelled or handled by another thread in the meantime and the other one was not. Nothing else
goes wrong: if every entry is fresh when its turn comes, `idle` triggers registered directions only.

## Main definitions

* `FdContext.Fresh`, `State.Fresh` — no direction is reported that is not registered, or none is

## Main results

* `State.stale_entry_fails` — a run in which `idle` triggers a direction that is not registered
* `State.triggers_registered` — with fresh entries no run does, and every other entry fails
-/

namespace Wille

namespace IOManager

open TransitionSystem

variable {Th Sched Fn Fb : Type*}

instance : Fintype Event := ⟨{.READ, .WRITE}, fun e => by cases e <;> decide⟩

/-- If a reported direction is registered, then all of them are. -/
def FdContext.Fresh (c : FdContext Sched Fn Fb) (reported : BitVec 32) : Prop :=
  c.events &&& Locked.real_events c.events reported = 0 ∨
    ∀ e : Event, Locked.real_events c.events reported &&& e.bit ≠ 0 → c.Registered e

instance (c : FdContext Sched Fn Fb) (reported : BitVec 32) : Decidable (c.Fresh reported) :=
  inferInstanceAs (Decidable (_ ∨ _))

/-- The entry whose turn it is. -/
def Pc.next : Pc Sched Fn Fb → Option (ℕ × BitVec 32)
  | .idling (entry :: _) => some entry
  | _ => none

namespace State

/-- An entry whose turn has come is fresh, unless `epoll_ctl` fails for it. -/
def Fresh (s : State Th Sched Fn Fb) : Act Th Sched Fn Fb → Prop
  | .handle v true => ∀ entry ∈ (s.pc v).next, ∀ c ∈ s.heap[entry.1]?, c.Fresh entry.2
  | _ => True

instance (s : State Th Sched Fn Fb) : (a : Act Th Sched Fn Fb) → Decidable (s.Fresh a)
  | .handle v true => inferInstanceAs
      (Decidable (∀ entry ∈ (s.pc v).next, ∀ c ∈ s.heap[entry.1]?, c.Fresh entry.2))
  | .handle _ false | .addEvent .. | .grow _ | .add _ _ | .delEvent _ _ _ | .del _ _
  | .cancelEvent _ _ _ | .cancel _ _ | .cancelAll _ _ | .cancelBoth _ _ | .wait _ _ =>
    instDecidableTrue

section Step

variable [DecidableEq Th]

/-- `idle` has triggered a direction that is not registered. -/
def StaleFault (s : State Th Sched Fn Fb) : Prop :=
  ∃ v ok, s.stopped = some (.handle v ok, .notRegistered)

omit [DecidableEq Th] in
/-- `idle` goes wrong only at an entry that is not fresh. -/
theorem Fails.not_fresh {s : State Th Sched Fn Fb} {v : Th} {ok : Bool}
    (hf : Fails s (.handle v ok) .notRegistered) : ¬s.Fresh (.handle v ok) := by
  cases hf with
  | @handle _ ptr reported entries c hpc hc hsome e he hnot =>
    intro hfresh
    rcases hfresh (ptr, reported) (by rw [hpc]; rfl) c hc with hnone | hall
    · exact hsome hnone
    · exact hnot (hall e he)

/-- A step that ends the program at an entry is one at an entry that is not fresh. -/
theorem not_fresh_of_staleFault {s s' : State Th Sched Fn Fb} {a : Act Th Sched Fn Fb}
    (hrun : ¬s.StaleFault) (he : Effect s a s') (hf : s'.StaleFault) : ¬s.Fresh a := by
  obtain ⟨v, ok, hstop⟩ := hf
  have hsame : s'.stopped ≠ s.stopped := fun h => hrun ⟨v, ok, h ▸ hstop⟩
  have hlook : ∀ (t : State Th Sched Fn Fb) {u fd p}, t.stopped = s.stopped →
      s' ≠ t.useContext a u fd p := by
    rintro t u fd p ht rfl
    rw [useContext] at hstop hsame
    split at hstop
    · rename_i f hlookup
      obtain rfl : f = .notRegistered := congrArg Prod.snd (Option.some.inj hstop)
      rcases lookup_error hlookup with h | h <;> exact absurd h (by decide)
    · rename_i hlookup
      rw [hlookup] at hsame
      exact hsame ht
  cases he with
  | lookUp ha hpc hsize => exact absurd rfl (hlook s rfl)
  | grow ha hpc => exact absurd rfl (hlook _ rfl)
  | fail hfails =>
    obtain ⟨rfl, rfl⟩ := Prod.ext_iff.mp (Option.some.inj hstop)
    exact Fails.not_fresh hfails
  | reject | short | idle | hand | drop | add => exact absurd rfl hsame

/-- An entry that is not fresh ends the program. -/
theorem stopped_of_not_fresh {s s' : State Th Sched Fn Fb} (b : s.Balanced)
    {a : Act Th Sched Fn Fb} (hfresh : ¬s.Fresh a) (hs : s.step a = some s') :
    s'.StaleFault ∨ ∃ a, s'.stopped = some (a, .nullScheduler) := by
  rw [step, Option.ite_none_left_eq_some] at hs
  obtain ⟨-, hs⟩ := hs
  cases a with
  | handle v ok =>
    cases ok with
    | false => exact absurd trivial hfresh
    | true =>
      simp only [stepRunning] at hs
      split at hs
      · rename_i hpc
        exact absurd (fun x hx => by simp [hpc, Pc.next] at hx) hfresh
      · rename_i ptr reported entries hpc
        obtain ⟨c, hc, rfl⟩ := Option.map_eq_some_iff.mp hs
        have hstale : ¬c.Fresh reported := by
          refine fun h => hfresh fun x hx d hd => ?_
          rw [hpc] at hx
          obtain rfl := Option.some.inj hx
          obtain rfl := Option.some.inj (hc.symm.trans hd)
          exact h
        rcases Locked.idle_cases (s := s.lock c) (b.consistent ptr c hc) reported true with
          ⟨heq, -⟩ | ⟨heq, -⟩ | ⟨l, -, -, hall⟩
        · exact Or.inl ⟨v, true, by simp only [heq]; rfl⟩
        · exact Or.inr ⟨.handle v true, by simp only [heq]; rfl⟩
        · refine absurd ?_ hstale
          by_cases hnone : c.events &&& Locked.real_events c.events reported = 0
          · exact Or.inl hnone
          · exact Or.inr (hall rfl hnone)
      · exact absurd hs (Option.some_ne_none _).symm
  | _ => exact absurd trivial hfresh

/-- **With fresh entries `idle` triggers registered directions only.** In every run in which each
entry is fresh when its turn comes the assertion never fails from `idle` and the counter of pending
events is never negative; and the next entry that is not fresh ends the run, at that assertion or
at the null scheduler of a waiter. -/
theorem triggers_registered {s : State Th Sched Fn Fb} (hr : Reachable step Fresh State.init s) :
    ¬s.StaleFault ∧ 0 ≤ s.pending ∧
      ∀ a s', s.step a = some s' → (s'.StaleFault → ¬s.Fresh a) ∧
        (¬s.Fresh a → s'.StaleFault ∨ ∃ a, s'.stopped = some (a, .nullScheduler)) := by
  have b := Balanced.of_reachable hr
  have hrun : ¬s.StaleFault := by
    refine hr.invariant_of_reachable (P := fun s => ¬s.StaleFault) (J := Balanced)
      (fun u hu => Balanced.of_reachable hu) ?_ ?_
    · rintro ⟨v, ok, h⟩
      exact absurd h (Option.some_ne_none _).symm
    · intro u a v hb hu hok hs hf
      exact not_fresh_of_staleFault hu (effect_of_step hb.consistent hs) hf hok
  refine ⟨hrun, ?_, fun a s' hs => ⟨?_, fun h => stopped_of_not_fresh b h hs⟩⟩
  · rw [b.pending]
    exact Int.natCast_nonneg _
  · exact not_fresh_of_staleFault hrun (effect_of_step b.consistent hs)

end Step

/-- Both directions of a descriptor are registered and reported; one is deleted before the entry's
turn comes. -/
def staleRun : List (Act ℕ ℕ ℕ ℕ) :=
  [.addEvent 0 3 .READ (some 7) (some 9) 5 true, .add 0 true,
    .addEvent 0 3 .WRITE (some 8) (some 9) 5 true, .add 0 true,
    .wait 1 [(3, EPOLLIN ||| EPOLLOUT)], .delEvent 0 3 .WRITE, .del 0 true, .handle 1 true]

/-- **A stale entry.** The assertion of `triggerEvent` fails from `idle`. -/
theorem stale_entry_fails :
    ¬∀ s : State ℕ ℕ ℕ ℕ, Reachable step OnScheduler State.init s → ¬s.StaleFault := by
  intro h
  refine h _ (reachable_get (by decide : (exec step OnScheduler State.init staleRun).isSome))
    ⟨1, true, rfl⟩

/-- Here the second entry is not fresh and nothing of it is registered, so `idle` skips it. -/
def freshRun : List (Act ℕ ℕ ℕ ℕ) :=
  [.addEvent 0 3 .READ (some 7) (some 9) 5 true, .add 0 true,
    .addEvent 0 3 .WRITE (some 8) (some 9) 5 true, .add 0 true,
    .wait 1 [(3, EPOLLIN ||| EPOLLOUT), (3, EPOLLIN)], .handle 1 true, .handle 1 true]

/-- The state it ends in. -/
def freshEnd : State ℕ ℕ ℕ ℕ := (exec step Fresh State.init freshRun).get (by decide)

theorem triggers_registered_freshEnd :
    freshEnd.scheduled.length = 2 ∧ freshEnd.pending = 0 ∧ ¬freshEnd.StaleFault :=
  have hrun := triggers_registered (reachable_get (by decide : (exec step Fresh
    (State.init : State ℕ ℕ ℕ ℕ) freshRun).isSome))
  ⟨by decide, by decide, hrun.1⟩

end State

end IOManager

end Wille
