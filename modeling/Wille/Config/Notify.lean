import Wille.ForMathlib.TransitionSystem
import Wille.Config.Var
import Mathlib.Data.Fintype.Basic
import Mathlib.Data.List.Chain

/-!
# What the listeners of a variable hear

Threads call `setValue` and `fromString` on one variable. A call tells the listeners under a
`ReadLock` and assigns under a `WriteLock`, and between the two the old value is still there for
every other call to compare with. Two calls that overlap so tell the listeners of two changes from
one value. An exception out of a listener ends a call between its sections too, with some of the
listeners told of a value that is never assigned.

Apart from these two cases every listener hears an unbroken story, which starts at the value the
variable had and ends at the one it has.

## Main definitions

* `Updates`, `Updates.step` — a variable under calls by several threads
* `Chain` — notifications each of which starts where the one before it ended
* `Updates.Undisturbed` — a call tells the listeners only when no other call has told them and not
  yet assigned, and none of them throws

## Main results

* `Updates.told_twice` — two calls that overlap
* `Updates.told_in_a_chain` — every run of undisturbed calls
* `Updates.not_chain_of_disturbed` — and what the first disturbed one does
-/

namespace Wille

namespace Config

open TransitionSystem

variable {Th T ω : Type*}

/-- Each notification `(old_value, new_value)` starts where the one before it ended, and the first
one at `v`. -/
def Chain (v : T) (heard : List (T × T)) : Prop :=
  ((v, v) :: heard).IsChain fun x y => y.1 = x.2

/-- Where a chain of notifications ends. -/
def lastNew (v : T) (heard : List (T × T)) : T := (((v, v) :: heard).getLast (by simp)).2

instance [DecidableEq T] (v : T) (heard : List (T × T)) : Decidable (Chain v heard) :=
  inferInstanceAs (Decidable (List.IsChain _ _))

@[simp] theorem lastNew_concat (v : T) (heard : List (T × T)) (x : T × T) :
    lastNew v (heard ++ [x]) = x.2 := by
  simp [lastNew]

theorem chain_concat {v : T} {heard : List (T × T)} {x : T × T} :
    Chain v (heard ++ [x]) ↔ Chain v heard ∧ x.1 = lastNew v heard := by
  rw [Chain, ← List.cons_append, List.isChain_append]
  refine and_congr_right fun _ => ?_
  simp [lastNew, List.getLast?_eq_some_getLast]

/-- A variable, and the calls that are under way on it. -/
structure Updates (Th T ω : Type*) where
  var : ConfigVar T ω
  world : ω
  /-- The value of a call that has told the listeners of it and not yet assigned it. -/
  telling : Th → Option T
  /-- What each listener has been told. -/
  heard : ℕ → List (T × T)
  /-- `s_fun_id` -/
  fun_id : ℕ

/-- The sections of the calls. -/
inductive Act (Th T ω : Type*) where
  /-- The first section of `setValue`. -/
  | setValue (th : Th) (v : T)
  /-- The conversion of `fromString`, and the first section of its `setValue`. -/
  | fromString (th : Th) (text : String)
  /-- The second section of either. -/
  | assign (th : Th)
  /-- `addListener`, after `s_fun_id` was raised for `skipped` listeners of other variables. -/
  | addListener (skipped : ℕ) (cb : OnChange T ω)
  | delListener (key : ℕ)

/-- The value a call is made with. -/
def Act.value (fromStr : String → Option T) : Act Th T ω → Option T
  | .setValue _ v => some v
  | .fromString _ text => fromStr text
  | .assign _ | .addListener _ _ | .delListener _ => none

namespace Updates

/-- No call has been made. `s_fun_id` is the last key that was given out. -/
def start (var : ConfigVar T ω) (w : ω) : Updates Th T ω where
  var := var
  world := w
  telling _ := none
  heard _ := []
  fun_id := var.keys.foldr max 0

section Step

variable [DecidableEq Th]

/-- The listeners are told of `v`. The call keeps the value unless one of them has thrown. -/
def told (s : Updates Th T ω) (th : Th) (v : T) (r : Notified ω) : Updates Th T ω :=
  { s with
    world := r.world
    heard := fun key => if key ∈ r.told then s.heard key ++ [(s.var.val, v)] else s.heard key
    telling := if r.thrown.isSome then s.telling else Function.update s.telling th (some v) }

/-- The first section of `setValue`. -/
def tell [BEq T] (s : Updates Th T ω) (th : Th) (v : T) : Updates Th T ω :=
  match s.var.compare v s.world with
  | none => s
  | some r => s.told th v r

/-- One section. -/
def step [BEq T] (fromStr : String → Option T) (s : Updates Th T ω) :
    Act Th T ω → Option (Updates Th T ω)
  | .setValue th v => if (s.telling th).isNone then some (s.tell th v) else none
  | .fromString th text =>
    if (s.telling th).isNone then some (((fromStr text).map (s.tell th)).getD s) else none
  | .assign th =>
    (s.telling th).map fun v =>
      { s with var := s.var.assign v, telling := Function.update s.telling th none }
  | .addListener skipped cb =>
    some { s with
      fun_id := s.fun_id + skipped + 1
      var := s.var.addListener (s.fun_id + skipped + 1) cb }
  | .delListener key => some { s with var := s.var.delListener key }

/-- A call finds a new value only when no other call is between its sections, and then no listener
throws. -/
def Undisturbed [BEq T] (fromStr : String → Option T) (s : Updates Th T ω) (a : Act Th T ω) :
    Prop :=
  ∀ v ∈ a.value fromStr, (v == s.var.val) = false →
    (∀ th, s.telling th = none) ∧ (notify s.var.val v s.var.cbs s.world).thrown = none

instance [BEq T] [DecidableEq T] [Fintype Th] (fromStr : String → Option T) :
    DecidableRel (Undisturbed fromStr : Updates Th T ω → Act Th T ω → Prop) :=
  fun _ a => inferInstanceAs (Decidable (∀ v ∈ a.value fromStr, _))

/-- What a section does. -/
inductive Effect [BEq T] (fromStr : String → Option T) (s : Updates Th T ω) (a : Act Th T ω) :
    Updates Th T ω → Prop
  /-- There is no value, or it is not new. -/
  | same (hold : ∀ v ∈ a.value fromStr, (v == s.var.val) = true) : Effect fromStr s a s
  | told {th : Th} {v : T} (hv : a.value fromStr = some v) (hnew : (v == s.var.val) = false)
      (hfree : s.telling th = none) :
    Effect fromStr s a (s.told th v (notify s.var.val v s.var.cbs s.world))
  | assign {th : Th} {v : T} (ha : a.value fromStr = none) (hv : s.telling th = some v) :
    Effect fromStr s a
      { s with var := s.var.assign v, telling := Function.update s.telling th none }
  /-- Listeners come and go; a new one has a new key. -/
  | listeners {var' : ConfigVar T ω} {n : ℕ} (ha : a.value fromStr = none)
      (hval : var'.val = s.var.val) (hkeys : ∀ k ∈ var'.keys, k ∈ s.var.keys ∨ s.fun_id < k) :
    Effect fromStr s a { s with var := var', fun_id := s.fun_id + n }

variable [BEq T] {fromStr : String → Option T} {s s' : Updates Th T ω}

theorem effect_of_tell {a : Act Th T ω} {th : Th} {v : T} (ha : a.value fromStr = some v)
    (hfree : s.telling th = none) : Effect fromStr s a (s.tell th v) := by
  rw [tell]
  split
  · rename_i hnone
    refine .same fun u hu => ?_
    obtain rfl := Option.some.inj (ha.symm.trans hu)
    simpa [ConfigVar.compare] using hnone
  · rename_i hsome
    obtain ⟨hnew, rfl⟩ := ConfigVar.compare_eq_some.mp hsome
    exact .told ha hnew hfree

theorem effect_of_step {a : Act Th T ω} (hs : step fromStr s a = some s') :
    Effect fromStr s a s' := by
  cases a with
  | setValue th v =>
    obtain ⟨hfree, hs⟩ := Option.ite_none_right_eq_some.mp hs
    obtain rfl := Option.some.inj hs
    exact effect_of_tell rfl (Option.isNone_iff_eq_none.mp hfree)
  | fromString th text =>
    obtain ⟨hfree, hs⟩ := Option.ite_none_right_eq_some.mp hs
    obtain rfl := Option.some.inj hs
    rcases hfrom : fromStr text with - | v
    · exact .same fun u hu => absurd (hfrom.symm.trans hu) (Option.some_ne_none u).symm
    · exact effect_of_tell hfrom (Option.isNone_iff_eq_none.mp hfree)
  | assign th =>
    obtain ⟨v, hv, rfl⟩ := Option.map_eq_some_iff.mp hs
    exact .assign rfl hv
  | addListener skipped cb =>
    obtain rfl := Option.some.inj hs
    refine .listeners (n := skipped + 1) rfl rfl fun k hk => ?_
    rcases ConfigVar.mem_keys_addListener.mp hk with rfl | hk
    · exact Or.inr (by omega)
    · exact Or.inl hk
  | delListener key =>
    obtain rfl := Option.some.inj hs
    exact .listeners (n := 0) rfl rfl fun k hk => Or.inl (ConfigVar.mem_keys_delListener.mp hk).2

end Step

/-! ### Runs -/

/-- What holds while the calls are undisturbed, of a variable that was `var` at the start. -/
structure Kept [BEq T] (var : ConfigVar T ω) (s : Updates Th T ω) : Prop where
  /-- A listener that was not there at the start has a key that is greater than all of those. -/
  fresh : ∀ k ∈ s.var.keys, k ∈ var.keys ∨ ∀ k' ∈ var.keys, k' < k
  ids : ∀ k ∈ var.keys, k ≤ s.fun_id
  /-- At most one call is between its sections, and its value is new. -/
  alone : ∀ th v, s.telling th = some v →
    (v == s.var.val) = false ∧ ∀ th', s.telling th' ≠ none → th' = th
  chain : ∀ k ∈ var.keys, k ∈ s.var.keys → Chain var.val (s.heard k)
  /-- The last thing told is what that call will assign. -/
  ahead : ∀ k ∈ var.keys, k ∈ s.var.keys → ∀ th v, s.telling th = some v →
    lastNew var.val (s.heard k) = v
  settled : ∀ k ∈ var.keys, k ∈ s.var.keys → (∀ th, s.telling th = none) →
    lastNew var.val (s.heard k) = s.var.val

theorem le_foldr_max {k : ℕ} : ∀ {keys : List ℕ}, k ∈ keys → k ≤ keys.foldr max 0
  | k' :: keys, h => by
    rw [List.foldr_cons]
    rcases List.mem_cons.mp h with rfl | h
    · exact Nat.le_max_left _ _
    · exact (le_foldr_max h).trans (Nat.le_max_right _ _)

namespace Kept

variable [DecidableEq Th] [BEq T] {fromStr : String → Option T} {var : ConfigVar T ω}
  {s s' : Updates Th T ω}

omit [DecidableEq Th] in
theorem start (var : ConfigVar T ω) (w : ω) :
    Kept var (Updates.start var w : Updates Th T ω) where
  fresh _ hk := Or.inl hk
  ids _ hk := le_foldr_max hk
  alone _ v h := absurd h (Option.some_ne_none v).symm
  chain _ _ _ := List.isChain_singleton _
  ahead _ _ _ _ v h := absurd h (Option.some_ne_none v).symm
  settled _ _ _ _ := rfl

theorem step (h : Kept var s) {a : Act Th T ω} (hok : Undisturbed fromStr s a)
    (hs : Updates.step fromStr s a = some s') : Kept var s' := by
  cases effect_of_step hs with
  | same => exact h
  | @told th v hv hnew hfree =>
    obtain ⟨hnone, hthrown⟩ := hok v hv hnew
    have htelling : ∀ th' u, (s.told th v (notify s.var.val v s.var.cbs s.world)).telling th' =
        some u → th' = th ∧ u = v := by
      intro th' u hu
      simp only [Updates.told, hthrown, Option.isSome_none, Bool.false_eq_true, if_false,
        Function.update_apply] at hu
      split at hu
      · rename_i hth
        exact ⟨hth, (Option.some.inj hu).symm⟩
      · exact absurd ((hnone th').symm.trans hu) (Option.some_ne_none u).symm
    have hheard : ∀ k ∈ s.var.keys, (s.told th v (notify s.var.val v s.var.cbs s.world)).heard k =
        s.heard k ++ [(s.var.val, v)] := by
      intro k hk
      simp only [Updates.told, notify_told hthrown]
      exact if_pos hk
    refine ⟨h.fresh, h.ids, fun th' u hu => ?_, fun k h0 hk => ?_, fun k h0 hk th' u hu => ?_,
      fun k h0 hk hall => ?_⟩
    · obtain ⟨rfl, rfl⟩ := htelling th' u hu
      refine ⟨hnew, fun th' hth' => ?_⟩
      obtain ⟨u', hu'⟩ := Option.ne_none_iff_exists'.mp hth'
      exact (htelling th' u' hu').1
    · rw [hheard k hk]
      exact chain_concat.mpr ⟨h.chain k h0 hk, (h.settled k h0 hk hnone).symm⟩
    · rw [hheard k hk, lastNew_concat]
      exact (htelling th' u hu).2.symm
    · have := hall th
      simp [Updates.told, hthrown] at this
  | @assign th v ha hv =>
    have hnone : ∀ th', Function.update s.telling th none th' = none := by
      intro th'
      rw [Function.update_apply]
      split
      · rfl
      · rename_i hne
        by_contra hsome
        exact hne ((h.alone th v hv).2 th' hsome)
    exact ⟨h.fresh, h.ids, fun th' u hu => absurd ((hnone th').symm.trans hu)
        (Option.some_ne_none u).symm,
      h.chain, fun k h0 hk th' u hu => absurd ((hnone th').symm.trans hu)
        (Option.some_ne_none u).symm,
      fun k h0 hk _ => h.ahead k h0 hk th v hv⟩
  | @listeners var' n ha hval hkeys =>
    have hold : ∀ k ∈ var.keys, k ∈ var'.keys → k ∈ s.var.keys := by
      intro k h0 hk
      rcases hkeys k hk with hk | hlt
      · exact hk
      · exact absurd (h.ids k h0) (by omega)
    refine ⟨fun k hk => ?_, fun k hk => (h.ids k hk).trans (Nat.le_add_right _ _), ?_,
      fun k h0 hk => h.chain k h0 (hold k h0 hk),
      fun k h0 hk => h.ahead k h0 (hold k h0 hk), ?_⟩
    · rcases hkeys k hk with hk | hlt
      · exact h.fresh k hk
      · exact Or.inr fun k' hk' => (h.ids k' hk').trans_lt hlt
    · simp only [hval]
      exact h.alone
    · simp only [hval]
      exact fun k h0 hk => h.settled k h0 (hold k h0 hk)

theorem of_reachable {w : ω}
    (hr : Reachable (Updates.step fromStr) (Undisturbed fromStr) (Updates.start var w) s) :
    Kept var s :=
  hr.invariant (Kept.start var w) fun _ _ _ h hok hs => h.step hok hs

omit [DecidableEq Th] in
/-- The listener that is told first was there at the start, if any of those is left. -/
theorem first_key (h : Kept var s) (hleft : ∃ k ∈ var.keys, k ∈ s.var.keys) :
    ∃ k keys, s.var.keys = k :: keys ∧ k ∈ var.keys := by
  obtain ⟨k, hk0, hk⟩ := hleft
  rcases hkeys : s.var.keys with - | ⟨k', keys⟩
  · rw [hkeys] at hk
    exact absurd hk List.not_mem_nil
  · refine ⟨k', keys, rfl, ?_⟩
    rcases h.fresh k' (by rw [hkeys]; exact List.mem_cons_self ..) with hk' | hlt
    · exact hk'
    · have hsorted : (k' :: keys).Pairwise (· < ·) := by
        rw [← hkeys, ConfigVar.keys, List.pairwise_map]
        exact s.var.ordered.imp fun h => of_decide_eq_true h
      rw [hkeys] at hk
      rcases List.mem_cons.mp hk with rfl | hk
      · exact hk0
      · exact absurd ((List.pairwise_cons.mp hsorted).1 k hk) (Nat.lt_asymm (hlt k hk0))

end Kept

section Step

variable [DecidableEq Th] [BEq T] {fromStr : String → Option T} {s s' : Updates Th T ω}

/-- **Undisturbed calls tell an unbroken story.** In every run in which a call finds a new value
only when no other call is between its sections, and no listener throws, what a listener is told
starts at the value the variable had, goes on where it ended, and ends at the value the variable
has when no call is under way. -/
theorem told_in_a_chain {var : ConfigVar T ω} {w : ω}
    (hr : Reachable (step fromStr) (Undisturbed fromStr) (start var w) s) {k : ℕ}
    (hstart : k ∈ var.keys) (hkey : k ∈ s.var.keys) :
    Chain var.val (s.heard k) ∧
      ((∀ th, s.telling th = none) → lastNew var.val (s.heard k) = s.var.val) :=
  have h := Kept.of_reachable hr
  ⟨h.chain k hstart hkey, h.settled k hstart hkey⟩

/-- **The first disturbed call breaks it**, for the listener that is told first, if any of those
that were there at the start is left. -/
theorem not_chain_of_disturbed [ReflBEq T] {var : ConfigVar T ω} {w : ω}
    (hr : Reachable (step fromStr) (Undisturbed fromStr) (start var w) s)
    {a : Act Th T ω} (hs : step fromStr s a = some s') (hok : ¬Undisturbed fromStr s a)
    (hleft : ∃ k ∈ var.keys, k ∈ s.var.keys) :
    ∃ k ∈ var.keys, k ∈ s'.var.keys ∧ ¬(Chain var.val (s'.heard k) ∧
      ((∀ th, s'.telling th = none) → lastNew var.val (s'.heard k) = s'.var.val)) := by
  have h := Kept.of_reachable hr
  obtain ⟨k, cbs, hfirst, hk0⟩ := h.first_key hleft
  have hk : k ∈ s.var.keys := by
    rw [hfirst]
    exact List.mem_cons_self ..
  have hne : ∀ v, (v == s.var.val) = false → v ≠ s.var.val := by
    rintro v hv rfl
    rw [BEq.rfl] at hv
    exact Bool.false_ne_true hv.symm
  cases effect_of_step hs with
  | same hold =>
    exact absurd (fun v hv hnew => absurd (hold v hv) (by simp [hnew])) hok
  | assign ha => exact absurd (fun v hv => absurd (ha.symm.trans hv) (by simp)) hok
  | listeners ha => exact absurd (fun v hv => absurd (ha.symm.trans hv) (by simp)) hok
  | @told th v hv hnew hfree =>
    refine ⟨k, hk0, hk, ?_⟩
    rintro ⟨hchain, hlast⟩
    have hheard : (s.told th v (notify s.var.val v s.var.cbs s.world)).heard k =
        s.heard k ++ [(s.var.val, v)] := if_pos (first_told hfirst)
    rw [hheard] at hchain hlast
    have hend : s.var.val = lastNew var.val (s.heard k) := (chain_concat.mp hchain).2
    by_cases hnone : ∀ th, s.telling th = none
    · -- no call is between its sections, so a listener has thrown
      have hthrown : (notify s.var.val v s.var.cbs s.world).thrown ≠ none := by
        intro hthrown
        refine hok fun u hu _ => ?_
        obtain rfl := Option.some.inj (hv.symm.trans hu)
        exact ⟨hnone, hthrown⟩
      have htelling : (s.told th v (notify s.var.val v s.var.cbs s.world)).telling = s.telling :=
        if_pos (Option.isSome_iff_ne_none.mpr hthrown)
      rw [htelling, lastNew_concat] at hlast
      exact hne v hnew (hlast hnone)
    · push Not at hnone
      obtain ⟨th', hth'⟩ := hnone
      obtain ⟨u, hu⟩ := Option.ne_none_iff_exists'.mp hth'
      rw [h.ahead k hk0 hk th' u hu] at hend
      exact hne u (h.alone th' u hu).1 hend.symm

end Step

/-- A listener that does nothing. -/
def silent : OnChange T Unit := fun _ _ w => (w, none)

/-- The variable `system.port` with one listener. -/
def port : ConfigVar ℕ Unit := (ConfigVar.create "system.port" 8080 "").addListener 1 silent

/-- Two threads set it, and each compares before the other assigns. -/
def twiceRun : List (Act Bool ℕ Unit) :=
  [.setValue false 8081, .setValue true 8082, .assign false, .assign true]

/-- **Two changes from one value.** The listener is told of the changes from 8080 to 8081 and from
8080 to 8082. -/
theorem told_twice :
    ¬∀ s : Updates Bool ℕ Unit,
      Reachable (step String.toNat?) anyAction (start port ()) s → Chain 8080 (s.heard 1) := by
  intro h
  have := h _ (reachable_get (by decide : (exec (step String.toNat?) anyAction
    (start port () : Updates Bool ℕ Unit) twiceRun).isSome))
  exact absurd this (by decide)

/-- Three updates, one after the other; the last one is of no new value. -/
def onceRun : List (Act Bool ℕ Unit) :=
  [.setValue false 8081, .assign false, .addListener 0 silent, .setValue true 8082, .assign true,
    .setValue false 8082]

/-- The state they end in. -/
def onceEnd : Updates Bool ℕ Unit :=
  (exec (step String.toNat?) (Undisturbed String.toNat?) (start port ()) onceRun).get (by decide)

theorem told_in_a_chain_onceEnd :
    onceEnd.heard 1 = [(8080, 8081), (8081, 8082)] ∧ onceEnd.heard 2 = [(8081, 8082)] ∧
      lastNew 8080 (onceEnd.heard 1) = onceEnd.var.val :=
  have h := told_in_a_chain (k := 1) (reachable_get (by decide : (exec (step String.toNat?)
    (Undisturbed String.toNat?) (start port () : Updates Bool ℕ Unit) onceRun).isSome))
    (by decide) (by decide)
  ⟨by decide, by decide, h.2 (by decide)⟩

end Updates

end Config

end Wille
