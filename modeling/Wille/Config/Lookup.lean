import Wille.ForMathlib.TransitionSystem
import Wille.Config.Registry

/-!
# Looking up and registering by several threads

`Lookup` with a default searches the registry and, when the name is not there, binds it to a new
variable. Both happen under a lock that is shared by readers, so other calls come in between. Two
calls for one name that have both searched in vain bind it twice: the second binding replaces the
first, and whoever holds the first variable never sees an update again.

As long as a call that goes on to bind a name still finds it unbound, there is one variable to a
name, for everybody and for good.

## Main definitions

* `Lookups`, `Lookups.step` — the registry under calls by several threads
* `Lookups.StillUnbound` — a name is unbound when it is bound

## Main results

* `Lookups.bound_twice` — two calls that have both searched in vain
* `Lookups.one_variable` — every run in which names are bound once
-/

namespace Wille

namespace Config

open TransitionSystem

variable {ι Th ω : Type*} {T : ι → Type*}

/-- The arguments of a `Lookup<T>(name, default_value, description)`. -/
structure Request {ι : Type*} (T : ι → Type*) where
  type : ι
  name : String
  default_value : T type
  description : String

/-- The registry, and the calls that are under way. -/
structure Lookups {ι : Type*} (Th : Type*) (T : ι → Type*) (ω : Type*) where
  registry : Registry T ω
  /-- A call that has searched in vain. -/
  searched : Th → Option (Request T)
  /-- The variables that calls have returned, with what they were asked for. -/
  returned : List (String × ι × ℕ)

/-- A part of a call. -/
inductive Lookups.Act {ι : Type*} (Th : Type*) (T : ι → Type*) (ω : Type*) where
  | search (th : Th) (request : Request T)
  | insert (th : Th)
  /-- Somebody calls `fromString` on an object, such as `LoadFromYaml`. -/
  | fromString (p : ℕ) (text : String) (w : ω)

namespace Lookups

/-- No call has been made. -/
def start (registry : Registry T ω) : Lookups Th T ω := ⟨registry, fun _ => none, []⟩

variable [DecidableEq Th] [DecidableEq ι] [∀ i, BEq (T i)]

/-- One part of a call. -/
def step (fromStr : ∀ i, String → Option (T i)) (s : Lookups Th T ω) :
    Act Th T ω → Option (Lookups Th T ω)
  | .search th request =>
    if (s.searched th).isNone then
      some <| match s.registry.search request.type request.name with
        | .var p => { s with returned := (request.name, request.type, p) :: s.returned }
        | .otherType | .invalid => s
        | .nothing => { s with searched := Function.update s.searched th (some request) }
    else none
  | .insert th =>
    (s.searched th).map fun request =>
      { registry := s.registry.insert request.type request.name request.default_value
          request.description
        searched := Function.update s.searched th none
        returned := (request.name, request.type, s.registry.objects.length) :: s.returned }
  | .fromString p text w => some { s with registry := (s.registry.fromString fromStr p text w).1 }

omit [DecidableEq Th] [DecidableEq ι] [∀ i, BEq (T i)] in
/-- The name that a call is about to bind is not bound. -/
def StillUnbound (s : Lookups Th T ω) : Act Th T ω → Prop
  | .insert th => ∀ request ∈ s.searched th, s.registry.data request.name = none
  | _ => True

instance : DecidableRel (StillUnbound : Lookups Th T ω → Act Th T ω → Prop) := fun s a =>
  match a with
  | .insert th => inferInstanceAs (Decidable (∀ request ∈ s.searched th, _))
  | .search .. | .fromString .. => instDecidableTrue

variable {fromStr : ∀ i, String → Option (T i)} {s s' : Lookups Th T ω}

/-- A part of a call binds no name, or one that a call has searched in vain, to the next object. -/
theorem data_of_step {a : Act Th T ω} (hs : step fromStr s a = some s') :
    (s'.registry.data = s.registry.data ∧
      ∀ x ∈ s'.returned, x ∈ s.returned ∨ s.registry.data x.1 = some x.2.2) ∨
    ∃ th request, a = .insert th ∧ s.searched th = some request ∧
      s'.registry.data =
        Function.update s.registry.data request.name (some s.registry.objects.length) ∧
      s'.returned = (request.name, request.type, s.registry.objects.length) :: s.returned := by
  cases a with
  | search th request =>
    obtain ⟨-, hs⟩ := Option.ite_none_right_eq_some.mp hs
    obtain rfl := Option.some.inj hs
    left
    split
    · rename_i p hp
      refine ⟨rfl, fun x hx => ?_⟩
      rcases List.mem_cons.mp hx with rfl | hx
      · exact Or.inr (Registry.data_of_search hp)
      · exact Or.inl hx
    all_goals exact ⟨rfl, fun x hx => Or.inl hx⟩
  | insert th =>
    obtain ⟨request, hsearched, rfl⟩ := Option.map_eq_some_iff.mp hs
    exact Or.inr ⟨th, request, rfl, hsearched, rfl, rfl⟩
  | fromString p text w =>
    obtain rfl := Option.some.inj hs
    exact Or.inl ⟨Registry.fromString_data .., fun x hx => Or.inl hx⟩

/-- Binding an unbound name leaves every bound name as it is. -/
theorem bound_of_step {a : Act Th T ω} (hok : s.StillUnbound a) (hs : step fromStr s a = some s')
    {name : String} {p : ℕ} (h : s.registry.data name = some p) :
    s'.registry.data name = some p := by
  rcases data_of_step hs with ⟨hdata, -⟩ | ⟨th, request, rfl, hsearched, hdata, -⟩
  · rw [hdata, h]
  · have hne : name ≠ request.name := by
      rintro rfl
      exact absurd (h.symm.trans (hok request hsearched)) (Option.some_ne_none p)
    rw [hdata, Function.update_of_ne hne, h]

/-- Binding a bound name takes it away from the variable that had it. -/
theorem rebound_of_step {a : Act Th T ω} (hok : ¬s.StillUnbound a)
    (hs : step fromStr s a = some s') :
    ∃ name p, s.registry.data name = some p ∧ s'.registry.data name ≠ some p := by
  cases a with
  | search th request => exact absurd trivial hok
  | fromString p text w => exact absurd trivial hok
  | insert th =>
    obtain ⟨request, hsearched, rfl⟩ := Option.map_eq_some_iff.mp hs
    simp only [StillUnbound, hsearched, Option.mem_def, Option.some.injEq, forall_eq'] at hok
    obtain ⟨p, hp⟩ := Option.ne_none_iff_exists'.mp hok
    refine ⟨request.name, p, hp, ?_⟩
    obtain ⟨o, ho, -⟩ := s.registry.bound _ _ hp
    rw [Registry.insert_data_self]
    rintro heq
    obtain rfl := Option.some.inj heq
    exact absurd (List.getElem?_eq_some_iff.mp ho).1 (Nat.lt_irrefl _)

/-- **One variable to a name.** In every run in which a name that is about to be bound is unbound,
all calls for one name that return a variable return the same one, and `LookupBase` leads to it;
a bound name stays bound to its variable for the rest of the run. The first call that binds a name
that is bound already takes it away from a variable. -/
theorem one_variable {registry : Registry T ω}
    (hr : Reachable (step fromStr) StillUnbound (start registry) s) :
    (∀ name i p, (name, i, p) ∈ s.returned → s.registry.LookupBase name = some p) ∧
      (∀ name i j p q, (name, i, p) ∈ s.returned → (name, j, q) ∈ s.returned → p = q) ∧
      (∀ s', Reachable (step fromStr) StillUnbound s s' → ∀ name p,
        s.registry.LookupBase name = some p → s'.registry.LookupBase name = some p) ∧
      ∀ a s', step fromStr s a = some s' → ¬s.StillUnbound a →
        ∃ name p, s.registry.LookupBase name = some p ∧ s'.registry.LookupBase name ≠ some p := by
  have hreturned : ∀ x ∈ s.returned, s.registry.data x.1 = some x.2.2 := by
    refine hr.invariant (P := fun s => ∀ x ∈ s.returned, s.registry.data x.1 = some x.2.2)
      (fun x hx => absurd hx List.not_mem_nil) ?_
    intro u a v hu hok hs x hx
    rcases data_of_step hs with ⟨hdata, hmem⟩ | ⟨th, request, rfl, hsearched, hdata, hmem⟩
    · rw [hdata]
      rcases hmem x hx with hx | hx
      · exact hu x hx
      · exact hx
    · rw [hmem] at hx
      rcases List.mem_cons.mp hx with rfl | hx
      · rw [hdata, Function.update_self]
      · exact bound_of_step hok hs (hu x hx)
  refine ⟨fun name i p hp => hreturned _ hp, fun name i j p q hp hq => ?_, fun s' hr' name p => ?_,
    fun a s' hs hok => rebound_of_step hok hs⟩
  · exact Option.some.inj ((hreturned _ hp).symm.trans (hreturned _ hq))
  · exact fun h => hr'.invariant (P := fun s => s.registry.data name = some p) h
      fun u a v hu hok hs => bound_of_step hok hs hu

/-- An unsigned type and `std::string`. -/
abbrev IntOrString (i : Bool) : Type := if i then String else ℕ

instance : ∀ i, BEq (IntOrString i)
  | true => inferInstanceAs (BEq String)
  | false => inferInstanceAs (BEq ℕ)

/-- No text is converted in the runs below. -/
def unread (i : Bool) (_ : String) : Option (IntOrString i) := none

/-- A request for `system.port` as a number. -/
def port : Request IntOrString := ⟨false, "system.port", (8080 : ℕ), "system port"⟩

/-- A request for it as a `std::string`. -/
def portName : Request IntOrString := ⟨true, "system.port", "8080", "system port"⟩

/-- Two threads search for it before either binds it. -/
def twiceRun : List (Act Bool IntOrString Unit) :=
  [.search false port, .search true port, .insert false, .insert true]

/-- **A name is bound twice.** The two calls return different variables. -/
theorem bound_twice :
    ¬∀ s : Lookups Bool IntOrString Unit,
      Reachable (step unread) anyAction (start Registry.empty) s →
        ∀ name i p q, (name, i, p) ∈ s.returned → (name, i, q) ∈ s.returned → p = q := by
  intro h
  have := h _ (reachable_get (by decide : (exec (step unread) anyAction
    (start Registry.empty : Lookups Bool IntOrString Unit) twiceRun).isSome))
    "system.port" false 0 1 (by decide) (by decide)
  exact absurd this (by decide)

/-- The name is bound when the second thread searches for it, first as another type. -/
def onceRun : List (Act Bool IntOrString Unit) :=
  [.search false port, .insert false, .search true portName, .search true port,
    .fromString 0 "80" ()]

/-- The state it ends in. -/
def onceEnd : Lookups Bool IntOrString Unit :=
  (exec (step unread) StillUnbound (start Registry.empty) onceRun).get (by decide)

theorem one_variable_onceEnd :
    onceEnd.returned = [("system.port", false, 0), ("system.port", false, 0)] ∧
      onceEnd.registry.LookupBase "system.port" = some 0 :=
  have h := one_variable (reachable_get (by decide : (exec (step unread) StillUnbound
    (start Registry.empty : Lookups Bool IntOrString Unit) onceRun).isSome))
  ⟨by decide, h.1 "system.port" false 0 (by decide)⟩

end Lookups

end Config

end Wille
