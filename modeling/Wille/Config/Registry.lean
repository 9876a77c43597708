import Wille.Config.Var
import Mathlib.Logic.Function.Basic

/-!
# The registry of config variables

The static functions of `Config` in `config.h` and `config.cpp` that look a variable up by its name
or register it.

## What the model keeps

* A `ConfigVarBase::ptr` is the number of the object in order of creation. An object stays where it
  is when no name leads to it any more: a caller may still hold it.
* `ι` stands for the types variables are made with. `dynamic_pointer_cast` compares them.
* `GetData()` is only ever asked for one name, so the order of the map is left out.
* `Lookup` with a default is cut in two: it looks for the name, and it binds it. Both parts hold
  the lock of `GetMutex()`, but only for reading.

## Main definitions

* `Registry`
* `Registry.LookupBase`, `lookup`, `search`, `insert`
* `Registry.fromString` — through a `ConfigVarBase::ptr`
* `Registry.Polite` — no listener throws anything but a `std::exception`
-/

namespace Wille

namespace Config

variable {ι : Type*}

/-- `GetData()`, and the variables that were ever created. -/
@[ext] structure Registry {ι : Type*} (T : ι → Type*) (ω : Type*) where
  /-- `GetData()` -/
  data : String → Option ℕ
  objects : List (Σ i, ConfigVar (T i) ω)
  /-- A name leads to a variable of that name. -/
  bound : ∀ name p, data name = some p → ∃ o, objects[p]? = some o ∧ o.2.name = name

/-- The characters `Lookup` allows in a name. -/
def nameChars : List Char :=
  "abcdefghikjlmnopqrstuvwxyzABCDEFGHIJKLMNOPQRSTUVWXYZ._0123456789".toList

/-- `name.find_first_not_of(allowed) == std::string::npos` -/
def madeOf (allowed : List Char) (name : String) : Bool := name.toList.all (· ∈ allowed)

/-- What `Lookup` with a default finds. -/
inductive Found where
  /-- A variable of the type that was asked for. -/
  | var (p : ℕ)
  /-- A variable of another type; `Lookup` returns `nullptr`. -/
  | otherType
  /-- Nothing, and the name is not allowed; `Lookup` throws. -/
  | invalid
  /-- Nothing, and the name will be bound. -/
  | nothing
  deriving DecidableEq

namespace Registry

variable {T : ι → Type*} {ω : Type*}

/-- No variable has been registered. -/
def empty : Registry T ω := ⟨fun _ => none, [], fun _ _ h => absurd h (Option.some_ne_none _).symm⟩

/-- `LookupBase` -/
def LookupBase (r : Registry T ω) (name : String) : Option ℕ := r.data name

/-- The variable an object is, for a type. -/
def cast [DecidableEq ι] (r : Registry T ω) (i : ι) (p : ℕ) : Option ℕ :=
  (r.objects[p]?).bind fun o => if o.1 = i then some p else none

/-- `Lookup<T>(name)` -/
def lookup [DecidableEq ι] (r : Registry T ω) (i : ι) (name : String) : Option ℕ :=
  (r.data name).bind (r.cast i)

/-- `Lookup<T>(name, default_value, description)` until it has found a variable or checked the
name. -/
def search [DecidableEq ι] (r : Registry T ω) (i : ι) (name : String) : Found :=
  match r.data name with
  | some _ =>
    match r.lookup i name with
    | some p => .var p
    | none => .otherType
  | none => if madeOf nameChars name then .nothing else .invalid

theorem lookup_eq_some [DecidableEq ι] {r : Registry T ω} {i : ι} {name : String} {p : ℕ}
    (h : r.lookup i name = some p) : r.data name = some p := by
  obtain ⟨q, hq, hcast⟩ := Option.bind_eq_some_iff.mp h
  obtain ⟨o, -, hp⟩ := Option.bind_eq_some_iff.mp hcast
  obtain ⟨-, hp⟩ := Option.ite_none_right_eq_some.mp hp
  exact Option.some.inj hp ▸ hq

theorem data_of_search [DecidableEq ι] {r : Registry T ω} {i : ι} {name : String} {p : ℕ}
    (h : r.search i name = .var p) : r.data name = some p := by
  rw [search] at h
  split at h
  · split at h
    · rename_i q hq
      obtain rfl := Found.var.inj h
      exact lookup_eq_some hq
    · exact Found.noConfusion h
  · split at h <;> exact Found.noConfusion h

/-- Two names do not lead to one object. -/
theorem name_eq {r : Registry T ω} {name name' : String} {p : ℕ} (h : r.data name = some p)
    (h' : r.data name' = some p) : name = name' := by
  obtain ⟨o, ho, hname⟩ := r.bound name p h
  obtain ⟨o', ho', hname'⟩ := r.bound name' p h'
  obtain rfl := Option.some.inj (ho.symm.trans ho')
  exact hname.symm.trans hname'

/-- The rest of `Lookup<T>(name, default_value, description)`. The new variable is the last
object. -/
def insert (r : Registry T ω) (i : ι) (name : String) (default_value : T i) (description : String) :
    Registry T ω where
  data := Function.update r.data name (some r.objects.length)
  objects := r.objects ++ [⟨i, ConfigVar.create name default_value description⟩]
  bound name' p h := by
    rw [Function.update_apply] at h
    split at h
    · rename_i heq
      obtain rfl := Option.some.inj h
      exact ⟨_, List.getElem?_concat_length, heq.symm⟩
    · obtain ⟨o, ho, hname⟩ := r.bound name' p h
      exact ⟨o, by rw [List.getElem?_append_left (List.getElem?_eq_some_iff.mp ho).1, ho], hname⟩

@[simp] theorem insert_data_self (r : Registry T ω) (i : ι) (name : String) (v : T i) (d : String) :
    (r.insert i name v d).data name = some r.objects.length :=
  Function.update_self ..

/-- An object in another state. It keeps its name. -/
def modify (r : Registry T ω) (p : ℕ) (o : Σ i, ConfigVar (T i) ω)
    (hname : ∀ o', r.objects[p]? = some o' → o.2.name = o'.2.name) : Registry T ω where
  data := r.data
  objects := r.objects.set p o
  bound name q hq := by
    obtain ⟨o', ho', hname'⟩ := r.bound name q hq
    rw [List.getElem?_set]
    split
    · rename_i heq
      subst heq
      rw [if_pos (List.getElem?_eq_some_iff.mp ho').1]
      exact ⟨o, rfl, (hname o' ho').trans hname'⟩
    · exact ⟨o', ho', hname'⟩

/-- Listeners throw at most a `std::exception`. -/
def Polite (r : Registry T ω) : Prop :=
  ∀ o ∈ r.objects, ∀ l ∈ o.2.cbs, ∀ old_value new_value w,
    (l.2 old_value new_value w).2 ≠ some .other

section FromString

variable [∀ i, BEq (T i)] (fromStr : ∀ i, String → Option (T i))

/-- `fromString` through a pointer to the base class. -/
def fromString (r : Registry T ω) (p : ℕ) (text : String) (w : ω) :
    Registry T ω × ω × Except Thrown Bool :=
  match h : r.objects[p]? with
  | none => (r, w, .ok false)
  | some ⟨i, var⟩ =>
    let out := var.fromString (fromStr i) text w
    (r.modify p ⟨i, out.1⟩ fun o' ho' => by
      obtain rfl := Option.some.inj (h.symm.trans ho')
      exact var.fromString_name .., out.2)

@[simp] theorem fromString_data (r : Registry T ω) (p : ℕ) (text : String) (w : ω) :
    (r.fromString fromStr p text w).1.data = r.data := by
  rw [fromString]
  split <;> rfl

theorem fromString_eq {r : Registry T ω} {p : ℕ} {i : ι} {var : ConfigVar (T i) ω}
    (h : r.objects[p]? = some ⟨i, var⟩) (text : String) (w : ω) :
    (r.fromString fromStr p text w).1.objects =
        r.objects.set p ⟨i, (var.fromString (fromStr i) text w).1⟩ ∧
      (r.fromString fromStr p text w).2 = (var.fromString (fromStr i) text w).2 := by
  rw [fromString]
  split
  · rename_i hnone
    exact absurd (hnone.symm.trans h) (Option.some_ne_none _).symm
  · rename_i hsome
    obtain ⟨rfl, hvar⟩ := Sigma.mk.inj (Option.some.inj (hsome.symm.trans h))
    obtain rfl := eq_of_heq hvar
    exact ⟨rfl, rfl⟩

theorem fromString_of_none {r : Registry T ω} {p : ℕ} (h : r.objects[p]? = none) (text : String)
    (w : ω) : r.fromString fromStr p text w = (r, w, .ok false) := by
  rw [fromString]
  split
  · rfl
  · rename_i hsome
    exact absurd (h.symm.trans hsome) (Option.some_ne_none _).symm

/-- Other objects stay as they are. -/
theorem fromString_objects_of_ne {r : Registry T ω} {p q : ℕ} (hne : p ≠ q) (text : String)
    (w : ω) : (r.fromString fromStr p text w).1.objects[q]? = r.objects[q]? := by
  rcases hp : r.objects[p]? with - | ⟨i, var⟩
  · rw [fromString_of_none fromStr hp]
  · rw [(fromString_eq fromStr hp text w).1, List.getElem?_set_ne hne]

/-- `fromString` changes no listener. -/
theorem Polite.fromString {r : Registry T ω} (h : r.Polite) (p : ℕ) (text : String) (w : ω) :
    (r.fromString fromStr p text w).1.Polite := by
  rcases hp : r.objects[p]? with - | ⟨i, var⟩
  · rw [fromString_of_none fromStr hp]
    exact h
  · obtain ⟨v, hv⟩ := var.fromString_eq (fromStr i) text w
    intro o ho
    rw [(fromString_eq fromStr hp text w).1, hv] at ho
    rcases List.mem_or_eq_of_mem_set ho with ho | rfl
    · exact h o ho
    · exact h ⟨i, var⟩ (List.mem_of_getElem? hp)

/-- From a polite listener nothing gets through `fromString`. -/
theorem Polite.fromString_ok {r : Registry T ω} (h : r.Polite) (p : ℕ) (text : String) (w : ω) :
    ∃ b, (r.fromString fromStr p text w).2.2 = .ok b := by
  rcases hp : r.objects[p]? with - | ⟨i, var⟩
  · exact ⟨false, by rw [fromString_of_none fromStr hp]⟩
  · rw [(fromString_eq fromStr hp text w).2]
    exact var.fromString_ok (h ⟨i, var⟩ (List.mem_of_getElem? hp)) (fromStr i) text w

/-- A conversion that fails changes nothing. -/
theorem fromString_of_unread {r : Registry T ω} {p : ℕ} {i : ι} {var : ConfigVar (T i) ω}
    (h : r.objects[p]? = some ⟨i, var⟩) {text : String} (hread : fromStr i text = none) (w : ω) :
    r.fromString fromStr p text w = (r, w, .ok false) := by
  have hvar : var.fromString (fromStr i) text w = (var, w, .ok false) := by
    rw [ConfigVar.fromString, hread]
  obtain ⟨hobjects, hrest⟩ := fromString_eq fromStr h text w
  rw [hvar] at hobjects hrest
  refine Prod.ext (Registry.ext (fromString_data fromStr r p text w) ?_) hrest
  obtain ⟨hlt, hget⟩ := List.getElem?_eq_some_iff.mp h
  rw [hobjects, ← hget, List.set_getElem_self]

end FromString

end Registry

end Config

end Wille
