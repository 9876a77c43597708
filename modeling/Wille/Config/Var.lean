import Wille.ForMathlib.OrderedSet

/-!
# Config variables

`ConfigVar` of `config.h`. A variable holds a value and the listeners that are to be told of a new
one. `setValue` compares and calls the listeners under a `ReadLock`, and assigns under a
`WriteLock`. Here are the two sections, and what they make of a call that nothing comes between.

## What the model keeps

* `m_cbs` is a `std::map`: the listeners in the order of their keys, no key twice.
* A listener may do anything to a world `ω` of its own and may throw. What it throws is a
  `std::exception`, which `fromString` catches, or something else.
* `FromStr` is a function that gives no value where the code throws.
* The value type has whatever `operator==` it has: nothing is assumed of `BEq`.

## Main definitions

* `ConfigVar`, `OnChange`, `notify`
* `ConfigVar.compare`, `assign` — the two sections of `setValue`
* `ConfigVar.setValue`, `fromString`, `addListener`, `delListener`

## Main results

* `notify_told` — without an exception every listener is told
* `ConfigVar.fromString_cases` — everything that `fromString` can do
-/

namespace Wille

namespace Config

/-- What a listener throws. -/
inductive Thrown where
  /-- A `std::exception`. -/
  | exception
  | other
  deriving DecidableEq

/-- A listener `on_change_cb`, given the old value and the new one. -/
abbrev OnChange (T ω : Type*) := T → T → ω → ω × Option Thrown

/-- What a loop over listeners comes to. -/
structure Notified (ω : Type*) where
  /-- The keys of the listeners that were called, in this order. -/
  told : List ℕ
  world : ω
  /-- What the last one of them threw. -/
  thrown : Option Thrown

variable {T ω : Type*}

/-- The loop of `setValue` over `m_cbs`. -/
def notify (old_value new_value : T) : List (ℕ × OnChange T ω) → ω → Notified ω
  | [], w => ⟨[], w, none⟩
  | (key, cb) :: cbs, w =>
    match cb old_value new_value w with
    | (w', some e) => ⟨[key], w', some e⟩
    | (w', none) =>
      let r := notify old_value new_value cbs w'
      { r with told := key :: r.told }

/-- Without an exception every listener is told, in the order of the keys. -/
theorem notify_told {old_value new_value : T} {cbs : List (ℕ × OnChange T ω)} {w : ω}
    (h : (notify old_value new_value cbs w).thrown = none) :
    (notify old_value new_value cbs w).told = cbs.map Prod.fst := by
  induction cbs generalizing w with
  | nil => rfl
  | cons l cbs ih =>
    obtain ⟨key, cb⟩ := l
    rw [notify] at h ⊢
    split at h
    · exact absurd h (Option.some_ne_none _)
    · rename_i w' heq
      simp only [List.map_cons]
      rw [ih h]

/-- The loop throws only what a listener throws. -/
theorem notify_thrown {old_value new_value : T} {cbs : List (ℕ × OnChange T ω)} {w : ω}
    {e : Thrown} (h : ∀ l ∈ cbs, ∀ w, (l.2 old_value new_value w).2 ≠ some e) :
    (notify old_value new_value cbs w).thrown ≠ some e := by
  induction cbs generalizing w with
  | nil => exact (Option.some_ne_none e).symm
  | cons l cbs ih =>
    rw [notify]
    split
    · rename_i w' e' heq
      have := h l (List.mem_cons_self ..) w
      rwa [heq] at this
    · exact ih fun l' hl' => h l' (List.mem_cons_of_mem l hl')

/-- The first listener is always told. -/
theorem first_told {old_value new_value : T} {cbs : List (ℕ × OnChange T ω)} {w : ω} {key : ℕ}
    {keys : List ℕ} (h : cbs.map Prod.fst = key :: keys) :
    key ∈ (notify old_value new_value cbs w).told := by
  obtain ⟨l, cbs, rfl, rfl, -⟩ := List.map_eq_cons_iff.mp h
  rw [notify]
  split <;> exact List.mem_cons_self ..

/-- The comparator of `m_cbs`. -/
def keyLt (l l' : ℕ × OnChange T ω) : Bool := l.1 < l'.1

theorem keyLt_strictOrder : OrderedSet.StrictOrder (keyLt (T := T) (ω := ω)) where
  irrefl _ := decide_eq_false (Nat.lt_irrefl _)
  trans _ _ _ h h' := decide_eq_true (Nat.lt_trans (of_decide_eq_true h) (of_decide_eq_true h'))

/-- A `ConfigVar`. -/
structure ConfigVar (T ω : Type*) where
  /-- `m_name` -/
  name : String
  /-- `m_description` -/
  description : String
  /-- `m_val` -/
  val : T
  /-- `m_cbs` -/
  cbs : List (ℕ × OnChange T ω)
  /-- `m_cbs` is ordered by its keys. -/
  ordered : OrderedSet.Sorted keyLt cbs

namespace ConfigVar

/-- The keys of the listeners. -/
def keys (var : ConfigVar T ω) : List ℕ := var.cbs.map Prod.fst

/-- A new variable. -/
def create (name : String) (default_value : T) (description : String) : ConfigVar T ω :=
  ⟨name, description, default_value, [], List.Pairwise.nil⟩

/-- The section of `addListener` with the key it has drawn from `s_fun_id`. -/
def addListener (var : ConfigVar T ω) (key : ℕ) (cb : OnChange T ω) : ConfigVar T ω :=
  { var with
    cbs := OrderedSet.insertOrAssign keyLt (key, cb) var.cbs
    ordered := var.ordered.insertOrAssign keyLt_strictOrder }

/-- `delListener` -/
def delListener (var : ConfigVar T ω) (key : ℕ) : ConfigVar T ω :=
  { var with
    cbs := var.cbs.filter (·.1 ≠ key)
    ordered := var.ordered.sublist List.filter_sublist }

/-- The section of `setValue` under `WriteLock`. -/
def assign (var : ConfigVar T ω) (v : T) : ConfigVar T ω := { var with val := v }

@[simp] theorem assign_assign (var : ConfigVar T ω) (u v : T) :
    (var.assign u).assign v = var.assign v := rfl

@[simp] theorem assign_name (var : ConfigVar T ω) (v : T) : (var.assign v).name = var.name := rfl

theorem mem_keys_addListener {var : ConfigVar T ω} {key k : ℕ} {cb : OnChange T ω} :
    k ∈ (var.addListener key cb).keys ↔ k = key ∨ k ∈ var.keys := by
  simp only [keys, addListener, OrderedSet.insertOrAssign, keyLt, List.map_append, List.mem_append,
    List.map_cons, List.mem_cons, List.mem_map, List.mem_filter, decide_eq_true_eq]
  grind

theorem mem_keys_delListener {var : ConfigVar T ω} {key k : ℕ} :
    k ∈ (var.delListener key).keys ↔ k ≠ key ∧ k ∈ var.keys := by
  simp only [keys, delListener, List.mem_map, List.mem_filter]
  grind

section Compare

variable [BEq T]

/-- The section of `setValue` under `ReadLock`: nothing for a value that is not new, otherwise the
loop over the listeners. -/
def compare (var : ConfigVar T ω) (v : T) (w : ω) : Option (Notified ω) :=
  if v == var.val then none else some (notify var.val v var.cbs w)

theorem compare_eq_some {var : ConfigVar T ω} {v : T} {w : ω} {r : Notified ω} :
    var.compare v w = some r ↔ (v == var.val) = false ∧ notify var.val v var.cbs w = r := by
  rw [compare]
  split <;> simp_all

/-- `setValue`, when nothing comes between its sections. -/
def setValue (var : ConfigVar T ω) (v : T) (w : ω) : ConfigVar T ω × ω × Option Thrown :=
  match var.compare v w with
  | none => (var, w, none)
  | some r => (if r.thrown.isSome then var else var.assign v, r.world, r.thrown)

/-- `fromString`: what it returns, or lets through. -/
def fromString (fromStr : String → Option T) (var : ConfigVar T ω) (text : String) (w : ω) :
    ConfigVar T ω × ω × Except Thrown Bool :=
  match fromStr text with
  | none => (var, w, .ok false)
  | some v =>
    match var.setValue v w with
    | (var', w', none) => (var', w', .ok true)
    | (var', w', some .exception) => (var', w', .ok false)
    | (var', w', some .other) => (var', w', .error .other)

/-- **Everything that `fromString` can do.** The text gives no value, or one that is not new; or a
listener throws, and the value stays; or all are told, and the value is the new one. -/
theorem fromString_cases (fromStr : String → Option T) (var : ConfigVar T ω) (text : String)
    (w : ω) :
    (fromStr text = none ∧ var.fromString fromStr text w = (var, w, .ok false)) ∨
    (∃ v, fromStr text = some v ∧ (v == var.val) = true ∧
      var.fromString fromStr text w = (var, w, .ok true)) ∨
    (∃ v r e, fromStr text = some v ∧ (v == var.val) = false ∧
      notify var.val v var.cbs w = r ∧ r.thrown = some e ∧ var.fromString fromStr text w =
        (var, r.world, if e = .exception then .ok false else .error e)) ∨
    ∃ v r, fromStr text = some v ∧ (v == var.val) = false ∧
      notify var.val v var.cbs w = r ∧ r.thrown = none ∧
        var.fromString fromStr text w = (var.assign v, r.world, .ok true) := by
  rcases hfrom : fromStr text with - | v
  · exact Or.inl ⟨rfl, by rw [fromString, hfrom]⟩
  · refine Or.inr ?_
    cases heq : v == var.val with
    | true => exact Or.inl ⟨v, rfl, heq, by simp [fromString, hfrom, setValue, compare, heq]⟩
    | false =>
      refine Or.inr ?_
      rcases hthrown : (notify var.val v var.cbs w).thrown with - | e
      · exact Or.inr ⟨v, _, rfl, heq, rfl, hthrown,
          by simp [fromString, hfrom, setValue, compare, heq, hthrown]⟩
      · refine Or.inl ⟨v, _, e, rfl, heq, rfl, hthrown, ?_⟩
        cases e <;> simp [fromString, hfrom, setValue, compare, heq, hthrown]

/-- Of the variable itself `fromString` changes nothing but the value. -/
theorem fromString_eq (fromStr : String → Option T) (var : ConfigVar T ω) (text : String) (w : ω) :
    ∃ v, (var.fromString fromStr text w).1 = var.assign v := by
  rcases var.fromString_cases fromStr text w with
    ⟨-, h⟩ | ⟨v, -, -, h⟩ | ⟨v, r, e, -, -, -, -, h⟩ | ⟨v, r, -, -, -, -, h⟩ <;> rw [h]
  exacts [⟨var.val, rfl⟩, ⟨var.val, rfl⟩, ⟨var.val, rfl⟩, ⟨v, rfl⟩]

@[simp] theorem fromString_name (fromStr : String → Option T) (var : ConfigVar T ω) (text : String)
    (w : ω) : (var.fromString fromStr text w).1.name = var.name := by
  obtain ⟨v, h⟩ := var.fromString_eq fromStr text w
  rw [h, assign_name]

/-- If no listener throws anything but a `std::exception`, `fromString` returns. -/
theorem fromString_ok (var : ConfigVar T ω)
    (h : ∀ l ∈ var.cbs, ∀ old_value new_value w, (l.2 old_value new_value w).2 ≠ some .other)
    (fromStr : String → Option T) (text : String) (w : ω) :
    ∃ b, (var.fromString fromStr text w).2.2 = .ok b := by
  rcases var.fromString_cases fromStr text w with
    ⟨-, heq⟩ | ⟨v, -, -, heq⟩ | ⟨v, r, e, -, -, rfl, hthrown, heq⟩ | ⟨v, r, -, -, -, -, heq⟩ <;>
    rw [heq]
  · exact ⟨false, rfl⟩
  · exact ⟨true, rfl⟩
  · cases e with
    | exception => exact ⟨false, rfl⟩
    | other => exact absurd hthrown (notify_thrown fun l hl w => h l hl _ _ w)
  · exact ⟨true, rfl⟩

/-- After an update that succeeded the value is the new one, up to `operator==`, and after one
that did not it is the old one. -/
theorem fromString_val (fromStr : String → Option T) (var : ConfigVar T ω) (text : String) (w : ω) :
    ((var.fromString fromStr text w).2.2 = .ok true ∧
      ∃ v u, (var.fromString fromStr text w).1 = var.assign v ∧ fromStr text = some u ∧
        (v = u ∨ (u == v) = true)) ∨
    ((var.fromString fromStr text w).2.2 ≠ .ok true ∧
      (var.fromString fromStr text w).1 = var) := by
  rcases var.fromString_cases fromStr text w with
    ⟨-, h⟩ | ⟨u, hread, hold, h⟩ | ⟨u, r, e, -, -, -, -, h⟩ | ⟨u, r, hread, -, -, -, h⟩ <;> rw [h]
  · exact Or.inr ⟨by simp, rfl⟩
  · exact Or.inl ⟨rfl, var.val, u, rfl, hread, Or.inr hold⟩
  · refine Or.inr ⟨?_, rfl⟩
    cases e <;> simp
  · exact Or.inl ⟨rfl, u, u, rfl, hread, Or.inl rfl⟩

end Compare

end ConfigVar

end Config

end Wille
