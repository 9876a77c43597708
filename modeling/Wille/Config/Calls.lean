import Wille.Config.Var

/-!
# The calls of the listeners

Which listeners `fromString` calls, and with which values. The listeners of a variable are made to
keep a journal of their calls; `fromString` itself is not changed for it.

Four things can happen. The text has no value, and nothing is done. It has a value that is not new:
`setValue` returns before the loop. A listener throws: the loop ends there, and the value stays. Or
the update takes full effect. Only the last of these calls every listener.

## Main definitions

* `ConfigVar.fromStringOf` — `fromString`, with a conversion that may throw anything
* `OnChange.recorded`, `ConfigVar.recorded` — listeners with a journal
* `Returns` — listeners that are called one after the other, and none of them throws
* `FullEffect`, `NoEffect`, `Refused` — what may come of an update

## Main results

* `notify_recorded` — the journal is what the loop has told
* `notify_cases` — how far the loop comes
* `ConfigVar.fromStringOf_calls` — what comes of an update, in each of the four cases
-/

namespace Wille

namespace Config

variable {T ω : Type*}

/-! ### The journal -/

/-- A call of a listener. -/
structure Notification (T : Type*) where
  key : ℕ
  old_value : T
  new_value : T
  deriving DecidableEq

/-- The listener with this key, which also writes down what it is called with. -/
def OnChange.recorded (key : ℕ) (cb : OnChange T ω) : OnChange T (ω × List (Notification T)) :=
  fun old_value new_value w =>
    let r := cb old_value new_value w.1
    ((r.1, w.2 ++ [⟨key, old_value, new_value⟩]), r.2)

/-- All these listeners keep one journal. -/
def recorded (cbs : List (ℕ × OnChange T ω)) : List (ℕ × OnChange T (ω × List (Notification T))) :=
  cbs.map fun l => (l.1, l.2.recorded l.1)

/-- **The journal** of the loop is what it has told, and otherwise the loop is what it was. -/
theorem notify_recorded (old_value new_value : T) (cbs : List (ℕ × OnChange T ω)) (w : ω)
    (calls : List (Notification T)) :
    let r := notify old_value new_value cbs w
    notify old_value new_value (recorded cbs) (w, calls) =
      ⟨r.told, (r.world, calls ++ r.told.map (⟨·, old_value, new_value⟩)), r.thrown⟩ := by
  induction cbs generalizing w calls with
  | nil => simp [recorded, notify]
  | cons l cbs ih =>
    obtain ⟨key, cb⟩ := l
    rcases hcb : cb old_value new_value w with ⟨w', - | e⟩
    · have := ih w' (calls ++ [⟨key, old_value, new_value⟩])
      simp_all [recorded, notify, OnChange.recorded]
    · simp [recorded, notify, OnChange.recorded, hcb]

/-- Each of these listeners is called in the world the one before it has left, and returns. The last
one leaves `w'`. -/
inductive Returns (old_value new_value : T) : List (ℕ × OnChange T ω) → ω → ω → Prop
  | nil (w : ω) : Returns old_value new_value [] w w
  | cons {l : ℕ × OnChange T ω} {cbs : List (ℕ × OnChange T ω)} {w u w' : ω}
    (h : l.2 old_value new_value w = (u, none)) (hcbs : Returns old_value new_value cbs u w') :
    Returns old_value new_value (l :: cbs) w w'

/-- **The loop** calls the listeners in their order. It ends behind the last one, or at the first
that throws. -/
theorem notify_cases (old_value new_value : T) (cbs : List (ℕ × OnChange T ω)) (w : ω) :
    (∃ w', Returns old_value new_value cbs w w' ∧
      notify old_value new_value cbs w = ⟨cbs.map Prod.fst, w', none⟩) ∨
    ∃ before l after u w' e, cbs = before ++ l :: after ∧
      Returns old_value new_value before w u ∧ l.2 old_value new_value u = (w', some e) ∧
      notify old_value new_value cbs w = ⟨(before ++ [l]).map Prod.fst, w', some e⟩ := by
  induction cbs generalizing w with
  | nil => exact Or.inl ⟨w, .nil w, rfl⟩
  | cons l cbs ih =>
    rcases hcb : l.2 old_value new_value w with ⟨u, - | e⟩
    · rcases ih u with ⟨w', hreturns, heq⟩ | ⟨before, l', after, u', w', e, rfl, hbefore, hl', heq⟩
      · refine Or.inl ⟨w', .cons hcb hreturns, ?_⟩
        simp only [notify, hcb, heq, List.map_cons]
      · refine Or.inr ⟨l :: before, l', after, u', w', e, rfl, .cons hcb hbefore, hl', ?_⟩
        simp only [notify, hcb, heq, List.cons_append, List.map_cons]
    · refine Or.inr ⟨[], l, cbs, w, u, e, rfl, .nil w, hcb, ?_⟩
      simp only [notify, hcb, List.nil_append, List.map_cons, List.map_nil]

namespace ConfigVar

/-- The variable, with a journal of the calls of its listeners. -/
def recorded (var : ConfigVar T ω) : ConfigVar T (ω × List (Notification T)) where
  name := var.name
  description := var.description
  val := var.val
  cbs := Config.recorded var.cbs
  ordered := List.pairwise_map.mpr var.ordered

theorem nodup_keys (var : ConfigVar T ω) : var.keys.Nodup :=
  List.pairwise_map.mpr (var.ordered.imp fun h => Nat.ne_of_lt (of_decide_eq_true h))

/-! ### What comes of an update -/

section Update

variable [BEq T]

/-- What `fromString` makes of an exception: it catches a `std::exception`. -/
def answer : Option Thrown → Except Thrown Bool
  | none => .ok true
  | some .exception => .ok false
  | some .other => .error .other

/-- `fromString`, with a conversion that may throw anything. -/
def fromStringOf (FromStr : String → Except Thrown T) (var : ConfigVar T ω) (text : String)
    (w : ω) : ConfigVar T ω × ω × Except Thrown Bool :=
  let r := match FromStr text with
    | .error e => (var, w, some e)
    | .ok v => var.setValue v w
  (r.1, r.2.1, answer r.2.2)

/-- A conversion that throws nothing but a `std::exception`. -/
theorem fromStringOf_eq (fromStr : String → Option T) (var : ConfigVar T ω) (text : String)
    (w : ω) : var.fromStringOf (fun text => (fromStr text).elim (.error .exception) .ok) text w =
      var.fromString fromStr text w := by
  rw [fromStringOf, fromString]
  rcases fromStr text with - | v
  · rfl
  · simp only [Option.elim_some]
    rcases var.setValue v w with ⟨var', w', - | - | -⟩ <;> rfl

end Update

/-- What `fromString` leaves behind: the variable, the journal, and its answer. -/
abbrev Outcome (T ω : Type*) :=
  ConfigVar T (ω × List (Notification T)) × (ω × List (Notification T)) × Except Thrown Bool

/-- The calls that were made. -/
def Outcome.calls (r : Outcome T ω) : List (Notification T) := r.2.1.2

/-- The value is the new one, and each listener has been called once, with the old value and the
new one. -/
structure FullEffect (var : ConfigVar T ω) (v : T) (r : Outcome T ω) : Prop where
  val : r.1.val = v
  called : ∀ key ∈ var.keys, r.calls.filter (·.key = key) = [⟨key, var.val, v⟩]

/-- The value is the old one, and no listener has been called. -/
structure NoEffect (var : ConfigVar T ω) (r : Outcome T ω) : Prop where
  val : r.1.val = var.val
  calls : r.calls = []

/-- `fromString` has returned `false`, or it lets an exception through. -/
def Refused (r : Outcome T ω) : Prop := r.2.2 = .ok false ∨ ∃ e, r.2.2 = .error e

theorem refused_of_thrown {e : Thrown} {r : Outcome T ω} (h : r.2.2 = answer (some e)) :
    Refused r := by
  cases e with
  | exception => exact Or.inl h
  | other => exact Or.inr ⟨.other, h⟩

section Outcome

variable [BEq T] (FromStr : String → Except Thrown T) (var : ConfigVar T ω) (text : String) (w : ω)

/-- What comes of `fromString` when the journal is empty before it. -/
def outcome : Outcome T ω := var.recorded.fromStringOf FromStr text (w, [])

/-- Either the update takes full effect, or something was thrown and it has no effect. -/
def AllOrNothing : Prop :=
  let r := var.outcome FromStr text w
  (∃ v, FromStr text = .ok v ∧ FullEffect var v r) ∨
    (((∃ e, FromStr text = .error e) ∨
      ∃ v, ∃ l ∈ var.cbs, FromStr text = .ok v ∧ ∃ w', (l.2 var.val v w').2 ≠ none) ∧
      NoEffect var r ∧ Refused r)

variable {FromStr var text w}

/-- The outcome of an update to a value that is not new. -/
theorem outcome_of_eq {v : T} (hv : FromStr text = .ok v) (h : (v == var.val) = true) :
    var.outcome FromStr text w = (var.recorded, (w, []), .ok true) := by
  have : var.recorded.setValue v (w, []) = (var.recorded, (w, []), none) := by
    simp only [setValue, compare]
    rw [if_pos (show (v == var.recorded.val) = true from h)]
  simp only [outcome, fromStringOf, hv, this, answer]

/-- The outcome of an update to a new value. -/
theorem outcome_of_new {v : T} (hv : FromStr text = .ok v) (h : (v == var.val) = false) :
    let r := notify var.val v var.cbs w
    var.outcome FromStr text w =
      (if r.thrown.isSome then var.recorded else var.recorded.assign v,
        (r.world, r.told.map (⟨·, var.val, v⟩)), answer r.thrown) := by
  intro r
  have hnotify : notify var.recorded.val v var.recorded.cbs (w, []) =
      ⟨r.told, (r.world, r.told.map (⟨·, var.val, v⟩)), r.thrown⟩ :=
    notify_recorded var.val v var.cbs w []
  have : var.recorded.setValue v (w, []) =
      (if r.thrown.isSome then var.recorded else var.recorded.assign v,
        (r.world, r.told.map (⟨·, var.val, v⟩)), r.thrown) := by
    simp only [setValue, compare]
    rw [if_neg (by rw [show (v == var.recorded.val) = false from h]; exact Bool.false_ne_true)]
    simp only [hnotify]
  simp only [outcome, fromStringOf, hv, this]

/-- If every listener returns, the update takes full effect. -/
theorem fullEffect_of_new {v : T} (hv : FromStr text = .ok v) (h : (v == var.val) = false) {w' : ω}
    (hloop : notify var.val v var.cbs w = ⟨var.keys, w', none⟩) :
    let r := var.outcome FromStr text w
    FullEffect var v r ∧ r.2.1.1 = w' ∧ r.2.2 = .ok true := by
  intro r
  have houtcome : r = (var.recorded.assign v, (w', var.keys.map (⟨·, var.val, v⟩)), .ok true) := by
    simp only [r, outcome_of_new hv h, hloop]
    rfl
  rw [houtcome]
  refine ⟨⟨rfl, fun key hkey => ?_⟩, rfl, rfl⟩
  have honce : var.keys.filter (fun k => decide (k = key)) = [key] := by
    rw [List.filter_eq, List.count_eq_one_of_mem var.nodup_keys hkey]
    rfl
  simp only [Outcome.calls, List.filter_map, Function.comp_def, honce, List.map_cons, List.map_nil]

/-- If a listener throws, the value stays. The listener is the last one that was called, and no
listener was called twice. -/
theorem refused_of_new {v : T} (hv : FromStr text = .ok v) (h : (v == var.val) = false)
    {before after : List (ℕ × OnChange T ω)} {l : ℕ × OnChange T ω} {w' : ω} {e : Thrown}
    (hcbs : var.cbs = before ++ l :: after)
    (hloop : notify var.val v var.cbs w = ⟨(before ++ [l]).map Prod.fst, w', some e⟩) :
    let r := var.outcome FromStr text w
    r.1.val = var.val ∧ Refused r ∧ r.calls = (before ++ [l]).map (⟨·.1, var.val, v⟩) ∧
      r.calls.Pairwise (·.key < ·.key) := by
  intro r
  have houtcome : r = (var.recorded,
      (w', ((before ++ [l]).map Prod.fst).map (⟨·, var.val, v⟩)), answer (some e)) := by
    simp only [r, outcome_of_new hv h, hloop]
    rfl
  have hcalls : r.calls = (before ++ [l]).map (⟨·.1, var.val, v⟩) := by
    rw [houtcome, Outcome.calls, List.map_map]
    rfl
  have hordered : (before ++ [l]).Pairwise fun l l' => keyLt l l' := by
    refine var.ordered.sublist (List.IsPrefix.sublist ⟨after, ?_⟩)
    rw [hcbs, List.append_assoc, List.singleton_append]
  refine ⟨by rw [houtcome]; rfl, refused_of_thrown (by rw [houtcome]), hcalls, ?_⟩
  rw [hcalls, List.pairwise_map]
  exact hordered.imp of_decide_eq_true

/-- **What comes of an update.** A new value takes full effect if every listener returns when it is
told. For a value that is not new `setValue` returns at once, and nothing is done. If the conversion
throws, nothing is done either. If a listener throws, the value stays: those in front of it have
returned, and nobody behind it is called. -/
theorem fromStringOf_calls (FromStr : String → Except Thrown T) (var : ConfigVar T ω)
    (text : String) (w : ω) :
    let r := var.outcome FromStr text w
    (∃ v w', FromStr text = .ok v ∧ (v == var.val) = false ∧ Returns var.val v var.cbs w w' ∧
      FullEffect var v r ∧ r.2.1.1 = w' ∧ r.2.2 = .ok true) ∨
    (∃ v, FromStr text = .ok v ∧ (v == var.val) = true ∧ NoEffect var r ∧ r.2.2 = .ok true) ∨
    (∃ e, FromStr text = .error e ∧ NoEffect var r ∧ Refused r) ∨
    ∃ v before l after u w' e, FromStr text = .ok v ∧ (v == var.val) = false ∧
      var.cbs = before ++ l :: after ∧ Returns var.val v before w u ∧
      l.2 var.val v u = (w', some e) ∧ r.1.val = var.val ∧ Refused r ∧
      r.calls = (before ++ [l]).map (⟨·.1, var.val, v⟩) ∧
      r.calls.Pairwise (·.key < ·.key) := by
  intro r
  rcases hv : FromStr text with e | v
  · have houtcome : r = (var.recorded, (w, []), answer (some e)) := by
      simp only [r, outcome, fromStringOf, hv]
    refine Or.inr (Or.inr (Or.inl ⟨e, rfl, ⟨?_, ?_⟩, refused_of_thrown (by rw [houtcome])⟩)) <;>
      rw [houtcome] <;> rfl
  · cases h : v == var.val with
    | true =>
      have houtcome : r = (var.recorded, (w, []), .ok true) := outcome_of_eq hv h
      refine Or.inr (Or.inl ⟨v, rfl, h, ⟨?_, ?_⟩, ?_⟩) <;> rw [houtcome] <;> rfl
    | false =>
      rcases notify_cases var.val v var.cbs w with
        ⟨w', hreturns, hloop⟩ | ⟨before, l, after, u, w', e, hcbs, hbefore, hthrows, hloop⟩
      · exact Or.inl ⟨v, w', rfl, h, hreturns, fullEffect_of_new hv h hloop⟩
      · exact Or.inr (Or.inr (Or.inr ⟨v, before, l, after, u, w', e, rfl, h, hcbs, hbefore, hthrows,
          refused_of_new hv h hcbs hloop⟩))

/-- A variable with a port, and one listener. -/
def samplePort : ConfigVar ℕ Unit :=
  (create "system.port" 8080 "system port").addListener 1 fun _ _ w => (w, none)

/-- The text is the port that the variable has. The update succeeds, and the listener has not been
called. -/
theorem not_allOrNothing_of_eq : ¬samplePort.AllOrNothing (fun _ => .ok 8080) "8080" () := by
  have hanswer : (samplePort.outcome (fun _ => .ok 8080) "8080" ()).2.2 = .ok true := rfl
  rintro (⟨v, hv, -, hcalled⟩ | ⟨-, -, hrefused | ⟨e, hrefused⟩⟩)
  · obtain rfl := Except.ok.inj hv
    exact absurd (hcalled 1 (by decide)) (by decide)
  · exact absurd (hanswer.symm.trans hrefused) (by decide)
  · exact absurd (hanswer.symm.trans hrefused) (by simp)

end Outcome

end ConfigVar

end Config

end Wille
