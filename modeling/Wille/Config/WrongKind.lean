import Wille.Config.Calls
import Wille.Config.LexicalCast

/-!
# Texts of the wrong kind

`fromString` of a variable that holds a container, and a text that is no sequence or no map. No
specialisation of `LexicalCast` asks what kind of node it has before it loops. A loop that cannot go
on throws, and then the text is refused. But a loop over a scalar has no turns at all, nor has one
over an empty map or sequence, and a map with the right numbers for keys can be looped over like a
sequence: such texts are accepted, and the first ones make the container empty.

## Main definitions

* `ConfigVar.Refuses` — what is to become of such a text

## Main results

* `ConfigVar.refuses_iff` — a text is refused exactly if it cannot be converted
* `refuses_wrong_kind_iff` — which texts of the wrong kind are refused
-/

namespace Wille

namespace Config

open Yaml

/-! ### What is refused -/

namespace ConfigVar

variable {T ω : Type*} [BEq T] {fromStr : String → Option T} {var : ConfigVar T ω} {text : String}
  {w : ω}

/-- `fromString` has returned `false`, and the text has had no effect. -/
def Refuses (fromStr : String → Option T) (var : ConfigVar T ω) (text : String) (w : ω) : Prop :=
  let r : Outcome T ω := var.recorded.fromString fromStr text (w, [])
  r.2.2 = .ok false ∧ NoEffect var r

/-- **A text is refused exactly if it cannot be converted.** A listener that throws makes
`fromString` return `false` too, but then it was called. -/
theorem refuses_iff : var.Refuses fromStr text w ↔ fromStr text = none := by
  constructor
  · rintro ⟨hfalse, heffect⟩
    by_contra hread
    obtain ⟨v, hv⟩ := Option.ne_none_iff_exists'.mp hread
    rw [← fromStringOf_eq] at hfalse heffect
    let FromStr : String → Except Thrown T := fun text =>
      (fromStr text).elim (.error .exception) .ok
    have hconv : FromStr text = .ok v := congrArg (Option.elim · _ _) hv
    have hnotTrue : (var.outcome FromStr text w).2.2 ≠ .ok true := fun htrue =>
      absurd (hfalse.symm.trans htrue) (by decide)
    cases heq : v == var.val with
    | true => exact hnotTrue (by rw [outcome_of_eq hconv heq])
    | false =>
      rcases notify_cases var.val v var.cbs w with
        ⟨w', -, hloop⟩ | ⟨before, l, after, u, w', e, hcbs, -, -, hloop⟩
      · exact hnotTrue (fullEffect_of_new hconv heq hloop).2.2
      · have hcalls := (refused_of_new hconv heq hcbs hloop).2.2.1
        exact absurd (heffect.calls.symm.trans hcalls) (by simp)
  · intro hread
    have hout : var.recorded.fromString fromStr text (w, []) =
        (var.recorded, (w, []), .ok false) := by
      rw [fromString, hread]
    rw [Refuses, hout]
    exact ⟨rfl, rfl, rfl⟩

end ConfigVar

section WrongKind

variable {E T C D ω : Type*} {y : YamlCpp} {text : String} {root : y.Node}

/-- A turn of the loop over a map as if it were a sequence. -/
theorem itemText_map (hundefined : y.undefinedText = none) (cast : String → Option E)
    {entries : List (y.Node × y.Node)} (h : y.view root = .map entries) (i : ℕ) :
    (itemText y root i).bind cast = none ↔
      ∀ e ∈ entries.find? fun e => y.indexKey (y.Scalar e.1) == some i,
        cast (y.emit e.2) = none := by
  rw [itemText, YamlCpp.index, h]
  simp only [Option.bind_some]
  rcases entries.find? _ with - | e
  · simp [hundefined]
  · simp

/-- Reading a sequence from a text that is none. -/
theorem readItems_eq_none_iff (hundefined : y.undefinedText = none)
    (hload : y.load text = some root) (hnull : y.view root ≠ .null)
    (hsequence : ∀ items, y.view root ≠ .sequence items) (cast : String → Option E)
    (c : Container E C) :
    readItems y cast c text = none ↔
      ∃ entries, y.view root = .map entries ∧ ∃ i < entries.length,
        ∀ e ∈ entries.find? fun e => y.indexKey (y.Scalar e.1) == some i,
          cast (y.emit e.2) = none := by
  rw [readItems, decodeItems, hload, Option.bind_some, Option.map_eq_none_iff,
    Container.mapM_eq_none, YamlCpp.size]
  cases hview : y.view root with
  | null => exact absurd hview hnull
  | sequence items => exact absurd hview (hsequence items)
  | scalar s => simp [Content.size]
  | map entries =>
    simp only [Content.size, List.mem_range, itemText_map hundefined cast hview, Content.map.injEq,
      exists_eq_left']

/-- Reading a map from a text that is none. -/
theorem readEntries_eq_none_iff (hload : y.load text = some root) (hnull : y.view root ≠ .null)
    (hmap : ∀ entries, y.view root ≠ .map entries) (cast : String → Option T)
    (c : Container (String × T) C) :
    readEntries y cast c text = none ↔ ∃ items, y.view root = .sequence items ∧ items ≠ [] := by
  rw [readEntries, decodeEntries, hload, Option.bind_some, entriesOf]
  cases hview : y.view root with
  | null => exact absurd hview hnull
  | map entries => exact absurd hview (hmap entries)
  | scalar s => simp
  | sequence items => rcases items with - | ⟨item, items⟩ <;> simp

/-- **Which texts of the wrong kind are refused.** A variable that is read from a sequence refuses
a map in which some number below the size is no key, or is the key of what the conversion of the
elements does not accept; a variable that is read from a map refuses a sequence that is not empty.
Whatever else is of the wrong kind has an effect, or `fromString` returns `true`. -/
theorem refuses_wrong_kind_iff [BEq C] [BEq D] (hundefined : y.undefinedText = none)
    (hload : y.load text = some root) (hnull : y.view root ≠ .null) (cast : String → Option E)
    (castValue : String → Option T) (c : Container E C) (d : Container (String × T) D) (w : ω) :
    ((∀ items, y.view root ≠ .sequence items) → ∀ var : ConfigVar C ω,
      var.Refuses (readItems y cast c) text w ↔
        ∃ entries, y.view root = .map entries ∧ ∃ i < entries.length,
          ∀ e ∈ entries.find? fun e => y.indexKey (y.Scalar e.1) == some i,
            cast (y.emit e.2) = none) ∧
    ((∀ entries, y.view root ≠ .map entries) → ∀ var : ConfigVar D ω,
      var.Refuses (readEntries y castValue d) text w ↔
        ∃ items, y.view root = .sequence items ∧ items ≠ []) := by
  refine ⟨fun hsequence var => ?_, fun hmap var => ?_⟩ <;> rw [ConfigVar.refuses_iff]
  · exact readItems_eq_none_iff hundefined hload hnull hsequence cast c
  · exact readEntries_eq_none_iff hload hnull hmap castValue d

/-- A map, a sequence and a scalar. -/
def kindTexts : List (String × NodeTree Style) :=
  [("a: 1", lines [("a", plain "1")]), ("- 1", .sequence .block [plain "1"]),
    ("8080", plain "8080")]

/-- A library that knows these texts and throws for an undefined node. -/
noncomputable def kindYaml : YamlCpp :=
  (YamlTable.ofList (fun _ => false) kindTexts (by decide) (by decide)
    YamlTable.plain_of_false).yaml none none fun key => readDigits key.toList

theorem load_kindTexts {e : String × NodeTree Style} (he : e ∈ kindTexts) :
    kindYaml.load e.1 = some e.2 := YamlTable.load_ofList none none _ he

/-- A variable with two numbers. -/
def intVec : ConfigVar (List Int32) Unit := .create "system.int_vec" [1, 2] "system int vec"

/-- A variable with one number, which has a key. -/
def intMap : ConfigVar {l : List (String × Int32) // OrderedSet.Sorted Built.keyLess l} Unit :=
  .create "system.int_map" ⟨[("k", 2)], List.pairwise_singleton _ _⟩ "system int map"

theorem refuses_wrong_kind_iff_intVec :
    intVec.Refuses (readItems kindYaml readInt .sequence) "a: 1" () ∧
      intMap.Refuses (readEntries kindYaml readInt
        (.ordered Built.keyLess Built.keyLess_strictOrder)) "- 1" () := by
  constructor
  · refine ((refuses_wrong_kind_iff rfl (load_kindTexts (.head _)) (by rintro ⟨⟩) readInt readInt
      .sequence (.ordered Built.keyLess Built.keyLess_strictOrder) ()).1 (by rintro _ ⟨⟩)
        intVec).mpr ⟨_, rfl, 0, Nat.zero_lt_one, ?_⟩
    -- `a` is not the number 0
    rintro e ⟨⟩
  · exact ((refuses_wrong_kind_iff rfl (load_kindTexts (.tail _ (.head _))) (by rintro ⟨⟩) readInt
      readInt .sequence (.ordered Built.keyLess Built.keyLess_strictOrder) ()).2 (by rintro _ ⟨⟩)
        intMap).mpr ⟨_, rfl, List.cons_ne_nil _ _⟩

/-- The scalar `8080` makes both empty. -/
theorem scalar_makes_empty :
    intVec.fromString (readItems kindYaml readInt .sequence) "8080" () =
        (intVec.assign [], (), .ok true) ∧
      ¬intVec.Refuses (readItems kindYaml readInt .sequence) "8080" () ∧
      intMap.fromString (readEntries kindYaml readInt
        (.ordered Built.keyLess Built.keyLess_strictOrder)) "8080" () =
          (intMap.assign ⟨[], List.Pairwise.nil⟩, (), .ok true) ∧
      ¬intMap.Refuses (readEntries kindYaml readInt
        (.ordered Built.keyLess Built.keyLess_strictOrder)) "8080" () := by
  have hload := load_kindTexts (.tail _ (.tail _ (.head _)))
  have hvec : readItems kindYaml readInt .sequence "8080" = some [] := by
    rw [readItems, decodeItems, hload]
    rfl
  have hmap : readEntries kindYaml readInt (.ordered Built.keyLess Built.keyLess_strictOrder)
      "8080" = some ⟨[], List.Pairwise.nil⟩ := by
    rw [readEntries, decodeEntries, hload]
    rfl
  refine ⟨?_, ?_, ?_, ?_⟩
  · rw [ConfigVar.fromString, hvec]
    rfl
  · rw [ConfigVar.refuses_iff, hvec]
    exact Option.some_ne_none _
  · rw [ConfigVar.fromString, hmap]
    rfl
  · rw [ConfigVar.refuses_iff, hmap]
    exact Option.some_ne_none _

end WrongKind

end Config

end Wille
