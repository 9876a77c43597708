import Wille.ForMathlib.Container
import Wille.Config.Var
import Wille.Config.Yaml
import Mathlib.Algebra.Ring.Int.Defs

/-!
# Values and texts

The specialisations of `LexicalCast` in `config.h`. A value becomes a text and a text a value. In a
container each element becomes a text of its own, which is loaded as YAML, and the nodes are put
together and printed. The way back loads the text, and prints each node and casts it.

## What the model keeps

* There are four loops: one that puts nodes into a sequence and one that puts them into a map, and
  two that take them out. The twelve specialisations are these with a container each.
* The order in which a loop meets the elements of an unordered container is not specified. So a
  value may have several texts, and `Built.Encodes` is a relation.
* `boost::lexical_cast` between `int` and text is decimal, with an optional sign.

## Main definitions

* `decodeItems`, `sequenceOf`, `decodeEntries`, `mapOf` — the four loops
* `readItems`, `readEntries` — `LexicalCast` from text to a container
* `Listed`, `Keyed` — what the loops that read find in a node
* `Built` — the types that are built from `int` and `std::string`
* `Built.Encodes`, `Built.decode` — `LexicalCast` from and to text
-/

namespace Wille

namespace Config

open Yaml

/-! ### Numbers -/

/-- `boost::lexical_cast<std::string>` of an `int` -/
def intText (i : Int32) : String :=
  match i.toInt with
  | .ofNat n => String.ofList (Nat.toDigits 10 n)
  | .negSucc n => String.ofList ('-' :: Nat.toDigits 10 (n + 1))

/-- Decimal digits, of which there has to be one. -/
def readDigits (cs : List Char) : Option ℕ :=
  if cs ≠ [] ∧ cs.all Char.isDigit then some (Nat.ofDigitChars 10 cs 0) else none

/-- A number with an optional sign. -/
def readSigned : List Char → Option ℤ
  | '-' :: cs => (readDigits cs).map fun n => -(n : ℤ)
  | '+' :: cs => (readDigits cs).map fun n => (n : ℤ)
  | cs => (readDigits cs).map fun n => (n : ℤ)

/-- `boost::lexical_cast<int>` of a text -/
def readInt (text : String) : Option Int32 :=
  (readSigned text.toList).bind fun i =>
    if -2 ^ 31 ≤ i ∧ i < 2 ^ 31 then some (Int32.ofInt i) else none

theorem readDigits_toDigits (n : ℕ) : readDigits (Nat.toDigits 10 n) = some n := by
  have hdigits : (Nat.toDigits 10 n).all Char.isDigit = true :=
    List.all_eq_true.mpr fun c hc => Nat.isDigit_of_mem_toDigits (by decide) (by decide) hc
  rw [readDigits, if_pos ⟨Nat.toDigits_ne_nil, hdigits⟩, Nat.ofDigitChars_ten_toDigits]

theorem readSigned_toDigits (n : ℕ) : readSigned (Nat.toDigits 10 n) = some (n : ℤ) := by
  rw [readSigned.eq_def]
  split
  · rename_i cs heq
    have hsign : ('-' : Char).isDigit = true :=
      Nat.isDigit_of_mem_toDigits (b := 10) (n := n) (by decide) (by decide) (by simp [heq])
    exact absurd hsign (by decide)
  · rename_i cs heq
    have hsign : ('+' : Char).isDigit = true :=
      Nat.isDigit_of_mem_toDigits (b := 10) (n := n) (by decide) (by decide) (by simp [heq])
    exact absurd hsign (by decide)
  · rw [readDigits_toDigits]
    rfl

/-- **A number is read as it was written.** -/
theorem readInt_intText (i : Int32) : readInt (intText i) = some i := by
  have hrange : -2 ^ 31 ≤ i.toInt ∧ i.toInt < 2 ^ 31 := ⟨i.le_toInt, i.toInt_lt⟩
  have hsigned : readSigned (intText i).toList = some i.toInt := by
    rw [intText]
    split
    · rename_i n hn
      rw [String.toList_ofList, hn, readSigned_toDigits]
      rfl
    · rename_i n hn
      rw [String.toList_ofList, hn, readSigned, readDigits_toDigits]
      rfl
  rw [readInt, hsigned, Option.bind_some, if_pos hrange, Int32.ofInt_toInt]

/-! ### The loops -/

section Loops

variable {E T : Type*} (y : YamlCpp)

/-- What `ss << node[i]` leaves in `ss`. -/
def itemText (node : y.Node) (i : ℕ) : Option String :=
  (y.index node i).bind fun item =>
    match item with
    | some n => some (y.emit n)
    | none => y.undefinedText

/-- The loop over `node[0]`, `node[1]` and so on. -/
def decodeItems (cast : String → Option E) (text : String) : Option (List E) :=
  (y.load text).bind fun node =>
    (List.range (y.size node)).mapM fun i => (itemText y node i).bind cast

/-- The loop that pushes back what is loaded of the text of each element. -/
def sequenceOf (texts : List String) : Option String :=
  (texts.mapM y.load).map y.emitSequence

/-- What a loop from `begin()` to `end()` meets: pairs, or in a sequence what is no pair. -/
def entriesOf (node : y.Node) : Option (List (y.Node × y.Node)) :=
  match y.view node with
  | .map entries => some entries
  | .sequence (_ :: _) => none
  | _ => some []

/-- The loop over the entries of a map. -/
def decodeEntries (cast : String → Option T) (text : String) : Option (List (String × T)) :=
  ((y.load text).bind (entriesOf y)).bind fun entries =>
    entries.mapM fun e => (cast (y.emit e.2)).map (y.Scalar e.1, ·)

/-- The loop that stores what is loaded of the text of each value under its key. -/
def mapOf (texts : List (String × String)) : Option String :=
  (texts.mapM fun e => (y.load e.2).map (e.1, ·)).map fun entries => y.emit (y.map entries)

/-- `LexicalCast` to a `std::vector`, `std::list`, `std::set` or `std::unordered_set`. -/
def readItems {C : Type*} (cast : String → Option E) (c : Container E C) (text : String) :
    Option C :=
  (decodeItems y cast text).map c.ofList

/-- `LexicalCast` to a `std::map` or `std::unordered_map` with string keys. -/
def readEntries {C : Type*} (cast : String → Option T) (c : Container (String × T) C)
    (text : String) : Option C :=
  (decodeEntries y cast text).map c.ofList

end Loops

/-! ### What the loops read -/

section Listed

variable {E T : Type*} {y : YamlCpp} {node node' : y.Node} {texts : List String}
  {pairs : List (String × String)}

theorem map_getElem?_range {α : Type*} (l : List α) :
    (List.range l.length).map (fun i => l[i]?) = l.map some := by
  refine List.ext_getElem (by simp) fun i hi hi' => ?_
  rw [List.length_map] at hi'
  simp [hi']

/-- A loop over `node[0]`, `node[1]` and so on meets the items of a sequence. -/
theorem mapM_index_sequence {β : Type*} {items : List y.Node} (h : y.view node = .sequence items)
    (f : Option y.Node → Option β) :
    ((List.range (y.size node)).mapM fun i => (y.index node i).bind f) =
      items.mapM fun n => f (some n) := by
  have hindex : ∀ i, y.index node i = some items[i]? := fun i => by rw [YamlCpp.index, h]
  have hsize : y.size node = items.length := by
    rw [YamlCpp.size, h]
    rfl
  calc
    _ = ((List.range items.length).map fun i => items[i]?).mapM f := by
      rw [hsize, List.mapM_map]
      simp only [hindex, Option.bind_some]
      rfl
    _ = _ := by
      rw [map_getElem?_range, List.mapM_map]
      rfl

variable (y) in
/-- A null node, or a sequence, and its items are printed as these texts. -/
def Listed (node : y.Node) (texts : List String) : Prop :=
  (y.view node = .null ∧ texts = []) ∨ ∃ items, y.view node = .sequence items ∧
    items.map y.emit = texts

variable (y) in
/-- A map whose values are printed as these texts under these keys. -/
def Keyed (node : y.Node) (pairs : List (String × String)) : Prop :=
  ∃ entries, y.view node = .map entries ∧ entries.map (fun e => (y.Scalar e.1, y.emit e.2)) = pairs

theorem Listed.of_same (h : Listed y node texts) (hs : y.Same node node') :
    Listed y node' texts := by
  have hview := hs.view
  obtain ⟨hnull, rfl⟩ | ⟨items, hitems, rfl⟩ := h
  · rw [hnull] at hview
    generalize hc : y.view node' = c at hview
    cases hview
    exact .inl ⟨hc, rfl⟩
  · rw [hitems] at hview
    generalize hc : y.view node' = c at hview
    cases hview with
    | @sequence _ items' hall =>
      exact .inr ⟨items', hc, (Container.map_congr (hall.imp fun _ _ hn => hn.emit_eq)).symm⟩

theorem Keyed.of_same (h : Keyed y node pairs) (hs : y.Same node node') : Keyed y node' pairs := by
  have hview := hs.view
  obtain ⟨entries, hentries, rfl⟩ := h
  rw [hentries] at hview
  generalize hc : y.view node' = c at hview
  cases hview with
  | @map _ entries' hall =>
    refine ⟨entries', hc, (Container.map_congr (hall.imp fun e e' he => ?_)).symm⟩
    rw [YamlCpp.Scalar, YamlCpp.Scalar, he.1, he.2.emit_eq]

/-- Reading the items of a node is reading what is printed of them. -/
theorem decodeItems_of_listed {text : String} (hload : y.load text = some node)
    (h : Listed y node texts) (cast : String → Option E) :
    decodeItems y cast text = texts.mapM cast := by
  rw [decodeItems, hload, Option.bind_some]
  obtain ⟨hnull, rfl⟩ | ⟨items, hitems, rfl⟩ := h
  · rw [YamlCpp.size, hnull]
    rfl
  · simp only [itemText, Option.bind_assoc]
    rw [mapM_index_sequence hitems, List.mapM_map]
    rfl

/-- Reading the entries of a node is reading what is printed of the values. -/
theorem decodeEntries_of_keyed {text : String} (hload : y.load text = some node)
    (h : Keyed y node pairs) (cast : String → Option T) :
    decodeEntries y cast text = pairs.mapM fun e => (cast e.2).map (e.1, ·) := by
  obtain ⟨entries, hentries, rfl⟩ := h
  rw [decodeEntries, hload, Option.bind_some, entriesOf, hentries, Option.bind_some, List.mapM_map]
  rfl

variable (hy : y.LoadsBack)
include hy

/-- What is loaded of the text of a new sequence. -/
theorem listed_of_load {nodes : List y.Node} (hload : y.load (y.emitSequence nodes) = some node) :
    Listed y node (nodes.map y.emit) := by
  rcases nodes with - | ⟨n, nodes⟩
  · obtain ⟨node', hload', hnull⟩ := hy.empty
    obtain rfl := Option.some.inj (hload'.symm.trans hload)
    exact .inl ⟨hnull, rfl⟩
  · obtain ⟨node', hload', hsame⟩ := hy.node (y.sequence (n :: nodes))
    obtain rfl := Option.some.inj (hload'.symm.trans hload)
    exact Listed.of_same (.inr ⟨_, y.view_sequence _ (List.cons_ne_nil n nodes), rfl⟩) hsame

/-- What is loaded of the text of a new map. -/
theorem keyed_of_load {entries : List (String × y.Node)}
    (hload : y.load (y.emit (y.map entries)) = some node) :
    Keyed y node (entries.map fun e => (e.1, y.emit e.2)) := by
  obtain ⟨node', hload', hsame⟩ := hy.node (y.map entries)
  obtain rfl := Option.some.inj (hload'.symm.trans hload)
  refine Keyed.of_same ⟨_, y.view_map entries, ?_⟩ hsame
  simp [Function.comp_def]

/-- Reading the items of what is printed of a node is reading its items. -/
theorem decodeItems_emit (h : Listed y node texts) (cast : String → Option E) :
    decodeItems y cast (y.emit node) = texts.mapM cast := by
  obtain ⟨node', hload, hsame⟩ := hy.node node
  exact decodeItems_of_listed hload (h.of_same hsame) cast

theorem decodeEntries_emit (h : Keyed y node pairs) (cast : String → Option T) :
    decodeEntries y cast (y.emit node) = pairs.mapM fun e => (cast e.2).map (e.1, ·) := by
  obtain ⟨node', hload, hsame⟩ := hy.node node
  exact decodeEntries_of_keyed hload (h.of_same hsame) cast

theorem exists_load_emitSequence (nodes : List y.Node) :
    ∃ node, y.load (y.emitSequence nodes) = some node := by
  rcases nodes with - | ⟨n, nodes⟩
  · exact hy.empty.imp fun _ h => h.1
  · exact (hy.node _).imp fun _ h => h.1

end Listed

/-! ### Types -/

/-- The types that are built from `int` and `std::string`, each with its specialisations of
`LexicalCast`. -/
inductive Built : Type → Type 1 where
  | int : Built Int32
  | string : Built String
  /-- A container that is written as a sequence. -/
  | items {E C : Type} (b : Built E) (c : Container E C) : Built C
  /-- A container of pairs that is written as a map. -/
  | entries {T C : Type} (b : Built T) (c : Container (String × T) C) : Built C

namespace Built

variable {T : Type}

/-- The comparator of a `std::map` with string keys. -/
def keyLess (e e' : String × T) : Bool := e.1 < e'.1

theorem keyLess_strictOrder : OrderedSet.StrictOrder (keyLess (T := T)) where
  irrefl _ := decide_eq_false (String.lt_irrefl _)
  trans _ _ _ h h' := decide_eq_true (String.lt_trans (of_decide_eq_true h) (of_decide_eq_true h'))

/-- `std::vector<T>` -/
def vector (b : Built T) : Built (List T) := .items b .sequence

/-- `std::list<T>` -/
def list (b : Built T) : Built (List T) := .items b .sequence

/-- `std::set<T>`, where `lt` is `operator<`. -/
def set (b : Built T) (lt : T → T → Bool) (ho : OrderedSet.StrictOrder lt) :
    Built {l : List T // OrderedSet.Sorted lt l} := .items b (.ordered lt ho)

/-- `std::unordered_set<T>` -/
def unordered_set [DecidableEq T] (b : Built T) : Built (Finset T) := .items b .finset

/-- `std::map<std::string, T>` -/
def map (b : Built T) : Built {l : List (String × T) // OrderedSet.Sorted keyLess l} :=
  .entries b (.ordered keyLess keyLess_strictOrder)

/-- `std::unordered_map<std::string, T>` -/
def unordered_map (b : Built T) : Built (Container.FiniteMap String T) := .entries b .finiteMap

/-- `LexicalCast<std::string, T>`, or nothing if it throws. -/
def decode (y : YamlCpp) : {T : Type} → Built T → String → Option T
  | _, .int, text => readInt text
  | _, .string, text => some text
  | _, .items b c, text => readItems y (b.decode y) c text
  | _, .entries b c, text => readEntries y (b.decode y) c text

/-- `LexicalCast<T, std::string>` may give this text. -/
def Encodes (y : YamlCpp) : {T : Type} → Built T → T → String → Prop
  | _, .int, i, text => text = intText i
  | _, .string, s, text => text = s
  | _, .items b c, v, text =>
    ∃ l texts, c.Orders v l ∧ List.Forall₂ (b.Encodes y) l texts ∧ sequenceOf y texts = some text
  | _, .entries b c, v, text =>
    ∃ l texts, c.Orders v l ∧
      List.Forall₂ (fun e t => t.1 = e.1 ∧ b.Encodes y e.2 t.2) l texts ∧ mapOf y texts = some text

/-- Every string in the value, which is in a container itself, has `P`. -/
def Inside (P : String → Prop) : {T : Type} → Built T → T → Prop
  | _, .int, _ => True
  | _, .string, s => P s
  | _, .items b c, v => ∀ l, c.Orders v l → ∀ x ∈ l, b.Inside P x
  | _, .entries b c, v => ∀ l, c.Orders v l → ∀ e ∈ l, b.Inside P e.2

/-- Every string that is in a container somewhere in the value has `P`. -/
def Leaves (P : String → Prop) : {T : Type} → Built T → T → Prop
  | _, .int, _ => True
  | _, .string, _ => True
  | _, .items b c, v => (Built.items b c).Inside P v
  | _, .entries b c, v => (Built.entries b c).Inside P v

end Built

end Config

end Wille
