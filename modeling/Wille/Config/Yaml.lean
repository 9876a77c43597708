import Wille.ForMathlib.Container
import Mathlib.Data.Nat.Pairing
import Mathlib.Logic.Encodable.Basic
import Mathlib.Logic.Equiv.List

/-!
# YAML nodes

The part of yaml-cpp that the config and log code rests on. What the library makes of texts is not
modelled. Nor is what it keeps of a node beside what the node holds, and what is printed depends on
that too: a sequence that was loaded in brackets is printed in brackets. So the nodes are a type of
the library, and what is relied on is a hypothesis where it is used.

Loading what was printed of a node need not give that very node. It gives one that holds the same
and is printed in the same way, and so on for the nodes inside.

## Main definitions

* `Yaml.Content` — what a node holds
* `YamlCpp` — the nodes, how they are made and loaded, and what is printed of them
* `YamlCpp.Same` — nodes that differ in nothing the code can see
* `YamlCpp.LoadsBack`, `Unchanged` — what is relied on, and what is not
* `Yaml.NodeTree` — a finite tree of nodes
* `YamlTable`, `YamlTable.yaml` — a library of which some texts are known
* `YamlTable.ofList` — the table that lists them

## Main results

* `YamlCpp.Same.view` — nodes that are the same hold the same
* `YamlTable.loadsBack` — what is relied on can be had
-/

namespace Wille

namespace Yaml

/-- What a node holds. -/
inductive Content (N : Type*) where
  | null
  | scalar (text : String)
  | sequence (items : List N)
  | map (entries : List (N × N))

namespace Content

variable {N : Type*}

/-- The text of a scalar. -/
def text? : Content N → Option String
  | .scalar text => some text
  | _ => none

/-- `size()` -/
def size : Content N → ℕ
  | .sequence items => items.length
  | .map entries => entries.length
  | _ => 0

/-- What is held is the same, up to a relation between keys and one between other nodes. -/
inductive Rel (K R : N → N → Prop) : Content N → Content N → Prop
  | null : Rel K R .null .null
  | scalar (text : String) : Rel K R (.scalar text) (.scalar text)
  | sequence {items items' : List N} (h : List.Forall₂ R items items') :
    Rel K R (.sequence items) (.sequence items')
  | map {entries entries' : List (N × N)}
    (h : List.Forall₂ (fun e e' => K e.1 e'.1 ∧ R e.2 e'.2) entries entries') :
    Rel K R (.map entries) (.map entries')

variable {K R S : N → N → Prop} {c c' : Content N}

theorem Rel.mono (h : ∀ n n', R n n' → S n n') (hc : Rel K R c c') : Rel K S c c' := by
  cases hc with
  | null => exact .null
  | scalar text => exact .scalar text
  | sequence hitems => exact .sequence (hitems.imp h)
  | map hentries => exact .map (hentries.imp fun _ _ he => ⟨he.1, h _ _ he.2⟩)

theorem Rel.refl (hK : ∀ n, K n n) (hR : ∀ n, R n n) : ∀ c : Content N, Rel K R c c
  | .null => .null
  | .scalar text => .scalar text
  | .sequence _ => .sequence (List.forall₂_same.mpr fun n _ => hR n)
  | .map _ => .map (List.forall₂_same.mpr fun e _ => ⟨hK e.1, hR e.2⟩)

theorem Rel.text?_eq (h : Rel K R c c') : c.text? = c'.text? := by
  cases h <;> rfl

theorem Rel.size_eq (h : Rel K R c c') : c.size = c'.size := by
  cases h with
  | null => rfl
  | scalar => rfl
  | sequence hitems => exact hitems.length_eq
  | map hentries => exact hentries.length_eq

end Content

end Yaml

/-- yaml-cpp. -/
structure YamlCpp where
  /-- A `YAML::Node` that stands for something, with all that the library keeps of it. -/
  Node : Type
  /-- What the node holds. -/
  view : Node → Yaml.Content Node
  /-- `YAML::Load`, or nothing if it throws. -/
  load : String → Option Node
  /-- What `<<` prints of a node. -/
  emit : Node → String
  /-- `Node(text)` -/
  scalar : String → Node
  /-- A new node to which these were pushed back. -/
  sequence : List Node → Node
  /-- A new map with these values under these keys, each of which the code sets once. -/
  map : List (String × Node) → Node
  /-- What `<<` prints of a new node to which nothing was pushed back. -/
  emptyText : String
  /-- What `<<` prints of an undefined node, if it does not throw. -/
  undefinedText : Option String
  /-- What `as<std::string>()` makes of a null node, if it does not throw. -/
  nullText : Option String
  /-- The number that a text is when it is compared with one. -/
  indexKey : String → Option ℕ
  view_scalar : ∀ text, view (scalar text) = .scalar text
  view_sequence : ∀ items, items ≠ [] → view (sequence items) = .sequence items
  view_map : ∀ entries, view (map entries) = .map (entries.map fun e => (scalar e.1, e.2))

namespace YamlCpp

open Yaml

variable (y : YamlCpp)

/-- The text of a node that is a scalar. -/
def text? (n : y.Node) : Option String := (y.view n).text?

/-- `Scalar()`, which is empty for a node that is no scalar. -/
def Scalar (n : y.Node) : String := (y.text? n).getD ""

/-- `size()` -/
def size (n : y.Node) : ℕ := (y.view n).size

/-- `node[i]`: nothing if it throws, and then nothing if the result is undefined. -/
def index (n : y.Node) (i : ℕ) : Option (Option y.Node) :=
  match y.view n with
  | .scalar _ => none
  | .null => some none
  | .sequence items => some items[i]?
  | .map entries =>
    some ((entries.find? fun e => y.indexKey (y.Scalar e.1) == some i).map Prod.snd)

/-- What `<<` prints of a new node after these were pushed back to it. -/
def emitSequence : List y.Node → String
  | [] => y.emptyText
  | items => y.emit (y.sequence items)

/-- The nodes hold the same and are printed in the same way, and so do the nodes they hold. Of a key
only the text counts. -/
def Same (n n' : y.Node) : Prop :=
  ∃ R : y.Node → y.Node → Prop, R n n' ∧ ∀ m m', R m m' →
    y.emit m = y.emit m' ∧ Content.Rel (fun k k' => y.text? k = y.text? k') R (y.view m) (y.view m')

/-- Loading what was printed of a node gives the same node back, and what was printed of a new node
is loaded as a null node. -/
structure LoadsBack : Prop where
  node : ∀ n, ∃ n', y.load (y.emit n) = some n' ∧ y.Same n n'
  empty : ∃ n, y.load y.emptyText = some n ∧ y.view n = .null

/-- A text that is loaded and printed is the same text. -/
def Unchanged (text : String) : Prop := (y.load text).map y.emit = some text

variable {y} {n n' : y.Node}

@[simp] theorem text?_scalar (text : String) : y.text? (y.scalar text) = some text := by
  rw [text?, view_scalar]
  rfl

@[simp] theorem Scalar_scalar (text : String) : y.Scalar (y.scalar text) = text := by
  rw [Scalar, text?_scalar]
  rfl

theorem unchanged_iff {text : String} (h : y.load text = some n) :
    y.Unchanged text ↔ y.emit n = text := by
  rw [Unchanged, h, Option.map_some, Option.some.injEq]

namespace Same

theorem refl (n : y.Node) : y.Same n n := by
  refine ⟨Eq, rfl, ?_⟩
  rintro m _ rfl
  exact ⟨rfl, .refl (K := fun k k' => y.text? k = y.text? k') (fun _ => rfl) (fun _ => rfl) _⟩

variable (h : y.Same n n')
include h

theorem emit_eq : y.emit n = y.emit n' := by
  obtain ⟨R, hn, hR⟩ := h
  exact (hR n n' hn).1

/-- **Nodes that are the same hold the same.** -/
theorem view :
    Content.Rel (fun k k' => y.text? k = y.text? k') y.Same (y.view n) (y.view n') := by
  obtain ⟨R, hn, hR⟩ := h
  exact (hR n n' hn).2.mono fun m m' hm => ⟨R, hm, hR⟩

theorem text?_eq : y.text? n = y.text? n' := h.view.text?_eq

theorem size_eq : y.size n = y.size n' := h.view.size_eq

/-- What a subscript finds is the same. -/
theorem index (i : ℕ) : Option.Rel (Option.Rel y.Same) (y.index n i) (y.index n' i) := by
  have hview := h.view
  rw [YamlCpp.index, YamlCpp.index]
  generalize y.view n = c at hview
  generalize y.view n' = c' at hview
  cases hview with
  | null => exact .some .none
  | scalar => exact .none
  | sequence hitems => exact .some (Container.rel_getElem? hitems i)
  | map hentries =>
    refine .some (Container.rel_find? (p := fun k => y.indexKey (y.Scalar k) == some i)
      (hentries.imp fun e e' he => ⟨?_, he.2⟩))
    rw [Scalar, Scalar, he.1]

end Same

end YamlCpp

/-! ### Trees -/

namespace Yaml

/-- A finite tree of nodes, each with what is kept of it beside what it holds. -/
inductive NodeTree (V : Type*) where
  | null (v : V)
  | scalar (v : V) (text : String)
  | sequence (v : V) (items : List (NodeTree V))
  | map (v : V) (entries : List (NodeTree V × NodeTree V))

namespace NodeTree

variable {V : Type*}

/-- What is kept of the node. -/
def label : NodeTree V → V
  | .null v | .scalar v _ | .sequence v _ | .map v _ => v

/-- What the node holds. -/
def content : NodeTree V → Content (NodeTree V)
  | .null _ => .null
  | .scalar _ text => .scalar text
  | .sequence _ items => .sequence items
  | .map _ entries => .map entries

/-- `Scalar()` -/
def Scalar (node : NodeTree V) : String := node.content.text?.getD ""

end NodeTree

/-! ### Printers that are known in part -/

/-- How a sequence or a map is written: in brackets, or with a line for each item. -/
inductive Style where
  | flow
  | block

def Style.code : Style → ℕ
  | .flow => 0
  | .block => 1

theorem Style.code_injective {a b : Style} (h : a.code = b.code) : a = b := by
  cases a <;> cases b <;> first | rfl | exact absurd h (by decide)

mutual

/-- A number for each node. -/
def NodeTree.code : NodeTree Style → ℕ
  | .null v => Nat.pair 0 v.code
  | .scalar v text =>
    Nat.pair 1 (Nat.pair v.code (Encodable.encode (text.toList.map Char.toNat)))
  | .sequence v items => Nat.pair 2 (Nat.pair v.code (itemsCode items))
  | .map v entries => Nat.pair 3 (Nat.pair v.code (entriesCode entries))

def itemsCode : List (NodeTree Style) → ℕ
  | [] => 0
  | item :: items => Nat.pair item.code (itemsCode items) + 1

def entriesCode : List (NodeTree Style × NodeTree Style) → ℕ
  | [] => 0
  | (key, value) :: entries => Nat.pair (Nat.pair key.code value.code) (entriesCode entries) + 1

end

mutual

theorem NodeTree.code_injective : ∀ {n m : NodeTree Style}, n.code = m.code → n = m
  | .null v, m => by
    cases m <;> simp [NodeTree.code]
    exact Style.code_injective
  | .scalar v text, m => by
    cases m <;> simp [NodeTree.code]
    exact fun hv h => ⟨Style.code_injective hv,
      String.toList_inj.mp (List.map_injective_iff.mpr (fun _ _ => Char.toNat_inj.mp) h)⟩
  | .sequence v items, m => by
    cases m <;> simp [NodeTree.code]
    exact fun hv h => ⟨Style.code_injective hv, itemsCode_injective h⟩
  | .map v entries, m => by
    cases m <;> simp [NodeTree.code]
    exact fun hv h => ⟨Style.code_injective hv, entriesCode_injective h⟩

theorem itemsCode_injective : ∀ {l l' : List (NodeTree Style)}, itemsCode l = itemsCode l' → l = l'
  | [], [] => fun _ => rfl
  | [], _ :: _ => fun h => absurd h (Nat.succ_ne_zero _).symm
  | _ :: _, [] => fun h => absurd h (Nat.succ_ne_zero _)
  | item :: items, item' :: items' => by
    intro h
    obtain ⟨hitem, hitems⟩ := Nat.pair_eq_pair.mp (Nat.succ.inj h)
    rw [NodeTree.code_injective hitem, itemsCode_injective hitems]

theorem entriesCode_injective :
    ∀ {l l' : List (NodeTree Style × NodeTree Style)}, entriesCode l = entriesCode l' → l = l'
  | [], [] => fun _ => rfl
  | [], (_, _) :: _ => fun h => absurd h (Nat.succ_ne_zero _).symm
  | (_, _) :: _, [] => fun h => absurd h (Nat.succ_ne_zero _)
  | (key, value) :: entries, (key', value') :: entries' => by
    intro h
    obtain ⟨hentry, hentries⟩ := Nat.pair_eq_pair.mp (Nat.succ.inj h)
    obtain ⟨hkey, hvalue⟩ := Nat.pair_eq_pair.mp hentry
    rw [NodeTree.code_injective hkey, NodeTree.code_injective hvalue,
      entriesCode_injective hentries]

end

/-- A scalar, for which the style makes no difference. -/
def plain (text : String) : NodeTree Style := .scalar .block text

/-- A map with a line for each of these entries. -/
def lines (entries : List (String × NodeTree Style)) : NodeTree Style :=
  .map .block (entries.map fun e => (plain e.1, e.2))

end Yaml

open Yaml

/-- What is printed of some nodes, and what is loaded of some texts: at least of those. The empty
text is loaded as a null node. No text here that is loaded begins with `#`. -/
structure YamlTable where
  print : NodeTree Style → Option String
  parse : String → Option (NodeTree Style)
  parse_of_print : ∀ {node text}, print node = some text → parse text = some node
  parse_comment : ∀ text : String, text.toList.head? = some '#' → parse text = none
  parse_empty : parse "" = some (.null .block)

namespace YamlTable

/-- A text for a node that is not in the table. -/
def fallback (node : NodeTree Style) : String := String.ofList (List.replicate (node.code + 1) '#')

theorem fallback_injective {node node' : NodeTree Style} (h : fallback node = fallback node') :
    node = node' := by
  have hlength := congrArg List.length (String.ofList_inj.mp h)
  rw [List.length_replicate, List.length_replicate] at hlength
  exact NodeTree.code_injective (Nat.succ.inj hlength)

open Classical in
/-- A library with this table. It keeps the style in which a node was loaded, and nodes that are
made have a line for each item. -/
noncomputable def yaml (table : YamlTable) (undefinedText nullText : Option String)
    (indexKey : String → Option ℕ) : YamlCpp where
  Node := NodeTree Style
  view := NodeTree.content
  load text := (table.parse text).or
    (if h : ∃ node, fallback node = text then some h.choose else none)
  emit node := (table.print node).getD (fallback node)
  scalar := plain
  sequence := .sequence .block
  map := lines
  emptyText := ""
  undefinedText := undefinedText
  nullText := nullText
  indexKey := indexKey
  view_scalar _ := rfl
  view_sequence _ _ := rfl
  view_map _ := rfl

section Yaml

variable (table : YamlTable) (undefinedText nullText : Option String)
  (indexKey : String → Option ℕ)

theorem load_of_parse {text : String} {node : NodeTree Style} (h : table.parse text = some node) :
    (table.yaml undefinedText nullText indexKey).load text = some node := by
  simp only [yaml, h, Option.some_or]

theorem emit_of_print {text : String} {node : NodeTree Style} (h : table.print node = some text) :
    (table.yaml undefinedText nullText indexKey).emit node = text := by
  simp only [yaml, h, Option.getD_some]

theorem load_emit (node : NodeTree Style) :
    (table.yaml undefinedText nullText indexKey).load
      ((table.yaml undefinedText nullText indexKey).emit node) = some node := by
  rcases hprint : table.print node with - | text
  · have hcomment : table.parse (fallback node) = none :=
      table.parse_comment _ (by rw [fallback, String.toList_ofList, List.replicate_succ]; rfl)
    have hex : ∃ n, fallback n = fallback node := ⟨node, rfl⟩
    simp only [yaml, hprint, Option.getD_none, hcomment, Option.none_or, dif_pos hex]
    exact congrArg some (fallback_injective hex.choose_spec)
  · rw [emit_of_print table undefinedText nullText indexKey hprint]
    exact load_of_parse table undefinedText nullText indexKey (table.parse_of_print hprint)

/-- It loads back what it prints. -/
theorem loadsBack : (table.yaml undefinedText nullText indexKey).LoadsBack where
  node n := ⟨n, load_emit table undefinedText nullText indexKey n, .refl n⟩
  empty :=
    ⟨.null .block, load_of_parse table undefinedText nullText indexKey table.parse_empty, rfl⟩

end Yaml

open Classical in
/-- The table of these texts with their nodes, and of texts that are scalars of themselves. -/
noncomputable def ofList (isPlain : String → Bool) (l : List (String × NodeTree Style))
    (hl : (l.map Prod.fst).Nodup)
    (hfresh : ∀ e ∈ l, e.1 ≠ "" ∧ e.1.toList.head? ≠ some '#' ∧ isPlain e.1 = false)
    (hplain : ∀ text, isPlain text = true → text ≠ "" ∧ text.toList.head? ≠ some '#') :
    YamlTable where
  print node :=
    if isPlain node.Scalar = true ∧ node = plain node.Scalar then some node.Scalar
    else (l.find? fun e => e.2 = node).map Prod.fst
  parse text :=
    if text = "" then some (.null .block)
    else if isPlain text then some (plain text)
    else (l.find? fun e => e.1 = text).map Prod.snd
  parse_of_print {node text} h := by
    split at h
    · rename_i hnode
      obtain rfl := Option.some.inj h
      rw [if_neg (hplain _ hnode.1).1, if_pos hnode.1, ← hnode.2]
    · obtain ⟨e, he, rfl⟩ := Option.map_eq_some_iff.mp h
      obtain rfl : e.2 = node := by simpa using List.find?_some he
      have hmem := List.mem_of_find?_eq_some he
      obtain ⟨hempty, -, hnot⟩ := hfresh e hmem
      rw [if_neg hempty, hnot, if_neg Bool.false_ne_true,
        Container.find?_eq_some_of_nodup hl hmem, Option.map_some]
  parse_comment text h := by
    have hempty : text ≠ "" := by
      rintro rfl
      exact absurd h (by decide)
    have hnot : ¬isPlain text = true := fun hp => (hplain text hp).2 h
    rw [if_neg hempty, if_neg hnot]
    refine Option.map_eq_none_iff.mpr (List.find?_eq_none.mpr fun e he heq => ?_)
    obtain rfl : e.1 = text := by simpa using heq
    exact (hfresh e he).2.1 h
  parse_empty := if_pos rfl

/-- Without such texts there is nothing to ask of them. -/
theorem plain_of_false (text : String) (h : false = true) :
    text ≠ "" ∧ text.toList.head? ≠ some '#' := absurd h Bool.false_ne_true

section OfList

variable {isPlain : String → Bool} {l : List (String × NodeTree Style)}
  {hl : (l.map Prod.fst).Nodup}
  {hfresh : ∀ e ∈ l, e.1 ≠ "" ∧ e.1.toList.head? ≠ some '#' ∧ isPlain e.1 = false}
  {hplain : ∀ text, isPlain text = true → text ≠ "" ∧ text.toList.head? ≠ some '#'}
  (undefinedText nullText : Option String) (indexKey : String → Option ℕ)
  {text : String} {node : NodeTree Style}

theorem load_ofList (h : (text, node) ∈ l) :
    ((ofList isPlain l hl hfresh hplain).yaml undefinedText nullText indexKey).load text =
      some node := by
  refine load_of_parse _ undefinedText nullText indexKey ?_
  obtain ⟨hempty, -, hnot⟩ := hfresh _ h
  simp only [ofList, if_neg hempty, hnot, Bool.false_eq_true, if_false,
    Container.find?_eq_some_of_nodup hl h, Option.map_some]

theorem load_plain (h : isPlain text = true) :
    ((ofList isPlain l hl hfresh hplain).yaml undefinedText nullText indexKey).load text =
      some (plain text) := by
  refine load_of_parse _ undefinedText nullText indexKey ?_
  simp only [ofList, if_neg (hplain text h).1, if_pos h]

theorem emit_plain (h : isPlain text = true) :
    ((ofList isPlain l hl hfresh hplain).yaml undefinedText nullText indexKey).emit (plain text) =
      text :=
  emit_of_print _ undefinedText nullText indexKey (if_pos ⟨h, rfl⟩)

open Classical in
/-- Where no node occurs twice, each is printed as its text. -/
theorem emit_ofList (hnodes : (l.map Prod.snd).Nodup)
    (hnot : ¬(isPlain node.Scalar = true ∧ node = plain node.Scalar)) (h : (text, node) ∈ l) :
    ((ofList isPlain l hl hfresh hplain).yaml undefinedText nullText indexKey).emit node =
      text := by
  refine emit_of_print _ undefinedText nullText indexKey ?_
  rcases hfind : l.find? (fun e => e.2 = node) with - | e
  · exact absurd (decide_eq_true rfl) (List.find?_eq_none.mp hfind (text, node) h)
  · have hnode : e.2 = node := by simpa using List.find?_some hfind
    have he := List.inj_on_of_nodup_map hnodes (List.mem_of_find?_eq_some hfind) h hnode
    simp only [ofList, if_neg hnot, hfind, he, Option.map_some]

end OfList

end YamlTable

end Wille
