import Wille.ForMathlib.Recursion
import Wille.Config.Load

/-!
# Documents with aliases

An alias in a document is the node of its anchor, even where it stands inside that node. So a loaded
document is a finite graph: a value of a map may be a node that the map is part of. `ListAllMember`
goes from a map to its values and does not remember where it has been. Only a key with a character
that is not allowed keeps it from going on, so it returns unless the keys that are allowed lead
round a cycle.

## What the model keeps

* A node is a reference to what it holds. What is printed of a node is a parameter, and may differ
  between nodes that hold the same.
* `ListAllMember` takes a number: it gives up when its calls nest deeper than that.

## Main definitions

* `Document`, `Document.ListAllMember`, `Document.LoadFromYaml`
* `Document.Follows` — from a map to a value whose key is allowed
* `Document.Denotes` — a node that stands for a tree

## Main results

* `Document.ListAllMember_mono` — a larger number makes no difference to what is listed
* `Document.load_from_yaml_denotes` — where the document is a tree, it is loaded like one
* `Document.returns_iff` — when `LoadFromYaml` returns
-/

namespace Wille

namespace Config

open Yaml Recursion Relation

/-- A loaded document. -/
structure Document (V : Type*) where
  content : V → Content V
  root : V

namespace Document

variable {V : Type*} (d : Document V)

/-- `Scalar()` -/
def Scalar (v : V) : String := (d.content v).text?.getD ""

/-- What the loop of `ListAllMember` goes through: it has no turns for a node that is no map. -/
def entries (v : V) : List (V × V) :=
  match d.content v with
  | .map entries => entries
  | _ => []

/-- `ListAllMember`, unless its calls nest too deep. -/
def ListAllMember : ℕ → String → V → Option (List (String × V))
  | 0, _, _ => none
  | depth + 1, pfx, v =>
    if madeOf pathChars pfx then
      ((d.entries v).mapM fun e => ListAllMember depth (join pfx (d.Scalar e.1)) e.2).map
        fun members => (pfx, v) :: members.flatten
    else some []

/-- What `fromString` is given for a node. -/
def text (emit : V → String) (v : V) : String :=
  match d.content v with
  | .scalar text => text
  | _ => emit v

section Load

variable {ι : Type*} {T : ι → Type*} {ω : Type*} [∀ i, BEq (T i)]
  (fromStr : ∀ i, String → Option (T i))

/-- `LoadFromYaml` -/
def LoadFromYaml (emit : V → String) (depth : ℕ) (r : Registry T ω) (w : ω) :
    Option (Registry T ω × ω × Except Thrown Unit) :=
  (d.ListAllMember depth "" d.root).map fun all_nodes =>
    loadMembers fromStr (d.text emit) all_nodes r w

end Load

/-! ### The calls -/

/-- The arguments of the calls that a call of `ListAllMember` makes. -/
def calls (x : String × V) : List (String × V) :=
  if madeOf pathChars x.1 then (d.entries x.2).map fun e => (join x.1 (d.Scalar e.1), e.2) else []

/-- A step from a map to a value whose key has only characters that are allowed. -/
def Follows (v u : V) : Prop :=
  ∃ e ∈ d.entries v, e.2 = u ∧ madeOf pathChars (d.Scalar e.1) = true

variable {d}

theorem ListAllMember_ne_none_iff {depth : ℕ} {pfx : String} {v : V} :
    d.ListAllMember depth pfx v ≠ none ↔ Finishes d.calls depth (pfx, v) := by
  induction depth generalizing pfx v with
  | zero => simp [ListAllMember, Finishes]
  | succ depth ih =>
    rw [ListAllMember, Finishes, calls]
    split
    · rw [List.forall_mem_map, Ne, Option.map_eq_none_iff, Container.mapM_eq_none]
      push Not
      exact forall₂_congr fun e _ => ih
    · simp

/-- A larger number makes no difference. -/
theorem ListAllMember_mono {depth depth' : ℕ} (hle : depth ≤ depth') {pfx : String} {v : V}
    {members : List (String × V)} (h : d.ListAllMember depth pfx v = some members) :
    d.ListAllMember depth' pfx v = some members := by
  induction depth generalizing depth' pfx v members with
  | zero => exact absurd h (Option.some_ne_none _).symm
  | succ depth ih =>
    obtain ⟨depth', rfl⟩ := Nat.exists_eq_add_of_lt hle
    rw [ListAllMember] at h ⊢
    split at h
    · obtain ⟨lists, hlists, rfl⟩ := Option.map_eq_some_iff.mp h
      have hlists' := (Container.mapM_eq_some.mp hlists).imp fun e list hlist =>
        ih (Nat.le_add_right depth depth') hlist
      rw [if_pos ‹_›, Container.mapM_eq_some.mpr hlists', Option.map_some]
    · rw [if_neg ‹_›, h]

/-! ### Trees -/

mutual

/-- The node stands for the tree, whose labels are the nodes of the document. -/
def Denotes (d : Document V) : V → NodeTree V → Prop
  | v, .null u => u = v ∧ d.content v = .null
  | v, .scalar u text => u = v ∧ d.content v = .scalar text
  | v, .sequence u items => u = v ∧ ∃ us, d.content v = .sequence us ∧ d.DenotesItems us items
  | v, .map u entries => u = v ∧ ∃ es, d.content v = .map es ∧ d.DenotesEntries es entries

/-- The items of a sequence stand for these. -/
def DenotesItems (d : Document V) : List V → List (NodeTree V) → Prop
  | [], [] => True
  | u :: us, item :: items => d.Denotes u item ∧ d.DenotesItems us items
  | _, _ => False

/-- The entries of a map stand for these. -/
def DenotesEntries (d : Document V) : List (V × V) → List (NodeTree V × NodeTree V) → Prop
  | [], [] => True
  | e :: es, (key, value) :: entries =>
    (d.Denotes e.1 key ∧ d.Denotes e.2 value) ∧ d.DenotesEntries es entries
  | _, _ => False

end

theorem Denotes.label_eq {v : V} {node : NodeTree V} (h : d.Denotes v node) : node.label = v := by
  cases node <;> simp only [Denotes] at h <;> exact h.1

theorem Denotes.text?_eq {v : V} {node : NodeTree V} (h : d.Denotes v node) :
    (d.content v).text? = node.content.text? := by
  cases node with
  | null | scalar =>
    simp only [Denotes] at h
    rw [h.2]
    rfl
  | sequence | map =>
    simp only [Denotes] at h
    obtain ⟨-, l, hl, -⟩ := h
    rw [hl]
    rfl

theorem Denotes.scalar_eq {v : V} {node : NodeTree V} (h : d.Denotes v node) :
    d.Scalar v = node.Scalar := by
  rw [Scalar, NodeTree.Scalar, h.text?_eq]

theorem Denotes.entries_of_map {v u : V} {entries : List (NodeTree V × NodeTree V)}
    (h : d.Denotes v (.map u entries)) : d.DenotesEntries (d.entries v) entries := by
  simp only [Denotes] at h
  obtain ⟨-, es, hes, hentries⟩ := h
  simpa only [Document.entries, hes] using hentries

theorem Denotes.entries_of_not_map {v : V} {node : NodeTree V} (h : d.Denotes v node)
    (hmap : ∀ u entries, node ≠ .map u entries) : d.entries v = [] := by
  cases node with
  | map u entries => exact absurd rfl (hmap u entries)
  | null | scalar => simp_all [Denotes, entries]
  | sequence =>
    simp only [Denotes] at h
    obtain ⟨-, us, hus, -⟩ := h
    simp only [entries, hus]

/-- What is listed of the entries of a map does not depend on the number either. -/
theorem mapM_ListAllMember_mono {depth depth' : ℕ} (hle : depth ≤ depth') {pfx : String}
    {es : List (V × V)} {lists : List (List (String × V))}
    (h : es.mapM (fun e => d.ListAllMember depth (join pfx (d.Scalar e.1)) e.2) = some lists) :
    es.mapM (fun e => d.ListAllMember depth' (join pfx (d.Scalar e.1)) e.2) = some lists := by
  rw [Container.mapM_eq_some] at h ⊢
  exact h.imp fun e list => ListAllMember_mono hle

mutual

/-- Of a node that stands for a tree the same is listed as of the tree. -/
theorem ListAllMember_denotes (pfx : String) : ∀ (node : NodeTree V) {v : V}, d.Denotes v node →
    ∃ depth members, d.ListAllMember depth pfx v = some members ∧
      List.Forall₂ (fun x y => x.1 = y.1 ∧ d.Denotes x.2 y.2) members
        (Config.ListAllMember pfx node)
  | .map u entries, v, h => by
    obtain ⟨depth, lists, hlists, hall⟩ := mapM_ListAllMember_denotes pfx entries h.entries_of_map
    rw [Config.ListAllMember]
    by_cases hmade : madeOf pathChars pfx = true
    · refine ⟨depth + 1, (pfx, v) :: lists.flatten, ?_, ?_⟩
      · rw [ListAllMember, if_pos hmade, hlists, Option.map_some]
      · rw [if_pos hmade]
        exact .cons ⟨rfl, h⟩ hall
    · exact ⟨1, [], by rw [ListAllMember, if_neg hmade], by rw [if_neg hmade]; exact .nil⟩
  | .null _, v, h | .scalar _ _, v, h | .sequence _ _, v, h => by
    have hentries := h.entries_of_not_map (by rintro u entries ⟨⟩)
    simp only [Config.ListAllMember]
    by_cases hmade : madeOf pathChars pfx = true
    · refine ⟨1, [(pfx, v)], ?_, ?_⟩
      · rw [ListAllMember, if_pos hmade, hentries]
        rfl
      · rw [if_pos hmade]
        exact .cons ⟨rfl, h⟩ .nil
    · exact ⟨1, [], by rw [ListAllMember, if_neg hmade], by rw [if_neg hmade]; exact .nil⟩

/-- The same for the entries of a map. -/
theorem mapM_ListAllMember_denotes (pfx : String) : ∀ (entries : List (NodeTree V × NodeTree V))
    {es : List (V × V)}, d.DenotesEntries es entries →
    ∃ depth lists, es.mapM (fun e => d.ListAllMember depth (join pfx (d.Scalar e.1)) e.2) =
        some lists ∧
      List.Forall₂ (fun x y => x.1 = y.1 ∧ d.Denotes x.2 y.2) lists.flatten
        (Config.ListEntries pfx entries)
  | [], [], _ => ⟨0, [], rfl, .nil⟩
  | [], _ :: _, h => absurd h (by simp [DenotesEntries])
  | _ :: _, [], h => absurd h (by simp [DenotesEntries])
  | (key, value) :: entries, e :: es, h => by
    simp only [DenotesEntries] at h
    obtain ⟨⟨hkey, hvalue⟩, hentries⟩ := h
    obtain ⟨depth, members, hmembers, hall⟩ :=
      ListAllMember_denotes (join pfx key.Scalar) value hvalue
    obtain ⟨depth', lists, hlists, hall'⟩ := mapM_ListAllMember_denotes pfx entries hentries
    refine ⟨max depth depth', members :: lists, ?_, ?_⟩
    · rw [List.mapM_cons, hkey.scalar_eq, ListAllMember_mono (le_max_left ..) hmembers,
        mapM_ListAllMember_mono (le_max_right ..) hlists]
      rfl
    · rw [Config.ListEntries, List.flatten_cons]
      exact List.rel_append hall hall'

end

/-- What `fromString` is given for a node is the text of the tree it stands for. -/
theorem Denotes.text_eq (emit : V → String) {v : V} {node : NodeTree V} (h : d.Denotes v node) :
    d.text emit v = Config.text (fun tree => emit tree.label) node := by
  have hlabel := h.label_eq
  cases node with
  | null | scalar => simp_all [Denotes, Document.text, Config.text]
  | sequence | map =>
    simp only [Denotes] at h
    obtain ⟨-, l, hl, -⟩ := h
    simp only [Document.text, hl, Config.text, hlabel]

section Load

variable {ι : Type*} {T : ι → Type*} {ω : Type*} [∀ i, BEq (T i)]
  (fromStr : ∀ i, String → Option (T i))

/-- The loop of `LoadFromYaml` needs the paths and the texts. -/
theorem loadMembers_congr {N N' : Type*} {text : N → String} {text' : N' → String}
    {l : List (String × N)} {l' : List (String × N')}
    (h : List.Forall₂ (fun x y => x.1 = y.1 ∧ text x.2 = text' y.2) l l') (r : Registry T ω)
    (w : ω) : loadMembers fromStr text l r w = loadMembers fromStr text' l' r w := by
  induction h generalizing r w with
  | nil => rfl
  | @cons x y l l' hxy hall ih =>
    obtain ⟨key, node⟩ := x
    obtain ⟨rfl, htext⟩ := hxy
    simp only [loadMembers, htext, ih]

/-- **A document that stands for a tree is loaded like the tree.** -/
theorem load_from_yaml_denotes {node : NodeTree V} (h : d.Denotes d.root node) (emit : V → String)
    (r : Registry T ω) (w : ω) :
    ∃ depth, d.LoadFromYaml fromStr emit depth r w =
      some (Config.LoadFromYaml fromStr (fun tree => emit tree.label) node r w) := by
  obtain ⟨depth, members, hmembers, hall⟩ := ListAllMember_denotes "" node h
  refine ⟨depth, ?_⟩
  rw [LoadFromYaml, hmembers, Option.map_some, Config.LoadFromYaml]
  exact congrArg some (loadMembers_congr fromStr
    (hall.imp fun x y hxy => ⟨hxy.1, hxy.2.text_eq emit⟩) r w)

end Load

/-! ### Cycles -/

/-- A path goes on if the key is allowed. -/
theorem madeOf_join {pfx : String} (h : madeOf pathChars pfx = true) (key : String) :
    madeOf pathChars (join pfx key) = madeOf pathChars key := by
  have hdot : ".".toList.all (· ∈ pathChars) = true := by decide
  rw [join]
  split
  · rfl
  · rw [madeOf, String.toList_append, String.toList_append, List.all_append, List.all_append, hdot]
    rw [madeOf] at h
    rw [h, Bool.true_and, Bool.true_and]
    rfl

theorem mem_calls_iff {pfx : String} (h : madeOf pathChars pfx = true) {v : V} {y : String × V} :
    y ∈ d.calls (pfx, v) ↔ ∃ e ∈ d.entries v, (join pfx (d.Scalar e.1), e.2) = y := by
  rw [calls, if_pos h, List.mem_map]

/-- Below an allowed path the calls go where the allowed keys lead. -/
theorem acc_calls_iff {pfx : String} (h : madeOf pathChars pfx = true) {v : V} :
    Acc (fun y x => y ∈ d.calls x) (pfx, v) ↔ Acc (flip d.Follows) v := by
  constructor
  · intro hacc
    generalize hx : (pfx, v) = x at hacc
    induction hacc generalizing pfx v with
    | intro x _ ih =>
      subst hx
      refine Acc.intro v ?_
      rintro _ ⟨e, he, rfl, hkey⟩
      exact ih _ ((mem_calls_iff h).mpr ⟨e, he, rfl⟩) (by rw [madeOf_join h, hkey]) rfl
  · intro hacc
    induction hacc generalizing pfx with
    | intro v _ ih =>
      refine Acc.intro (pfx, v) fun y hy => ?_
      obtain ⟨e, he, rfl⟩ := (mem_calls_iff h).mp hy
      by_cases hkey : madeOf pathChars (d.Scalar e.1) = true
      · exact ih e.2 ⟨e, he, rfl, hkey⟩ (by rw [madeOf_join h, hkey])
      · -- the call returns at once
        refine Acc.intro _ fun z hz => ?_
        rw [calls, if_neg (by rwa [madeOf_join h])] at hz
        exact absurd hz List.not_mem_nil

/-- **When `ListAllMember` returns:** the allowed keys lead round no cycle. -/
theorem lists_iff [Finite V] : (∃ depth, d.ListAllMember depth "" d.root ≠ none) ↔
    ∀ v, ReflTransGen d.Follows d.root v → ¬TransGen d.Follows v v := by
  rw [← acc_iff_acyclic, ← acc_calls_iff (show madeOf pathChars "" = true from rfl),
    ← exists_finishes_iff]
  exact exists_congr fun depth => ListAllMember_ne_none_iff

section Returns

variable {ι : Type*} {T : ι → Type*} {ω : Type*} [∀ i, BEq (T i)]
  (fromStr : ∀ i, String → Option (T i))

/-- **When `LoadFromYaml` returns:** exactly if no cycle of maps, each the value of an allowed key
of the one before, can be reached from the root through allowed keys. Then `ListAllMember` lists
finitely many nodes. -/
theorem returns_iff [Finite V] (d : Document V) (emit : V → String) (r : Registry T ω) (w : ω) :
    ((∃ depth all_nodes, d.ListAllMember depth "" d.root = some all_nodes) ∧
        ∃ depth out, d.LoadFromYaml fromStr emit depth r w = some out) ↔
      ∀ v, ReflTransGen d.Follows d.root v → ¬TransGen d.Follows v v := by
  rw [← lists_iff]
  constructor
  · rintro ⟨⟨depth, all_nodes, h⟩, -⟩
    exact ⟨depth, by rw [h]; exact Option.some_ne_none _⟩
  · rintro ⟨depth, h⟩
    obtain ⟨all_nodes, h⟩ := Option.ne_none_iff_exists'.mp h
    exact ⟨⟨depth, all_nodes, h⟩, depth, _, by rw [LoadFromYaml, h, Option.map_some]⟩

/-- The document `a: &x {port: 80}`, `b: *x`. -/
def shared : Document (Fin 6) where
  content
    | 0 => .map [(1, 3), (2, 3)]
    | 1 => .scalar "a"
    | 2 => .scalar "b"
    | 3 => .map [(4, 5)]
    | 4 => .scalar "port"
    | 5 => .scalar "80"
  root := 0

theorem returns_iff_shared :
    ∃ depth out, shared.LoadFromYaml nonEmpty (fun _ => "{}") depth portRegistry () =
      some out := by
  have hstep : ∀ v, ∀ e ∈ shared.entries v, v < e.2 := by decide
  have hup : ∀ {v u}, TransGen shared.Follows v u → v < u := by
    intro v u h
    induction h with
    | single h =>
      obtain ⟨e, he, rfl, -⟩ := h
      exact hstep _ e he
    | tail _ h ih =>
      obtain ⟨e, he, rfl, -⟩ := h
      exact ih.trans (hstep _ e he)
  exact ((returns_iff nonEmpty shared (fun _ => "{}") portRegistry ()).mpr
    fun v _ hcycle => lt_irrefl v (hup hcycle)).2

/-- The document `&x {system: *x}`. -/
def cyclic : Document (Fin 2) where
  content
    | 0 => .map [(1, 0)]
    | 1 => .scalar "system"
  root := 0

/-- The calls for the cyclic document nest deeper than any number. -/
theorem cyclic_never_returns :
    (∀ depth, cyclic.ListAllMember depth "" cyclic.root = none) ∧
      ∀ depth, cyclic.LoadFromYaml nonEmpty (fun _ => "{}") depth portRegistry () = none := by
  have hnone : ∀ depth pfx, madeOf pathChars pfx = true →
      cyclic.ListAllMember depth pfx 0 = none := by
    intro depth
    induction depth with
    | zero => exact fun _ _ => rfl
    | succ depth ih =>
      intro pfx hmade
      rw [ListAllMember, if_pos hmade, Option.map_eq_none_iff, Container.mapM_eq_none]
      refine ⟨(1, 0), .head _, ih _ ?_⟩
      rw [madeOf_join hmade]
      rfl
  refine ⟨fun depth => hnone depth "" rfl, fun depth => ?_⟩
  rw [LoadFromYaml, Option.map_eq_none_iff]
  exact hnone depth "" rfl

end Returns

end Document

end Config

end Wille
