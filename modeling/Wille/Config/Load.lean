import Wille.Config.Registry
import Wille.Config.Yaml
import Mathlib.Data.List.Infix

/-!
# Loading a document

`config.cpp`. `ListAllMember` lists the nodes of a document in pre-order, each under the path that
leads to it, and passes over every subtree whose path has a character that no variable's name may
have. `LoadFromYaml` takes the list and calls `fromString` on the variable of each path.

What is printed of a node may depend on how it was written, so the nodes of the tree have labels,
and what is printed is any function of the labelled tree.

The keys of a path are joined with dots, but not after an empty path: empty keys at the top leave
no trace. Keys may contain dots. So many nodes can have one path, and the last one whose text is
accepted decides.

## Main definitions

* `ListAllMember`, `LoadFromYaml`
* `walk`, `dotted`, `named` — every node with the keys that lead to it, and the path they make
* `perform` — `fromString` called on one variable after the other

## Main results

* `ListAllMember_eq` — what is listed are the named nodes, in pre-order
* `load_from_yaml` — what `LoadFromYaml` does
-/

namespace Wille

namespace Config

open Yaml

/-- The characters `ListAllMember` allows in a path. -/
def pathChars : List Char := "abcdefghijklmnopqrstuvwxyz._0123456789".toList

/-- The path below `pfx` under a key. -/
def join (pfx key : String) : String := if pfx = "" then key else pfx ++ "." ++ key

section Members

variable {V : Type*}

mutual

/-- `ListAllMember` -/
def ListAllMember (pfx : String) : NodeTree V → List (String × NodeTree V)
  | .map v entries =>
    if madeOf pathChars pfx then (pfx, .map v entries) :: ListEntries pfx entries else []
  | node => if madeOf pathChars pfx then [(pfx, node)] else []

/-- The loop of `ListAllMember` over the entries of a map. -/
def ListEntries (pfx : String) : List (NodeTree V × NodeTree V) → List (String × NodeTree V)
  | [] => []
  | (key, value) :: entries =>
    ListAllMember (join pfx key.Scalar) value ++ ListEntries pfx entries

end

/-- What `fromString` is given for a node. -/
def text (emit : NodeTree V → String) : NodeTree V → String
  | .scalar _ text => text
  | node => emit node

end Members

/-- `std::transform(key.begin(), key.end(), key.begin(), ::tolower)` -/
def tolower (key : String) : String := String.ofList (key.toList.map Char.toLower)

section Load

variable {ι : Type*} {T : ι → Type*} {ω : Type*} [∀ i, BEq (T i)] {V N : Type*}
  (fromStr : ∀ i, String → Option (T i))

/-- The loop of `LoadFromYaml`, where `text` is what `fromString` is given for a node. What
`fromString` lets through ends it. -/
def loadMembers (text : N → String) :
    List (String × N) → Registry T ω → ω → Registry T ω × ω × Except Thrown Unit
  | [], r, w => (r, w, .ok ())
  | (key, node) :: all_nodes, r, w =>
    if key = "" then loadMembers text all_nodes r w
    else
      match r.LookupBase (tolower key) with
      | none => loadMembers text all_nodes r w
      | some var =>
        match r.fromString fromStr var (text node) w with
        | (r', w', .ok _) => loadMembers text all_nodes r' w'
        | (r', w', .error e) => (r', w', .error e)

/-- `LoadFromYaml` -/
def LoadFromYaml (emit : NodeTree V → String) (root : NodeTree V) (r : Registry T ω) (w : ω) :
    Registry T ω × ω × Except Thrown Unit :=
  loadMembers fromStr (text emit) (ListAllMember "" root) r w

end Load

/-! ### The paths of a document -/

section Walk

variable {V : Type*}

mutual

/-- Every node of a tree with the keys that lead to it, in pre-order. -/
def walk : NodeTree V → List (List String × NodeTree V)
  | .map v entries => ([], .map v entries) :: walkEntries entries
  | node => [([], node)]

/-- The nodes below the entries of a map. -/
def walkEntries : List (NodeTree V × NodeTree V) → List (List String × NodeTree V)
  | [] => []
  | (key, value) :: entries =>
    ((walk value).map fun x => (key.Scalar :: x.1, x.2)) ++ walkEntries entries

end

/-- The dotted path that keys make. Empty keys at the top make none. -/
def dotted (keys : List String) : String := ".".intercalate (keys.dropWhile (· = ""))

/-- Every path on the way has only characters that are allowed. -/
def named (keys : List String) : Bool := keys.inits.all fun ks => madeOf pathChars (dotted ks)

theorem named_iff {keys : List String} :
    named keys = true ↔ ∀ ks, ks <+: keys → madeOf pathChars (dotted ks) = true := by
  simp only [named, List.all_eq_true, List.mem_inits]

theorem join_dotted (keys : List String) (key : String) :
    join (dotted keys) key = dotted (keys ++ [key]) := by
  rw [dotted, dotted, List.dropWhile_append]
  rcases hdrop : keys.dropWhile (· = "") with - | ⟨k, ks⟩
  · -- only empty keys so far
    simp only [List.isEmpty_nil, if_true, String.intercalate_nil, join]
    by_cases hkey : key = ""
    · simp [hkey]
    · simp [hkey]
  · have hk : k ≠ "" := by
      have := List.head_dropWhile_not (l := keys) (fun s => decide (s = "")) (by simp [hdrop])
      simpa [hdrop] using this
    have hne : ".".intercalate (k :: ks) ≠ "" := by
      intro hempty
      rcases ks with - | ⟨k', ks⟩
      · rw [String.intercalate_singleton] at hempty
        exact hk hempty
      · rw [String.intercalate_cons_cons] at hempty
        simp [hk] at hempty
    rw [join, if_neg hne, if_neg (by simp), String.intercalate_append_of_ne_nil (by simp) (by simp),
      String.intercalate_singleton]

theorem named_eq {keys : List String} (hproper : ∀ ks, ks <+: keys → ks ≠ keys →
    madeOf pathChars (dotted ks) = true) : named keys = madeOf pathChars (dotted keys) := by
  rw [Bool.eq_iff_iff, named_iff]
  refine ⟨fun h => h keys List.prefix_rfl, fun h ks hks => ?_⟩
  by_cases heq : ks = keys
  · rw [heq, h]
  · exact hproper ks hks heq

theorem named_append {keys : List String} (h : madeOf pathChars (dotted keys) = false)
    (rest : List String) : named (keys ++ rest) = false := by
  by_contra hnamed
  rw [Bool.not_eq_false, named_iff] at hnamed
  rw [hnamed keys (List.prefix_append ..)] at h
  exact Bool.false_ne_true h.symm

mutual

/-- **What `ListAllMember` lists** below a path: the named nodes, in pre-order. -/
theorem ListAllMember_dotted (keys : List String)
    (hproper : ∀ ks, ks <+: keys → ks ≠ keys → madeOf pathChars (dotted ks) = true) :
    ∀ node : NodeTree V, ListAllMember (dotted keys) node =
      ((walk node).filter fun x => named (keys ++ x.1)).map fun x => (dotted (keys ++ x.1), x.2)
  | .map v entries => by
    rw [ListAllMember, walk, List.filter_cons]
    simp only [List.append_nil, named_eq hproper]
    split
    · rename_i hmade
      rw [List.map_cons, ListEntries_dotted keys (fun ks hks => ?_) entries, List.append_nil]
      by_cases heq : ks = keys
      · rw [heq, hmade]
      · exact hproper ks hks heq
    · rename_i hmade
      rw [List.filter_eq_nil_iff.mpr, List.map_nil]
      exact fun x _ => by simp [named_append (Bool.not_eq_true _ ▸ hmade)]
  | .null _ | .scalar _ _ | .sequence _ _ => by
    simp only [ListAllMember, walk, List.filter_cons, List.append_nil, named_eq hproper,
      List.filter_nil]
    split <;> simp

/-- The same for the entries of a map. -/
theorem ListEntries_dotted (keys : List String)
    (hnamed : ∀ ks, ks <+: keys → madeOf pathChars (dotted ks) = true) :
    ∀ entries : List (NodeTree V × NodeTree V), ListEntries (dotted keys) entries =
      ((walkEntries entries).filter fun x => named (keys ++ x.1)).map
        fun x => (dotted (keys ++ x.1), x.2)
  | [] => rfl
  | (key, value) :: entries => by
    have hproper : ∀ ks, ks <+: keys ++ [key.Scalar] → ks ≠ keys ++ [key.Scalar] →
        madeOf pathChars (dotted ks) = true := by
      intro ks hks hne
      rcases List.prefix_concat_iff.mp hks with rfl | hks
      · exact absurd rfl hne
      · exact hnamed ks hks
    rw [ListEntries, join_dotted, ListAllMember_dotted _ hproper value,
      ListEntries_dotted keys hnamed entries, walkEntries, List.filter_append, List.map_append,
      List.filter_map, List.map_map]
    simp [Function.comp_def]

end

/-- **What `ListAllMember` lists** of a document are the named nodes, in pre-order. -/
theorem ListAllMember_eq (root : NodeTree V) :
    ListAllMember "" root =
      ((walk root).filter fun x => named x.1).map fun x => (dotted x.1, x.2) :=
  ListAllMember_dotted [] (fun _ hks hne => absurd (List.prefix_nil.mp hks) hne) root

end Walk

/-! ### The updates of a document -/

section Perform

variable {ι : Type*} {T : ι → Type*} {ω : Type*} [∀ i, BEq (T i)] {V N : Type*}
  (fromStr : ∀ i, String → Option (T i)) (emit : NodeTree V → String)

/-- What updates come to. -/
structure Performed {ι : Type*} (T : ι → Type*) (ω : Type*) where
  registry : Registry T ω
  world : ω
  /-- The updates that succeeded, in order. -/
  succeeded : List (String × String)

/-- `fromString` has returned `true`. -/
def succeeds : Except Thrown Bool → Bool
  | .ok b => b
  | .error _ => false

/-- For each name and text `fromString` is called with the text on the variable of that name, if
there is one. -/
def perform : List (String × String) → Registry T ω → ω → Performed T ω
  | [], r, w => ⟨r, w, []⟩
  | (name, text) :: updates, r, w =>
    match r.LookupBase name with
    | none => perform updates r w
    | some var =>
      let out := r.fromString fromStr var text w
      let rest := perform updates out.1 out.2.1
      { rest with
        succeeded := if succeeds out.2.2 then (name, text) :: rest.succeeded else rest.succeeded }

/-- The updates a document asks for: those of its named nodes, in pre-order. -/
def updates (root : NodeTree V) : List (String × String) :=
  ((walk root).filter fun x => named x.1).map fun x => (dotted x.1, text emit x.2)

theorem tolower_of_madeOf {key : String} (h : madeOf pathChars key = true) : tolower key = key := by
  have hlower : pathChars.Forall fun c => c.toLower = c := by decide
  rw [tolower, List.map_congr_left (g := id), List.map_id, String.ofList_toList]
  intro c hc
  exact List.forall_iff_forall_mem.mp hlower c (of_decide_eq_true (List.all_eq_true.mp h c hc))

theorem succeeds_iff {out : Except Thrown Bool} : succeeds out = true ↔ out = .ok true := by
  cases out <;> simp [succeeds]

/-- Only updates that were asked for succeed. -/
theorem succeeded_subset (updates : List (String × String)) (r : Registry T ω) (w : ω) :
    (perform fromStr updates r w).succeeded ⊆ updates := by
  induction updates generalizing r w with
  | nil => exact fun _ h => h
  | cons x updates ih =>
    rw [perform]
    split
    · exact List.subset_cons_of_subset x (ih r w)
    · simp only
      split
      · exact List.cons_subset_cons x (ih _ _)
      · exact List.subset_cons_of_subset x (ih _ _)

/-- When nothing gets through `fromString`, the loop of `LoadFromYaml` performs the updates. -/
theorem loadMembers_eq (text : N → String) {all_nodes : List (String × N)}
    (hpaths : ∀ x ∈ all_nodes, madeOf pathChars x.1 = true) {r : Registry T ω} {w : ω}
    (hnames : r.data "" = none) (hpolite : r.Polite) :
    loadMembers fromStr text all_nodes r w =
      ((perform fromStr (all_nodes.map fun x => (x.1, text x.2)) r w).registry,
        (perform fromStr (all_nodes.map fun x => (x.1, text x.2)) r w).world, .ok ()) := by
  induction all_nodes generalizing r w with
  | nil => rfl
  | cons x all_nodes ih =>
    obtain ⟨key, node⟩ := x
    obtain ⟨hkey, hpaths⟩ := List.forall_mem_cons.mp hpaths
    rw [List.map_cons, perform, loadMembers, tolower_of_madeOf hkey]
    split
    · rename_i hempty
      rw [hempty, Registry.LookupBase, hnames]
      exact ih hpaths hnames hpolite
    · rcases r.LookupBase key with - | p
      · exact ih hpaths hnames hpolite
      · obtain ⟨b, hb⟩ := hpolite.fromString_ok fromStr p (text node) w
        have hnames' := (Registry.fromString_data fromStr r p (text node) w).symm ▸ hnames
        have hrest := ih hpaths (w := (r.fromString fromStr p (text node) w).2.1) hnames'
          (hpolite.fromString fromStr p (text node) w)
        simp only
        rcases hout : r.fromString fromStr p (text node) w with ⟨r', w', out⟩
        rw [hout] at hb hrest
        obtain rfl : out = .ok b := hb
        exact hrest

/-- What updates do to one variable: it has the value of the last one that succeeded, and without
any the value it had. -/
theorem perform_objects (updates : List (String × String)) {r : Registry T ω} (w : ω)
    {name : String} {p : ℕ} {i : ι} {var : ConfigVar (T i) ω} (hname : r.data name = some p)
    (hvar : r.objects[p]? = some ⟨i, var⟩) :
    ∃ v, (perform fromStr updates r w).registry.objects[p]? = some ⟨i, var.assign v⟩ ∧
      match ((perform fromStr updates r w).succeeded.filter fun x => x.1 = name).getLast? with
      | none => v = var.val
      | some x => ∃ u, fromStr i x.2 = some u ∧ (v = u ∨ (u == v) = true) := by
  induction updates generalizing r w var with
  | nil => exact ⟨var.val, hvar, rfl⟩
  | cons x updates ih =>
    obtain ⟨name', text⟩ := x
    rw [perform]
    rcases hlookup : r.LookupBase name' with - | q
    · exact ih w hname hvar
    · simp only
      have hdata := Registry.fromString_data fromStr r q text w
      by_cases hsame : name' = name
      · -- the update is one of the variable
        subst hsame
        obtain rfl := Option.some.inj (hname.symm.trans hlookup)
        obtain ⟨hobjects, hrest⟩ := Registry.fromString_eq fromStr hvar text w
        have hvar' : (r.fromString fromStr p text w).1.objects[p]? =
            some ⟨i, (var.fromString (fromStr i) text w).1⟩ := by
          rw [hobjects, List.getElem?_set_self (List.getElem?_eq_some_iff.mp hvar).1]
        obtain ⟨v', hv', hlast⟩ := ih (r.fromString fromStr p text w).2.1
          (hdata.symm ▸ hname) hvar'
        rw [hrest] at hv' hlast ⊢
        rcases var.fromString_val (fromStr i) text w with
          ⟨hok, v, u, hassign, hread, hvu⟩ | ⟨hnot, hassign⟩
        · rw [hassign, ConfigVar.assign_assign] at hv'
          refine ⟨v', hv', ?_⟩
          rw [hok, succeeds, if_pos rfl, List.filter_cons_of_pos (by simp), List.getLast?_cons]
          split at hlast
          · rename_i hnone
            rw [hassign] at hlast
            rw [hnone]
            exact ⟨u, hread, hlast ▸ hvu⟩
          · rename_i x hsome
            rw [hsome]
            exact hlast
        · rw [hassign] at hv' hlast
          refine ⟨v', hv', ?_⟩
          rw [if_neg (by simpa [succeeds_iff] using hnot)]
          exact hlast
      · -- it is one of another variable
        have hne : q ≠ p := by
          rintro rfl
          exact hsame (Registry.name_eq hlookup hname)
        obtain ⟨v', hv', hlast⟩ := ih (r.fromString fromStr q text w).2.1
          (hdata.symm ▸ hname) ((Registry.fromString_objects_of_ne fromStr hne text w).trans hvar)
        refine ⟨v', hv', ?_⟩
        by_cases hok : succeeds (r.fromString fromStr q text w).2.2 = true
        · rw [if_pos hok, List.filter_cons_of_neg (by simpa using hsame)]
          exact hlast
        · rw [if_neg hok]
          exact hlast

/-- Updates of other names leave a variable alone. -/
theorem perform_of_not_named {updates : List (String × String)} {r : Registry T ω} {w : ω}
    {name : String} {p : ℕ} (hname : r.data name = some p)
    (hnot : ∀ x ∈ updates, x.1 ≠ name) :
    (perform fromStr updates r w).registry.objects[p]? = r.objects[p]? := by
  obtain ⟨⟨i, var⟩, hvar, -⟩ := r.bound name p hname
  obtain ⟨v, hv, hlast⟩ := perform_objects fromStr updates w hname hvar
  have hnone : (perform fromStr updates r w).succeeded.filter (fun x => x.1 = name) = [] := by
    refine List.filter_eq_nil_iff.mpr fun x hx => ?_
    simpa using hnot x (succeeded_subset fromStr updates r w hx)
  rw [hnone] at hlast
  rw [hv, hvar, hlast]
  rfl

/-- **What `LoadFromYaml` does**, for a document and a registry of variables whose names are not
empty and whose listeners throw nothing but `std::exception`s. It calls `fromString` with the text
of each named node, in pre-order, on the variable of the node's path. A variable without such a
node stays as it is. A conversion that fails changes nothing, and the updates after it are made.
So in the end a variable has, up to `operator==`, the value of the last node of its path whose
update succeeded. -/
theorem load_from_yaml (root : NodeTree V) (r : Registry T ω) (w : ω) (hnames : r.data "" = none)
    (hpolite : r.Polite) :
    LoadFromYaml fromStr emit root r w =
        ((perform fromStr (updates emit root) r w).registry,
          (perform fromStr (updates emit root) r w).world, .ok ()) ∧
      (∀ name p, r.data name = some p → (∀ x ∈ updates emit root, x.1 ≠ name) →
        (perform fromStr (updates emit root) r w).registry.objects[p]? = r.objects[p]?) ∧
      (∀ (r' : Registry T ω) p i var text w', r'.objects[p]? = some ⟨i, var⟩ →
        fromStr i text = none → r'.fromString fromStr p text w' = (r', w', .ok false)) ∧
      ∀ name p i var, r.data name = some p → r.objects[p]? = some ⟨i, var⟩ →
        ∃ v, (perform fromStr (updates emit root) r w).registry.objects[p]? =
            some ⟨i, var.assign v⟩ ∧
          match ((perform fromStr (updates emit root) r w).succeeded.filter
            fun x => x.1 = name).getLast? with
          | none => v = var.val
          | some x => ∃ u, fromStr i x.2 = some u ∧ (v = u ∨ (u == v) = true) := by
  refine ⟨?_, fun name p hname hnot => perform_of_not_named fromStr hname hnot,
    fun r' p i var text w' hvar hread => Registry.fromString_of_unread fromStr hvar hread w',
    fun name p i var hname hvar => perform_objects fromStr _ w hname hvar⟩
  rw [LoadFromYaml, ListAllMember_eq, loadMembers_eq fromStr (text emit) ?_ hnames hpolite,
    List.map_map]
  · rfl
  · intro x hx
    obtain ⟨y, hy, rfl⟩ := List.mem_map.mp hx
    exact named_iff.mp (List.mem_filter.mp hy).2 y.1 List.prefix_rfl

end Perform

/-- Texts that are not empty. -/
def nonEmpty (_ : Unit) (text : String) : Option String := if text = "" then none else some text

/-- A registry with the variable `system.port`. -/
def portRegistry : Registry (fun _ : Unit => String) Unit :=
  Registry.empty.insert () "system.port" "8080" "system port"

/-- A document with four nodes that could be meant for it. Of the second one the path is not
allowed, and of the third one the text is refused. -/
def portDocument : NodeTree Style :=
  lines [("system", lines [("port", plain "80"), ("Port", plain "81")]), ("system.port", plain ""),
    ("", lines [("system.port", plain "443")])]

theorem load_from_yaml_portDocument :
    (LoadFromYaml nonEmpty (fun _ => "{}") portDocument portRegistry ()).2.2 = .ok () ∧
      (perform nonEmpty (updates (fun _ => "{}") portDocument) portRegistry ()).succeeded =
        [("system.port", "80"), ("system.port", "443")] ∧
      (LoadFromYaml nonEmpty (fun _ => "{}") portDocument portRegistry ()).1.objects =
        [⟨(), ConfigVar.create "system.port" "443" "system port"⟩] := by
  have hpolite : portRegistry.Polite := by
    intro o ho l hl
    obtain rfl := List.mem_singleton.mp ho
    exact absurd hl List.not_mem_nil
  have hload := (load_from_yaml nonEmpty (fun _ => "{}") portDocument portRegistry ()
    (by decide) hpolite).1
  rw [hload]
  exact ⟨rfl, by decide, rfl⟩

end Config

end Wille
