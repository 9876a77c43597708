import Wille.Config.LexicalCast

/-!
# Values that come back from their text

A value that is in a container is loaded as YAML and printed again before it is cast back. For a
number or a container that makes no difference. A string may be changed: the empty text is a null
node, which is printed as `~`, and a text that is no YAML cannot be loaded at all. So a value comes
back exactly when YAML leaves every string alone that is in a container.

One half of this is that what comes back is never changed by a second turn: it was printed of a
node, and loading it gives that node again.

## Main results

* `Built.gives_back` — a value whose strings are left alone
* `Built.inside_of_decode` — the strings in what comes back
* `Built.round_trip_iff` — when a value comes back
* `Built.empty_string` — the vector with one empty string does not
-/

namespace Wille

namespace Config

open Yaml

namespace Built

variable {y : YamlCpp}

/-- **A value in a container comes back** if the strings in it are left alone. -/
theorem gives_back (hy : y.LoadsBack) (hint : ∀ i, y.Unchanged (intText i)) {T : Type}
    (b : Built T) : ∀ x, b.Inside y.Unchanged x → (∃ s, b.Encodes y x s) ∧
      ∀ s, b.Encodes y x s → ∃ n, y.load s = some n ∧ b.decode y (y.emit n) = some x := by
  induction b with
  | int =>
    rintro i -
    refine ⟨⟨intText i, rfl⟩, ?_⟩
    rintro s rfl
    obtain ⟨n, hn, hemit⟩ := Option.map_eq_some_iff.mp (hint i)
    exact ⟨n, hn, by rw [hemit, decode, readInt_intText]⟩
  | string =>
    intro s hs
    refine ⟨⟨s, rfl⟩, ?_⟩
    rintro t rfl
    obtain ⟨n, hn, hemit⟩ := Option.map_eq_some_iff.mp hs
    exact ⟨n, hn, by rw [hemit, decode]⟩
  | items b c ih =>
    intro v hv
    obtain ⟨⟨l, ts, ns, hl, hts, hns⟩, hback⟩ := Container.loop_gives_back ih hv
    refine ⟨⟨_, l, ts, hl, hts, by rw [sequenceOf, hns, Option.map_some]⟩, ?_⟩
    rintro s ⟨l, ts, hl, hts, hs⟩
    obtain ⟨ns, hns, rfl⟩ := Option.map_eq_some_iff.mp hs
    obtain ⟨n, hn⟩ := exists_load_emitSequence hy ns
    refine ⟨n, hn, ?_⟩
    rw [decode, readItems, decodeItems_emit hy (listed_of_load hy hn), List.mapM_map]
    exact hback l ts ns hl hts hns
  | entries b c ih =>
    intro v hv
    have hentry : ∀ e : String × _, b.Inside y.Unchanged e.2 →
        (∃ t : String × String, t.1 = e.1 ∧ b.Encodes y e.2 t.2) ∧
          ∀ t : String × String, t.1 = e.1 ∧ b.Encodes y e.2 t.2 →
            ∃ n, (y.load t.2).map (t.1, ·) = some n ∧
              (b.decode y (y.emit n.2)).map (n.1, ·) = some e := by
      intro e he
      obtain ⟨⟨s, hs⟩, hread⟩ := ih e.2 he
      refine ⟨⟨(e.1, s), rfl, hs⟩, ?_⟩
      rintro ⟨key, s⟩ ⟨rfl, hs⟩
      obtain ⟨n, hn, hdecode⟩ := hread s hs
      exact ⟨(e.1, n), by rw [hn]; rfl, by rw [hdecode]; rfl⟩
    obtain ⟨⟨l, ts, ns, hl, hts, hns⟩, hback⟩ := Container.loop_gives_back hentry hv
    refine ⟨⟨_, l, ts, hl, hts, by rw [mapOf, hns, Option.map_some]⟩, ?_⟩
    rintro s ⟨l, ts, hl, hts, hs⟩
    obtain ⟨ns, hns, rfl⟩ := Option.map_eq_some_iff.mp hs
    obtain ⟨n, hn, -⟩ := hy.node (y.map ns)
    refine ⟨n, hn, ?_⟩
    rw [decode, readEntries, decodeEntries_emit hy (keyed_of_load hy hn), List.mapM_map]
    exact hback l ts ns hl hts hns

/-- **The strings in what comes back are left alone.** -/
theorem inside_of_decode (hy : y.LoadsBack) {T : Type} (b : Built T) : ∀ x s n x',
    b.Encodes y x s → y.load s = some n → b.decode y (y.emit n) = some x' →
      b.Inside y.Unchanged x' := by
  induction b with
  | int => exact fun _ _ _ _ _ _ _ => trivial
  | string =>
    rintro x s n x' - - hdecode
    obtain rfl := Option.some.inj hdecode
    obtain ⟨n', hload, hsame⟩ := hy.node n
    rw [Inside, YamlCpp.Unchanged, hload, Option.map_some, hsame.emit_eq]
  | items b c ih =>
    rintro v s n v' ⟨l, ts, hl, hts, hs⟩ hn hdecode
    obtain ⟨ns, hns, rfl⟩ := Option.map_eq_some_iff.mp hs
    rw [decode, readItems, decodeItems_emit hy (listed_of_load hy hn), List.mapM_map] at hdecode
    exact Container.loop_result ih hts hns hdecode
  | entries b c ih =>
    rintro v s n v' ⟨l, ts, hl, hts, hs⟩ hn hdecode
    obtain ⟨ns, hns, rfl⟩ := Option.map_eq_some_iff.mp hs
    rw [decode, readEntries, decodeEntries_emit hy (keyed_of_load hy hn), List.mapM_map] at hdecode
    refine Container.loop_result (fun e t n e' => ?_) hts hns hdecode
    rintro ⟨-, hwrite⟩ hload hread
    obtain ⟨m, hm, rfl⟩ := Option.map_eq_some_iff.mp hload
    obtain ⟨x', hx', rfl⟩ := Option.map_eq_some_iff.mp hread
    exact ih e.2 t.2 m x' hwrite hm hx'

/-- A container is loaded of its text, and printing what was loaded makes no difference to what is
read. -/
theorem exists_node_items (hy : y.LoadsBack) {E C : Type} {b : Built E} {c : Container E C} {v : C}
    {text : String} (h : (items b c).Encodes y v text) :
    ∃ node, y.load text = some node ∧
      (items b c).decode y (y.emit node) = (items b c).decode y text := by
  obtain ⟨l, ts, -, -, hs⟩ := h
  obtain ⟨ns, -, rfl⟩ := Option.map_eq_some_iff.mp hs
  obtain ⟨n, hn⟩ := exists_load_emitSequence hy ns
  have hlisted := listed_of_load hy hn
  refine ⟨n, hn, ?_⟩
  rw [decode, decode, readItems, readItems, decodeItems_emit hy hlisted,
    decodeItems_of_listed hn hlisted]

theorem exists_node_entries (hy : y.LoadsBack) {T C : Type} {b : Built T}
    {c : Container (String × T) C} {v : C} {text : String} (h : (entries b c).Encodes y v text) :
    ∃ node, y.load text = some node ∧
      (entries b c).decode y (y.emit node) = (entries b c).decode y text := by
  obtain ⟨l, ts, -, -, hs⟩ := h
  obtain ⟨ns, -, rfl⟩ := Option.map_eq_some_iff.mp hs
  obtain ⟨n, hn, hsame⟩ := hy.node (y.map ns)
  exact ⟨n, hn, by rw [hsame.emit_eq]⟩

/-- A value that is loaded of its text and printed comes back exactly when its strings are left
alone. -/
theorem comes_back_iff (hy : y.LoadsBack) (hint : ∀ i, y.Unchanged (intText i)) {T : Type}
    {b : Built T} {v : T} (hnode : ∀ {text}, b.Encodes y v text →
      ∃ node, y.load text = some node ∧ b.decode y (y.emit node) = b.decode y text) :
    ((∃ text, b.Encodes y v text) ∧
        ∀ text, b.Encodes y v text → b.decode y text = some v) ↔ b.Inside y.Unchanged v := by
  constructor
  · rintro ⟨⟨text, htext⟩, hback⟩
    obtain ⟨node, hload, hdecode⟩ := hnode htext
    exact inside_of_decode hy b v text node v htext hload (hdecode.trans (hback text htext))
  · intro hinside
    obtain ⟨hexists, hback⟩ := gives_back hy hint b v hinside
    refine ⟨hexists, fun text htext => ?_⟩
    obtain ⟨node, hload, hread⟩ := hback text htext
    obtain ⟨node', hload', hdecode⟩ := hnode htext
    obtain rfl := Option.some.inj (hload.symm.trans hload')
    exact hdecode.symm.trans hread

/-- **When a value comes back.** `LexicalCast` from its text gives a value again exactly when YAML
leaves every string alone that is in a container. And then `fromString` of the text changes
nothing. -/
theorem round_trip_iff (hy : y.LoadsBack) (hint : ∀ i, y.Unchanged (intText i)) {T : Type}
    (b : Built T) (v : T) :
    (((∃ text, b.Encodes y v text) ∧
        ∀ text, b.Encodes y v text → b.decode y text = some v) ↔ b.Leaves y.Unchanged v) ∧
      (b.Leaves y.Unchanged v → ∀ [BEq T] [ReflBEq T] {ω : Type} (var : ConfigVar T ω)
        (text : String) (w : ω), var.val = v → b.Encodes y v text →
          var.fromString (b.decode y) text w = (var, w, .ok true)) := by
  have hiff : ((∃ text, b.Encodes y v text) ∧
      ∀ text, b.Encodes y v text → b.decode y text = some v) ↔ b.Leaves y.Unchanged v := by
    cases b with
    | int =>
      refine iff_of_true ⟨⟨intText v, rfl⟩, ?_⟩ trivial
      rintro text rfl
      exact readInt_intText v
    | string =>
      refine iff_of_true ⟨⟨v, rfl⟩, ?_⟩ trivial
      rintro text rfl
      rfl
    | items b c => exact comes_back_iff hy hint fun h => exists_node_items hy h
    | entries b c => exact comes_back_iff hy hint fun h => exists_node_entries hy h
  refine ⟨hiff, fun hleaves _ _ ω var text w hval htext => ?_⟩
  have hread := (hiff.mpr hleaves).2 text htext
  rw [ConfigVar.fromString, hread]
  simp only [ConfigVar.setValue, ConfigVar.compare, hval, BEq.rfl, if_true]

/-! ### Hosts and an empty string -/

/-- The text is that of a number. -/
def isNumber (text : String) : Bool := (readInt text).map intText == some text

theorem isNumber_intText (i : Int32) : isNumber (intText i) = true := by
  rw [isNumber, readInt_intText, Option.map_some, beq_self_eq_true]

theorem not_comment_of_isNumber (text : String) (h : isNumber text = true) :
    text ≠ "" ∧ text.toList.head? ≠ some '#' := by
  refine ⟨?_, fun hcomment => ?_⟩
  · rintro rfl
    exact absurd h (by decide)
  · obtain ⟨cs, hcs⟩ := List.head?_eq_some_iff.mp hcomment
    rw [isNumber, readInt, hcs] at h
    exact Bool.false_ne_true h

/-- Two sequences, of which the first is written in brackets, and a word; and what they are part
of. -/
def hostTexts : List (String × NodeTree Style) :=
  let row := NodeTree.sequence .flow [plain "1", plain "2"]
  let column := NodeTree.sequence .block [plain "1", plain "2"]
  let hosts := NodeTree.sequence .block [row, column, plain "localhost"]
  [("~", .null .block), ("[1, 2]", row), ("- 1\n- 2", column), ("localhost", plain "localhost"),
    ("- [1, 2]\n-\n  - 1\n  - 2\n- localhost", hosts),
    ("hosts:\n  - [1, 2]\n  -\n    - 1\n    - 2\n  - localhost", lines [("hosts", hosts)])]

/-- A library that knows these texts, and numbers. -/
noncomputable def hostYaml : YamlCpp :=
  (YamlTable.ofList isNumber hostTexts (by decide) (by decide) not_comment_of_isNumber).yaml
    none none fun _ => none

theorem loadsBack_hostYaml : hostYaml.LoadsBack := YamlTable.loadsBack _ none none fun _ => none

theorem unchanged_intText (i : Int32) : hostYaml.Unchanged (intText i) :=
  (YamlCpp.unchanged_iff (YamlTable.load_plain none none _ (isNumber_intText i))).mpr
    (YamlTable.emit_plain none none _ (isNumber_intText i))

theorem load_hostTexts {e : String × NodeTree Style} (he : e ∈ hostTexts) :
    hostYaml.load e.1 = some e.2 := YamlTable.load_ofList none none _ he

theorem emit_hostTexts {e : String × NodeTree Style} (he : e ∈ hostTexts) :
    hostYaml.emit e.2 = e.1 := by
  refine YamlTable.emit_ofList none none _ ?_ ?_ he
  · simp [hostTexts, plain, lines]
  · rintro ⟨hnumber, -⟩
    have hnone : hostTexts.all fun e => !isNumber e.2.Scalar := by decide
    simpa [hnumber] using List.all_eq_true.mp hnone e he

/-- A map with one vector of strings. -/
def hosts : {l : List (String × List String) // OrderedSet.Sorted keyLess l} :=
  ⟨[("hosts", ["[1, 2]", "- 1\n- 2", "localhost"])], List.pairwise_singleton _ _⟩

/-- The strings are loaded, and the nodes are put together. -/
theorem encodes_hosts : (map (vector string)).Encodes hostYaml hosts
    "hosts:\n  - [1, 2]\n  -\n    - 1\n    - 2\n  - localhost" := by
  have hload {text : String} {node : NodeTree Style} (he : (text, node) ∈ hostTexts) :
      hostYaml.load text = some node := load_hostTexts he
  have hitems : sequenceOf hostYaml ["[1, 2]", "- 1\n- 2", "localhost"] =
      some "- [1, 2]\n-\n  - 1\n  - 2\n- localhost" := by
    rw [sequenceOf, List.mapM_cons, List.mapM_cons, List.mapM_cons, hload (.tail _ (.head _)),
      hload (.tail _ (.tail _ (.head _))), hload (.tail _ (.tail _ (.tail _ (.head _))))]
    exact congrArg some (emit_hostTexts (.tail _ (.tail _ (.tail _ (.tail _ (.head _))))))
  refine ⟨_, [("hosts", "- [1, 2]\n-\n  - 1\n  - 2\n- localhost")], rfl,
    .cons ⟨rfl, _, _, rfl, ?_, hitems⟩ .nil, ?_⟩
  · exact .cons rfl (.cons rfl (.cons rfl .nil))
  · rw [mapOf, List.mapM_cons, hload (.tail _ (.tail _ (.tail _ (.tail _ (.head _)))))]
    exact congrArg some
      (emit_hostTexts (.tail _ (.tail _ (.tail _ (.tail _ (.tail _ (.head _)))))))

theorem round_trip_iff_hosts :
    (map (vector string)).decode hostYaml
        "hosts:\n  - [1, 2]\n  -\n    - 1\n    - 2\n  - localhost" = some hosts ∧
      ∀ text, (map (vector string)).Encodes hostYaml hosts text →
        (map (vector string)).decode hostYaml text = some hosts := by
  have hleaves : (map (vector string)).Leaves hostYaml.Unchanged hosts := by
    rintro _ rfl e he
    obtain rfl := List.mem_singleton.mp he
    rintro _ rfl s hs
    have htexts : ∀ s ∈ ["[1, 2]", "- 1\n- 2", "localhost"], ∃ e ∈ hostTexts, e.1 = s := by decide
    obtain ⟨e, he, rfl⟩ := htexts s hs
    exact (YamlCpp.unchanged_iff (load_hostTexts he)).mpr (emit_hostTexts he)
  have hback := ((round_trip_iff loadsBack_hostYaml unchanged_intText (map (vector string))
    hosts).1.mpr hleaves).2
  exact ⟨hback _ encodes_hosts, hback⟩

/-- **The vector with one empty string** does not come back: the empty text is loaded as a null
node, which is printed as `~`. -/
theorem empty_string :
    ¬∀ y : YamlCpp, y.LoadsBack → (∀ i, y.Unchanged (intText i)) →
      (∃ n, y.load "" = some n ∧ y.view n = .null ∧ y.emit n = "~") →
        ∀ {T : Type} (b : Built T) (v : T), (∃ text, b.Encodes y v text) ∧
          ∀ text, b.Encodes y v text → b.decode y text = some v := by
  intro h
  have hload : hostYaml.load "" = some (.null .block) :=
    YamlTable.load_of_parse _ none none _ (YamlTable.parse_empty _)
  have hemit : hostYaml.emit (.null .block) = "~" := emit_hostTexts (.head _)
  have hback := (comes_back_iff loadsBack_hostYaml unchanged_intText
    fun htext => exists_node_items loadsBack_hostYaml htext).mp
      (h hostYaml loadsBack_hostYaml unchanged_intText ⟨_, hload, rfl, hemit⟩ (vector string) [""])
  have hunchanged : hostYaml.Unchanged "" := hback [""] rfl "" (List.mem_singleton_self "")
  exact absurd (hemit.symm.trans ((YamlCpp.unchanged_iff hload).mp hunchanged)) (by decide)

end Built

end Config

end Wille
