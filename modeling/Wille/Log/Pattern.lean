import Wille.Log.Formatter
import Mathlib.Data.List.Chain

/-!
# The language of patterns

A pattern is meant to be a list of items: literal texts, and directives with or without a format in
braces. Every list in which the items can be told apart is read back item by item. And a pattern
without two `%` in a row that is read without an error is made of such a list.

Two `%` in a row are another matter: `init` appends a `%` to the literal text but looks at the
second one again.

## Main definitions

* `Item`, `Item.text`, `Item.piece`, `Item.object`
* `WellFormed` — the lists whose items can be told apart

## Main results

* `scan_text` — the outer loop reads a list back
* `exists_items` — what is read without an error is made of a list
* `pattern_items` — both directions, for `LogFormatter`
-/

namespace Wille

namespace Log

/-- An item of a pattern. -/
inductive Item where
  | literal (text : List Char)
  | directive (letter : Char) (fmt : Option (List Char))
  deriving DecidableEq

namespace Item

/-- How the item is written. -/
def text : Item → List Char
  | .literal text => text
  | .directive letter none => ['%', letter]
  | .directive letter (some fmt) => '%' :: letter :: '{' :: (fmt ++ ['}'])

/-- The element of `vec` it is read as. -/
def piece : Item → Piece
  | .literal text => ⟨text, [], 0⟩
  | .directive letter fmt => ⟨[letter], fmt.getD [], 1⟩

/-- The `FormatItem` it stands for. Only a date has a format, and the usual one if it is given
none. -/
def object : Item → Option FormatItem
  | .literal text => some (.string text)
  | .directive 'm' _ => some .message
  | .directive 'p' _ => some .level
  | .directive 'r' _ => some .elapse
  | .directive 'c' _ => some .name
  | .directive 't' _ => some .threadId
  | .directive 'n' _ => some .newLine
  | .directive 'd' (some (c :: fmt)) => some (.dateTime (c :: fmt))
  | .directive 'd' _ => some (.dateTime "%Y-%m-%d %H:%M:%S".toList)
  | .directive 'f' _ => some .filename
  | .directive 'l' _ => some .line
  | .directive 'T' _ => some .tab
  | .directive 'F' _ => some .fiberId
  | .directive 'N' _ => some .threadName
  | .directive _ _ => none

/-- A literal text is not empty and has no `%`, a directive has a known letter, and its format has
no closing brace. -/
def Allowed : Item → Prop
  | .literal text => text ≠ [] ∧ '%' ∉ text
  | .directive letter fmt => letter ∈ letters ∧ ∀ f ∈ fmt, '}' ∉ f

/-- The table of the code has for each letter what the letter stands for. -/
theorem object_directive {letter : Char} (h : letter ∈ letters) (fmt : Option (List Char)) :
    (formatItems [letter]).map (fun new => new (fmt.getD [])) = object (.directive letter fmt) := by
  have hletters : letters = ['m', 'p', 'r', 'c', 't', 'n', 'd', 'f', 'l', 'T', 'F', 'N'] := by
    decide
  simp only [hletters, List.mem_cons, List.not_mem_nil, or_false] at h
  rcases h with rfl | rfl | rfl | rfl | rfl | rfl | rfl | rfl | rfl | rfl | rfl | rfl
  case inr.inr.inr.inr.inr.inr.inl =>
    -- a date
    rcases fmt with - | - | ⟨c, fmt⟩ <;> rfl
  all_goals rfl

/-- What may come after an item: no literal text after another one, and none that goes on with a
directive that has no braces. -/
def Before : Item → Item → Prop
  | .literal _, .literal _ => False
  | .directive _ none, .literal text => Stops text
  | _, _ => True

instance : DecidablePred Item.Allowed
  | .literal _ => inferInstanceAs (Decidable (_ ∧ _))
  | .directive _ _ => inferInstanceAs (Decidable (_ ∧ _))

instance : DecidableRel Item.Before
  | .literal _, .literal _ => instDecidableFalse
  | .literal _, .directive _ _ => instDecidableTrue
  | .directive _ none, .literal text =>
    (text.head?.decidableForallMem : Decidable (∀ c ∈ text.head?, goesOn c = false))
  | .directive _ (some _), .literal _ => instDecidableTrue
  | .directive _ none, .directive _ _ => instDecidableTrue
  | .directive _ (some _), .directive _ _ => instDecidableTrue

theorem Before.literal_left {text : List Char} {item : Item} :
    Before (.literal text) item ↔ ∀ text', item ≠ .literal text' := by
  cases item <;> simp [Before]

end Item

/-- The list of items can be told apart when it is written down. -/
structure WellFormed (items : List Item) : Prop where
  allowed : ∀ item ∈ items, item.Allowed
  apart : items.IsChain Item.Before

/-- How a list of items is written. -/
def written (items : List Item) : List Char := items.flatMap Item.text

@[simp] theorem written_nil : written [] = [] := rfl

@[simp] theorem written_cons (item : Item) (items : List Item) :
    written (item :: items) = item.text ++ written items := rfl

theorem WellFormed.tail {item : Item} {items : List Item} (h : WellFormed (item :: items)) :
    WellFormed items :=
  ⟨fun x hx => h.allowed x (List.mem_cons_of_mem item hx), h.apart.tail⟩

/-- What is written after a directive without braces does not go on with it. -/
theorem stops_written {letter : Char} {items : List Item}
    (h : WellFormed (.directive letter none :: items)) : Stops (written items) := by
  rcases items with - | ⟨item, items⟩
  · exact fun c hc => absurd hc (by simp)
  · have hbefore := (List.isChain_cons_cons.mp h.apart).1
    have hallowed := h.tail.allowed item (List.mem_cons_self ..)
    rw [written_cons]
    cases item with
    | literal text =>
      obtain ⟨c, text, rfl⟩ := List.exists_cons_of_ne_nil hallowed.1
      exact hbefore
    | directive letter' fmt =>
      have hpercent : goesOn '%' = false := by decide
      cases fmt <;> exact fun c hc => Option.some.inj hc ▸ hpercent

/-- **The outer loop reads a list back**, after a literal text unless the list begins with one. -/
theorem scan_written {items : List Item} (h : WellFormed items) {nstr : List Char}
    (hnstr : nstr = [] ∨ ∀ item ∈ items.head?, ∀ text, item ≠ .literal text) :
    scan nstr 0 (written items) = ⟨flush nstr ++ items.map Item.piece, false⟩ := by
  induction items generalizing nstr with
  | nil => rw [written_nil, scan, List.map_nil, List.append_nil]
  | cons item items ih =>
    have hallowed := h.allowed item (List.mem_cons_self ..)
    rw [written_cons]
    cases item with
    | literal text =>
      obtain rfl : nstr = [] := by
        rcases hnstr with hnstr | hnstr
        · exact hnstr
        · exact absurd rfl (hnstr _ rfl text)
      have hnext : ∀ item ∈ items.head?, ∀ text', item ≠ .literal text' := by
        intro item hitem
        obtain ⟨rest, rfl⟩ := List.head?_eq_some_iff.mp hitem
        exact Item.Before.literal_left.mp (List.isChain_cons_cons.mp h.apart).1
      rw [Item.text, scan_append hallowed.2, List.nil_append, ih h.tail (Or.inr hnext), flush,
        if_neg hallowed.1]
      rfl
    | directive letter fmt =>
      have hhead : ∀ cs, (letter :: cs).head? ≠ some '%' := fun cs heq =>
        (goesOn_of_mem_letters hallowed.1).2.2 (Option.some.inj heq)
      cases fmt with
      | none =>
        rw [Item.text, List.cons_append, List.singleton_append, scan_directive (hhead _)
          (scanDirective_name hallowed.1 (stops_written h)), ih h.tail (Or.inl rfl)]
        rfl
      | some fmt =>
        have hfmt : '}' ∉ fmt := hallowed.2 fmt rfl
        rw [Item.text, List.cons_append, List.cons_append, List.cons_append, List.append_assoc,
          List.singleton_append, scan_directive (hhead _)
          (scanDirective_braces hallowed.1 hfmt _), ih h.tail (Or.inl rfl)]
        rfl

/-! ### What is read without an error -/

/-- A character is put in front of a literal text, or of what comes before one. -/
def consChar (c : Char) : List Item → List Item
  | .literal text :: items => .literal (c :: text) :: items
  | items => .literal [c] :: items

theorem written_consChar (c : Char) (items : List Item) :
    written (consChar c items) = c :: written items := by
  rcases items with - | ⟨item, items⟩
  · rfl
  · cases item <;> rfl

theorem WellFormed.consChar {items : List Item} (h : WellFormed items) {c : Char} (hc : c ≠ '%') :
    WellFormed (consChar c items) := by
  have hone : (Item.literal [c]).Allowed := ⟨List.cons_ne_nil _ _, by simpa using Ne.symm hc⟩
  rcases items with - | ⟨item, items⟩
  · exact ⟨List.forall_mem_singleton.mpr hone, List.isChain_singleton _⟩
  · cases item with
    | literal text =>
      have hallowed := h.allowed _ (List.mem_cons_self ..)
      refine ⟨List.forall_mem_cons.mpr ⟨⟨List.cons_ne_nil _ _, ?_⟩, h.tail.allowed⟩, ?_⟩
      · exact List.mem_cons.not.mpr (not_or.mpr ⟨Ne.symm hc, hallowed.2⟩)
      · refine List.isChain_cons.mpr ⟨fun item hitem => ?_, h.tail.apart⟩
        have hbefore := (List.isChain_cons.mp h.apart).1 item hitem
        exact Item.Before.literal_left.mpr (Item.Before.literal_left.mp hbefore)
    | directive letter fmt =>
      exact ⟨List.forall_mem_cons.mpr ⟨hone, h.allowed⟩,
        List.isChain_cons_cons.mpr ⟨trivial, h.apart⟩⟩

/-- A directive in front of what is written after it. -/
theorem WellFormed.cons_directive {items : List Item} (h : WellFormed items) {letter : Char}
    {fmt : Option (List Char)} (hallowed : (Item.directive letter fmt).Allowed)
    (hstops : fmt = none → Stops (written items)) :
    WellFormed (.directive letter fmt :: items) := by
  refine ⟨List.forall_mem_cons.mpr ⟨hallowed, h.allowed⟩,
    List.isChain_cons.mpr ⟨fun item hitem => ?_, h.apart⟩⟩
  obtain ⟨rest, rfl⟩ := List.head?_eq_some_iff.mp hitem
  cases item with
  | directive => cases fmt <;> exact trivial
  | literal text =>
    cases fmt with
    | some f => exact trivial
    | none =>
      obtain ⟨c, text, rfl⟩ :=
        List.exists_cons_of_ne_nil (h.allowed _ (List.mem_cons_self ..)).1
      exact hstops rfl

/-- A directive that makes no error is one with a known letter. -/
theorem letter_of_item {str fmt : List Char} (h : (Piece.item ⟨str, fmt, 1⟩).2 = false) :
    ∃ c ∈ letters, str = [c] := by
  refine formatItems_isSome.mp ?_
  rw [Piece.item, if_neg Nat.one_ne_zero] at h
  rcases hnone : formatItems str with - | new
  · simp [hnone] at h
  · rfl

/-- **What is read without an error is made of a list of items.** -/
theorem exists_items (nstr : List Char) : ∀ cs : List Char, ¬['%', '%'] <:+: cs →
    (scan nstr 0 cs).error = false → (∀ piece ∈ (scan nstr 0 cs).vec, piece.item.2 = false) →
      ∃ items, WellFormed items ∧ cs = written items
  | [], _, _, _ => ⟨[], ⟨fun _ h => absurd h List.not_mem_nil, List.isChain_nil⟩, rfl⟩
  | c :: cs, hdouble, herror, hitems => by
    have hdouble' : ¬['%', '%'] <:+: cs :=
      fun h => hdouble (h.trans (List.suffix_cons c cs).isInfix)
    by_cases hc : c = '%'
    · subst hc
      have hhead : cs.head? ≠ some '%' := by
        intro hhead
        obtain ⟨rest, rfl⟩ := List.head?_eq_some_iff.mp hhead
        exact hdouble (List.prefix_append ['%', '%'] rest).isInfix
      rcases hscan : scanDirective [] cs with ⟨str, fmt, rest⟩ | -
      · have hrest := suffix_of_closed hscan
        have hshorter : rest.length < cs.length + 1 := Nat.lt_succ_of_le hrest.length_le
        rw [scan_directive hhead hscan] at herror hitems
        obtain ⟨items, hwell, hwritten⟩ := exists_items [] rest
          (fun h => hdouble' (h.trans hrest.isInfix)) herror
          fun piece hpiece => hitems piece (by simp [hpiece])
        obtain ⟨letter, hletter, rfl⟩ := letter_of_item (hitems ⟨str, fmt, 1⟩ (by simp))
        obtain ⟨name, hname, ⟨rfl, rfl, hstops⟩ | ⟨hfmt, rfl⟩⟩ := scanDirective_closed hscan
        · obtain rfl : [letter] = name := hname
          refine ⟨.directive letter none :: items, hwell.cons_directive ⟨hletter, by simp⟩
            fun _ => hwritten ▸ hstops, ?_⟩
          rw [written_cons, ← hwritten]
          rfl
        · obtain rfl : [letter] = name := hname
          refine ⟨.directive letter (some fmt) :: items, hwell.cons_directive ⟨hletter, ?_⟩
            (absurd · (Option.some_ne_none fmt)), ?_⟩
          · exact fun f hf => Option.some.inj hf ▸ hfmt
          · rw [written_cons, ← hwritten, Item.text]
            simp
      · rw [scan_unclosed hhead hscan] at herror
        exact absurd herror.symm Bool.false_ne_true
    · have hstep : scan nstr 0 (c :: cs) = scan (nstr ++ [c]) 0 cs := by
        rw [scan, if_pos hc]
      rw [hstep] at herror hitems
      obtain ⟨items, hwell, rfl⟩ := exists_items (nstr ++ [c]) cs hdouble' herror hitems
      exact ⟨consChar c items, hwell.consChar hc, (written_consChar c items).symm⟩
termination_by cs => cs.length

/-- **The language of patterns.** A list of items that can be told apart is read back, item by
item and without an error. And a pattern that has no two `%` in a row and is read without an error
is made of such a list. -/
theorem pattern_items :
    (∀ items, WellFormed items →
      (LogFormatter.create (String.ofList (written items))).isError = false ∧
        (scan [] 0 (written items)).vec = items.map Item.piece ∧
        (LogFormatter.create (String.ofList (written items))).items.map some =
          items.map Item.object) ∧
      ∀ pattern : String, ¬['%', '%'] <:+: pattern.toList →
        (LogFormatter.create pattern).isError = false →
          ∃ items, WellFormed items ∧ pattern = String.ofList (written items) := by
  constructor
  · intro items h
    have hscan := scan_written h (Or.inl rfl)
    have hitem : ∀ item ∈ items,
        item.piece.item.2 = false ∧ some item.piece.item.1 = item.object := by
      intro item hitem
      have hallowed := h.allowed item hitem
      cases item with
      | literal text => exact ⟨rfl, rfl⟩
      | directive letter fmt =>
        have hsome := formatItems_isSome.mpr ⟨letter, hallowed.1, rfl⟩
        obtain ⟨new, hnew⟩ := Option.isSome_iff_exists.mp hsome
        rw [← Item.object_directive hallowed.1]
        simp [Item.piece, Piece.item, hnew]
    refine ⟨?_, ?_, ?_⟩
    · rw [LogFormatter.isError_create, String.toList_ofList, hscan]
      refine ⟨rfl, fun piece hpiece => ?_⟩
      obtain ⟨item, hmem, rfl⟩ := List.mem_map.mp hpiece
      exact (hitem item hmem).1
    · rw [hscan]
      rfl
    · simp only [LogFormatter.create, String.toList_ofList, hscan, flush, if_true, List.nil_append,
        List.map_map]
      exact List.map_congr_left fun item hmem => (hitem item hmem).2
  · intro pattern hdouble herror
    obtain ⟨hscan, hitems⟩ := LogFormatter.isError_create.mp herror
    obtain ⟨items, hwell, hwritten⟩ := exists_items [] pattern.toList hdouble hscan hitems
    exact ⟨items, hwell, by rw [← hwritten, String.ofList_toList]⟩

/-- A date with a format, a message and the end of the line. -/
def sampleItems : List Item :=
  [.directive 'd' (some "%Y".toList), .literal "-".toList, .directive 'm' none,
    .literal "[".toList, .directive 'n' none]

theorem pattern_items_sampleItems :
    String.ofList (written sampleItems) = "%d{%Y}-%m[%n" ∧
      (LogFormatter.create (String.ofList (written sampleItems))).items.map some =
        [.dateTime "%Y".toList, .string "-".toList, .message, .string "[".toList,
          .newLine].map some ∧
      ∃ items, WellFormed items ∧
        String.ofList (written sampleItems) = String.ofList (written items) := by
  obtain ⟨herror, -, hitems⟩ := pattern_items.1 sampleItems ⟨by decide, by decide⟩
  have hdouble : ¬['%', '%'] <:+: (String.ofList (written sampleItems)).toList := by
    rw [String.toList_ofList]
    decide
  exact ⟨by decide, hitems.trans (by decide), pattern_items.2 _ hdouble herror⟩

end Log

end Wille
