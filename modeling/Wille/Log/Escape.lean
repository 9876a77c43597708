import Wille.Log.Event
import Wille.Log.Pattern
import Mathlib.Data.List.TakeWhile

/-!
# The escaped percent sign

The grammar comment of `init` promises a `%%` for a `%`. The outer loop appends the first of two
`%` to the literal text and looks at the second one again, which then begins a directive. So a text
in which each `%` is doubled is read back only if there is none.

Of a text with a `%` the pattern is either rejected, or there is an event for which the output is
another text. The two are compared from the end: behind the last directive they agree, and what a
directive writes ends in another character than the directive itself.

## Main definitions

* `doubled` — the text with every `%` doubled
* `Documented` — what is documented of `strftime`
* `Literally` — the doubled text is accepted, and every event is formatted to the text

## Main results

* `differ_of_escape` — the output of a doubled text differs from the text behind its first `%`
* `literally_iff` — only a text without `%` comes back
-/

namespace Wille

namespace Log

/-- The text with every `%` doubled. -/
def doubled (text : List Char) : List Char :=
  text.flatMap fun c => if c = '%' then ['%', '%'] else [c]

@[simp] theorem doubled_nil : doubled [] = [] := rfl

theorem doubled_percent (text : List Char) :
    doubled ('%' :: text) = '%' :: '%' :: doubled text := rfl

theorem doubled_cons {c : Char} (hc : c ≠ '%') (text : List Char) :
    doubled (c :: text) = c :: doubled text := by
  rw [doubled, List.flatMap_cons, if_neg hc]
  rfl

theorem doubled_append (text text' : List Char) :
    doubled (text ++ text') = doubled text ++ doubled text' := List.flatMap_append

/-- A text without `%` stays as it is. -/
theorem doubled_eq_self {text : List Char} (h : '%' ∉ text) : doubled text = text := by
  induction text with
  | nil => rfl
  | cons c text ih =>
    obtain ⟨hc, htext⟩ := not_or.mp (List.mem_cons.not.mp h)
    rw [doubled_cons (Ne.symm hc), ih htext]

theorem mem_doubled {c : Char} {text : List Char} (h : c ∈ text) : c ∈ doubled text :=
  List.mem_flatMap.mpr ⟨c, h, by split <;> simp_all⟩

theorem head?_doubled (text : List Char) : (doubled text).head? = text.head? := by
  rcases text with - | ⟨c, text⟩
  · rfl
  · by_cases hc : c = '%'
    · rw [hc, doubled_percent, List.head?_cons, List.head?_cons]
    · rw [doubled_cons hc, List.head?_cons, List.head?_cons]

/-- A character other than `%` stands in the doubled text where it stands in the text. -/
theorem doubled_eq_append {c : Char} (hc : c ≠ '%') {text before rest : List Char}
    (h : doubled text = before ++ c :: rest) :
    ∃ f u, text = f ++ c :: u ∧ before = doubled f ∧ rest = doubled u := by
  induction text generalizing before with
  | nil => exact absurd h (by simp)
  | cons d text ih =>
    by_cases hd : d = '%'
    · subst hd
      rw [doubled_percent] at h
      rcases before with - | ⟨x, - | ⟨y, before⟩⟩
      · exact absurd (List.cons.inj h).1.symm hc
      · exact absurd (List.cons.inj (List.cons.inj h).2).1.symm hc
      · simp only [List.cons_append, List.cons.injEq] at h
        obtain ⟨rfl, rfl, h⟩ := h
        obtain ⟨f, u, rfl, rfl, rfl⟩ := ih h
        exact ⟨'%' :: f, u, rfl, rfl, rfl⟩
    · rw [doubled_cons hd] at h
      rcases before with - | ⟨x, before⟩
      · obtain ⟨rfl, rfl⟩ := List.cons.inj h
        exact ⟨[], text, rfl, rfl, rfl⟩
      · simp only [List.cons_append, List.cons.injEq] at h
        obtain ⟨rfl, h⟩ := h
        obtain ⟨f, u, rfl, rfl, rfl⟩ := ih h
        exact ⟨d :: f, u, rfl, (doubled_cons hd f).symm, rfl⟩

/-- Doubling does not move the end of a C string. -/
theorem c_str_doubled (text : List Char) : c_str (doubled text) = doubled (c_str text) := by
  induction text with
  | nil => rfl
  | cons c text ih =>
    by_cases hnull : c = '\x00'
    · subst hnull
      rfl
    · have hcons : ∀ {c : Char} (rest : List Char), c ≠ '\x00' →
          c_str (c :: rest) = c :: c_str rest :=
        fun rest h => List.takeWhile_cons_of_pos (decide_eq_true h)
      by_cases hc : c = '%'
      · subst hc
        rw [doubled_percent, hcons _ hnull, hcons _ hnull, hcons _ hnull, ih, doubled_percent]
      · rw [doubled_cons hc, hcons _ hnull, hcons _ hnull, ih, doubled_cons hc]

/-! ### Texts that differ -/

/-- From the end, the two texts agree up to a place where they differ. -/
def Differ (a b : List Char) : Prop := ∃ x y w, x ≠ y ∧ x :: w <:+ a ∧ y :: w <:+ b

theorem Differ.append {a b : List Char} (h : Differ a b) (p q : List Char) :
    Differ (p ++ a) (q ++ b) := by
  obtain ⟨x, y, w, hne, ha, hb⟩ := h
  exact ⟨x, y, w, hne, ha.trans (List.suffix_append p a), hb.trans (List.suffix_append q b)⟩

theorem Differ.ne {a b : List Char} (h : Differ a b) : a ≠ b := by
  rintro rfl
  obtain ⟨x, y, w, hne, ha, hb⟩ := h
  have hsuffix := List.suffix_of_suffix_length_le ha hb (Nat.le_refl _)
  exact hne (List.cons.inj (hsuffix.eq_of_length rfl)).1

/-! ### What a directive writes -/

/-- What is documented of `strftime`: characters are copied, and `%%` is a `%`; and `%S` is a
decimal number. -/
structure Documented (strftime : Strftime) : Prop where
  copies : ∀ {text time out}, '\x00' ∉ text → strftime (doubled text) time = some out → out = text
  seconds : ∀ {time out}, strftime dateTimeFormat time = some out →
    ∃ d ∈ out.getLast?, d.isDigit = true

/-- An event without any text. -/
def blankEvent : LogEvent :=
  ⟨"", 0, 0, 0, 0, 0, "", "", .create "", .DEBUG⟩

/-- A directive of another kind than a time, for an event without any text: what it writes does not
end in a closing brace or a letter of a directive. -/
theorem last_of_format {strftime : Strftime} {c : Char} (hc : c ∈ letters) (hd : c ≠ 'd')
    {new : List Char → FormatItem} (hnew : formatItems [c] = some new) {fmt out : List Char}
    (hout : (new fmt).format strftime .DEBUG blankEvent = some out) :
    ∀ x ∈ ('%' :: out).getLast?, x ∉ '}' :: letters := by
  have hletters : letters = ['m', 'p', 'r', 'c', 't', 'n', 'd', 'f', 'l', 'T', 'F', 'N'] := rfl
  simp only [hletters, List.mem_cons, List.not_mem_nil, or_false] at hc
  rcases hc with rfl | rfl | rfl | rfl | rfl | rfl | rfl | rfl | rfl | rfl | rfl | rfl
  case inr.inr.inr.inr.inr.inr.inl => exact absurd rfl hd
  all_goals
    obtain rfl := Option.some.inj hnew
    obtain rfl := Option.some.inj hout
    -- only the last character is looked at
    refine fun x hx => of_decide_eq_true
      ((Option.all_eq_true (fun x => decide (x ∉ '}' :: letters)) _).mp ?_ x hx)
    decide

/-- **What a directive writes** for an event without any text: it does not end in the character that
the directive ends in. -/
theorem last_ne {strftime : Strftime} (h : Documented strftime) {c : Char} (hc : c ∈ letters)
    {new : List Char → FormatItem} (hnew : formatItems [c] = some new) {f out : List Char}
    (hf : '}' ∉ f) (hout : (new (doubled f)).format strftime .DEBUG blankEvent = some out) :
    ∀ x ∈ ('%' :: out).getLast?, x ≠ '}' ∧ (f = [] → x ≠ c) := by
  intro x hx
  by_cases hd : c = 'd'
  · subst hd
    obtain rfl := Option.some.inj hnew
    rw [FormatItem.format] at hout
    split at hout
    · obtain ⟨d, hd, hdigit⟩ := h.seconds hout
      rw [List.getLast?_cons, Option.mem_def.mp hd] at hx
      obtain rfl := Option.some.inj hx
      constructor
      · rintro rfl
        exact absurd hdigit (by decide)
      · rintro - rfl
        exact absurd hdigit (by decide)
    · rename_i hne
      rw [c_str_doubled] at hout
      obtain rfl := h.copies (fun hmem => by simpa using List.mem_takeWhile_imp hmem) hout
      refine ⟨?_, fun hnil => absurd (by rw [hnil]; rfl) hne⟩
      rintro rfl
      rcases List.mem_cons.mp (List.mem_of_getLast? hx) with hx | hx
      · exact absurd hx (by decide)
      · exact hf (List.takeWhile_subset _ hx)
  · have hmem := last_of_format hc hd hnew hout x hx
    exact ⟨fun hx => hmem (hx ▸ List.mem_cons_self ..), fun _ hx =>
      hmem (hx ▸ List.mem_cons_of_mem _ hc)⟩

/-! ### The two readings of `%%` -/

/-- The pieces make no error, and the event without any text is formatted to `out`. -/
structure Written (strftime : Strftime) (r : Scan) (out : List Char) : Prop where
  error : r.error = false
  items : ∀ piece ∈ r.vec, piece.item.2 = false
  format : FormatItem.formatAll strftime .DEBUG blankEvent (r.vec.map (·.item.1)) = some out

variable {strftime : Strftime}

/-- The output is the literal text, what the directive writes, and the rest. -/
theorem Written.directive {nstr str fmt out : List Char} {r : Scan}
    (h : Written strftime ⟨flush nstr ++ ⟨str, fmt, 1⟩ :: r.vec, r.error⟩ out) :
    ∃ c ∈ letters, str = [c] ∧ ∃ new, formatItems [c] = some new ∧
      ∃ text rest, (new fmt).format strftime .DEBUG blankEvent = some text ∧
        Written strftime r rest ∧ out = nstr ++ text ++ rest := by
  obtain ⟨c, hc, rfl⟩ := letter_of_item (h.items ⟨str, fmt, 1⟩ (by simp))
  obtain ⟨new, hnew⟩ := Option.isSome_iff_exists.mp (formatItems_isSome.mpr ⟨c, hc, rfl⟩)
  have hformat := h.format
  rw [List.map_append, FormatItem.formatAll_flush, List.map_cons] at hformat
  obtain ⟨out, hout, rfl⟩ := Option.map_eq_some_iff.mp hformat
  obtain ⟨text, rest, htext, hrest, rfl⟩ := FormatItem.formatAll_cons_eq_some.mp hout
  have hitem : (Piece.item ⟨[c], fmt, 1⟩).1 = new fmt := by
    rw [Piece.item, if_neg Nat.one_ne_zero, hnew]
  rw [hitem] at htext
  refine ⟨c, hc, rfl, new, hnew, text, rest, htext, ⟨h.error, fun piece hpiece => ?_, hrest⟩, ?_⟩
  · exact h.items piece (by simp [hpiece])
  · rw [List.append_assoc]

theorem scan_literal {text : List Char} (h : '%' ∉ text) :
    scan [] 0 text = ⟨flush text, false⟩ := by
  have := scan_append h [] []
  rwa [List.append_nil, List.nil_append] at this

/-- A text without `%` is written as it is. -/
theorem formatAll_literal {text : List Char} (h : '%' ∉ text) (level : LogLevel)
    (event : LogEvent) : FormatItem.formatAll strftime level event
      ((scan [] 0 text).vec.map (·.item.1)) = some text := by
  rw [scan_literal h, ← List.append_nil (List.map _ _), FormatItem.formatAll_flush,
    FormatItem.formatAll, Option.map_some, List.append_nil]

/-- The outer loop at two `%`: it appends the first one, and looks at the second one again. -/
theorem scan_pair (nstr cs : List Char) :
    scan nstr 0 ('%' :: '%' :: cs) = scan (nstr ++ ['%']) 0 ('%' :: cs) := by
  rw [scan, if_neg (not_not_intro rfl)]
  exact if_pos rfl

/-- The first `%` of a text. -/
theorem scan_percent {text : List Char} (h : '%' ∉ text) (rest : List Char) :
    scan [] 0 (doubled (text ++ '%' :: rest)) = scan (text ++ ['%']) 0 ('%' :: doubled rest) := by
  rw [doubled_append, doubled_eq_self h, scan_append h, doubled_percent, scan_pair, List.nil_append]

/-- A directive in a doubled text: `f` is the text of its format, and it ends in a brace or, if it
has no format, in its letter. -/
theorem directive_of_doubled {t fmt rest : List Char} {c : Char} (hc : c ≠ '%')
    (h : scanDirective [] (doubled t) = .closed [c] fmt rest) :
    ∃ f d y u, '}' ∉ f ∧ fmt = doubled f ∧ rest = doubled u ∧ t = d ++ y :: u ∧
      (y = '}' ∨ f = [] ∧ y = c) := by
  obtain ⟨name, hname, ⟨rfl, ht, -⟩ | ⟨hfmt, ht⟩⟩ := scanDirective_closed h
  · obtain rfl : [c] = name := hname
    rw [← List.nil_append ([c] ++ rest)] at ht
    obtain ⟨d, u, rfl, -, rfl⟩ := doubled_eq_append hc ht
    exact ⟨[], d, c, u, List.not_mem_nil, rfl, rfl, rfl, Or.inr ⟨rfl, rfl⟩⟩
  · obtain rfl : [c] = name := hname
    rw [← List.cons_append, ← List.append_assoc] at ht
    obtain ⟨d, u, rfl, hd, rfl⟩ := doubled_eq_append (by decide) ht
    obtain ⟨-, f, -, -, rfl⟩ := doubled_eq_append (by decide) hd.symm
    exact ⟨f, d, '}', u, fun hmem => hfmt (mem_doubled hmem), rfl, rfl, rfl, Or.inl rfl⟩

/-- **The output of a doubled text**, from its first `%` on, is not the text. -/
theorem differ_of_escape (h : Documented strftime) : ∀ (t nstr : List Char) {out : List Char},
    Written strftime (scan (nstr ++ ['%']) 0 ('%' :: doubled t)) out → Differ out ('%' :: t)
  | t, nstr, out, hwritten => by
    by_cases hhead : t.head? = some '%'
    · -- the `%` that is looked at again is followed by another one, and is itself escaped
      obtain ⟨t', ht⟩ := List.head?_eq_some_iff.mp hhead
      have hless : t'.length < t.length := by simp [ht]
      rw [ht] at hwritten ⊢
      rw [doubled_percent, scan_pair, scan_pair] at hwritten
      exact (differ_of_escape h t' _ hwritten).append [] ['%']
    · rw [← head?_doubled] at hhead
      rcases hscan : scanDirective [] (doubled t) with ⟨str, fmt, rest⟩ | -
      · rw [scan_directive hhead hscan] at hwritten
        obtain ⟨c, hc, rfl, new, hnew, text, restOut, htext, hrest, rfl⟩ := hwritten.directive
        obtain ⟨f, d, y, u, hf, rfl, rfl, ht, hy⟩ :=
          directive_of_doubled (goesOn_of_mem_letters hc).2.2 hscan
        by_cases hu : '%' ∈ u
        · -- behind the directive there is another `%`
          obtain ⟨b, u', rfl, hb⟩ := List.eq_append_cons_of_mem hu
          have hless : u'.length < t.length := by
            simp only [ht, List.length_append, List.length_cons]
            omega
          rw [scan_percent hb] at hrest
          have hdiffer := (differ_of_escape h u' b hrest).append
            (nstr ++ ['%'] ++ text) ('%' :: (d ++ y :: b))
          simpa [ht] using hdiffer
        · -- behind it the text is written as it is
          have hliteral := hrest.format
          rw [doubled_eq_self hu, formatAll_literal hu] at hliteral
          obtain rfl := Option.some.inj hliteral
          obtain ⟨p, x, hx⟩ := (List.eq_nil_or_concat ('%' :: text)).resolve_left (by simp)
          rw [List.concat_eq_append] at hx
          have hne := last_ne h hc hnew hf htext x (by rw [hx]; simp)
          refine ⟨x, y, u, ?_, ⟨nstr ++ p, ?_⟩, ⟨'%' :: d, by rw [ht]; rfl⟩⟩
          · rcases hy with rfl | ⟨hnil, rfl⟩
            · exact hne.1
            · exact hne.2 hnil
          · rw [List.append_assoc, ← List.singleton_append, ← List.append_assoc p, ← hx]
            simp
      · have herror := hwritten.error
        rw [scan_unclosed hhead hscan] at herror
        exact absurd herror.symm Bool.false_ne_true
termination_by t => t.length

/-! ### The texts that come back -/

/-- The pattern with every `%` of the text doubled is accepted, and formats every event to the
text. -/
def Literally (strftime : Strftime) (s : String) : Prop :=
  let formatter := LogFormatter.create (String.ofList (doubled s.toList))
  formatter.isError = false ∧
    ∀ level event, formatter.format strftime level event = some s.toList

/-- **The texts that come back** are those without a `%`. -/
theorem literally_iff (h : Documented strftime) (s : String) :
    Literally strftime s ↔ '%' ∉ s.toList := by
  rw [Literally, LogFormatter.isError_create, String.toList_ofList]
  constructor
  · rintro ⟨⟨herror, hitems⟩, hformat⟩ hmem
    have hwritten : Written strftime (scan [] 0 (doubled s.toList)) s.toList := by
      refine ⟨herror, hitems, ?_⟩
      have := hformat .DEBUG blankEvent
      rwa [LogFormatter.format, LogFormatter.create, String.toList_ofList] at this
    obtain ⟨b, t, hs, hb⟩ := List.eq_append_cons_of_mem hmem
    rw [hs, scan_percent hb] at hwritten
    exact ((differ_of_escape h t b hwritten).append [] b).ne rfl
  · intro hmem
    rw [doubled_eq_self hmem]
    refine ⟨?_, fun level event => ?_⟩
    · rw [scan_literal hmem]
      refine ⟨rfl, fun piece hpiece => ?_⟩
      rw [flush] at hpiece
      split at hpiece
      · exact absurd hpiece List.not_mem_nil
      · rw [List.mem_singleton.mp hpiece]
        rfl
    · rw [LogFormatter.format, LogFormatter.create, String.toList_ofList]
      exact formatAll_literal hmem level event

/-- What comes of doubling, undone. -/
def undoubled : List Char → List Char
  | [] => []
  | [c] => [c]
  | c :: d :: text =>
    if c = '%' ∧ d = '%' then '%' :: undoubled text else c :: undoubled (d :: text)

/-- `strftime` in the first second of 1970, for the formats that occur below. -/
def sampleStrftime : Strftime := fun format _ =>
  let text := if format = dateTimeFormat then "1970-01-01 00:00:00".toList else undoubled format
  if text.length < 64 then some text else none

theorem undoubled_doubled (text : List Char) : undoubled (doubled text) = text := by
  induction text with
  | nil => rfl
  | cons c text ih =>
    by_cases hc : c = '%'
    · rw [hc, doubled_percent, undoubled, if_pos ⟨rfl, rfl⟩, ih]
    · rw [doubled_cons hc]
      rcases hd : doubled text with - | ⟨d, rest⟩
      · rw [hd, undoubled] at ih
        rw [undoubled, ih]
      · rw [undoubled, if_neg fun h => hc h.1, ← hd, ih]

theorem doubled_ne_dateTimeFormat (text : List Char) : doubled text ≠ dateTimeFormat := by
  have hformat : dateTimeFormat = '%' :: 'Y' :: dateTimeFormat.drop 2 := rfl
  intro h
  rw [hformat] at h
  rcases text with - | ⟨c, text⟩
  · exact absurd h (List.cons_ne_nil _ _).symm
  · by_cases hc : c = '%'
    · rw [hc, doubled_percent] at h
      exact absurd (List.cons.inj (List.cons.inj h).2).1 (by decide)
    · rw [doubled_cons hc] at h
      exact hc (List.cons.inj h).1

theorem documented_sampleStrftime : Documented sampleStrftime where
  copies {text time out} _ h := by
    simp only [sampleStrftime, if_neg (doubled_ne_dateTimeFormat text), undoubled_doubled] at h
    split at h
    · exact (Option.some.inj h).symm
    · exact absurd h (Option.some_ne_none out).symm
  seconds {time out} h := by
    have hsample : sampleStrftime dateTimeFormat time = some "1970-01-01 00:00:00".toList := rfl
    obtain rfl := Option.some.inj (hsample.symm.trans h)
    exact ⟨'0', rfl, by decide⟩

theorem literally_iff_message : ¬Literally sampleStrftime "%m" := fun h =>
  (literally_iff documented_sampleStrftime "%m").mp h (by decide)

/-- The pattern of `100%` is rejected: behind the literal text there is a directive without a
name. -/
theorem percent_not_literally : ¬Literally sampleStrftime "100%" := fun h =>
  absurd h.1 (by decide)

end Log

end Wille
