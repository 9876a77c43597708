import Mathlib.Data.List.Basic

/-!
# Log formatters

`LogFormatter` of `log.cpp`. A formatter is made from a pattern. `init` cuts the pattern into
literal texts and directives, and makes a `FormatItem` of each piece.

## What the model keeps

* A `std::string` inside the scanner is a list of characters. The index `i` into the pattern is the
  rest of the pattern that begins there, and setting `i` to a later place is a number of characters
  to pass over.
* `isalpha` is that of the "C" locale.
* A `FormatItem` is its class with what its constructor stores.

## Main definitions

* `FormatItem`, `formatItems`
* `scanDirective`, `scan` — the two loops of `init`
* `LogFormatter`, `LogFormatter.create`

## Main results

* `scan_append`, `scan_directive` — the outer loop at a literal text, and at a directive
* `scanDirective_closed` — where a directive ends
-/

namespace Wille

namespace Log

/-- The subclasses of `LogFormatter::FormatItem`. -/
inductive FormatItem where
  | message
  | level
  | elapse
  | name
  | threadId
  | newLine
  | dateTime (format : List Char)
  | filename
  | line
  | tab
  | fiberId
  | threadName
  | string (str : List Char)
  deriving DecidableEq

/-- The format of a `DateTimeFormatItem` that is given none. -/
def dateTimeFormat : List Char := "%Y-%m-%d %H:%M:%S".toList

/-- `s_format_items` -/
def formatItems : List Char → Option (List Char → FormatItem)
  | ['m'] => some fun _ => .message
  | ['p'] => some fun _ => .level
  | ['r'] => some fun _ => .elapse
  | ['c'] => some fun _ => .name
  | ['t'] => some fun _ => .threadId
  | ['n'] => some fun _ => .newLine
  | ['d'] => some fun fmt => .dateTime (if fmt = [] then dateTimeFormat else fmt)
  | ['f'] => some fun _ => .filename
  | ['l'] => some fun _ => .line
  | ['T'] => some fun _ => .tab
  | ['F'] => some fun _ => .fiberId
  | ['N'] => some fun _ => .threadName
  | _ => none

/-- The keys of `s_format_items`. -/
def letters : List Char := "mprctndflTFN".toList

theorem formatItems_isSome {str : List Char} :
    (formatItems str).isSome = true ↔ ∃ c ∈ letters, str = [c] := by
  constructor
  · intro h
    rw [formatItems.eq_def] at h
    split at h
    all_goals first | exact ⟨_, by decide, rfl⟩ | exact absurd h Bool.false_ne_true
  · rintro ⟨c, hc, rfl⟩
    have hall : letters.Forall fun c => (formatItems [c]).isSome = true := by decide
    exact List.forall_iff_forall_mem.mp hall c hc

/-! ### The scanner -/

/-- What the inner loop of `init` makes of the text after a `%`. -/
inductive Scanned where
  /-- `str` and `fmt`, and what is left of the pattern. -/
  | closed (str fmt rest : List Char)
  /-- There is a brace and none that closes it. -/
  | unclosed

/-- The inner loop while `fmt_status` is 1. -/
def scanFormat (str fmt : List Char) : List Char → Scanned
  | [] => .unclosed
  | c :: cs => if c = '}' then .closed str fmt cs else scanFormat str (fmt ++ [c]) cs

/-- The characters that do not end a directive. -/
def goesOn (c : Char) : Bool := c.isAlpha || c == '{' || c == '}'

/-- The inner loop while `fmt_status` is 0; `str` are the characters it has passed. -/
def scanDirective (str : List Char) : List Char → Scanned
  | [] => .closed str [] []
  | c :: cs =>
    if !goesOn c then .closed str [] (c :: cs)
    else if c = '{' then scanFormat str [] cs
    else scanDirective (str ++ [c]) cs

/-- An element of `vec`. -/
structure Piece where
  str : List Char
  fmt : List Char
  type : ℕ
  deriving DecidableEq

/-- `vec` and `m_error`, after the loops. -/
structure Scan where
  vec : List Piece
  error : Bool

/-- `nstr`, if it is not empty, as an element of `vec`. -/
def flush (nstr : List Char) : List Piece := if nstr = [] then [] else [⟨nstr, [], 0⟩]

/-- The outer loop of `init`, which is to pass over `skip` characters first. -/
def scan (nstr : List Char) (skip : ℕ) : List Char → Scan
  | [] => ⟨flush nstr, false⟩
  | c :: cs =>
    match skip with
    | k + 1 => scan nstr k cs
    | 0 =>
      if c ≠ '%' then scan (nstr ++ [c]) 0 cs
      -- the second `%` is looked at again
      else if cs.head? = some '%' then scan (nstr ++ ['%']) 0 cs
      else
        match scanDirective [] cs with
        | .closed str fmt rest =>
          let r := scan [] (cs.length - rest.length) cs
          ⟨flush nstr ++ ⟨str, fmt, 1⟩ :: r.vec, r.error⟩
        | .unclosed =>
          let r := scan nstr 0 cs
          ⟨⟨"<<pattern_error>>".toList, [], 0⟩ :: r.vec, true⟩

/-- The `FormatItem` of an element of `vec`, and whether it is an error. -/
def Piece.item (piece : Piece) : FormatItem × Bool :=
  if piece.type = 0 then (.string piece.str, false)
  else
    match formatItems piece.str with
    | none => (.string ("<<error_format %".toList ++ piece.str ++ ">>".toList), true)
    | some new => (new piece.fmt, false)

/-- A `LogFormatter`. -/
structure LogFormatter where
  /-- `m_pattern` -/
  pattern : String
  /-- `m_items` -/
  items : List FormatItem
  /-- `m_error` -/
  error : Bool
  deriving DecidableEq

/-- The constructor, which calls `init`. -/
def LogFormatter.create (pattern : String) : LogFormatter :=
  let r := scan [] 0 pattern.toList
  ⟨pattern, r.vec.map (·.item.1), r.error || r.vec.any (·.item.2)⟩

/-- `isError()` -/
def LogFormatter.isError (formatter : LogFormatter) : Bool := formatter.error

@[simp] theorem LogFormatter.create_pattern (pattern : String) :
    (LogFormatter.create pattern).pattern = pattern := rfl

theorem LogFormatter.isError_create {pattern : String} :
    (LogFormatter.create pattern).isError = false ↔ (scan [] 0 pattern.toList).error = false ∧
      ∀ piece ∈ (scan [] 0 pattern.toList).vec, piece.item.2 = false := by
  simp [LogFormatter.create, LogFormatter.isError]

/-- Passing over characters is beginning behind them. -/
theorem scan_skip (nstr : List Char) : ∀ (skip : ℕ) (cs : List Char),
    scan nstr skip cs = scan nstr 0 (cs.drop skip)
  | 0, cs => by rw [List.drop_zero]
  | skip + 1, [] => rfl
  | skip + 1, c :: cs => by rw [scan, scan_skip nstr skip cs, List.drop_succ_cons]

/-- The outer loop collects a literal text. -/
theorem scan_append {text : List Char} (h : '%' ∉ text) (nstr cs : List Char) :
    scan nstr 0 (text ++ cs) = scan (nstr ++ text) 0 cs := by
  induction text generalizing nstr with
  | nil => rw [List.nil_append, List.append_nil]
  | cons c text ih =>
    obtain ⟨hc, htext⟩ := not_or.mp (List.mem_cons.not.mp h)
    rw [List.cons_append, scan, if_pos (Ne.symm hc), ih htext, List.append_assoc,
      List.singleton_append]

/-- A format ends at the first closing brace. -/
theorem scanFormat_append {fmt : List Char} (h : '}' ∉ fmt) (str f rest : List Char) :
    scanFormat str f (fmt ++ '}' :: rest) = .closed str (f ++ fmt) rest := by
  induction fmt generalizing f with
  | nil => rw [List.nil_append, scanFormat, if_pos rfl, List.append_nil]
  | cons c fmt ih =>
    obtain ⟨hc, hfmt⟩ := not_or.mp (List.mem_cons.not.mp h)
    rw [List.cons_append, scanFormat, if_neg (Ne.symm hc), ih hfmt, List.append_assoc,
      List.singleton_append]

theorem scanFormat_closed {str f s fmt cs rest : List Char}
    (h : scanFormat str f cs = .closed s fmt rest) :
    s = str ∧ ∃ g, '}' ∉ g ∧ fmt = f ++ g ∧ cs = g ++ '}' :: rest := by
  induction cs generalizing f with
  | nil => exact Scanned.noConfusion h
  | cons c cs ih =>
    rw [scanFormat] at h
    split at h
    · rename_i hc
      obtain ⟨rfl, rfl, rfl⟩ := Scanned.closed.inj h
      exact ⟨rfl, [], List.not_mem_nil, (List.append_nil _).symm, by rw [hc, List.nil_append]⟩
    · rename_i hc
      obtain ⟨hs, g, hg, rfl, rfl⟩ := ih h
      refine ⟨hs, c :: g, ?_, by rw [List.append_assoc, List.singleton_append], rfl⟩
      exact List.mem_cons.not.mpr (not_or.mpr ⟨Ne.symm hc, hg⟩)

/-- The text after a directive without braces ends it. -/
def Stops (rest : List Char) : Prop := ∀ c ∈ rest.head?, goesOn c = false

/-- The scanner goes on with a letter, which is not mistaken for what has a meaning of its own. -/
theorem goesOn_of_mem_letters {c : Char} (hc : c ∈ letters) :
    goesOn c = true ∧ c ≠ '{' ∧ c ≠ '%' := by
  have hall : letters.Forall fun c => goesOn c = true ∧ c ≠ '{' ∧ c ≠ '%' := by decide
  exact List.forall_iff_forall_mem.mp hall c hc

/-- A directive without braces ends before the first character that does not go on with it. -/
theorem scanDirective_name {c : Char} (hc : c ∈ letters) {rest : List Char} (hrest : Stops rest) :
    scanDirective [] (c :: rest) = .closed [c] [] rest := by
  obtain ⟨hon, hne, -⟩ := goesOn_of_mem_letters hc
  rw [scanDirective, hon, if_neg (by simp), if_neg hne, List.nil_append]
  cases rest with
  | nil => rw [scanDirective]
  | cons d rest =>
    have hd : goesOn d = false := hrest d rfl
    rw [scanDirective, hd, if_pos (by simp)]

/-- A directive with braces ends behind the first one that closes. -/
theorem scanDirective_braces {c : Char} (hc : c ∈ letters) {fmt : List Char} (h : '}' ∉ fmt)
    (rest : List Char) :
    scanDirective [] (c :: '{' :: (fmt ++ '}' :: rest)) = .closed [c] fmt rest := by
  obtain ⟨hon, hne, -⟩ := goesOn_of_mem_letters hc
  rw [scanDirective, hon, if_neg (by simp), if_neg hne, scanDirective, if_neg (by decide),
    if_pos rfl, scanFormat_append h, List.nil_append, List.nil_append]

/-- **Where a directive ends.** -/
theorem scanDirective_closed {str s fmt cs rest : List Char}
    (h : scanDirective str cs = .closed s fmt rest) :
    ∃ name, s = str ++ name ∧ ((fmt = [] ∧ cs = name ++ rest ∧ Stops rest) ∨
      ('}' ∉ fmt ∧ cs = name ++ '{' :: (fmt ++ '}' :: rest))) := by
  induction cs generalizing str with
  | nil =>
    obtain ⟨rfl, rfl, rfl⟩ := Scanned.closed.inj h
    exact ⟨[], (List.append_nil _).symm, Or.inl ⟨rfl, rfl, fun c hc => absurd hc (by simp)⟩⟩
  | cons c cs ih =>
    rw [scanDirective] at h
    split at h
    · rename_i hstop
      obtain ⟨rfl, rfl, rfl⟩ := Scanned.closed.inj h
      refine ⟨[], (List.append_nil _).symm, Or.inl ⟨rfl, rfl, fun d hd => ?_⟩⟩
      obtain rfl := Option.some.inj hd
      simpa using hstop
    · split at h
      · rename_i hbrace
        obtain ⟨rfl, g, hg, rfl, rfl⟩ := scanFormat_closed h
        exact ⟨[], (List.append_nil _).symm, Or.inr ⟨hg, by rw [hbrace]; rfl⟩⟩
      · obtain ⟨name, rfl, hname⟩ := ih h
        refine ⟨c :: name, by rw [List.append_assoc, List.singleton_append], ?_⟩
        rcases hname with ⟨hfmt, rfl, hstops⟩ | ⟨hfmt, rfl⟩
        · exact Or.inl ⟨hfmt, rfl, hstops⟩
        · exact Or.inr ⟨hfmt, rfl⟩

theorem suffix_of_closed {cs s fmt rest : List Char}
    (h : scanDirective [] cs = .closed s fmt rest) : rest <:+ cs := by
  obtain ⟨name, -, ⟨-, rfl, -⟩ | ⟨-, rfl⟩⟩ := scanDirective_closed h
  · exact List.suffix_append _ _
  · exact ⟨name ++ '{' :: (fmt ++ ['}']), by simp⟩

/-- The outer loop at a directive that is closed. -/
theorem scan_directive {cs str fmt rest : List Char} (hcs : cs.head? ≠ some '%')
    (h : scanDirective [] cs = .closed str fmt rest) (nstr : List Char) :
    scan nstr 0 ('%' :: cs) =
      ⟨flush nstr ++ ⟨str, fmt, 1⟩ :: (scan [] 0 rest).vec, (scan [] 0 rest).error⟩ := by
  rw [scan, if_neg (by simp), if_neg hcs]
  simp only [h]
  rw [scan_skip, ← List.suffix_iff_eq_drop.mp (suffix_of_closed h)]

/-- The outer loop at a brace that is not closed. -/
theorem scan_unclosed {cs : List Char} (hcs : cs.head? ≠ some '%')
    (h : scanDirective [] cs = .unclosed) (nstr : List Char) :
    (scan nstr 0 ('%' :: cs)).error = true := by
  rw [scan, if_neg (by simp), if_neg hcs]
  simp only [h]

end Log

end Wille
