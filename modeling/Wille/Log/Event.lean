import Wille.Log.Logger

/-!
# Log events, and the texts made of them

`LogEvent` of `log.cpp`, the `format` of each `FormatItem`, and `LogFormatter::format`, which writes
one item after the other. An appender writes with its own formatter, and a logger goes through its
appenders.

## What the model keeps

* A stream is the text written to it, and `std::endl` is a newline.
* `localtime_r` and `strftime` are a parameter: what they leave in the buffer, for a format and a
  time. It is `none` where the text does not fit into `buf`. The buffer is then undefined, and what
  is written of it is no text.
* `m_format.c_str()` ends at the first null character.
* A `FileLogAppender` opens its file again now and then; that is left out.
* `m_root` of a logger is given to `log` as the rest of a list: the logger, and the root logger if
  the logger has one.

## Main definitions

* `LogEvent`
* `Strftime` — `localtime_r` and `strftime`
* `FormatItem.format`, `LogFormatter.format`
* `LogAppender.log`, `Logger.log`

## Main results

* `FormatItem.formatAll_flush` — a literal text is written as it is
-/

namespace Wille

namespace Log

open Config

/-- A `LogEvent`. -/
structure LogEvent where
  /-- `m_file` -/
  file : String
  /-- `m_line` -/
  line : Int32
  /-- `m_elapse` -/
  elapse : UInt32
  /-- `m_threadId` -/
  threadId : UInt32
  /-- `m_fiberId` -/
  fiberId : UInt32
  /-- `m_time` -/
  time : UInt64
  /-- `m_threadName` -/
  threadName : String
  /-- What is in `m_ss`. -/
  content : String
  /-- `m_logger` -/
  logger : Logger
  /-- `m_level` -/
  level : LogLevel

/-- `strftime` of a format and of the local time: what is in the buffer afterwards. -/
abbrev Strftime := List Char → UInt64 → Option (List Char)

/-- The characters of a `const char*`. -/
def c_str (str : List Char) : List Char := str.takeWhile (· ≠ '\x00')

/-- An unsigned number on a stream. -/
def unsignedText (n : UInt32) : List Char := Nat.toDigits 10 n.toNat

variable (strftime : Strftime) (level : LogLevel) (event : LogEvent)

/-- `format` of the subclasses of `FormatItem`. None of them reads the logger it is given. -/
def FormatItem.format : FormatItem → Option (List Char)
  | .message => some event.content.toList
  | .level => some level.ToString.toList
  | .elapse => some (unsignedText event.elapse)
  | .name => some event.logger.name.toList
  | .threadId => some (unsignedText event.threadId)
  | .newLine => some ['\n']
  | .dateTime format => strftime (c_str format) event.time
  | .filename => some event.file.toList
  | .line => some (intText event.line).toList
  | .tab => some ['\t']
  | .fiberId => some (unsignedText event.fiberId)
  | .threadName => some event.threadName.toList
  | .string str => some str

/-- The loop of `LogFormatter::format`. -/
def FormatItem.formatAll : List FormatItem → Option (List Char)
  | [] => some []
  | i :: items => (i.format strftime level event).bind fun text =>
      (formatAll items).map (text ++ ·)

/-- `LogFormatter::format` -/
def LogFormatter.format (formatter : LogFormatter) : Option (List Char) :=
  FormatItem.formatAll strftime level event formatter.items

variable {strftime level event}

/-- What is written of some items is what is written of each. -/
theorem FormatItem.formatAll_cons_eq_some {i : FormatItem} {items : List FormatItem}
    {out : List Char} :
    formatAll strftime level event (i :: items) = some out ↔
      ∃ text rest, i.format strftime level event = some text ∧
        formatAll strftime level event items = some rest ∧ out = text ++ rest := by
  simp only [formatAll, Option.bind_eq_some_iff, Option.map_eq_some_iff]
  constructor
  · rintro ⟨text, htext, rest, hrest, rfl⟩
    exact ⟨text, rest, htext, hrest, rfl⟩
  · rintro ⟨text, rest, htext, hrest, rfl⟩
    exact ⟨text, htext, rest, hrest, rfl⟩

/-- A literal text is written as it is. -/
theorem FormatItem.formatAll_flush (nstr : List Char) (items : List FormatItem) :
    formatAll strftime level event ((flush nstr).map (·.item.1) ++ items) =
      (formatAll strftime level event items).map (nstr ++ ·) := by
  rw [flush]
  split
  · rename_i hnil
    subst hnil
    simp
  · rfl

/-! ### Appenders and loggers -/

/-- The enumerators of `LogLevel::Level` in their order. -/
def LogLevel.num : LogLevel → ℕ
  | .UNKNOW => 0
  | .DEBUG => 1
  | .INFO => 2
  | .WARN => 3
  | .ERROR => 4
  | .FATAL => 5

/-- Why a call of `log` has no meaning. -/
inductive LogFault where
  /-- A null `m_formatter` is followed. -/
  | nullFormatter
  /-- The undefined buffer of `strftime` is written. -/
  | buffer
  deriving DecidableEq

variable (strftime level event)

/-- What `log` of an appender writes. -/
def LogAppender.log (appender : LogAppender) : Except LogFault (List Char) :=
  if level.num < appender.level.num then .ok []
  else
    match appender.formatter with
    | none => .error .nullFormatter
    | some formatter =>
      match formatter.format strftime level event with
      | none => .error .buffer
      | some text => .ok text

/-- The loop of `Logger::log` over the appenders: which appender writes what. -/
def logAppenders (heap : Appenders) : List ℕ → Except LogFault (List (ℕ × List Char))
  | [] => .ok []
  | a :: refs =>
    match heap[a]? with
    | none => logAppenders heap refs
    | some appender =>
      match appender.log strftime level event with
      | .error fault => .error fault
      | .ok text => (logAppenders heap refs).map ((a, text) :: ·)

/-- `Logger::log` of the first of these loggers, where each is followed by its `m_root`. -/
def Logger.log (heap : Appenders) : List Logger → Except LogFault (List (ℕ × List Char))
  | [] => .ok []
  | logger :: roots =>
    if level.num < logger.level.num then .ok []
    else if logger.appenders ≠ [] then logAppenders strftime level event heap logger.appenders
    else log heap roots

variable {strftime level event}

/-- The loop follows a null pointer only at an appender without a formatter. -/
theorem exists_of_nullFormatter {heap : Appenders} {refs : List ℕ}
    (h : logAppenders strftime level event heap refs = .error .nullFormatter) :
    ∃ a ∈ refs, ∃ appender, heap[a]? = some appender ∧ appender.formatter = none := by
  induction refs with
  | nil => cases h
  | cons a refs ih =>
    rw [logAppenders] at h
    split at h
    · exact (ih h).imp fun b hb => ⟨List.mem_cons_of_mem a hb.1, hb.2⟩
    · rename_i appender happender
      split at h
      · rename_i fault hfault
        obtain rfl := Except.error.inj h
        refine ⟨a, List.mem_cons_self .., appender, happender, ?_⟩
        rw [LogAppender.log] at hfault
        split at hfault
        · cases hfault
        · split at hfault
          · assumption
          · split at hfault
            · exact absurd (Except.error.inj hfault) (by decide)
            · cases hfault
      · cases hrest : logAppenders strftime level event heap refs with
        | ok out =>
          rw [hrest] at h
          cases h
        | error fault =>
          rw [hrest] at h
          obtain rfl := Except.error.inj h
          exact (ih hrest).imp fun b hb => ⟨List.mem_cons_of_mem a hb.1, hb.2⟩

/-- So does a logger. -/
theorem Logger.exists_of_nullFormatter {heap : Appenders} {roots : List Logger}
    (h : Logger.log strftime level event heap roots = .error .nullFormatter) :
    ∃ logger ∈ roots, ∃ a ∈ logger.appenders, ∃ appender, heap[a]? = some appender ∧
      appender.formatter = none := by
  induction roots with
  | nil => cases h
  | cons logger roots ih =>
    rw [Logger.log] at h
    split at h
    · cases h
    · split at h
      · exact ⟨logger, List.mem_cons_self .., Log.exists_of_nullFormatter h⟩
      · exact (ih h).imp fun l hl => ⟨List.mem_cons_of_mem logger hl.1, hl.2⟩

end Log

end Wille
