import Wille.Config.LexicalCast
import Mathlib.Data.List.ReduceOption

/-!
# The configuration of the loggers

`LogDefine` and `LogAppenderDefine` of `log.cpp`, and how they are read from YAML and written to
it. Reading and writing leave out fields for different reasons: an unknown level, an empty format,
the file of an appender that is not a `FileLogAppender`, an empty list of appenders. Writing is only
ever asked for what was read, and then what is left out is what reading puts in.

## What the model keeps

* `YAML::Load`, `<<` and `as<std::string>()` of a null node are parameters. What `as<std::string>()`
  makes of a sequence, a map or an undefined node is that it throws, and so does a subscript of a
  scalar.
* What the code prints to `std::cout` is left out here.

## Main definitions

* `LogLevel`, `LogAppenderDefine`, `LogDefine`, `LogDefines`
* `LogDefine.decode`, `LogDefine.encode`, `LogDefines.decode`, `LogDefines.encode`

## Main results

* `LogDefines.decode_encode` — what was read is written so that it is read again
-/

namespace Wille

namespace Log

open Yaml Config

/-- `LogLevel::Level` -/
inductive LogLevel where
  | UNKNOW
  | DEBUG
  | INFO
  | WARN
  | ERROR
  | FATAL
  deriving DecidableEq

namespace LogLevel

def ToString : LogLevel → String
  | .DEBUG => "DEBUG"
  | .INFO => "INFO"
  | .WARN => "WARN"
  | .ERROR => "ERROR"
  | .FATAL => "FATAL"
  | .UNKNOW => "UNKNOW"

def FromString (str : String) : LogLevel :=
  if str = "debug" then .DEBUG
  else if str = "info" then .INFO
  else if str = "warn" then .WARN
  else if str = "error" then .ERROR
  else if str = "fatal" then .FATAL
  else if str = "DEBUG" then .DEBUG
  else if str = "INFO" then .INFO
  else if str = "WARN" then .WARN
  else if str = "ERROR" then .ERROR
  else if str = "FATAL" then .FATAL
  else .UNKNOW

@[simp] theorem FromString_ToString (level : LogLevel) : FromString level.ToString = level := by
  cases level <;> decide

@[simp] theorem FromString_empty : FromString "" = .UNKNOW := by decide

end LogLevel

/-- `LogAppenderDefine` -/
structure LogAppenderDefine where
  /-- 1 for a file, 2 for `std::cout`. -/
  type : ℤ
  level : LogLevel
  formatter : String
  file : String
  deriving DecidableEq

/-- `LogDefine` -/
structure LogDefine where
  name : String
  level : LogLevel
  formatter : String
  appenders : List LogAppenderDefine
  deriving DecidableEq

/-- `LogDefine::operator<` -/
def LogDefine.less (ld oth : LogDefine) : Bool := ld.name < oth.name

theorem LogDefine.less_strictOrder : OrderedSet.StrictOrder LogDefine.less where
  irrefl _ := decide_eq_false (String.lt_irrefl _)
  trans _ _ _ h h' := decide_eq_true (String.lt_trans (of_decide_eq_true h) (of_decide_eq_true h'))

/-- `std::set<LogDefine>` -/
abbrev LogDefines := {l : List LogDefine // OrderedSet.Sorted LogDefine.less l}

/-! ### Reading -/

section Read

variable (y : YamlCpp)

/-- `node[key]`: nothing if it throws, and then nothing if the result is undefined. -/
def field (node : y.Node) (key : String) : Option (Option y.Node) :=
  match y.view node with
  | .scalar _ => none
  | .map entries => some ((entries.find? fun e => y.text? e.1 == some key).map Prod.snd)
  | .null | .sequence _ => some none

/-- `as<std::string>()` -/
def asString (node : y.Node) : Option String :=
  match y.view node with
  | .scalar text => some text
  | .null => y.nullText
  | .sequence _ | .map _ => none

/-- `as<std::string>()` of a field that is defined, else the default. -/
def stringField (node : y.Node) (key default : String) : Option String :=
  (field y node key).bind fun value =>
    match value with
    | some n => asString y n
    | none => some default

/-- An element of `appenders`: nothing if the code throws, and then nothing if it goes on to the
next element. -/
def LogAppenderDefine.decode : Option y.Node → Option (Option LogAppenderDefine)
  | none => some none
  | some appender =>
    (field y appender "type").bind fun type =>
      match type with
      | none => some none
      | some type =>
        (asString y type).bind fun type =>
          (stringField y appender "level" "").bind fun level =>
            if type = "FileLogAppender" then
              (field y appender "file").bind fun file =>
                (file.bind (asString y)).bind fun file =>
                  (stringField y appender "formatter" "").map fun formatter =>
                    some ⟨1, .FromString level, formatter, file⟩
            else if type = "StdoutLogAppender" then
              (stringField y appender "formatter" "").map fun formatter =>
                some ⟨2, .FromString level, formatter, ""⟩
            else some none

/-- The loop over `appenders`, if the node has them. -/
def LogAppenderDefine.decodeAll : Option y.Node → Option (List (Option LogAppenderDefine))
  | none => some []
  | some appenders =>
    (List.range (y.size appenders)).mapM fun x => (y.index appenders x).bind (decode y)

/-- `LexicalCast<std::string, LogDefine>` of a text that is loaded as this node -/
def LogDefine.ofNode (node : y.Node) : Option LogDefine :=
  (field y node "name").bind fun name =>
    (name.bind (asString y)).bind fun name =>
      (stringField y node "level" "").bind fun level =>
        (stringField y node "formatter" "").bind fun formatter =>
          (field y node "appenders").bind fun appenders =>
            (LogAppenderDefine.decodeAll y appenders).map fun lads =>
              ⟨name, .FromString level, formatter, lads.reduceOption⟩

end Read

/-- `LexicalCast<std::string, LogDefine>` -/
def LogDefine.decode (y : YamlCpp) (v : String) : Option LogDefine :=
  (y.load v).bind (LogDefine.ofNode y)

/-- `LexicalCast<std::string, std::set<LogDefine>>` -/
def LogDefines.decode (y : YamlCpp) (v : String) : Option LogDefines :=
  (decodeItems y (LogDefine.decode y) v).map
    (Container.ordered LogDefine.less LogDefine.less_strictOrder).ofList

/-! ### Writing -/

/-- The node `n` of an appender. -/
def LogAppenderDefine.node (y : YamlCpp) (appender : LogAppenderDefine) : y.Node :=
  y.map <|
    (if appender.type = 1 then
      [("type", y.scalar "FileLogAppender"), ("file", y.scalar appender.file)]
    else if appender.type = 2 then [("type", y.scalar "StdoutLogAppender")]
    else []) ++
    ("level", y.scalar appender.level.ToString) ::
      if appender.formatter ≠ "" then [("formatter", y.scalar appender.formatter)] else []

/-- The node of a logger. -/
def LogDefine.node (y : YamlCpp) (ld : LogDefine) : y.Node :=
  y.map <|
    ("name", y.scalar ld.name) ::
      ((if ld.level ≠ .UNKNOW then [("level", y.scalar ld.level.ToString)] else []) ++
      (if ld.formatter ≠ "" then [("formatter", y.scalar ld.formatter)] else []) ++
      if ld.appenders = [] then []
      else [("appenders", y.sequence (ld.appenders.map (LogAppenderDefine.node y)))])

/-- `LexicalCast<LogDefine, std::string>` -/
def LogDefine.encode (y : YamlCpp) (ld : LogDefine) : String := y.emit (ld.node y)

/-- `LexicalCast<std::set<LogDefine>, std::string>` -/
def LogDefines.encode (y : YamlCpp) (v : LogDefines) : Option String :=
  sequenceOf y (v.1.map (LogDefine.encode y))

/-! ### Nodes that are the same -/

section Same

variable {y : YamlCpp} {n n' : y.Node}

theorem field_eq_of_map {entries : List (String × y.Node)} (key : String) :
    field y (y.map entries) key = some ((entries.find? fun e => e.1 == key).map Prod.snd) := by
  rw [field, y.view_map]
  simp only [List.find?_map, Option.map_map, Option.some.injEq]
  simp [Function.comp_def]

@[simp] theorem asString_scalar (text : String) : asString y (y.scalar text) = some text := by
  rw [asString, y.view_scalar]

theorem rel_field (h : y.Same n n') (key : String) :
    Option.Rel (Option.Rel y.Same) (field y n key) (field y n' key) := by
  have hview := h.view
  rw [field, field]
  generalize y.view n = c at hview
  generalize y.view n' = c' at hview
  cases hview with
  | null => exact .some .none
  | scalar => exact .none
  | sequence => exact .some .none
  | map hentries =>
    refine .some (Container.rel_find? (p := fun k => y.text? k == some key)
      (hentries.imp fun e e' he => ⟨?_, he.2⟩))
    rw [he.1]

theorem asString_congr (h : y.Same n n') : asString y n = asString y n' := by
  have hview := h.view
  rw [asString, asString]
  generalize y.view n = c at hview
  generalize y.view n' = c' at hview
  cases hview <;> rfl

theorem stringField_congr (h : y.Same n n') (key default : String) :
    stringField y n key default = stringField y n' key default :=
  Container.bind_congr (rel_field h key) fun o o' ho => by
    cases ho with
    | none => rfl
    | some hm => exact asString_congr hm

theorem LogAppenderDefine.decode_congr {o o' : Option y.Node} (h : Option.Rel y.Same o o') :
    decode y o = decode y o' := by
  cases h with
  | none => rfl
  | @some appender appender' h =>
    refine Container.bind_congr (rel_field h "type") fun o o' ho => ?_
    cases ho with
    | none => rfl
    | some htype =>
      simp only [asString_congr htype, stringField_congr h]
      refine congrArg _ (funext fun type => congrArg _ (funext fun level => ?_))
      split
      · refine Container.bind_congr (rel_field h "file") fun f f' hf => ?_
        rw [Container.bind_congr hf fun _ _ => asString_congr]
      · rfl

theorem LogAppenderDefine.decodeAll_congr {o o' : Option y.Node} (h : Option.Rel y.Same o o') :
    decodeAll y o = decodeAll y o' := by
  cases h with
  | none => rfl
  | some h =>
    rw [decodeAll, decodeAll, h.size_eq]
    refine Container.mapM_congr (List.forall₂_same.mpr fun x _ => ?_)
    exact Container.bind_congr (h.index x) fun _ _ => decode_congr

/-- **Reading a logger does not tell nodes apart that are the same.** -/
theorem LogDefine.ofNode_congr (h : y.Same n n') : ofNode y n = ofNode y n' := by
  refine Container.bind_congr (rel_field h "name") fun o o' ho => ?_
  rw [Container.bind_congr ho fun _ _ => asString_congr]
  simp only [stringField_congr h]
  refine congrArg _ (funext fun name => congrArg _ (funext fun level => congrArg _
    (funext fun formatter => ?_)))
  refine Container.bind_congr (rel_field h "appenders") fun a a' ha => ?_
  rw [LogAppenderDefine.decodeAll_congr ha]

end Same

/-! ### What was read is read again -/

/-- What reading an appender can give. -/
def LogAppenderDefine.Readable (appender : LogAppenderDefine) : Prop :=
  appender.type = 1 ∨ (appender.type = 2 ∧ appender.file = "")

/-- What reading a logger can give. -/
def LogDefine.Readable (ld : LogDefine) : Prop := ∀ appender ∈ ld.appenders, appender.Readable

variable {y : YamlCpp}

theorem LogAppenderDefine.readable_of_decode {node : Option y.Node} {appender : LogAppenderDefine}
    (h : LogAppenderDefine.decode y node = some (some appender)) : appender.Readable := by
  rcases node with - | node
  · exact absurd (Option.some.inj h) (Option.some_ne_none appender).symm
  · obtain ⟨type, -, h⟩ := Option.bind_eq_some_iff.mp h
    rcases type with - | type
    · exact absurd (Option.some.inj h) (Option.some_ne_none appender).symm
    · obtain ⟨type, -, h⟩ := Option.bind_eq_some_iff.mp h
      obtain ⟨level, -, h⟩ := Option.bind_eq_some_iff.mp h
      split at h
      · obtain ⟨file, -, h⟩ := Option.bind_eq_some_iff.mp h
        obtain ⟨file, -, h⟩ := Option.bind_eq_some_iff.mp h
        obtain ⟨formatter, -, h⟩ := Option.map_eq_some_iff.mp h
        obtain rfl := Option.some.inj h
        exact Or.inl rfl
      · split at h
        · obtain ⟨formatter, -, h⟩ := Option.map_eq_some_iff.mp h
          obtain rfl := Option.some.inj h
          exact Or.inr ⟨rfl, rfl⟩
        · exact absurd (Option.some.inj h) (Option.some_ne_none appender).symm

theorem LogDefine.readable_of_decode {v : String} {ld : LogDefine}
    (h : LogDefine.decode y v = some ld) : ld.Readable := by
  obtain ⟨node, -, h⟩ := Option.bind_eq_some_iff.mp h
  obtain ⟨name, -, h⟩ := Option.bind_eq_some_iff.mp h
  obtain ⟨name, -, h⟩ := Option.bind_eq_some_iff.mp h
  obtain ⟨level, -, h⟩ := Option.bind_eq_some_iff.mp h
  obtain ⟨formatter, -, h⟩ := Option.bind_eq_some_iff.mp h
  obtain ⟨appenders, -, h⟩ := Option.bind_eq_some_iff.mp h
  obtain ⟨lads, hlads, rfl⟩ := Option.map_eq_some_iff.mp h
  intro appender hmem
  have hread := List.reduceOption_mem_iff.mp hmem
  rcases appenders with - | appenders
  · obtain rfl := Option.some.inj hlads
    exact absurd hread List.not_mem_nil
  · obtain ⟨x, -, hx⟩ := Container.mem_of_mapM hlads hread
    obtain ⟨item, -, hitem⟩ := Option.bind_eq_some_iff.mp hx
    exact LogAppenderDefine.readable_of_decode hitem

/-- An appender is written so that it is read again. -/
theorem LogAppenderDefine.decode_node {appender : LogAppenderDefine} (h : appender.Readable) :
    LogAppenderDefine.decode y (some (appender.node y)) = some (some appender) := by
  obtain ⟨type, level, formatter, file⟩ := appender
  obtain rfl | ⟨rfl, rfl⟩ := h <;> by_cases hformatter : formatter = "" <;>
    simp [LogAppenderDefine.decode, LogAppenderDefine.node, field_eq_of_map, stringField,
      hformatter]

section Written

variable (ld : LogDefine)

theorem LogDefine.field_name : field y (ld.node y) "name" = some (some (y.scalar ld.name)) := by
  simp [field_eq_of_map, LogDefine.node]

theorem LogDefine.stringField_level :
    (stringField y (ld.node y) "level" "").map LogLevel.FromString = some ld.level := by
  by_cases hlevel : ld.level = .UNKNOW <;> by_cases hformatter : ld.formatter = "" <;>
    rcases happenders : ld.appenders with - | ⟨appender, appenders⟩ <;>
    simp [stringField, field_eq_of_map, LogDefine.node, hlevel, hformatter, happenders]

theorem LogDefine.stringField_formatter :
    stringField y (ld.node y) "formatter" "" = some ld.formatter := by
  by_cases hlevel : ld.level = .UNKNOW <;> by_cases hformatter : ld.formatter = "" <;>
    rcases happenders : ld.appenders with - | ⟨appender, appenders⟩ <;>
    simp [stringField, field_eq_of_map, LogDefine.node, hlevel, hformatter, happenders]

theorem LogDefine.field_appenders : field y (ld.node y) "appenders" =
    some (if ld.appenders = [] then none
      else some (y.sequence (ld.appenders.map (LogAppenderDefine.node y)))) := by
  by_cases hlevel : ld.level = .UNKNOW <;> by_cases hformatter : ld.formatter = "" <;>
    rcases happenders : ld.appenders with - | ⟨appender, appenders⟩ <;>
    simp [field_eq_of_map, LogDefine.node, hlevel, hformatter, happenders]

end Written

/-- The loop over the appenders reads all that were written. -/
theorem LogAppenderDefine.decodeAll_node {appenders : List LogAppenderDefine}
    (h : ∀ appender ∈ appenders, appender.Readable) :
    decodeAll y (if appenders = [] then none else some (y.sequence (appenders.map (node y)))) =
      some (appenders.map some) := by
  split
  · rename_i hnil
    rw [hnil]
    rfl
  · rename_i hne
    have hview := y.view_sequence (appenders.map (node y)) (by simpa using hne)
    exact (mapM_index_sequence hview (decode y)).trans
      (Container.mapM_map_eq_some fun a ha => decode_node (h a ha))

/-- A logger is written so that it is read again. -/
theorem LogDefine.ofNode_node {ld : LogDefine} (h : ld.Readable) :
    LogDefine.ofNode y (ld.node y) = some ld := by
  obtain ⟨level, hlevel, hlevel'⟩ := Option.map_eq_some_iff.mp (ld.stringField_level (y := y))
  have hread : (ld.appenders.map some).reduceOption = ld.appenders := by
    rw [List.reduceOption, List.filterMap_map]
    exact List.filterMap_some
  simp only [LogDefine.ofNode, ld.field_name, Option.bind_some, asString_scalar, hlevel,
    ld.stringField_formatter, ld.field_appenders, LogAppenderDefine.decodeAll_node h,
    Option.map_some, hread, hlevel']

/-- **What was read is written so that it is read again.** -/
theorem LogDefines.decode_encode (hy : y.LoadsBack) {v : String} {s : LogDefines}
    (h : LogDefines.decode y v = some s) :
    (LogDefines.encode y s).bind (LogDefines.decode y) = some s := by
  obtain ⟨lds, hlds, rfl⟩ := Option.map_eq_some_iff.mp h
  obtain ⟨node, -, hlds⟩ := Option.bind_eq_some_iff.mp hlds
  generalize hs : (Container.ordered LogDefine.less LogDefine.less_strictOrder).ofList lds = s
  have hreadable : ∀ ld ∈ s.1, ld.Readable := by
    intro ld hld
    obtain rfl := hs
    obtain ⟨i, -, hi⟩ := Container.mem_of_mapM hlds
      ((OrderedSet.sorted_build LogDefine.less_strictOrder lds).2 ld hld)
    obtain ⟨text, -, htext⟩ := Option.bind_eq_some_iff.mp hi
    exact LogDefine.readable_of_decode htext
  -- the text of each logger is loaded as a node that is the same as the one it was printed of
  have hwritten : ∀ ld ∈ s.1, ∃ n, y.load (LogDefine.encode y ld) = some n ∧
      LogDefine.decode y (y.emit n) = some ld := by
    intro ld hld
    obtain ⟨n, hload, hsame⟩ := hy.node (ld.node y)
    refine ⟨n, hload, ?_⟩
    rw [← hsame.emit_eq, LogDefine.decode, hload, Option.bind_some, ← LogDefine.ofNode_congr hsame]
    exact LogDefine.ofNode_node (hreadable ld hld)
  obtain ⟨ns, hns⟩ := Container.exists_forall₂ hwritten
  have hload : (s.1.map (LogDefine.encode y)).mapM y.load = some ns := by
    rw [Container.mapM_eq_some, List.forall₂_map_left_iff]
    exact hns.imp fun ld n hn => hn.1
  have hdecode : (ns.map y.emit).mapM (LogDefine.decode y) = some s.1 := by
    rw [Container.mapM_eq_some, List.forall₂_map_left_iff]
    exact hns.flip.imp fun n ld hn => hn.2
  obtain ⟨root, hroot⟩ := exists_load_emitSequence hy ns
  rw [LogDefines.encode, sequenceOf, hload, Option.map_some, Option.bind_some, LogDefines.decode,
    decodeItems_of_listed hroot (listed_of_load hy hroot), hdecode, Option.map_some]
  exact congrArg some ((Container.ordered _ _).ofList_of_orders rfl)

/-- The node of a logger that has one appender. -/
def sampleItem (level : List (String × NodeTree Style)) : NodeTree Style :=
  lines [("name", plain "root"), ("appenders", .sequence .block [lines
    (("type", plain "FileLogAppender") :: ("file", plain "a.log") :: level)])]

/-- What is loaded of texts of this logger: as a user may write it, and as it is written back. -/
def sampleTexts : List (String × NodeTree Style) :=
  [("- name: root\n  appenders:\n    - type: FileLogAppender\n      file: a.log",
      .sequence .block [sampleItem []]),
    ("name: root\nappenders:\n  - type: FileLogAppender\n    file: a.log", sampleItem []),
    ("name: root\nappenders:\n  - type: FileLogAppender\n    file: a.log\n    level: UNKNOW",
      sampleItem [("level", plain "UNKNOW")]),
    ("- name: root\n  appenders:\n    - type: FileLogAppender\n      file: a.log\n      " ++
      "level: UNKNOW", .sequence .block [sampleItem [("level", plain "UNKNOW")]])]

/-- A library that knows these texts. -/
noncomputable def sampleYaml : YamlCpp :=
  (YamlTable.ofList (fun _ => false) sampleTexts (by decide) (by decide)
    YamlTable.plain_of_false).yaml none none fun _ => none

def sampleDefines : LogDefines :=
  ⟨[⟨"root", .UNKNOW, "", [⟨1, .UNKNOW, "", "a.log"⟩]⟩], List.pairwise_singleton _ _⟩

theorem LogDefines.decode_encode_sampleDefines :
    (LogDefines.encode sampleYaml sampleDefines).bind (LogDefines.decode sampleYaml) =
      some sampleDefines := by
  have hload {text : String} {node : NodeTree Style} (he : (text, node) ∈ sampleTexts) :
      sampleYaml.load text = some node := YamlTable.load_ofList none none _ he
  have hemit {text : String} {node : NodeTree Style} (he : (text, node) ∈ sampleTexts) :
      sampleYaml.emit node = text :=
    YamlTable.emit_ofList none none _ (by simp [sampleTexts, sampleItem, lines])
      (fun h => Bool.false_ne_true h.1) he
  refine LogDefines.decode_encode (y := sampleYaml) (YamlTable.loadsBack _ none none _)
    (v := "- name: root\n  appenders:\n    - type: FileLogAppender\n      file: a.log") ?_
  have hlisted : Listed sampleYaml (NodeTree.sequence .block [sampleItem []])
      ["name: root\nappenders:\n  - type: FileLogAppender\n    file: a.log"] :=
    .inr ⟨[sampleItem []], rfl, congrArg (fun text => [text]) (hemit (.tail _ (.head _)))⟩
  rw [LogDefines.decode, decodeItems_of_listed (hload (.head _)) hlisted, List.mapM_cons,
    LogDefine.decode, hload (.tail _ (.head _))]
  rfl

end Log

end Wille
