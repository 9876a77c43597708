import Wille.Log.Define

/-!
# Appenders that are not well formed

Each element of `appenders` is checked on its own: one without a type, one with an unknown type and
a `FileLogAppender` without a file are reported, and the loop goes on with the next one. After the
third report the `continue` is missing. The code goes on to read the file that is not there, which
throws, and the whole logger is lost, and with it every logger of the document.

## Main definitions

* `LogAppenderDefine.report`, `LogAppenderDefine.reports` — what is printed of the elements
* `LogAppenderDefine.ofEntry` — the appender that a well-formed element stands for
* `LogAppenderDefine.LacksFile`

## Main results

* `LogDefine.decode_skips_iff` — when the elements that are not well formed are skipped
* `LogDefines.decode_eq_none` — a logger that cannot be read costs the others
* `LogDefines.lost_by_an_appender` — an appender without a file costs the other loggers
-/

namespace Wille

namespace Log

open Yaml Config

section Elements

variable (y : YamlCpp)

/-! ### What is printed -/

/-- What is printed to `std::cout` of an element of `appenders`, if anything is. -/
def LogAppenderDefine.report (appender : y.Node) : Option String :=
  (field y appender "type").bind fun type =>
    match type with
    | none => some ("log config error: appender type is null" ++ y.emit appender)
    | some type =>
      (asString y type).bind fun type =>
        (stringField y appender "level" "").bind fun _ =>
          if type = "FileLogAppender" then
            (field y appender "file").bind fun file =>
              match file with
              | none =>
                some ("log config error: fileappender file is null" ++ y.emit appender)
              | some _ => none
          else if type = "StdoutLogAppender" then none
          else some ("log config error: appender type is invalid, " ++ y.emit appender)

/-- What the loop over the elements prints, which ends at one that throws. -/
def LogAppenderDefine.reports : List y.Node → List String
  | [] => []
  | appender :: appenders =>
    (report y appender).toList ++
      if (decode y (some appender)).isSome then reports appenders else []

/-! ### What is well formed -/

/-- A map of scalars. -/
def Flat (node : y.Node) : Prop :=
  ∃ fields, y.view node = .map fields ∧ ∀ e ∈ fields, ∃ text, y.view e.2 = .scalar text

/-- The text of a field, if there is one and it is a scalar. -/
def fieldText (node : y.Node) (key : String) : Option String :=
  (field y node key).join.bind y.text?

namespace LogAppenderDefine

/-- The appender that an element stands for, if it is well formed. -/
def ofEntry (entry : y.Node) : Option LogAppenderDefine :=
  let level := LogLevel.FromString ((fieldText y entry "level").getD "")
  let formatter := (fieldText y entry "formatter").getD ""
  if fieldText y entry "type" = some "StdoutLogAppender" then some ⟨2, level, formatter, ""⟩
  else if fieldText y entry "type" = some "FileLogAppender" then
    (fieldText y entry "file").map fun file => ⟨1, level, formatter, file⟩
  else none

/-- A `FileLogAppender` without a file. -/
def LacksFile (entry : y.Node) : Prop :=
  fieldText y entry "type" = some "FileLogAppender" ∧ fieldText y entry "file" = none

instance (entry : y.Node) : Decidable (LacksFile y entry) := inferInstanceAs (Decidable (_ ∧ _))

end LogAppenderDefine

end Elements

variable {y : YamlCpp} {entry : y.Node}

theorem asString_of_view {node : y.Node} {text : String} (h : y.view node = .scalar text) :
    asString y node = some text := by
  rw [asString, h]

/-- A field of a map of scalars is missing, or it is a scalar. -/
theorem Flat.field_cases (h : Flat y entry) (key : String) :
    (field y entry key = some none ∧ fieldText y entry key = none) ∨
      ∃ n text, field y entry key = some (some n) ∧ asString y n = some text ∧
        fieldText y entry key = some text := by
  obtain ⟨fields, hview, hfields⟩ := h
  rw [fieldText]
  rcases hfind : fields.find? (fun e => y.text? e.1 == some key) with - | e
  · have hfield : field y entry key = some none := by rw [field, hview]; simp only [hfind]; rfl
    exact .inl ⟨hfield, by rw [hfield]; rfl⟩
  · have hfield : field y entry key = some (some e.2) := by
      rw [field, hview]
      simp only [hfind]
      rfl
    obtain ⟨text, htext⟩ := hfields e (List.mem_of_find?_eq_some hfind)
    refine .inr ⟨e.2, text, hfield, asString_of_view htext, ?_⟩
    rw [hfield, Option.join_some, Option.bind_some, YamlCpp.text?, htext]
    rfl

theorem Flat.stringField_eq (h : Flat y entry) (key default : String) :
    stringField y entry key default = some ((fieldText y entry key).getD default) := by
  obtain ⟨hfield, htext⟩ | ⟨n, text, hfield, hn, htext⟩ := h.field_cases key
  · rw [stringField, hfield, htext]
    rfl
  · rw [stringField, hfield, htext]
    exact hn

namespace LogAppenderDefine

/-- What the code makes of an element. -/
theorem decode_flat (h : Flat y entry) :
    decode y (some entry) = if LacksFile y entry then none else some (ofEntry y entry) := by
  obtain ⟨htype, htext⟩ | ⟨n, type, htype, hn, htext⟩ := h.field_cases "type"
  · simp [decode, htype, LacksFile, ofEntry, htext]
  · simp only [decode, htype, Option.bind_some, hn, h.stringField_eq, LacksFile, ofEntry, htext,
      Option.some.injEq]
    by_cases hfile : type = "FileLogAppender"
    · subst hfile
      obtain ⟨hfield, htext⟩ | ⟨f, file, hfield, hf, htext⟩ := h.field_cases "file"
      · simp [hfield, htext]
      · simp [hfield, hf, htext]
    · simp only [hfile, false_and, if_false]
      split <;> rfl

/-- An element is reported if it is not well formed. -/
theorem report_flat (h : Flat y entry) : report y entry ≠ none ↔ ofEntry y entry = none := by
  obtain ⟨htype, htext⟩ | ⟨n, type, htype, hn, htext⟩ := h.field_cases "type"
  · simp [report, htype, ofEntry, htext]
  · simp only [report, htype, Option.bind_some, hn, h.stringField_eq, ofEntry, htext,
      Option.some.injEq]
    by_cases hfile : type = "FileLogAppender"
    · subst hfile
      obtain ⟨hfield, htext⟩ | ⟨f, file, hfield, hf, htext⟩ := h.field_cases "file"
      · simp [hfield, htext]
      · simp [hfield, htext]
    · simp only [if_neg hfile]
      split <;> simp

/-- As long as no element makes the code throw, all that are not well formed are reported. -/
theorem reports_eq {entries : List y.Node}
    (h : ∀ entry ∈ entries, decode y (some entry) ≠ none) :
    reports y entries = entries.filterMap (report y) := by
  induction entries with
  | nil => rfl
  | cons entry entries ih =>
    obtain ⟨hentry, hentries⟩ := List.forall_mem_cons.mp h
    rw [reports, if_pos (Option.isSome_iff_ne_none.mpr hentry), ih hentries]
    rcases hreport : report y entry with - | message
    · rw [List.filterMap_cons_none hreport]
      rfl
    · rw [List.filterMap_cons_some hreport]
      rfl

/-- The loop over elements of which none lacks its file. -/
theorem mapM_flat {entries : List y.Node} (hflat : ∀ entry ∈ entries, Flat y entry)
    (hfile : ∀ entry ∈ entries, ¬LacksFile y entry) :
    (entries.mapM fun entry => decode y (some entry)) = some (entries.map (ofEntry y)) := by
  rw [Container.mapM_eq_some, List.forall₂_map_right_iff, List.forall₂_same]
  intro entry hentry
  rw [decode_flat (hflat entry hentry), if_neg (hfile entry hentry)]

end LogAppenderDefine

/-! ### Reading a logger -/

section Logger

variable {node list : y.Node} {name : String} {entries : List y.Node}

/-- Reading a logger that has a name and elements. -/
theorem LogDefine.ofNode_eq (hname : ∃ n, field y node "name" = some (some n) ∧
      y.view n = .scalar name)
    (happenders : field y node "appenders" = some (some list))
    (hentries : y.view list = .sequence entries) :
    LogDefine.ofNode y node =
      (stringField y node "level" "").bind fun level =>
        (stringField y node "formatter" "").bind fun formatter =>
          (entries.mapM fun entry => LogAppenderDefine.decode y (some entry)).map fun lads =>
            ⟨name, .FromString level, formatter, lads.reduceOption⟩ := by
  obtain ⟨n, hfield, hn⟩ := hname
  simp only [LogDefine.ofNode, hfield, happenders, Option.bind_some, asString_of_view hn,
    LogAppenderDefine.decodeAll, mapM_index_sequence hentries]

/-- **Elements that are not well formed are reported and skipped exactly if** the level and the
format of the logger can be read, and no `FileLogAppender` lacks its file. Here is any text that is
loaded as a map with a name and a sequence of maps of scalars. -/
theorem LogDefine.decode_skips_iff {v : String} (hload : y.load v = some node)
    (hname : ∃ n, field y node "name" = some (some n) ∧ y.view n = .scalar name)
    (happenders : field y node "appenders" = some (some list))
    (hentries : y.view list = .sequence entries) (hflat : ∀ entry ∈ entries, Flat y entry) :
    (∃ ld, LogDefine.decode y v = some ld ∧ ld.name = name ∧
        ld.appenders = entries.filterMap (LogAppenderDefine.ofEntry y) ∧
        LogAppenderDefine.reports y entries =
          entries.filterMap (LogAppenderDefine.report y) ∧
        ∀ entry ∈ entries, LogAppenderDefine.report y entry ≠ none ↔
          LogAppenderDefine.ofEntry y entry = none) ↔
      stringField y node "level" "" ≠ none ∧ stringField y node "formatter" "" ≠ none ∧
        ∀ entry ∈ entries, ¬LogAppenderDefine.LacksFile y entry := by
  rw [LogDefine.decode, hload, Option.bind_some, LogDefine.ofNode_eq hname happenders hentries]
  constructor
  · rintro ⟨ld, hdecode, -⟩
    obtain ⟨level, hlevel, hdecode⟩ := Option.bind_eq_some_iff.mp hdecode
    obtain ⟨formatter, hformatter, hdecode⟩ := Option.bind_eq_some_iff.mp hdecode
    obtain ⟨lads, hlads, -⟩ := Option.map_eq_some_iff.mp hdecode
    refine ⟨by simp [hlevel], by simp [hformatter], fun entry hentry hlacks => ?_⟩
    have hnone : LogAppenderDefine.decode y (some entry) = none := by
      rw [LogAppenderDefine.decode_flat (hflat entry hentry), if_pos hlacks]
    rw [Container.mapM_eq_none.mpr ⟨entry, hentry, hnone⟩] at hlads
    exact Option.some_ne_none lads hlads.symm
  · rintro ⟨hlevel, hformatter, hfile⟩
    obtain ⟨level, hlevel⟩ := Option.ne_none_iff_exists'.mp hlevel
    obtain ⟨formatter, hformatter⟩ := Option.ne_none_iff_exists'.mp hformatter
    have hloop := LogAppenderDefine.mapM_flat hflat hfile
    refine ⟨⟨name, .FromString level, formatter, _⟩, ?_, rfl, rfl,
      LogAppenderDefine.reports_eq fun entry hentry => ?_,
      fun entry hentry => LogAppenderDefine.report_flat (hflat entry hentry)⟩
    · rw [hlevel, Option.bind_some, hformatter, Option.bind_some, hloop, Option.map_some,
        List.reduceOption, List.filterMap_map]
      rfl
    · exact fun hnone => Option.some_ne_none _
        (hloop.symm.trans (Container.mapM_eq_none.mpr ⟨entry, hentry, hnone⟩))

end Logger

/-- A logger that cannot be read costs the others. -/
theorem LogDefines.decode_eq_none (hy : y.LoadsBack) {v : String} {root node : y.Node}
    {nodes : List y.Node} (hload : y.load v = some root) (hview : y.view root = .sequence nodes)
    (hmem : node ∈ nodes) (hnode : LogDefine.ofNode y node = none) :
    LogDefines.decode y v = none := by
  rw [LogDefines.decode, decodeItems_of_listed hload (.inr ⟨nodes, hview, rfl⟩),
    Option.map_eq_none_iff, Container.mapM_eq_none]
  refine ⟨_, List.mem_map_of_mem hmem, ?_⟩
  -- the text of the node is loaded as that node again
  obtain ⟨node', hload', hsame⟩ := hy.node node
  rw [LogDefine.decode, hload', Option.bind_some, ← LogDefine.ofNode_congr hsame, hnode]

/-- A logger with an appender that has these fields, and with one that writes to `std::cout`. -/
def loggerWith (fields : List (String × NodeTree Style)) : NodeTree Style :=
  lines [("name", plain "root"),
    ("appenders", .sequence .block [lines fields, lines [("type", plain "StdoutLogAppender")]])]

/-- What is loaded of texts of such loggers: of one whose first appender has no type, and of one
whose first appender lacks its file, alone and beside another logger. -/
def loggerTexts : List (String × NodeTree Style) :=
  let lacking := loggerWith [("type", plain "FileLogAppender")]
  [("name: root\nappenders:\n  - level: INFO\n  - type: StdoutLogAppender",
      loggerWith [("level", plain "INFO")]),
    ("name: root\nappenders:\n  - type: FileLogAppender\n  - type: StdoutLogAppender", lacking),
    ("- name: root\n  appenders:\n    - type: FileLogAppender\n    - type: StdoutLogAppender\n" ++
      "- name: system", .sequence .block [lacking, lines [("name", plain "system")]])]

/-- A library that knows these texts. -/
noncomputable def loggerYaml : YamlCpp :=
  (YamlTable.ofList (fun _ => false) loggerTexts (by decide) (by decide)
    YamlTable.plain_of_false).yaml none none fun _ => none

theorem load_loggerTexts {e : String × NodeTree Style} (he : e ∈ loggerTexts) :
    loggerYaml.load e.1 = some e.2 := YamlTable.load_ofList none none _ he

theorem flat_loggerWith {key text : String} :
    ∀ entry ∈ [lines [(key, plain text)], lines [("type", plain "StdoutLogAppender")]],
      Flat loggerYaml entry := by
  have hflat : ∀ key text, Flat loggerYaml (lines [(key, plain text)]) := fun key text =>
    ⟨_, rfl, fun e he => ⟨text, by rw [List.mem_singleton.mp he]; rfl⟩⟩
  exact List.forall_mem_cons.mpr ⟨hflat key text, List.forall_mem_singleton.mpr (hflat _ _)⟩

theorem LogDefine.decode_skips_iff_noType :
    ∃ ld, LogDefine.decode loggerYaml
        "name: root\nappenders:\n  - level: INFO\n  - type: StdoutLogAppender" = some ld ∧
      ld.appenders = [⟨2, .UNKNOW, "", ""⟩] := by
  have hfile : ∀ entry ∈ [lines [("level", plain "INFO")], lines [("type",
      plain "StdoutLogAppender")]], ¬LogAppenderDefine.LacksFile loggerYaml entry := by
    rintro entry hentry ⟨htype, -⟩
    rcases List.mem_pair.mp hentry with rfl | rfl
    · exact absurd htype (Option.some_ne_none _).symm
    · exact absurd (Option.some.inj htype) (by decide)
  obtain ⟨ld, hdecode, -, happenders, -⟩ := (LogDefine.decode_skips_iff
    (load_loggerTexts (.head _)) ⟨plain "root", rfl, rfl⟩ rfl rfl flat_loggerWith).mpr
      ⟨Option.some_ne_none "", Option.some_ne_none "", hfile⟩
  exact ⟨ld, hdecode, happenders⟩

/-- A logger with an appender that is well formed and one that lacks its file cannot be read, and
a logger beside it is not read either. -/
theorem LogDefines.lost_by_an_appender :
    ∃ (y : YamlCpp) (v logs : String) (node name list logger : y.Node) (entries : List y.Node)
        (appender : LogAppenderDefine),
      y.load v = some node ∧ field y node "name" = some (some name) ∧
        y.view name = .scalar "root" ∧ field y node "appenders" = some (some list) ∧
        y.view list = .sequence entries ∧ (∀ entry ∈ entries, Flat y entry) ∧
        entries.filterMap (LogAppenderDefine.ofEntry y) = [appender] ∧
        LogDefine.decode y v = none ∧
        (∃ root, y.load logs = some root ∧ y.view root = .sequence [node, logger]) ∧
        (LogDefine.ofNode y logger).isSome ∧ LogDefines.decode y logs = none := by
  have hlacking : LogDefine.ofNode loggerYaml (loggerWith [("type", plain "FileLogAppender")]) =
      none := rfl
  have hread := load_loggerTexts (.tail _ (.head _))
  have hlogs := load_loggerTexts (.tail _ (.tail _ (.head _)))
  refine ⟨loggerYaml, _, _, _, plain "root", _, lines [("name", plain "system")], _,
    ⟨2, .UNKNOW, "", ""⟩, hread, rfl, rfl, rfl, rfl, flat_loggerWith, rfl, ?_,
    ⟨_, hlogs, rfl⟩, rfl, ?_⟩
  · rw [LogDefine.decode, hread]
    exact hlacking
  · exact LogDefines.decode_eq_none (YamlTable.loadsBack _ none none _) hlogs rfl (.head _) hlacking

end Log

end Wille
