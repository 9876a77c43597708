import Wille.Config.Var
import Wille.ForMathlib.Container
import Wille.Log.Logger

/-!
# The listener of the log configuration

`LogIniter` of `log.cpp` gives the config variable `logs` a listener that turns a set of
`LogDefine`s into loggers. It is told the set that was there and the new one, skips what is the same
in both, changes the loggers that are new or different, and resets those that are gone.

Level and appenders of a logger are set whenever it is changed. Its formatter is set only if the
new entry has a format, and one that can be used: otherwise the logger goes on with the formatter
that an earlier configuration gave it.

## What the model keeps

* The message `on_logger_conf_changed` and what is printed to `std::cout` are left out.

## Main definitions

* `LogIniter.onChange`, `g_log_defines`, `given` — the listener, the variable, and what a sequence
  of values leads to
* `LogDefine.accepted` — the formatter an entry gives to its logger
* `LoggerView` — what one sees of a logger

## Main results

* `LogIniter.value_onChange` — the listener at one name
* `path_independent_iff` — when a logger is what the last configuration alone makes of it
-/

namespace Wille

namespace Log

open Config

/-! ### The listener -/

/-- `find`, and what the iterator points to. -/
def LogDefines.find (s : LogDefines) (i : LogDefine) : Option LogDefine :=
  (OrderedSet.find LogDefine.less i s.1).bind (s.1[·]?)

/-- The appender for an element of `appenders`, which `addAppender` then adds to the logger. -/
def LogAppenderDefine.add (a : LogAppenderDefine) (r : Logger × Appenders) : Logger × Appenders :=
  let ap := LogAppender.create (if a.type = 1 then .file a.file else .stdout)
  let ap := ap.setLevel a.level
  let ap :=
    if a.formatter ≠ "" then
      let fmt := LogFormatter.create a.formatter
      if !fmt.isError then ap.setFormatter (some fmt) else ap
    else ap
  r.1.addAppender r.2.length (r.2 ++ [ap])

/-- The format of an element, if it has one. -/
def LogDefine.format (i : LogDefine) (logger : Logger) (heap : Appenders) : Logger × Appenders :=
  if i.formatter ≠ "" then logger.setFormatter i.formatter heap else (logger, heap)

/-- The turn of the first loop, for an element that is new or different. -/
def LogDefine.apply (i : LogDefine) (logger : Logger) (heap : Appenders) : Logger × Appenders :=
  let r := i.format (logger.setLevel i.level) heap
  i.appenders.foldl (fun r a => a.add r) (r.1.clearAppenders, r.2)

/-- The turn of the second loop, for an element that is gone. -/
def LogDefine.remove (logger : Logger) (heap : Appenders) : Logger × Appenders :=
  ((logger.setLevel .UNKNOW).clearAppenders, heap)

namespace LogIniter

/-- The turn of the first loop. -/
def changed (old_value : LogDefines) (m : LoggerManager) (i : LogDefine) : LoggerManager :=
  match old_value.find i with
  | none => m.modify i.name i.apply
  | some j => if !(i == j) then m.modify i.name i.apply else m

/-- The turn of the second loop. -/
def removed (new_value : LogDefines) (m : LoggerManager) (i : LogDefine) : LoggerManager :=
  match new_value.find i with
  | none => m.modify i.name LogDefine.remove
  | some _ => m

/-- The listener. -/
def onChange : OnChange LogDefines LoggerManager := fun old_value new_value m =>
  let m := new_value.1.foldl (changed old_value) m
  (old_value.1.foldl (removed new_value) m, none)

end LogIniter

/-- The config variable `logs`, with its listener. -/
def g_log_defines : ConfigVar LogDefines LoggerManager :=
  (ConfigVar.create "logs" ⟨[], List.Pairwise.nil⟩ "logs config").addListener 1 LogIniter.onChange

/-- What giving these values to `logs` one after the other leads to. -/
def given (cs : List LogDefines) : ConfigVar LogDefines LoggerManager × LoggerManager :=
  cs.foldl (fun s c =>
    let r := s.1.setValue c s.2
    (r.1, r.2.1)) (g_log_defines, .create)

/-! ### What a turn makes of a logger -/

/-- The formatter that a format gives, if it is not ignored. -/
def accepted (format : String) : Option LogFormatter :=
  if format ≠ "" ∧ (LogFormatter.create format).isError = false then some (.create format) else none

/-- The appender for this element, in a logger with this formatter. -/
def LogAppenderDefine.built (formatter : Option LogFormatter) (a : LogAppenderDefine) :
    LogAppender :=
  ⟨if a.type = 1 then .file a.file else .stdout, a.level, (accepted a.formatter).or formatter⟩

/-- The logger for this element, if it had this formatter before. -/
def LogDefine.built (formatter : Option LogFormatter) (i : LogDefine) : LoggerValue :=
  let formatter := (accepted i.formatter).or formatter
  ⟨i.level, formatter, i.appenders.map (LogAppenderDefine.built formatter)⟩

theorem LogAppenderDefine.add_eq (a : LogAppenderDefine) (r : Logger × Appenders) :
    a.add r = ({ r.1 with appenders := r.1.appenders ++ [r.2.length] },
      r.2 ++ [a.built r.1.formatter]) := by
  have hmodify : ∀ (ap : LogAppender) (f : LogAppender → LogAppender),
      (r.2 ++ [ap]).modify r.2.length f = r.2 ++ [f ap] := by
    intro ap f
    rw [List.modify_eq_take_drop, List.take_left, List.drop_left]
    rfl
  rw [LogAppenderDefine.add, Logger.addAppender, hmodify]
  by_cases hformat : a.formatter = ""
  · simp [built, accepted, hformat, LogAppender.create, LogAppender.setLevel,
      LogAppender.setFormatter]
  · cases herror : (LogFormatter.create a.formatter).isError <;>
      simp [built, accepted, hformat, herror, LogAppender.create, LogAppender.setLevel,
        LogAppender.setFormatter]

theorem LogAppenderDefine.foldl_add (as : List LogAppenderDefine) (r : Logger × Appenders) :
    as.foldl (fun r a => a.add r) r =
      ({ r.1 with appenders := r.1.appenders ++ List.range' r.2.length as.length },
        r.2 ++ as.map (built r.1.formatter)) := by
  induction as generalizing r with
  | nil => simp
  | cons a as ih =>
    rw [List.foldl_cons, ih, a.add_eq]
    simp [List.range'_succ]

/-- References to what stands at the end of a list lead to it. -/
theorem filterMap_range' {α : Type*} (l l' : List α) :
    (List.range' l.length l'.length).filterMap ((l ++ l')[·]?) = l' := by
  have hget : ∀ i, (l ++ l')[l.length + i]? = l'[i]? := fun i => by
    rw [List.getElem?_append_right (Nat.le_add_right ..), Nat.add_sub_cancel_left]
  calc
    _ = (List.range l'.length).filterMap (l'[·]?) := by
      rw [List.range'_eq_map_range, List.filterMap_map]
      exact List.filterMap_congr fun i _ => hget i
    _ = ((List.range l'.length).map (l'[·]?)).filterMap id := by
      rw [List.filterMap_map]
      rfl
    _ = l' := by
      rw [map_getElem?_range, List.filterMap_map]
      exact List.filterMap_some

theorem LogDefine.format_fst (i : LogDefine) (logger : Logger) (heap : Appenders) :
    (i.format logger heap).1 =
      { logger with formatter := (accepted i.formatter).or logger.formatter } := by
  rw [LogDefine.format, Logger.setFormatter, accepted]
  by_cases hformat : i.formatter = ""
  · simp [hformat]
  · cases (LogFormatter.create i.formatter).isError <;> simp [hformat, Logger.setFormatterPtr]

theorem LogDefine.local_format (i : LogDefine) (logger : Logger) (heap : Appenders) :
    Local (logger, heap) (i.format logger heap) := by
  rw [LogDefine.format]
  split
  · exact logger.local_setFormatter i.formatter heap
  · exact Local.of_subset (List.Subset.refl _)

theorem LogDefine.value_apply (i : LogDefine) (logger : Logger) (heap : Appenders) :
    (i.apply logger heap).1.value (i.apply logger heap).2 = i.built logger.formatter := by
  simp only [LogDefine.apply, LogAppenderDefine.foldl_add, Logger.value, Logger.clearAppenders,
    List.nil_append, i.format_fst, LogDefine.built, Logger.setLevel]
  congr 1
  rw [← List.length_map (LogAppenderDefine.built ((accepted i.formatter).or logger.formatter)),
    filterMap_range']

theorem LogAppenderDefine.local_foldl (as : List LogAppenderDefine) (r : Logger × Appenders) :
    Local r (as.foldl (fun r a => a.add r) r) := by
  induction as generalizing r with
  | nil => exact Local.of_subset (List.Subset.refl _)
  | cons a as ih => exact (r.1.local_addAppender _ r.2).trans (ih (a.add r))

theorem LogDefine.local_apply (i : LogDefine) (logger : Logger) (heap : Appenders) :
    Local (logger, heap) (i.apply logger heap) := by
  have hlevel : Local (logger, heap) (logger.setLevel i.level, heap) :=
    Local.of_subset (List.Subset.refl _)
  have hclear : ∀ r : Logger × Appenders, Local r (r.1.clearAppenders, r.2) :=
    fun r => Local.of_subset (List.nil_subset _)
  exact ((hlevel.trans (i.local_format _ heap)).trans (hclear _)).trans
    (LogAppenderDefine.local_foldl i.appenders _)

/-! ### What the listener makes of a name -/

/-- The element with this name. -/
def LogDefines.entry (s : LogDefines) (name : String) : Option LogDefine :=
  s.1.find? fun i => i.name = name

theorem LogDefines.nodup_names (s : LogDefines) : (s.1.map LogDefine.name).Nodup := by
  refine List.pairwise_map.mpr (s.2.imp fun {i j} hij hname => ?_)
  exact absurd (of_decide_eq_true hij) (hname ▸ String.lt_irrefl i.name)

theorem LogDefines.entry_eq_some {s : LogDefines} {name : String} {i : LogDefine} :
    s.entry name = some i ↔ i ∈ s.1 ∧ i.name = name := by
  constructor
  · intro h
    exact ⟨List.mem_of_find?_eq_some h, by simpa using List.find?_some h⟩
  · rintro ⟨hmem, rfl⟩
    rcases hfind : s.entry i.name with - | j
    · exact absurd (decide_eq_true rfl) (List.find?_eq_none.mp hfind i hmem)
    · have hname : j.name = i.name := by simpa using List.find?_some hfind
      rw [List.inj_on_of_nodup_map s.nodup_names (List.mem_of_find?_eq_some hfind) hmem hname]

/-- `find` looks for the name. -/
theorem LogDefines.find_eq (s : LogDefines) (i : LogDefine) : s.find i = s.entry i.name := by
  rcases hfind : OrderedSet.find LogDefine.less i s.1 with - | k
  · rw [LogDefines.find, hfind, Option.bind_none, eq_comm, LogDefines.entry, List.find?_eq_none]
    intro j hj hname
    have hname : j.name = i.name := of_decide_eq_true hname
    rcases OrderedSet.comparable_of_find_eq_none LogDefine.less_strictOrder s.2 hfind j hj with
      hlt | hlt
    · exact absurd (of_decide_eq_true hlt) (hname ▸ String.lt_irrefl _)
    · exact absurd (of_decide_eq_true hlt) (hname ▸ String.lt_irrefl _)
  · obtain ⟨j, hj, hij, hji⟩ := OrderedSet.find_eq_some hfind
    rw [LogDefines.find, hfind, Option.bind_some, hj, eq_comm, LogDefines.entry_eq_some]
    exact ⟨List.mem_of_getElem? hj, String.le_antisymm
      (String.not_lt.mp (of_decide_eq_false hij)) (String.not_lt.mp (of_decide_eq_false hji))⟩

/-- The formatter of a logger, which is the default one before there is a logger. -/
def formatterOf (v : Option LoggerValue) : Option LogFormatter :=
  v.elim (some (.create Logger.defaultPattern)) LoggerValue.formatter

theorem LoggerManager.getLogger_formatter (m : LoggerManager) (name : String) :
    (m.getLogger name).formatter = formatterOf (m.value name) := by
  rcases hlogger : m.loggers name with - | logger
  · simp only [getLogger, value, hlogger]
    rfl
  · simp only [getLogger, value, hlogger]
    rfl

namespace LogIniter

/-- What happens to a logger whose entry was `old` and is `new`. -/
def follow : Option LogDefine → Option LogDefine → Option LoggerValue → Option LoggerValue
  | old, some i, v => if old = some i then v else some (i.built (formatterOf v))
  | some _, none, v => some ⟨.UNKNOW, formatterOf v, []⟩
  | none, none, v => v

@[simp] theorem follow_self (old : Option LogDefine) (v : Option LoggerValue) :
    follow old old v = v := by
  rcases old with - | i
  · rfl
  · exact if_pos rfl

/-- An entry that was just applied would change nothing if it were applied again. -/
theorem built_formatterOf (i : LogDefine) (formatter : Option LogFormatter) :
    i.built (formatterOf (some (i.built formatter))) = i.built formatter := by
  have hor : (accepted i.formatter).or ((accepted i.formatter).or formatter) =
      (accepted i.formatter).or formatter := by
    cases accepted i.formatter <;> rfl
  simp only [formatterOf, Option.elim_some, LogDefine.built, hor]

/-- A logger that is as its entry says is so again after the next one, whose format is used if it
can be. -/
theorem follow_built {old : Option LogDefine} {v : Option LoggerValue}
    (h : ∀ i, old = some i → v = some (i.built (formatterOf v))) (new : Option LogDefine) :
    formatterOf (follow old new v) = (new.bind fun i => accepted i.formatter).or (formatterOf v) ∧
      ∀ i, new = some i → follow old new v = some (i.built (formatterOf (follow old new v))) := by
  rcases new with - | i
  · refine ⟨?_, fun i h => absurd h (Option.some_ne_none i).symm⟩
    rcases old with - | j <;> rfl
  · by_cases hold : old = some i
    · have hfollow : follow old (some i) v = v := if_pos hold
      rw [hfollow]
      refine ⟨?_, fun j hj => h j (hold.trans hj)⟩
      have hformatter := congrArg formatterOf (h i hold)
      exact hformatter
    · have hfollow : follow old (some i) v = some (i.built (formatterOf v)) := if_neg hold
      rw [hfollow]
      refine ⟨rfl, fun j hj => ?_⟩
      obtain rfl := Option.some.inj hj
      rw [built_formatterOf]

theorem changed_value (old_value : LogDefines) {m : LoggerManager} (i : LogDefine)
    (h : m.Separate) :
    (changed old_value m i).Separate ∧ ∀ name, (changed old_value m i).value name =
      if i.name = name then
        if old_value.entry i.name = some i then m.value name
        else some (i.built (formatterOf (m.value name)))
      else m.value name := by
  have hlocal := i.local_apply (m.getLogger i.name) m.heap
  have hmodify : ∀ name, (m.modify i.name i.apply).value name =
      if i.name = name then some (i.built (formatterOf (m.value name))) else m.value name := by
    intro name
    rw [h.value_modify hlocal, i.value_apply, m.getLogger_formatter]
    split
    · rename_i hname
      rw [hname]
    · rfl
  rw [changed, old_value.find_eq]
  rcases hentry : old_value.entry i.name with - | j
  · simpa using ⟨h.modify hlocal, hmodify⟩
  · by_cases hij : i = j
    · subst hij
      simpa using h
    · have hne : (i == j) = false := by simpa using hij
      simpa [hne, Ne.symm hij] using ⟨h.modify hlocal, hmodify⟩

theorem removed_value (new_value : LogDefines) {m : LoggerManager} (i : LogDefine)
    (h : m.Separate) :
    (removed new_value m i).Separate ∧ ∀ name, (removed new_value m i).value name =
      if i.name = name then
        if new_value.entry i.name = none then some ⟨.UNKNOW, formatterOf (m.value name), []⟩
        else m.value name
      else m.value name := by
  have hlocal : Local (m.getLogger i.name, m.heap)
      (LogDefine.remove (m.getLogger i.name) m.heap) := Local.of_subset (List.nil_subset _)
  rw [removed, new_value.find_eq]
  rcases hentry : new_value.entry i.name with - | j
  · refine ⟨h.modify hlocal, fun name => ?_⟩
    rw [h.value_modify hlocal, if_pos rfl]
    refine ite_congr rfl (fun hname => ?_) fun _ => rfl
    rw [← hname, ← m.getLogger_formatter]
    rfl
  · simpa using h

/-- **The listener at one name.** -/
theorem value_onChange (old_value new_value : LogDefines) {m : LoggerManager} (h : m.Separate) :
    (onChange old_value new_value m).1.Separate ∧
      ∀ name, (onChange old_value new_value m).1.value name =
        follow (old_value.entry name) (new_value.entry name) (m.value name) := by
  obtain ⟨hchanged, hvalue⟩ := Container.foldl_keyed (changed old_value) LoggerManager.value
    (fun i v => if old_value.entry i.name = some i then v else some (i.built (formatterOf v)))
    (fun m i hm => changed_value old_value i hm) new_value.nodup_names h
  obtain ⟨hremoved, hvalue'⟩ := Container.foldl_keyed (removed new_value) LoggerManager.value
    (fun i v => if new_value.entry i.name = none then some ⟨.UNKNOW, formatterOf v, []⟩ else v)
    (fun m i hm => removed_value new_value i hm) old_value.nodup_names hchanged
  refine ⟨hremoved, fun name => ?_⟩
  have hname : ∀ {s : LogDefines} {i}, s.entry name = some i → i.name = name :=
    fun h => (LogDefines.entry_eq_some.mp h).2
  specialize hvalue name
  specialize hvalue' name
  rw [← LogDefines.entry] at hvalue hvalue'
  rw [onChange, hvalue', hvalue]
  rcases hnew : new_value.entry name with - | i <;> rcases hold : old_value.entry name with - | j
  · rfl
  · simp only [Option.elim_none, Option.elim_some, hname hold, hnew, if_true, follow]
  · simp only [Option.elim_none, Option.elim_some, hname hnew, hold, follow]
  · simp only [Option.elim_some, hname hnew, hname hold, hnew, hold, follow, reduceCtorEq, if_false]

end LogIniter

/-! ### What a sequence of configurations leads to -/

/-- The last format for this logger that could be used. -/
def lastAccepted (entries : List (Option LogDefine)) : Option LogFormatter :=
  (entries.filterMap fun entry => entry.bind fun i => accepted i.formatter).getLast?

theorem lastAccepted_append (entries : List (Option LogDefine)) (entry : Option LogDefine) :
    lastAccepted (entries ++ [entry]) =
      (entry.bind fun i => accepted i.formatter).or (lastAccepted entries) := by
  rw [lastAccepted, List.filterMap_append]
  rcases haccepted : (entry.bind fun i => accepted i.formatter) with - | formatter
  · simp only [List.filterMap_cons, haccepted, List.filterMap_nil, List.append_nil, Option.none_or]
    rfl
  · simp only [List.filterMap_cons, haccepted, List.filterMap_nil, List.getLast?_append,
      List.getLast?_singleton, Option.some_or]

/-- What a sequence of entries makes of a logger, and the last of them. -/
def history (v : Option LoggerValue) (entries : List (Option LogDefine)) :
    Option LogDefine × Option LoggerValue :=
  entries.foldl (fun s entry => (entry, LogIniter.follow s.1 entry s.2)) (none, v)

/-- One more value. -/
theorem setValue_value {var : ConfigVar LogDefines LoggerManager}
    (hcbs : var.cbs = g_log_defines.cbs) (c : LogDefines) {m : LoggerManager} (h : m.Separate) :
    (var.setValue c m).1.cbs = g_log_defines.cbs ∧ (var.setValue c m).1.val = c ∧
      (var.setValue c m).2.1.Separate ∧ ∀ name, (var.setValue c m).2.1.value name =
        LogIniter.follow (var.val.entry name) (c.entry name) (m.value name) := by
  rcases hcompare : var.compare c m with - | r
  · have hsame : c = var.val := by
      rw [ConfigVar.compare] at hcompare
      split at hcompare
      · rename_i heq
        exact eq_of_beq heq
      · exact absurd hcompare (Option.some_ne_none _)
    have hset : var.setValue c m = (var, m, none) := by
      rw [ConfigVar.setValue, hcompare]
    rw [hset, hsame]
    exact ⟨hcbs, rfl, h, fun name => (LogIniter.follow_self ..).symm⟩
  · obtain ⟨-, rfl⟩ := ConfigVar.compare_eq_some.mp hcompare
    have hnotify : notify var.val c var.cbs m =
        ⟨[1], (LogIniter.onChange var.val c m).1, none⟩ := by
      rw [hcbs]
      rfl
    have hset : var.setValue c m = (var.assign c, (LogIniter.onChange var.val c m).1, none) := by
      simp only [ConfigVar.setValue, hcompare, hnotify]
      rfl
    obtain ⟨hseparate, hvalue⟩ := LogIniter.value_onChange var.val c h
    rw [hset]
    exact ⟨hcbs, rfl, hseparate, hvalue⟩

theorem history_append (v : Option LoggerValue) (entries : List (Option LogDefine))
    (entry : Option LogDefine) : history v (entries ++ [entry]) =
      (entry, LogIniter.follow (history v entries).1 entry (history v entries).2) := by
  rw [history, List.foldl_append]
  rfl

/-- The state after some values, at each name. -/
theorem given_value (cs : List LogDefines) :
    (given cs).1.cbs = g_log_defines.cbs ∧ (given cs).2.Separate ∧
      ∀ name, ((given cs).1.val.entry name, (given cs).2.value name) =
        history (LoggerManager.create.value name) (cs.map (·.entry name)) := by
  induction cs using List.reverseRecOn with
  | nil => exact ⟨rfl, LoggerManager.separate_create, fun _ => rfl⟩
  | append_singleton cs c ih =>
    obtain ⟨hcbs, hseparate, hvalue⟩ := ih
    have hstep : given (cs ++ [c]) = (((given cs).1.setValue c (given cs).2).1,
        ((given cs).1.setValue c (given cs).2).2.1) := by
      rw [given, List.foldl_append]
      rfl
    obtain ⟨hcbs', hval, hseparate', hvalue'⟩ := setValue_value hcbs c hseparate
    rw [hstep]
    refine ⟨hcbs', hseparate', fun name => ?_⟩
    rw [List.map_append, List.map_singleton, history_append, ← hvalue name, hval, hvalue']

/-- **What a sequence of entries makes of a logger.** Its formatter is the last one that was
accepted, and everything else is that of the last entry. -/
theorem history_eq (v : Option LoggerValue) (entries : List (Option LogDefine)) :
    (history v entries).1 = entries.getLast?.join ∧
      formatterOf (history v entries).2 = (lastAccepted entries).or (formatterOf v) ∧
      ∀ i, (history v entries).1 = some i →
        (history v entries).2 = some (i.built (formatterOf (history v entries).2)) := by
  induction entries using List.reverseRecOn with
  | nil => exact ⟨rfl, rfl, fun i h => absurd h (Option.some_ne_none i).symm⟩
  | append_singleton entries entry ih =>
    obtain ⟨hlast, hformatter, hbuilt⟩ := ih
    obtain ⟨hformatter', hbuilt'⟩ := LogIniter.follow_built hbuilt entry
    rw [history_append, lastAccepted_append]
    refine ⟨by simp, ?_, hbuilt'⟩
    rw [hformatter', hformatter, Option.or_assoc]

theorem formatterOf_create (name : String) :
    formatterOf (LoggerManager.create.value name) = some (.create Logger.defaultPattern) := by
  by_cases hname : name = "root"
  · subst hname
    rw [LoggerManager.value, LoggerManager.create, LoggerManager.store_loggers_self]
    rfl
  · rw [LoggerManager.value, LoggerManager.create, LoggerManager.store_loggers_of_ne hname]
    rfl

/-- A logger of the last value is what its entry makes of it, with the formatter that the values
before have left. -/
theorem given_entry (cs : List LogDefines) {c : LogDefines} {e : LogDefine} (he : e ∈ c.1) :
    (given (cs ++ [c])).2.value e.name = some (e.built
      ((lastAccepted (cs.map (·.entry e.name))).or (some (.create Logger.defaultPattern)))) := by
  have hentry : c.entry e.name = some e := LogDefines.entry_eq_some.mpr ⟨he, rfl⟩
  obtain ⟨-, -, hvalue⟩ := given_value (cs ++ [c])
  have hhistory := hvalue e.name
  rw [List.map_append, List.map_singleton, hentry] at hhistory
  obtain ⟨hlast, hformatter, hbuilt⟩ := history_eq (LoggerManager.create.value e.name)
    (cs.map (·.entry e.name) ++ [some e])
  rw [formatterOf_create, lastAccepted_append, Option.bind_some, Option.or_assoc] at hformatter
  have hsome := hbuilt e (by rw [hlast]; simp)
  rw [hformatter, ← hhistory] at hsome
  refine hsome.trans (congrArg some ?_)
  rw [LogDefine.built, LogDefine.built]
  cases accepted e.formatter <;> rfl

/-! ### What one sees of a logger -/

/-- Type, file, level and format of an appender. -/
structure AppenderView where
  kind : AppenderKind
  level : LogLevel
  pattern : Option String
  deriving DecidableEq

/-- Level, format and appenders of a logger. -/
structure LoggerView where
  level : LogLevel
  pattern : Option String
  appenders : List AppenderView
  deriving DecidableEq

def LogAppender.view (appender : LogAppender) : AppenderView :=
  ⟨appender.kind, appender.level, appender.formatter.map LogFormatter.pattern⟩

def LoggerValue.view (v : LoggerValue) : LoggerView :=
  ⟨v.level, v.formatter.map LogFormatter.pattern, v.appenders.map LogAppender.view⟩

def LoggerManager.view (m : LoggerManager) (name : String) : Option LoggerView :=
  (m.value name).map LoggerValue.view

theorem eq_create_of_lastAccepted {entries : List (Option LogDefine)} {formatter : LogFormatter}
    (h : lastAccepted entries = some formatter) : formatter = .create formatter.pattern := by
  obtain ⟨entry, -, hentry⟩ := List.mem_filterMap.mp (List.mem_of_getLast? h)
  obtain ⟨i, -, hi⟩ := Option.bind_eq_some_iff.mp hentry
  obtain ⟨-, hformatter⟩ := Option.ite_none_right_eq_some.mp hi
  obtain rfl := Option.some.inj hformatter
  rfl

/-- **When a logger is what the last configuration alone makes of it:** if its entry there has a
format that can be used, or if the last format before that could be used is that of a new logger.
-/
theorem path_independent_iff (cs : List LogDefines) (c : LogDefines) {e : LogDefine}
    (he : e ∈ c.1) :
    (given (cs ++ [c])).2.view e.name = (given [c]).2.view e.name ↔
      (accepted e.formatter).isSome = true ∨
        ∀ formatter, lastAccepted (cs.map (·.entry e.name)) = some formatter →
          formatter.pattern = Logger.defaultPattern := by
  have halone : (given [c]).2.value e.name =
      some (e.built (some (.create Logger.defaultPattern))) := given_entry [] he
  rw [LoggerManager.view, LoggerManager.view, given_entry cs he, halone]
  rcases hown : accepted e.formatter with - | own
  · rcases hlast : lastAccepted (cs.map (·.entry e.name)) with - | formatter
    · refine iff_of_true (by rw [hlast, Option.none_or]) (Or.inr fun f hf => ?_)
      exact absurd (hlast.symm.trans hf) (Option.some_ne_none f).symm
    · rw [hlast, Option.some_or]
      constructor
      · intro hview
        have hpattern := congrArg LoggerView.pattern (Option.some.inj hview)
        simp only [LoggerValue.view, LogDefine.built, hown, Option.none_or, Option.map_some,
          LogFormatter.create_pattern, Option.some.injEq] at hpattern
        refine Or.inr fun f hf => ?_
        rwa [← Option.some.inj hf]
      · rintro (h | h)
        · exact absurd h Bool.false_ne_true
        · rw [eq_create_of_lastAccepted hlast, h formatter rfl]
  · refine iff_of_true ?_ (Or.inl rfl)
    simp only [LogDefine.built, hown, Option.some_or]

/-- A logger with a format of its own. -/
def withFormat : LogDefines :=
  ⟨[⟨"system", .INFO, "%m%n", [⟨2, .INFO, "", ""⟩]⟩], List.pairwise_singleton _ _⟩

/-- The same logger without a format. -/
def withoutFormat : LogDefines :=
  ⟨[⟨"system", .INFO, "", [⟨2, .INFO, "", ""⟩]⟩], List.pairwise_singleton _ _⟩

theorem path_independent_iff_withFormat :
    (given [withoutFormat, withFormat]).2.view "system" = (given [withFormat]).2.view "system" :=
  (path_independent_iff [withoutFormat] withFormat (List.mem_singleton_self _)).mpr
    (Or.inl (by decide))

/-- **A format stays when it is taken out of the configuration.** The logger goes on with the
format that it had, where the second configuration alone gives it the default one. -/
theorem format_stays :
    ¬∀ (cs : List LogDefines) (c : LogDefines) (e : LogDefine), e ∈ c.1 →
      (given (cs ++ [c])).2.view e.name = (given [c]).2.view e.name := by
  intro h
  have hpattern : ((given [withFormat, withoutFormat]).2.view "system").map LoggerView.pattern =
      some (some "%m%n") := by decide
  have halone : ((given [withoutFormat]).2.view "system").map LoggerView.pattern =
      some (some Logger.defaultPattern) := by decide
  have hview := h [withFormat] withoutFormat _ (List.mem_singleton_self _)
  have heq := congrArg (Option.map LoggerView.pattern) hview
  exact absurd (Option.some.inj (Option.some.inj (hpattern.symm.trans (heq.trans halone))))
    (by decide)

end Log

end Wille
