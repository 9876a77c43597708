import Wille.Log.Define
import Wille.Log.Formatter
import Mathlib.Logic.Function.Basic

/-!
# Loggers and their appenders

`Logger`, `LogAppender` and `LoggerManager` of `log.cpp`. A logger has its appenders by pointers: an
appender may be in several loggers, and giving a logger a formatter gives it to whatever appenders
are in the logger. So appenders are kept apart from the loggers, and a logger has references.

## What the model keeps

* A formatter never changes once it is made, so a pointer to one is the formatter itself.
* The file of a `FileLogAppender` is its name.
* `m_root` is not part of a logger: only `log` reads it, to which it is given.

## Main definitions

* `LogAppender`, `Logger`, `LoggerManager` and their operations
* `LoggerManager.value` — what a logger is, its appenders included
* `LoggerManager.Separate` — no two loggers have an appender in common

## Main results

* `LoggerManager.Separate.value_modify` — what is done to a logger leaves the others as they were
-/

namespace Wille

namespace Log

/-- The subclasses of `LogAppender`. -/
inductive AppenderKind where
  | file (filename : String)
  | stdout
  deriving DecidableEq

/-- A `LogAppender`. -/
structure LogAppender where
  kind : AppenderKind
  /-- `m_level` -/
  level : LogLevel
  /-- `m_formatter` -/
  formatter : Option LogFormatter
  deriving DecidableEq

/-- A new appender. -/
def LogAppender.create (kind : AppenderKind) : LogAppender := ⟨kind, .DEBUG, none⟩

def LogAppender.setFormatter (appender : LogAppender) (val : Option LogFormatter) : LogAppender :=
  { appender with formatter := val }

def LogAppender.setLevel (appender : LogAppender) (val : LogLevel) : LogAppender :=
  { appender with level := val }

/-- The appenders that there are; a pointer to one is its position. -/
abbrev Appenders := List LogAppender

/-- A `Logger`. -/
structure Logger where
  /-- `m_name` -/
  name : String
  /-- `m_level` -/
  level : LogLevel
  /-- `m_formatter` -/
  formatter : Option LogFormatter
  /-- `m_appenders` -/
  appenders : List ℕ
  deriving DecidableEq

namespace Logger

/-- The pattern of a new logger. -/
def defaultPattern : String := "%d{%Y-%m-%d %H:%M:%S}%T%t%T%N%T%F%T[%p]%T[%c]%T%f:%l%T%m%n"

/-- A new logger. -/
def create (name : String) : Logger := ⟨name, .DEBUG, some (.create defaultPattern), []⟩

def setLevel (logger : Logger) (val : LogLevel) : Logger := { logger with level := val }

def clearAppenders (logger : Logger) : Logger := { logger with appenders := [] }

def delAppender (logger : Logger) (appender : ℕ) : Logger :=
  { logger with appenders := logger.appenders.erase appender }

/-- `setFormatter` of a pointer -/
def setFormatterPtr (logger : Logger) (formatter : Option LogFormatter) (heap : Appenders) :
    Logger × Appenders :=
  ({ logger with formatter := formatter },
    logger.appenders.foldl (fun heap a => heap.modify a (·.setFormatter formatter)) heap)

/-- `setFormatter` of a text -/
def setFormatter (logger : Logger) (val : String) (heap : Appenders) : Logger × Appenders :=
  let new_val := LogFormatter.create val
  if new_val.isError then (logger, heap) else logger.setFormatterPtr (some new_val) heap

def addAppender (logger : Logger) (appender : ℕ) (heap : Appenders) : Logger × Appenders :=
  ({ logger with appenders := logger.appenders ++ [appender] },
    heap.modify appender fun a =>
      if a.formatter = none then a.setFormatter logger.formatter else a)

end Logger

/-- A `LoggerManager`, with the appenders that there are. -/
structure LoggerManager where
  /-- `m_loggers` -/
  loggers : String → Option Logger
  heap : Appenders

namespace LoggerManager

/-- The logger is stored under its name, and the appenders are these. -/
def store (m : LoggerManager) (name : String) (r : Logger × Appenders) : LoggerManager :=
  ⟨Function.update m.loggers name (some r.1), r.2⟩

@[simp] theorem store_loggers_self (m : LoggerManager) (name : String) (r : Logger × Appenders) :
    (m.store name r).loggers name = some r.1 := Function.update_self ..

theorem store_loggers_of_ne {m : LoggerManager} {name name' : String} {r : Logger × Appenders}
    (h : name' ≠ name) : (m.store name r).loggers name' = m.loggers name' :=
  Function.update_of_ne h ..

/-- `getLogger` -/
def getLogger (m : LoggerManager) (name : String) : Logger :=
  (m.loggers name).getD (.create name)

/-- What is done to the logger that `getLogger` gives. -/
def modify (m : LoggerManager) (name : String) (f : Logger → Appenders → Logger × Appenders) :
    LoggerManager :=
  m.store name (f (m.getLogger name) m.heap)

/-- A new manager, whose root logger writes to `std::cout`. -/
def create : LoggerManager :=
  store ⟨fun _ => none, []⟩ "root" ((Logger.create "root").addAppender 0 [.create .stdout])

end LoggerManager

/-! ### What is done to one logger -/

/-- What a logger is: its appenders, and not references to them. -/
structure LoggerValue where
  level : LogLevel
  formatter : Option LogFormatter
  appenders : List LogAppender
  deriving DecidableEq

def Logger.value (logger : Logger) (heap : Appenders) : LoggerValue :=
  ⟨logger.level, logger.formatter, logger.appenders.filterMap (heap[·]?)⟩

/-- From the first logger and appenders come the second, without a change to any other appender
that there was, and without taking one of those in. -/
structure Local (r r' : Logger × Appenders) : Prop where
  length_le : r.2.length ≤ r'.2.length
  getElem?_eq : ∀ {a}, a < r.2.length → a ∉ r.1.appenders → r'.2[a]? = r.2[a]?
  mem : ∀ {a}, a ∈ r'.1.appenders → a ∈ r.1.appenders ∨ (r.2.length ≤ a ∧ a < r'.2.length)

namespace Local

variable {r r' r'' : Logger × Appenders}

/-- Changing the logger alone is local if no appender is added. -/
theorem of_subset {logger logger' : Logger} {heap : Appenders}
    (h : logger'.appenders ⊆ logger.appenders) : Local (logger, heap) (logger', heap) where
  length_le := Nat.le_refl _
  getElem?_eq _ _ := rfl
  mem ha := Or.inl (h ha)

theorem trans (h : Local r r') (h' : Local r' r'') : Local r r'' where
  length_le := h.length_le.trans h'.length_le
  getElem?_eq {a} ha hmem := by
    have hmem' : a ∉ r'.1.appenders := fun hmem' => by
      rcases h.mem hmem' with hmem'' | ⟨hle, -⟩
      · exact hmem hmem''
      · exact absurd hle (Nat.not_le.mpr ha)
    rw [h'.getElem?_eq (ha.trans_le h.length_le) hmem', h.getElem?_eq ha hmem]
  mem {a} ha := by
    rcases h'.mem ha with ha | ⟨hle, hlt⟩
    · exact (h.mem ha).imp id fun ⟨hle, hlt⟩ => ⟨hle, hlt.trans_le h'.length_le⟩
    · exact Or.inr ⟨h.length_le.trans hle, hlt⟩

end Local

theorem Logger.foldl_modify (refs : List ℕ) (f : LogAppender → LogAppender) (heap : Appenders) :
    (refs.foldl (fun heap a => heap.modify a f) heap).length = heap.length ∧
      ∀ a, a ∉ refs → (refs.foldl (fun heap a => heap.modify a f) heap)[a]? = heap[a]? := by
  induction refs generalizing heap with
  | nil => exact ⟨rfl, fun _ _ => rfl⟩
  | cons b refs ih =>
    obtain ⟨hlength, hget⟩ := ih (heap.modify b f)
    refine ⟨hlength.trans (List.length_modify f heap b), fun a ha => ?_⟩
    obtain ⟨hab, ha⟩ := not_or.mp (List.mem_cons.not.mp ha)
    rw [List.foldl_cons, hget a ha, List.getElem?_modify_ne f heap (Ne.symm hab)]

/-- Giving a logger a formatter is local. -/
theorem Logger.local_setFormatter (logger : Logger) (val : String) (heap : Appenders) :
    Local (logger, heap) (logger.setFormatter val heap) := by
  rw [Logger.setFormatter]
  split
  · exact Local.of_subset (List.Subset.refl _)
  · obtain ⟨hlength, hget⟩ := Logger.foldl_modify logger.appenders
      (·.setFormatter (some (.create val))) heap
    exact ⟨hlength.ge, fun {a} _ ha => hget a ha, fun ha => Or.inl ha⟩

/-- Adding a new appender is local. -/
theorem Logger.local_addAppender (logger : Logger) (appender : LogAppender) (heap : Appenders) :
    Local (logger, heap) (logger.addAppender heap.length (heap ++ [appender])) where
  length_le := by simp [Logger.addAppender]
  getElem?_eq {a} ha hmem := by
    rw [Logger.addAppender, List.getElem?_modify_ne _ _ (Nat.ne_of_gt ha),
      List.getElem?_append_left ha]
  mem {a} ha := by
    rcases List.mem_append.mp ha with ha | ha
    · exact Or.inl ha
    · obtain rfl := List.mem_singleton.mp ha
      exact Or.inr ⟨Nat.le_refl _, by simp [Logger.addAppender]⟩

namespace LoggerManager

/-- What the logger with a name is, if there is one. -/
def value (m : LoggerManager) (name : String) : Option LoggerValue :=
  (m.loggers name).map (·.value m.heap)

/-- No two loggers have an appender in common, and there are all the appenders they have. -/
structure Separate (m : LoggerManager) : Prop where
  lt : ∀ {name logger a}, m.loggers name = some logger → a ∈ logger.appenders → a < m.heap.length
  disjoint : ∀ {name name' logger logger' a}, m.loggers name = some logger →
    m.loggers name' = some logger' → a ∈ logger.appenders → a ∈ logger'.appenders → name = name'

theorem separate_create : create.Separate := by
  have hroot : ∀ {name logger}, create.loggers name = some logger →
      name = "root" ∧ logger.appenders = [0] := by
    intro name logger h
    by_cases hname : name = "root"
    · subst hname
      obtain rfl := Option.some.inj ((store_loggers_self ..).symm.trans h)
      exact ⟨rfl, rfl⟩
    · exact absurd ((store_loggers_of_ne hname).symm.trans h) (Option.some_ne_none _).symm
  constructor
  · intro name logger a h ha
    rw [(hroot h).2] at ha
    obtain rfl := List.mem_singleton.mp ha
    exact Nat.zero_lt_one
  · intro name name' logger logger' a h h' ha ha'
    rw [(hroot h).1, (hroot h').1]

variable {m : LoggerManager} {name : String} {f : Logger → Appenders → Logger × Appenders}

theorem getLogger_appenders {a : ℕ} (ha : a ∈ (m.getLogger name).appenders) :
    ∃ logger, m.loggers name = some logger ∧ a ∈ logger.appenders := by
  rcases hlogger : m.loggers name with - | logger
  · rw [getLogger, hlogger] at ha
    exact absurd ha List.not_mem_nil
  · rw [getLogger, hlogger] at ha
    exact ⟨logger, rfl, ha⟩

/-- What is done to one logger keeps the loggers apart. -/
theorem Separate.modify (h : m.Separate)
    (hf : Local (m.getLogger name, m.heap) (f (m.getLogger name) m.heap)) :
    (m.modify name f).Separate := by
  have hcases : ∀ {name' logger a}, (m.modify name f).loggers name' = some logger →
      a ∈ logger.appenders → (∃ logger', m.loggers name' = some logger' ∧ a ∈ logger'.appenders) ∨
        (name' = name ∧ m.heap.length ≤ a ∧ a < (m.modify name f).heap.length) := by
    intro name' logger a hlogger ha
    by_cases hname : name' = name
    · subst hname
      obtain rfl := Option.some.inj ((store_loggers_self ..).symm.trans hlogger)
      rcases hf.mem ha with ha | ha
      · exact Or.inl (getLogger_appenders ha)
      · exact Or.inr ⟨rfl, ha⟩
    · exact Or.inl ⟨logger, (store_loggers_of_ne hname).symm.trans hlogger, ha⟩
  constructor
  · intro name' logger a hlogger ha
    rcases hcases hlogger ha with ⟨logger', hlogger', ha'⟩ | ⟨-, -, hlt⟩
    · exact (h.lt hlogger' ha').trans_le hf.length_le
    · exact hlt
  · intro name₁ name₂ logger₁ logger₂ a h₁ h₂ ha₁ ha₂
    rcases hcases h₁ ha₁ with ⟨logger₁', h₁', ha₁'⟩ | ⟨rfl, hle₁, -⟩ <;>
      rcases hcases h₂ ha₂ with ⟨logger₂', h₂', ha₂'⟩ | ⟨rfl, hle₂, -⟩
    · exact h.disjoint h₁' h₂' ha₁' ha₂'
    · exact absurd (h.lt h₁' ha₁') (Nat.not_lt.mpr hle₂)
    · exact absurd (h.lt h₂' ha₂') (Nat.not_lt.mpr hle₁)
    · rfl

/-- **What is done to one logger** leaves the others as they were. -/
theorem Separate.value_modify (h : m.Separate)
    (hf : Local (m.getLogger name, m.heap) (f (m.getLogger name) m.heap)) (name' : String) :
    (m.modify name f).value name' = if name = name' then
      some ((f (m.getLogger name) m.heap).1.value (f (m.getLogger name) m.heap).2)
    else m.value name' := by
  split
  · rename_i hname
    subst hname
    simp only [value, LoggerManager.modify, store_loggers_self, Option.map_some]
    rfl
  · rename_i hname
    have hloggers : (m.modify name f).loggers name' = m.loggers name' :=
      store_loggers_of_ne (Ne.symm hname)
    rcases hlogger : m.loggers name' with - | logger
    · simp only [value, hloggers, hlogger, Option.map_none]
    · have hheap : ∀ a ∈ logger.appenders, (m.modify name f).heap[a]? = m.heap[a]? := by
        intro a ha
        refine hf.getElem?_eq (h.lt hlogger ha) fun ha' => ?_
        obtain ⟨logger', hlogger', ha''⟩ := getLogger_appenders ha'
        exact hname (h.disjoint hlogger' hlogger ha'' ha)
      simp only [value, hloggers, hlogger, Option.map_some, Logger.value,
        List.filterMap_congr hheap]

end LoggerManager

end Log

end Wille
