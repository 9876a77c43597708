import Wille.Log.Concurrent

/-!
# What holds of the log whatever the order of steps

The discipline that the functions of `log.cpp` keep to. The mutexes are taken in an order: that of
the manager, that of a logger, that of the root logger, those of appenders. Each protects what its
owner reads under it. Loggers and appenders stay, and what has a formatter goes on to have one.

## Main definitions

* `Block`, `Whole` — a stream that consists of whole records
* `Objects.Sound`, `Grows`, `discipline`

## Main results

* `keeps_code` — every function keeps to the discipline
-/

namespace Wille

namespace Log

namespace Concurrent

open Locking Discipline Config

/-! ### The discipline -/

/-- What is done to a stream without a break. -/
inductive Block where
  | reopened
  /-- The record of an event, in this format. -/
  | record (formatter : LogFormatter) (level : LogLevel) (event : LogEvent)

def Block.outputs : Block → List Output
  | .reopened => [.reopened]
  | .record formatter level event => formatter.items.map fun i => .item i level event

/-- The stream has been opened, and records have been written, one after the other. -/
def Whole (outputs : List Output) : Prop :=
  ∃ blocks : List Block, outputs = blocks.flatMap Block.outputs

/-- The text of what is inserted. -/
def Output.text (strftime : Strftime) : Output → Option (List Char)
  | .reopened => some []
  | .item i level event => i.format strftime level event

def Output.texts (strftime : Strftime) : List Output → Option (List Char)
  | [] => some []
  | out :: outs => (out.text strftime).bind fun text => (texts strftime outs).map (text ++ ·)

/-- The text that `LogFormatter::format` makes of a record. -/
def Block.text (strftime : Strftime) : Block → Option (List Char)
  | .reopened => some []
  | .record formatter level event => formatter.format strftime level event

def Block.texts (strftime : Strftime) : List Block → Option (List Char)
  | [] => some []
  | block :: blocks =>
    (block.text strftime).bind fun text => (texts strftime blocks).map (text ++ ·)

theorem Output.texts_append (strftime : Strftime) (outs outs' : List Output) :
    texts strftime (outs ++ outs') =
      (texts strftime outs).bind fun text => (texts strftime outs').map (text ++ ·) := by
  induction outs with
  | nil => simp [texts]
  | cons out outs ih =>
    rw [List.cons_append, texts, texts, ih]
    rcases out.text strftime with - | text
    · rfl
    · rcases texts strftime outs with - | rest
      · rfl
      · simp [Function.comp_def]

theorem Output.texts_items (strftime : Strftime) (level : LogLevel) (event : LogEvent)
    (items : List FormatItem) : texts strftime (items.map fun i => .item i level event) =
      FormatItem.formatAll strftime level event items := by
  induction items with
  | nil => rfl
  | cons i items ih =>
    rw [List.map_cons, texts, ih, FormatItem.formatAll]
    rfl

/-- The text of a stream is that of its records. -/
theorem Block.texts_flatMap (strftime : Strftime) (blocks : List Block) :
    Output.texts strftime (blocks.flatMap outputs) = texts strftime blocks := by
  induction blocks with
  | nil => rfl
  | cons block blocks ih =>
    rw [List.flatMap_cons, Output.texts_append, ih, texts]
    cases block with
    | reopened => simp [outputs, Output.texts, Output.text, text]
    | record formatter level event => rw [outputs, Output.texts_items, text, LogFormatter.format]

theorem Whole.nil : Whole [] := ⟨[], rfl⟩

theorem Whole.append {outputs : List Output} (h : Whole outputs) (block : Block) :
    Whole (outputs ++ block.outputs) := by
  obtain ⟨blocks, rfl⟩ := h
  exact ⟨blocks ++ [block], by simp⟩

/-- What holds of the objects at any time. -/
structure Objects.Sound (s : Objects) : Prop where
  root : ∀ l r, s.root l = some r → r = 0 ∧ l ≠ 0
  logger : ∀ l, (s.loggers l).formatter ≠ none
  appender : ∀ l a, a ∈ (s.loggers l).appenders → (s.appenders a).formatter ≠ none
  /-- A name leads to a logger of that name, which falls back on the root logger. -/
  names : ∀ e ∈ s.names, e.2 < s.loggerCount ∧ (s.loggers e.2).name = e.1 ∧
    (e.2 ≠ 0 → s.root e.2 = some 0)
  keys : ∀ e ∈ s.names, ∀ e' ∈ s.names, e.1 = e'.1 → e = e'
  count : 0 < s.loggerCount
  /-- What is not created yet. -/
  unborn : (∀ l, s.loggerCount ≤ l → (s.loggers l).appenders = [] ∧
      (s.loggers l).formatter = (Logger.create "").formatter ∧ s.root l = none) ∧
    ∀ a, s.appenderCount ≤ a → (s.appenders a).formatter = none

/-- What no step undoes. -/
structure Grows (s s' : Objects) : Prop where
  loggerCount : s.loggerCount ≤ s'.loggerCount
  appenderCount : s.appenderCount ≤ s'.appenderCount
  name : ∀ l < s.loggerCount, (s'.loggers l).name = (s.loggers l).name
  root : ∀ l r, s.root l = some r → s'.root l = some r
  kind : ∀ a < s.appenderCount, (s'.appenders a).kind = (s.appenders a).kind
  formatter : ∀ a, (s.appenders a).formatter ≠ none → (s'.appenders a).formatter ≠ none
  names : ∀ e ∈ s.names, e ∈ s'.names
  sound : s.Sound → s'.Sound

theorem Grows.refl (s : Objects) : Grows s s :=
  ⟨Nat.le_refl _, Nat.le_refl _, fun _ _ => rfl, fun _ _ h => h, fun _ _ => rfl, fun _ h => h,
    fun _ h => h, id⟩

theorem Grows.trans {s s' s'' : Objects} (h : Grows s s') (h' : Grows s' s'') : Grows s s'' where
  loggerCount := h.loggerCount.trans h'.loggerCount
  appenderCount := h.appenderCount.trans h'.appenderCount
  name l hl := (h'.name l (hl.trans_le h.loggerCount)).trans (h.name l hl)
  root l r hr := h'.root l r (h.root l r hr)
  kind a ha := (h'.kind a (ha.trans_le h.appenderCount)).trans (h.kind a ha)
  formatter a ha := h'.formatter a (h.formatter a ha)
  names e he := h'.names e (h.names e he)
  sound hs := h'.sound (h.sound hs)

/-- The order of the mutexes. -/
def MutexOf.rank : MutexOf → ℕ
  | .manager => 0
  | .logger l => if l = 0 then 2 else 1
  | .appender _ => 3

/-- The states agree on what the mutex protects. -/
def MutexOf.Agree (s s' : Objects) : MutexOf → Prop
  | .manager => s'.names = s.names
  | .logger l => (s'.loggers l).appenders = (s.loggers l).appenders ∧
    (s'.loggers l).formatter = (s.loggers l).formatter
  | .appender a => (s'.appenders a).formatter = (s.appenders a).formatter ∧
    s'.streams a = s.streams a

/-- What holds while nobody has the mutex. -/
def MutexOf.Inv (s : Objects) : MutexOf → Prop
  | .appender a => Whole (s.streams a)
  | _ => True

/-- What the functions of `log.cpp` keep to. -/
def discipline : Discipline MutexOf Objects where
  rank := MutexOf.rank
  Global := Objects.Sound
  Mono := Grows
  Agree m s s' := m.Agree s s'
  Inv m s := m.Inv s
  mono_refl := Grows.refl
  mono_trans := Grows.trans
  agree_refl m s := by cases m <;> simp [MutexOf.Agree]
  agree_trans {m s s' s''} h h' := by
    cases m with
    | manager => exact Eq.trans h' h
    | logger l => exact ⟨h'.1.trans h.1, h'.2.trans h.2⟩
    | appender a => exact ⟨h'.1.trans h.1, h'.2.trans h.2⟩
  global_of_mono h := h.sound
  inv_of_agree {m s s'} _ h hinv := by
    cases m with
    | appender a =>
      rw [MutexOf.Inv, h.2]
      exact hinv
    | _ => trivial

theorem discipline_inv (a : ℕ) (s : Objects) :
    discipline.Inv (.appender a) s = Whole (s.streams a) := rfl

/-! ### Single steps -/

variable {held : MutexOf → Option Mode} {s : Objects}

/-- A logger changes, whose name stays. -/
theorem guar_setLogger {l : ℕ} {logger : Logger} (hl : l < s.loggerCount)
    (hname : logger.name = (s.loggers l).name) (hformatter : logger.formatter ≠ none)
    (happenders : ∀ a ∈ logger.appenders, (s.appenders a).formatter ≠ none)
    (hheld : held (.logger l) = some .write ∨ (logger.appenders = (s.loggers l).appenders ∧
      logger.formatter = (s.loggers l).formatter)) :
    discipline.Guar held s (s.setLogger l logger) := by
  have hself : (s.setLogger l logger).loggers l = logger := Function.update_self ..
  have hother {l' : ℕ} (h : l' ≠ l) : (s.setLogger l logger).loggers l' = s.loggers l' :=
    Function.update_of_ne h ..
  have hnames (l' : ℕ) : ((s.setLogger l logger).loggers l').name = (s.loggers l').name := by
    rcases eq_or_ne l' l with rfl | hne
    · rw [hself, hname]
    · rw [hother hne]
  refine ⟨⟨Nat.le_refl _, Nat.le_refl _, fun l' _ => hnames l', fun _ _ h => h, fun _ _ => rfl,
    fun _ h => h, fun _ h => h, fun hs => ?_⟩, fun m hm => ?_⟩
  · refine ⟨hs.root, fun l' => ?_, fun l' a ha => ?_, fun e he => ?_, hs.keys, hs.count, ?_⟩
    · rcases eq_or_ne l' l with rfl | hne
      · exact hself.symm ▸ hformatter
      · exact (hother hne).symm ▸ hs.logger l'
    · rcases eq_or_ne l' l with rfl | hne
      · exact happenders a (hself ▸ ha)
      · exact hs.appender l' a (hother hne ▸ ha)
    · obtain ⟨hlt, hn, hroot⟩ := hs.names e he
      exact ⟨hlt, (hnames e.2).trans hn, hroot⟩
    · refine ⟨fun l' hl' => ?_, hs.unborn.2⟩
      rw [hother (Nat.ne_of_gt (hl.trans_le hl'))]
      exact hs.unborn.1 l' hl'
  · cases m with
    | manager => rfl
    | appender a => exact ⟨rfl, rfl⟩
    | logger l' =>
      rcases eq_or_ne l' l with rfl | hne
      · obtain ⟨happ, hform⟩ := hheld.resolve_left hm
        exact ⟨by rw [hself, happ], by rw [hself, hform]⟩
      · exact ⟨by rw [hother hne], by rw [hother hne]⟩

/-- An appender changes, whose kind stays and which does not lose its formatter. -/
theorem guar_setAppender {a : ℕ} {appender : LogAppender} (ha : a < s.appenderCount)
    (hkind : appender.kind = (s.appenders a).kind)
    (hformatter : (s.appenders a).formatter ≠ none → appender.formatter ≠ none)
    (hheld : held (.appender a) = some .write ∨
      appender.formatter = (s.appenders a).formatter) :
    discipline.Guar held s (s.setAppender a appender) := by
  have hself : (s.setAppender a appender).appenders a = appender := Function.update_self ..
  have hother {a' : ℕ} (h : a' ≠ a) : (s.setAppender a appender).appenders a' = s.appenders a' :=
    Function.update_of_ne h ..
  have hkept (a' : ℕ) (h : (s.appenders a').formatter ≠ none) :
      ((s.setAppender a appender).appenders a').formatter ≠ none := by
    rcases eq_or_ne a' a with rfl | hne
    · rw [hself]
      exact hformatter h
    · rw [hother hne]
      exact h
  refine ⟨⟨Nat.le_refl _, Nat.le_refl _, fun _ _ => rfl, fun _ _ h => h, fun a' _ => ?_, hkept,
    fun _ h => h, fun hs => ?_⟩, fun m hm => ?_⟩
  · rcases eq_or_ne a' a with rfl | hne
    · rw [hself, hkind]
    · rw [hother hne]
  · refine ⟨hs.root, hs.logger, fun l a' ha' => hkept a' (hs.appender l a' ha'), hs.names, hs.keys,
      hs.count, hs.unborn.1, fun a' ha' => ?_⟩
    rw [hother (Nat.ne_of_gt (ha.trans_le ha'))]
    exact hs.unborn.2 a' ha'
  · cases m with
    | manager => rfl
    | logger l => exact ⟨rfl, rfl⟩
    | appender a' =>
      rcases eq_or_ne a' a with rfl | hne
      · exact ⟨hself.symm ▸ hheld.resolve_left hm, rfl⟩
      · exact ⟨by rw [hother hne], rfl⟩

/-- An appender does something to its stream. -/
theorem guar_put {a : ℕ} (out : Output) (hheld : held (.appender a) = some .write) :
    discipline.Guar held s (s.put a out) := by
  refine ⟨⟨Nat.le_refl _, Nat.le_refl _, fun _ _ => rfl, fun _ _ h => h, fun _ _ => rfl,
    fun _ h => h, fun _ h => h, fun hs => ⟨hs.root, hs.logger, hs.appender, hs.names, hs.keys,
    hs.count, hs.unborn⟩⟩, fun m hm => ?_⟩
  cases m with
  | manager => rfl
  | logger l => exact ⟨rfl, rfl⟩
  | appender a' =>
    have hne : a' ≠ a := by
      rintro rfl
      exact hm hheld
    exact ⟨rfl, Function.update_of_ne hne ..⟩

/-- An appender is created. -/
theorem guar_create (hs : s.Sound) (kind : AppenderKind) :
    discipline.Guar held s { s with
      appenders := Function.update s.appenders s.appenderCount (.create kind)
      lastTime := Function.update s.lastTime s.appenderCount 0
      appenderCount := s.appenderCount + 1 } := by
  have hformatter (a : ℕ) : ((Function.update s.appenders s.appenderCount
      (Log.LogAppender.create kind)) a).formatter = (s.appenders a).formatter := by
    rcases eq_or_ne a s.appenderCount with rfl | hne
    · rw [Function.update_self, hs.unborn.2 _ (Nat.le_refl _)]
      rfl
    · rw [Function.update_of_ne hne]
  refine ⟨⟨Nat.le_refl _, Nat.le_succ _, fun _ _ => rfl, fun _ _ h => h, fun a ha => ?_,
    fun a h => ?_, fun _ h => h, fun hs => ⟨hs.root, hs.logger, fun l a ha => ?_, hs.names, hs.keys,
    hs.count, hs.unborn.1, fun a ha => ?_⟩⟩, fun m hm => ?_⟩
  · exact congrArg Log.LogAppender.kind (Function.update_of_ne (Nat.ne_of_lt ha) ..)
  · exact (hformatter a).symm ▸ h
  · exact (hformatter a).symm ▸ hs.appender l a ha
  · exact (hformatter a).trans (hs.unborn.2 a (Nat.le_of_succ_le ha))
  · cases m with
    | manager => rfl
    | logger l => exact ⟨rfl, rfl⟩
    | appender a => exact ⟨hformatter a, rfl⟩

/-- `m_lastTime` changes. -/
theorem guar_lastTime (lastTime : ℕ → UInt64) :
    discipline.Guar held s { s with lastTime := lastTime } := by
  refine ⟨⟨Nat.le_refl _, Nat.le_refl _, fun _ _ => rfl, fun _ _ h => h, fun _ _ => rfl,
    fun _ h => h, fun _ h => h, fun hs => ⟨hs.root, hs.logger, hs.appender, hs.names, hs.keys,
    hs.count, hs.unborn⟩⟩, fun m _ => ?_⟩
  cases m with
  | manager => rfl
  | logger l => exact ⟨rfl, rfl⟩
  | appender a => exact ⟨rfl, rfl⟩

/-- A logger is created. -/
theorem guar_newLogger (hs : s.Sound) (name : String) :
    discipline.Guar held s { s with
      loggers := Function.update s.loggers s.loggerCount (.create name)
      root := Function.update s.root s.loggerCount none
      loggerCount := s.loggerCount + 1 } := by
  obtain ⟨happenders, hformatter, hroot⟩ := hs.unborn.1 s.loggerCount (Nat.le_refl _)
  have hloggers (l : ℕ) :
      (Function.update s.loggers s.loggerCount (Log.Logger.create name) l).appenders =
        (s.loggers l).appenders ∧
      (Function.update s.loggers s.loggerCount (Log.Logger.create name) l).formatter =
        (s.loggers l).formatter := by
    rcases eq_or_ne l s.loggerCount with rfl | hne
    · rw [Function.update_self, happenders, hformatter]
      exact ⟨rfl, rfl⟩
    · rw [Function.update_of_ne hne]
      exact ⟨rfl, rfl⟩
  have hroots : Function.update s.root s.loggerCount none = s.root := by
    rw [← hroot, Function.update_eq_self]
  rw [hroots]
  refine ⟨⟨Nat.le_succ _, Nat.le_refl _, fun l hl => ?_, fun _ _ h => h, fun _ _ => rfl,
    fun _ h => h, fun _ h => h, fun hs => ⟨hs.root, fun l => ?_, fun l a ha => ?_, fun e he => ?_,
    hs.keys, Nat.succ_pos _, fun l hl => ?_, hs.unborn.2⟩⟩, fun m hm => ?_⟩
  · exact congrArg Logger.name (Function.update_of_ne (Nat.ne_of_lt hl) ..)
  · exact (hloggers l).2.symm ▸ hs.logger l
  · exact hs.appender l a ((hloggers l).1 ▸ ha)
  · obtain ⟨hlt, hname, hroot⟩ := hs.names e he
    refine ⟨Nat.lt_succ_of_lt hlt, Eq.trans ?_ hname, hroot⟩
    exact congrArg Logger.name (Function.update_of_ne (Nat.ne_of_lt hlt) ..)
  · obtain ⟨h₁, h₂, h₃⟩ := hs.unborn.1 l (Nat.le_of_succ_le hl)
    exact ⟨(hloggers l).1.trans h₁, (hloggers l).2.trans h₂, h₃⟩
  · cases m with
    | manager => rfl
    | logger l => exact hloggers l
    | appender a => exact ⟨rfl, rfl⟩

/-- A logger that is not the root logger gets its `m_root`. -/
theorem guar_root (hs : s.Sound) {l : ℕ} (hl : l ≠ 0) (hlt : l < s.loggerCount) :
    discipline.Guar held s { s with root := Function.update s.root l (some 0) } := by
  refine ⟨⟨Nat.le_refl _, Nat.le_refl _, fun _ _ => rfl, fun l' r h => ?_, fun _ _ => rfl,
    fun _ h => h, fun _ h => h, fun hs => ⟨fun l' r h => ?_, hs.logger, hs.appender, fun e he => ?_,
    hs.keys, hs.count, fun l' hl' => ?_, hs.unborn.2⟩⟩, fun m _ => ?_⟩
  · rcases eq_or_ne l' l with rfl | hne
    · exact (hs.root l' r h).1 ▸ Function.update_self ..
    · exact (Function.update_of_ne hne ..).trans h
  · rcases eq_or_ne l' l with rfl | hne
    · obtain rfl : 0 = r := by simpa using h
      exact ⟨rfl, hl⟩
    · exact hs.root l' r ((Function.update_of_ne hne ..).symm.trans h)
  · obtain ⟨hlt', hname, hroot⟩ := hs.names e he
    refine ⟨hlt', hname, fun hne => ?_⟩
    rcases eq_or_ne e.2 l with heq | hne'
    · exact heq ▸ Function.update_self ..
    · exact (Function.update_of_ne hne' ..).trans (hroot hne)
  · obtain ⟨h₁, h₂, h₃⟩ := hs.unborn.1 l' hl'
    exact ⟨h₁, h₂, (Function.update_of_ne (Nat.ne_of_gt (hlt.trans_le hl')) ..).trans h₃⟩
  · cases m with
    | manager => rfl
    | logger l => exact ⟨rfl, rfl⟩
    | appender a => exact ⟨rfl, rfl⟩

theorem mem_names_bind {name : String} {l : ℕ} {e : String × ℕ} :
    e ∈ (s.bind name l).names ↔ e = (name, l) ∨ (e ∈ s.names ∧ e.1 ≠ name) := by
  simp only [Objects.bind, OrderedSet.insertOrAssign, List.mem_append, List.mem_filter,
    List.mem_cons, decide_eq_true_eq]
  constructor
  · rintro (⟨he, hlt⟩ | rfl | ⟨he, hlt⟩)
    · exact .inr ⟨he, fun heq => String.lt_irrefl _ (heq ▸ hlt)⟩
    · exact .inl rfl
    · exact .inr ⟨he, fun heq => String.lt_irrefl _ (heq ▸ hlt)⟩
  · rintro (rfl | ⟨he, hne⟩)
    · exact .inr (.inl rfl)
    · by_cases hlt : e.1 < name
      · exact .inl ⟨he, hlt⟩
      · by_cases hgt : name < e.1
        · exact .inr (.inr ⟨he, hgt⟩)
        · exact absurd (String.le_antisymm (String.not_lt.mp hgt) (String.not_lt.mp hlt)) hne

/-- A name that leads to nothing is bound to a logger of that name. -/
theorem guar_bind {name : String} {l : ℕ} (hl : l < s.loggerCount)
    (hname : (s.loggers l).name = name) (hroot : l ≠ 0 → s.root l = some 0)
    (hnew : ∀ e ∈ s.names, e.1 ≠ name) (hheld : held .manager = some .write) :
    discipline.Guar held s (s.bind name l) := by
  refine ⟨⟨Nat.le_refl _, Nat.le_refl _, fun _ _ => rfl, fun _ _ h => h, fun _ _ => rfl,
    fun _ h => h, fun e he => mem_names_bind.mpr (.inr ⟨he, hnew e he⟩), fun hs => ⟨hs.root,
    hs.logger, hs.appender, fun e he => ?_, fun e he e' he' heq => ?_, hs.count, hs.unborn⟩⟩,
    fun m hm => ?_⟩
  · rcases mem_names_bind.mp he with rfl | ⟨he, -⟩
    · exact ⟨hl, hname, hroot⟩
    · exact hs.names e he
  · rcases mem_names_bind.mp he with rfl | ⟨he, hne⟩ <;>
      rcases mem_names_bind.mp he' with rfl | ⟨he', hne'⟩
    · rfl
    · exact absurd heq.symm hne'
    · exact absurd heq hne
    · exact hs.keys e he e' he' heq
  · cases m with
    | manager => exact absurd hheld hm
    | logger l => exact ⟨rfl, rfl⟩
    | appender a => exact ⟨rfl, rfl⟩

theorem setAppender_self (s : Objects) (a : ℕ) (appender : LogAppender) :
    (s.setAppender a appender).appenders a = appender := Function.update_self ..

theorem put_streams_self (s : Objects) (a : ℕ) (out : Output) :
    (s.put a out).streams a = s.streams a ++ [out] := Function.update_self ..

/-! ### The functions of the appenders -/

/-- Only mutexes of a lower rank are held. -/
def Below (n : ℕ) (held : MutexOf → Option Mode) : Prop := ∀ m, held m ≠ none → m.rank < n

theorem below_none (n : ℕ) : Below n fun _ => none := fun _ h => absurd rfl h

theorem Below.mono {n k : ℕ} (h : Below n held) (hnk : n ≤ k) : Below k held :=
  fun m hm => (h m hm).trans_le hnk

theorem Below.update {m : MutexOf} {n : ℕ} (h : Below m.rank held) (hmn : m.rank < n)
    (mode : Mode) : Below n (Function.update held m (some mode)) := by
  intro m' hm'
  rcases eq_or_ne m' m with rfl | hne
  · exact hmn
  · rw [Function.update_of_ne hne] at hm'
    exact (h m' hm').trans hmn

/-- Who has taken a mutex has it. -/
theorem update_ne_none (m : MutexOf) (mode : Mode) :
    Function.update held m (some mode) m ≠ none := by
  rw [Function.update_self]
  exact Option.some_ne_none mode

theorem whole_of_rely {s' : Objects} {a : ℕ} (h : discipline.Rely held s s')
    (hl : held (.appender a) ≠ none) (hwhole : Whole (s.streams a)) : Whole (s'.streams a) :=
  h.inv hl hwhole

namespace LogAppender

theorem ensures_getFormatter (hb : Below 3 held) (a : ℕ) :
    discipline.Ensures (getFormatter a) held s fun r s' =>
      r ≠ none → (s'.appenders a).formatter ≠ none := by
  refine Ensures.locked hb (fun r s' s'' h hs hr => hs.1.formatter a (h hr))
    fun s₁ h₁ hinv => Ensures.read fun s₂ h₂ s₃ h₃ => ⟨fun _ => ?_, fun hr => ?_⟩
  · exact (h₂.trans h₃).inv (update_ne_none _ _) hinv
  · exact h₃.1.formatter a hr

theorem ensures_setFormatter (hb : Below 3 held) {a : ℕ} (ha : a < s.appenderCount)
    {val : Option LogFormatter} (hval : val ≠ none) :
    discipline.Ensures (setFormatter a val) held s fun _ s' =>
      (s'.appenders a).formatter ≠ none := by
  refine Ensures.locked hb (fun _ s' s'' h hs => hs.1.formatter a h)
    fun s₁ h₁ hinv => Ensures.modify fun s₂ h₂ => ⟨?_, fun s₃ h₃ => ⟨fun _ => ?_, ?_⟩⟩
  · exact guar_setAppender (ha.trans_le (h₁.1.appenderCount.trans h₂.1.appenderCount)) rfl
      (fun _ => hval) (.inl (Function.update_self ..))
  · exact h₃.inv (update_ne_none _ _) (h₂.inv (update_ne_none _ _) hinv)
  · refine h₃.1.formatter a ?_
    rw [setAppender_self]
    exact hval

theorem ensures_reopen (hb : Below 3 held) (a : ℕ) :
    discipline.Ensures (reopen a) held s fun _ _ => True := by
  refine Ensures.locked hb (fun _ _ _ _ _ => trivial)
    fun s₁ h₁ hinv => Ensures.modify fun s₂ h₂ => ⟨?_, fun s₃ h₃ => ⟨fun _ => ?_, trivial⟩⟩
  · exact guar_put _ (Function.update_self ..)
  · refine h₃.inv (update_ne_none _ _) ?_
    have hwhole : Whole (s₂.streams a) := h₂.inv (update_ne_none _ _) hinv
    rw [discipline_inv, put_streams_self]
    exact hwhole.append .reopened

/-- The loop over the items writes the whole record, while nobody else writes. -/
theorem ensures_format {a : ℕ} (hheld : held (.appender a) = some .write)
    (hf : (s.appenders a).formatter ≠ none) (hwhole : Whole (s.streams a)) (level : LogLevel)
    (event : LogEvent) :
    discipline.Ensures (format a level event) held s fun _ s' => Whole (s'.streams a) := by
  have hne : held (.appender a) ≠ none := by
    rw [hheld]
    exact Option.some_ne_none _
  have hstream {s s' : Objects} (h : discipline.Rely held s s') : s'.streams a = s.streams a :=
    (h.2 _ hne).2
  refine Ensures.bind (P := fun _ s' => Whole (s'.streams a))
    (Ensures.follow fun s₁ h₁ => ?_) fun formatter s₁ h₁ hwhole => ?_
  · obtain ⟨formatter, hformatter⟩ := Option.ne_none_iff_exists'.mp (h₁.1.formatter a hf)
    exact ⟨formatter, hformatter, fun s₂ h₂ => by rw [hstream h₂, hstream h₁]; exact hwhole⟩
  · refine Ensures.mono (Ensures.forEach
      (I := fun done s' => s'.streams a = s₁.streams a ++ done.map fun i => .item i level event)
      (List.append_nil _).symm (fun done s s' h hs => (hstream hs).trans h)
      fun done i rest _ s₂ _ h₂ => Ensures.modify fun s₃ h₃ =>
        ⟨guar_put _ hheld, fun s₄ h₄ => ?_⟩) fun _ s' hs' => ?_
    · rw [hstream h₄, put_streams_self, hstream h₃, h₂, List.map_append, List.append_assoc]
      rfl
    · rw [hs']
      exact hwhole.append (.record formatter level event)

theorem ensures_logStdout (hb : Below 3 held) {a : ℕ} (hf : (s.appenders a).formatter ≠ none)
    (level : LogLevel) (event : LogEvent) :
    discipline.Ensures (logStdout a level event) held s fun _ _ => True := by
  refine Ensures.locked hb (fun _ _ _ _ _ => trivial) fun s₁ h₁ hinv => ?_
  refine Ensures.bind (P := fun _ s' => Whole (s'.streams a))
    (Ensures.read fun s₂ h₂ s₃ h₃ => whole_of_rely (h₂.trans h₃) (update_ne_none _ _) hinv)
    fun m_level s₂ h₂ hwhole => Ensures.when (fun _ => ?_) fun _ s₃ h₃ => ⟨fun _ => ?_, trivial⟩
  · exact Ensures.mono (ensures_format (Function.update_self ..)
      (h₂.formatter a (h₁.1.formatter a hf)) hwhole level event) fun _ _ h => ⟨fun _ => h, trivial⟩
  · exact h₃.inv (update_ne_none _ _) hwhole

theorem ensures_logFile (hb : Below 3 held) {a : ℕ} (hf : (s.appenders a).formatter ≠ none)
    (level : LogLevel) (event : LogEvent) :
    discipline.Ensures (logFile a level event) held s fun _ _ => True := by
  refine Ensures.bind (P := fun _ _ => True) (Ensures.read fun _ _ _ _ => trivial)
    fun m_level s₁ h₁ _ => Ensures.when (fun _ => ?_) fun _ _ _ => trivial
  refine Ensures.bind (P := fun _ _ => True) (Ensures.read fun _ _ _ _ => trivial)
    fun m_lastTime s₂ h₂ _ => ?_
  refine Ensures.bind (P := fun _ _ => True)
    (Ensures.when (fun _ => ?_) fun _ _ _ => trivial) fun _ s₃ h₃ _ => ?_
  · exact Ensures.bind (ensures_reopen hb a) fun _ s₃ h₃ _ =>
      Ensures.modify fun s₄ h₄ => ⟨guar_lastTime _, fun _ _ => trivial⟩
  · have hf₃ := h₃.formatter a (h₂.formatter a (h₁.formatter a hf))
    refine Ensures.locked hb (fun _ _ _ _ _ => trivial) fun s₄ h₄ hinv => ?_
    exact Ensures.mono (ensures_format (Function.update_self ..)
      (h₄.1.formatter a hf₃) hinv level event) fun _ _ h => ⟨fun _ => h, trivial⟩

theorem ensures_log (hb : Below 3 held) {a : ℕ} (hf : (s.appenders a).formatter ≠ none)
    (level : LogLevel) (event : LogEvent) :
    discipline.Ensures (log a level event) held s fun _ _ => True := by
  refine Ensures.bind (P := fun _ _ => True) (Ensures.read fun _ _ _ _ => trivial)
    fun kind s₁ h₁ _ => ?_
  cases kind with
  | stdout => exact ensures_logStdout hb (h₁.formatter a hf) level event
  | file filename => exact ensures_logFile hb (h₁.formatter a hf) level event

theorem ensures_toYamlString (hb : Below 3 held) {a : ℕ} :
    discipline.Ensures (toYamlString a) held s fun r _ =>
      (s.appenders a).formatter ≠ none → r.formatter ≠ none := by
  refine Ensures.locked hb (fun _ _ _ h _ => h) fun s₁ h₁ hinv =>
    Ensures.read fun s₂ h₂ s₃ h₃ => ⟨fun _ => ?_, fun hf => ?_⟩
  · exact (h₂.trans h₃).inv (update_ne_none _ _) hinv
  · exact h₂.1.formatter a (h₁.1.formatter a hf)

theorem ensures_setLevel {a : ℕ} (ha : a < s.appenderCount) (val : LogLevel) :
    discipline.Ensures (setLevel a val) held s fun _ _ => True :=
  Ensures.modify fun _ h₁ => ⟨guar_setAppender (ha.trans_le h₁.1.appenderCount) rfl
    (fun h => h) (.inr rfl), fun _ _ => trivial⟩

theorem ensures_create (hs : s.Sound) (kind : AppenderKind) :
    discipline.Ensures (create kind) held s fun r s' => r < s'.appenderCount :=
  fun _ h₁ => ⟨guar_create (h₁.1.sound hs) kind, Ensures.ret fun _ h₂ =>
    Nat.lt_of_succ_le h₂.1.appenderCount⟩

theorem ensures_createFile (hb : Below 3 held) (hs : s.Sound) (filename : String) :
    discipline.Ensures (createFile filename) held s fun r s' => r < s'.appenderCount :=
  Ensures.bind (ensures_create hs _) fun _ _ _ ha =>
    Ensures.bind (ensures_reopen hb _) fun _ _ h₂ _ =>
      Ensures.ret fun _ h₃ => ha.trans_le (h₂.appenderCount.trans h₃.1.appenderCount)

end LogAppender

/-! ### The functions of the loggers -/

namespace Logger

variable {l : ℕ}

/-- The mutexes of appenders come after that of a logger. -/
theorem below_three (hb : Below (MutexOf.logger l).rank held) :
    Below 3 (Function.update held (.logger l) (some .write)) := by
  refine hb.update ?_ .write
  rw [MutexOf.rank]
  split <;> decide

theorem ensures_addAppender (hb : Below (MutexOf.logger l).rank held) (hs : s.Sound) {a : ℕ}
    (hl : l < s.loggerCount) (ha : a < s.appenderCount) :
    discipline.Ensures (addAppender l a) held s fun _ _ => True := by
  refine Ensures.locked hb (fun _ _ _ _ _ => trivial) fun s₁ h₁ _ => ?_
  refine Ensures.bind (LogAppender.ensures_getFormatter (below_three hb) a)
    fun formatter s₂ h₂ hf => ?_
  refine Ensures.bind (P := fun _ s' => (s'.appenders a).formatter ≠ none)
    (Ensures.when (fun _ => ?_) fun hne s₃ h₃ => h₃.1.formatter a (hf hne)) fun _ s₃ h₃ hf₃ => ?_
  · refine Ensures.bind (P := fun r _ => r ≠ none)
      (Ensures.read fun s₃ h₃ _ _ => (h₃.1.sound (h₂.sound (h₁.1.sound hs))).logger l)
      fun m_formatter s₃ h₃ hm => LogAppender.ensures_setFormatter (below_three hb)
        (ha.trans_le (h₁.1.trans (h₂.trans h₃)).appenderCount) hm
  · refine Ensures.modify fun s₄ h₄ => ⟨?_, fun _ _ => ⟨fun _ => trivial, trivial⟩⟩
    have h := h₁.1.trans (h₂.trans (h₃.trans h₄.1))
    refine guar_setLogger (hl.trans_le h.loggerCount) rfl ((h.sound hs).logger l)
      (fun a' ha' => ?_) (.inl (Function.update_self ..))
    rcases List.mem_append.mp ha' with hold | hnew
    · exact (h.sound hs).appender l a' hold
    · obtain rfl := List.mem_singleton.mp hnew
      exact h₄.1.formatter a' hf₃

/-- A change of `m_appenders` that adds none, under the mutex. -/
theorem ensures_remove (hb : Below (MutexOf.logger l).rank held) (hs : s.Sound)
    (hl : l < s.loggerCount) {f : Logger → Logger} (hname : ∀ x, (f x).name = x.name)
    (hformatter : ∀ x, (f x).formatter = x.formatter)
    (happenders : ∀ x, (f x).appenders ⊆ x.appenders) :
    discipline.Ensures (.locked .write (.logger l)
      (.modify fun s => s.setLogger l (f (s.loggers l)))) held s fun _ _ => True := by
  refine Ensures.locked hb (fun _ _ _ _ _ => trivial) fun s₁ h₁ _ =>
    Ensures.modify fun s₂ h₂ => ⟨?_, fun _ _ => ⟨fun _ => trivial, trivial⟩⟩
  have h := h₁.1.trans h₂.1
  exact guar_setLogger (hl.trans_le h.loggerCount) (hname _)
    (by rw [hformatter]; exact (h.sound hs).logger l)
    (fun a ha => (h.sound hs).appender l a (happenders _ ha)) (.inl (Function.update_self ..))

theorem ensures_delAppender (hb : Below (MutexOf.logger l).rank held) (hs : s.Sound)
    (hl : l < s.loggerCount) (a : ℕ) :
    discipline.Ensures (delAppender l a) held s fun _ _ => True :=
  ensures_remove hb hs hl (f := fun x => x.delAppender a) (fun _ => rfl) (fun _ => rfl)
    fun _ => List.erase_subset

theorem ensures_clearAppenders (hb : Below (MutexOf.logger l).rank held) (hs : s.Sound)
    (hl : l < s.loggerCount) : discipline.Ensures (clearAppenders l) held s fun _ _ => True :=
  ensures_remove hb hs hl (f := fun x => x.clearAppenders) (fun _ => rfl) (fun _ => rfl)
    fun _ => List.nil_subset _

theorem ensures_setLevel (hs : s.Sound) (hl : l < s.loggerCount) (val : LogLevel) :
    discipline.Ensures (setLevel l val) held s fun _ _ => True :=
  Ensures.modify fun _ h₁ => ⟨guar_setLogger (hl.trans_le h₁.1.loggerCount) rfl
    ((h₁.1.sound hs).logger l) ((h₁.1.sound hs).appender l) (.inr ⟨rfl, rfl⟩), fun _ _ => trivial⟩

theorem ensures_setFormatterPtr (hb : Below (MutexOf.logger l).rank held) (hs : s.Sound)
    (hl : l < s.loggerCount) {formatter : Option LogFormatter} (hf : formatter ≠ none) :
    discipline.Ensures (setFormatterPtr l formatter) held s fun _ _ => True := by
  refine Ensures.locked hb (fun _ _ _ _ _ => trivial) fun s₁ h₁ _ => ?_
  refine Ensures.bind (P := fun _ _ => True) (Ensures.modify fun s₂ h₂ => ⟨?_, fun _ _ => trivial⟩)
    fun _ s₂ h₂ _ => ?_
  · have h := h₁.1.trans h₂.1
    exact guar_setLogger (hl.trans_le h.loggerCount) rfl hf ((h.sound hs).appender l)
      (.inl (Function.update_self ..))
  · refine Ensures.bind (P := fun r s' => ∀ a ∈ r, (s'.appenders a).formatter ≠ none)
      (Ensures.read fun s₃ h₃ s₄ h₄ a ha => ?_) fun m_appenders s₃ h₃ happenders => ?_
    · have h := h₁.1.trans (h₂.trans h₃.1)
      exact h₄.1.formatter a ((h.sound hs).appender l a ha)
    · have h := h₁.1.trans (h₂.trans h₃)
      refine Ensures.forEach (I := fun _ _ => (_ → True) ∧ True) ⟨fun _ => trivial, trivial⟩
        (fun _ _ _ h _ => h) fun done a rest has s₄ h₄ _ => ?_
      have ha : a < s₄.appenderCount := by
        by_contra hlt
        refine h₄.formatter a (happenders a ?_)
          (((h.trans h₄).sound hs).unborn.2 a (Nat.not_lt.mp hlt))
        rw [has]
        exact List.mem_append_right _ (List.mem_cons_self ..)
      exact (LogAppender.ensures_setFormatter (below_three hb) ha hf).mono
        fun _ _ _ => ⟨fun _ => trivial, trivial⟩

theorem ensures_setFormatter (hb : Below (MutexOf.logger l).rank held) (hs : s.Sound)
    (hl : l < s.loggerCount) (val : String) :
    discipline.Ensures (setFormatter l val) held s fun _ _ => True :=
  Ensures.when (fun _ => ensures_setFormatterPtr hb hs hl (Option.some_ne_none _))
    fun _ _ _ => trivial

theorem ensures_getFormatter (hb : Below (MutexOf.logger l).rank held) (hs : s.Sound) :
    discipline.Ensures (getFormatter l) held s fun r _ => r ≠ none :=
  Ensures.locked hb (fun _ _ _ h _ => h) fun _ h₁ _ => Ensures.read fun _ h₂ _ _ =>
    ⟨fun _ => trivial, ((h₁.1.trans h₂.1).sound hs).logger l⟩

/-- `log` of the root logger does not call itself, and that of any other once. -/
theorem ensures_log (level : LogLevel) (event : LogEvent) : ∀ {depth l : ℕ}
    {held : MutexOf → Option Mode} {s : Objects}, Below (MutexOf.logger l).rank held → s.Sound →
    0 < depth → (l ≠ 0 → 1 < depth) →
      discipline.Ensures (log level event depth l) held s fun _ _ => True
  | depth + 1, l, held, s, hb, hs, _, hdepth => by
    refine Ensures.locked hb (fun _ _ _ _ _ => trivial) fun s₁ h₁ _ => ?_
    refine Ensures.mono (P := fun _ _ => True) ?_ fun _ _ _ => ⟨fun _ => trivial, trivial⟩
    refine Ensures.bind (P := fun _ _ => True) (Ensures.read fun _ _ _ _ => trivial)
      fun m_level s₂ h₂ _ => Ensures.when (fun _ => ?_) fun _ _ _ => trivial
    refine Ensures.bind (P := fun r s' => ∀ a ∈ r, (s'.appenders a).formatter ≠ none)
      (Ensures.read fun s₃ h₃ s₄ h₄ a ha => ?_) fun m_appenders s₃ h₃ happenders => ?_
    · have h := h₁.1.trans (h₂.trans h₃.1)
      exact h₄.1.formatter a ((h.sound hs).appender l a ha)
    have h := h₁.1.trans (h₂.trans h₃)
    split
    · refine Ensures.forEach (I := fun _ _ => True) trivial (fun _ _ _ _ _ => trivial)
        fun done a rest has s₄ h₄ _ => LogAppender.ensures_log (below_three hb) ?_ level event
      refine h₄.formatter a (happenders a ?_)
      rw [has]
      exact List.mem_append_right _ (List.mem_cons_self ..)
    · refine Ensures.bind (P := fun r _ => ∀ m, r = some m → m = 0 ∧ l ≠ 0)
        (Ensures.read fun s₄ h₄ _ _ => ((h.trans h₄.1).sound hs).root l)
        fun m_root s₄ h₄ hroot => ?_
      cases m_root with
      | none => exact Ensures.ret fun _ _ => trivial
      | some m =>
        obtain ⟨rfl, hl⟩ := hroot m rfl
        refine ensures_log level event (hb.update ?_ .write) ((h.trans h₄).sound hs)
          (Nat.lt_of_succ_lt_succ (hdepth hl)) fun hne => absurd rfl hne
        simp [MutexOf.rank, hl]

theorem ensures_toYamlString (hb : Below (MutexOf.logger l).rank held) (hs : s.Sound) :
    discipline.Ensures (toYamlString l) held s fun r _ =>
      r.formatter ≠ none ∧ ∀ a ∈ r.appenders, a.formatter ≠ none := by
  refine Ensures.locked hb (fun _ _ _ h _ => h) fun s₁ h₁ _ => ?_
  refine Ensures.bind (P := fun _ _ => True) (Ensures.read fun _ _ _ _ => trivial)
    fun m_level s₂ h₂ _ => ?_
  refine Ensures.bind (P := fun r _ => r ≠ none) (Ensures.read fun s₃ h₃ _ _ =>
    ((h₁.1.trans (h₂.trans h₃.1)).sound hs).logger l) fun m_formatter s₃ h₃ hm => ?_
  refine Ensures.bind (P := fun r s' => ∀ a ∈ r, (s'.appenders a).formatter ≠ none)
    (Ensures.read fun s₄ h₄ s₅ h₅ a ha => ?_) fun m_appenders s₄ h₄ happenders => ?_
  · have h := h₁.1.trans (h₂.trans (h₃.trans h₄.1))
    exact h₅.1.formatter a ((h.sound hs).appender l a ha)
  · refine Ensures.bind (Ensures.collect fun a ha s₅ h₅ =>
      (LogAppender.ensures_toYamlString (below_three hb)).mono fun r _ hr =>
        hr (h₅.formatter a (happenders a ha))) fun appenders s₅ _ happenders => ?_
    exact Ensures.ret fun _ _ => ⟨fun _ => trivial, hm, happenders⟩

end Logger

namespace LoggerManager

/-- A name that has been found leads to its logger. -/
theorem mem_of_find {name : String} {l : ℕ} (h : s.find name = some l) : (name, l) ∈ s.names := by
  obtain ⟨e, he, rfl⟩ := Option.map_eq_some_iff.mp h
  obtain rfl : e.1 = name := by simpa using List.find?_some he
  exact List.mem_of_find?_eq_some he

/-- A name that has not been found leads nowhere. -/
theorem ne_of_find_eq_none {name : String} (h : s.find name = none) :
    ∀ e ∈ s.names, e.1 ≠ name := by
  have hfind := List.find?_eq_none.mp (Option.map_eq_none_iff.mp h)
  exact fun e he => by simpa using hfind e he

/-- While the mutex of the manager is held, the names stay. -/
theorem names_of_rely {s' : Objects} (h : discipline.Rely held s s') (hl : held .manager ≠ none) :
    s'.names = s.names := h.2 .manager hl

theorem ensures_newLogger (hs : s.Sound) (hl : held .manager ≠ none) (name : String) :
    discipline.Ensures (newLogger name) held s fun r s' =>
      r ≠ 0 ∧ r < s'.loggerCount ∧ (s'.loggers r).name = name ∧ s'.names = s.names := by
  refine fun s₁ h₁ => ⟨guar_newLogger (h₁.1.sound hs) name, Ensures.ret fun s₂ h₂ => ?_⟩
  have hnew : Function.update s₁.loggers s₁.loggerCount (Log.Logger.create name) s₁.loggerCount =
      .create name := Function.update_self ..
  have hnames : s₁.names = s.names := names_of_rely h₁ hl
  refine ⟨Nat.ne_of_gt (h₁.1.sound hs).count, Nat.lt_of_succ_le h₂.1.loggerCount, ?_, ?_⟩
  · exact (h₂.1.name s₁.loggerCount (Nat.lt_succ_self _)).trans (congrArg Logger.name hnew)
  · exact (names_of_rely h₂ hl).trans hnames

theorem ensures_getLogger (hb : Below 0 held) (hs : s.Sound) (name : String) :
    discipline.Ensures (getLogger name) held s fun r s' => (name, r) ∈ s'.names := by
  refine Ensures.locked hb (fun _ _ _ h hs => hs.1.names _ h) fun s₁ h₁ _ => ?_
  refine Ensures.mono (P := fun r s' => (name, r) ∈ s'.names) ?_ fun _ _ h => ⟨fun _ => trivial, h⟩
  have hheld : Function.update held .manager (some .write) .manager ≠ none :=
    update_ne_none .manager .write
  refine Ensures.bind (P := fun r s' => s'.find name = r)
    (Ensures.read fun s₂ _ s₃ h₃ => ?_) fun it s₂ h₂ hit => ?_
  · rw [Objects.find, names_of_rely h₃ hheld]
    rfl
  cases it with
  | some l => exact Ensures.ret fun s₃ h₃ => h₃.1.names _ (mem_of_find hit)
  | none =>
    have hnew := ne_of_find_eq_none hit
    refine Ensures.bind (ensures_newLogger (h₂.sound (h₁.1.sound hs)) hheld name)
      fun logger s₃ h₃ ⟨hne, hlt, hname, hnames⟩ => ?_
    refine Ensures.bind (P := fun _ s' => s'.root logger = some 0 ∧ s'.names = s₃.names)
      (Ensures.modify fun s₄ h₄ => ⟨?_, fun s₅ h₅ => ⟨?_, ?_⟩⟩) fun _ s₄ h₄ ⟨hroot, hnames'⟩ => ?_
    · exact guar_root ((h₁.1.trans (h₂.trans (h₃.trans h₄.1))).sound hs) hne
        (hlt.trans_le h₄.1.loggerCount)
    · exact h₅.1.root logger 0 (Function.update_self ..)
    · have hnames₄ : s₄.names = s₃.names := names_of_rely h₄ hheld
      exact (names_of_rely h₅ hheld).trans hnames₄
    refine Ensures.bind (P := fun _ s' => (name, logger) ∈ s'.names)
      (Ensures.modify fun s₅ h₅ => ⟨?_, fun s₆ h₆ => ?_⟩) fun _ s₅ _ hmem => ?_
    · have h := h₄.trans h₅.1
      refine guar_bind (hlt.trans_le h.loggerCount) ((h.name logger hlt).trans hname)
        (fun _ => h₅.1.root logger 0 hroot) (fun e he => hnew e ?_) (Function.update_self ..)
      rw [← hnames, ← hnames', ← names_of_rely h₅ hheld]
      exact he
    · exact h₆.1.names _ (mem_names_bind.mpr (.inl rfl))
    · exact Ensures.ret fun s₆ h₆ => h₆.1.names _ hmem

theorem ensures_toYamlString (hb : Below 0 held) (hs : s.Sound) :
    discipline.Ensures toYamlString held s fun rs _ =>
      ∀ r ∈ rs, r.formatter ≠ none ∧ ∀ a ∈ r.appenders, a.formatter ≠ none := by
  refine Ensures.locked hb (fun _ _ _ h _ => h) fun s₁ h₁ _ => ?_
  refine Ensures.bind (P := fun _ _ => True) (Ensures.read fun _ _ _ _ => trivial)
    fun m_loggers s₂ h₂ _ => ?_
  refine Ensures.mono (Ensures.collect fun i _ s₃ h₃ => Logger.ensures_toYamlString
    (Below.update (m := .manager) hb ?_ .write) (((h₁.1.trans h₂).trans h₃).sound hs))
    fun _ _ h => ⟨fun _ => trivial, h⟩
  rw [MutexOf.rank, MutexOf.rank]
  split <;> decide

end LoggerManager

/-! ### The listener -/

theorem ensures_logEvent (hs : s.Sound) (l : ℕ) (level : LogLevel) (event : LogEvent) :
    discipline.Ensures (logEvent l level event) (fun _ => none) s fun _ _ => True :=
  Ensures.bind (P := fun _ _ => True) (Ensures.read fun _ _ _ _ => trivial) fun _ _ h _ =>
    Ensures.when (fun _ => Logger.ensures_log level event (below_none _) (h.sound hs)
      Nat.zero_lt_two fun _ => Nat.one_lt_two) fun _ _ _ => trivial

namespace LogIniter

theorem ensures_add (hs : s.Sound) {logger : ℕ} (hl : logger < s.loggerCount)
    (a : LogAppenderDefine) :
    discipline.Ensures (add logger a) (fun _ => none) s fun _ _ => True := by
  refine Ensures.bind (P := fun r s' => r < s'.appenderCount) ?_ fun ap s₁ h₁ hap => ?_
  · split
    · exact LogAppender.ensures_createFile (below_none _) hs _
    · exact LogAppender.ensures_create hs _
  refine Ensures.bind (LogAppender.ensures_setLevel hap _) fun _ s₂ h₂ _ => ?_
  refine Ensures.bind (P := fun _ _ => True) (Ensures.when (fun _ =>
    (LogAppender.ensures_setFormatter (below_none _) (hap.trans_le h₂.appenderCount)
      (Option.some_ne_none _)).mono fun _ _ _ => trivial) fun _ _ _ => trivial) fun _ s₃ h₃ _ => ?_
  have h := h₁.trans (h₂.trans h₃)
  exact Logger.ensures_addAppender (below_none _) (h.sound hs) (hl.trans_le h.loggerCount)
    (hap.trans_le (h₂.trans h₃).appenderCount)

theorem ensures_apply (hs : s.Sound) (i : LogDefine) :
    discipline.Ensures (apply i) (fun _ => none) s fun _ _ => True := by
  refine Ensures.bind (LoggerManager.ensures_getLogger (below_none _) hs i.name)
    fun logger s₁ h₁ hmem => ?_
  have hs₁ := h₁.sound hs
  have hl := (hs₁.names _ hmem).1
  refine Ensures.bind (Logger.ensures_setLevel hs₁ hl _) fun _ s₂ h₂ _ => ?_
  refine Ensures.bind (P := fun _ _ => True) (Ensures.when (fun _ => Logger.ensures_setFormatter
    (below_none _) (h₂.sound hs₁) (hl.trans_le h₂.loggerCount) _) fun _ _ _ => trivial)
    fun _ s₃ h₃ _ => ?_
  have h := h₂.trans h₃
  refine Ensures.bind (Logger.ensures_clearAppenders (below_none _) (h.sound hs₁)
    (hl.trans_le h.loggerCount)) fun _ s₄ h₄ _ => ?_
  exact Ensures.forEach (I := fun _ _ => True) trivial (fun _ _ _ _ _ => trivial)
    fun done a rest _ s₅ h₅ _ => ensures_add (((h.trans h₄).trans h₅).sound hs₁)
      (hl.trans_le ((h.trans h₄).trans h₅).loggerCount) a

theorem ensures_remove (hs : s.Sound) (i : LogDefine) :
    discipline.Ensures (remove i) (fun _ => none) s fun _ _ => True := by
  refine Ensures.bind (LoggerManager.ensures_getLogger (below_none _) hs i.name)
    fun logger s₁ h₁ hmem => ?_
  have hs₁ := h₁.sound hs
  have hl := (hs₁.names _ hmem).1
  refine Ensures.bind (Logger.ensures_setLevel hs₁ hl _) fun _ s₂ h₂ _ => ?_
  exact Logger.ensures_clearAppenders (below_none _) (h₂.sound hs₁) (hl.trans_le h₂.loggerCount)

theorem ensures_onChange (hs : s.Sound) (event : LogEvent) (old_value new_value : LogDefines) :
    discipline.Ensures (onChange event old_value new_value) (fun _ => none) s fun _ _ => True := by
  refine Ensures.bind (ensures_logEvent hs 0 .INFO event) fun _ s₁ h₁ _ => ?_
  refine Ensures.bind (P := fun _ _ => True) (Ensures.forEach (I := fun _ _ => True) trivial
    (fun _ _ _ _ _ => trivial) fun _ i _ _ s₂ h₂ _ => Ensures.when
      (fun _ => ensures_apply ((h₁.trans h₂).sound hs) i) fun _ _ _ => trivial) fun _ s₂ h₂ _ => ?_
  exact Ensures.forEach (I := fun _ _ => True) trivial (fun _ _ _ _ _ => trivial)
    fun _ i _ _ s₃ h₃ _ => Ensures.when
      (fun _ => ensures_remove (((h₁.trans h₂).trans h₃).sound hs) i) fun _ _ _ => trivial

end LogIniter

/-! ### Every call -/

/-- What a call promises of its result. -/
def Call.Post : Call → Answer → Objects → Prop
  | .getRoot, r, _ => r = .logger 0
  | .getLogger name, r, s => ∃ l, r = .logger l ∧ (name, l) ∈ s.names
  | .getFormatter _, r, _ => ∃ f, r = .formatter (some f)
  | .managerToYaml, r, _ | .loggerToYaml _, r, _ => ∃ values, r = .loggerYaml values ∧
    ∀ value ∈ values, value.formatter ≠ none ∧ ∀ a ∈ value.appenders, a.formatter ≠ none
  | .createStdout, r, s | .createFile _, r, s => ∃ a, r = .appender a ∧ a < s.appenderCount
  | _, _, _ => True

theorem Call.Post.mono {c : Call} {r : Answer} {s s' : Objects} (hs : Grows s s')
    (h : c.Post r s) : c.Post r s' := by
  cases c with
  | getLogger name =>
    obtain ⟨l, hr, hl⟩ := h
    exact ⟨l, hr, hs.names _ hl⟩
  | createStdout =>
    obtain ⟨a, hr, ha⟩ := h
    exact ⟨a, hr, ha.trans_le hs.appenderCount⟩
  | createFile filename =>
    obtain ⟨a, hr, ha⟩ := h
    exact ⟨a, hr, ha.trans_le hs.appenderCount⟩
  | _ => exact h

/-- A function that returns nothing. -/
theorem ensures_nothing {p : Code Unit} {P : Unit → Objects → Prop} {Q : Answer → Objects → Prop}
    (h : discipline.Ensures p held s P) (hQ : ∀ s', Q .nothing s') :
    discipline.Ensures (p >>= fun _ => pure .nothing) held s Q :=
  Ensures.bind h fun _ _ _ _ => Ensures.ret fun s' _ => hQ s'

/-- A function that returns something. -/
theorem ensures_answer {R : Type} {p : Code R} {P : R → Objects → Prop} {f : R → Answer}
    {Q : Answer → Objects → Prop} (h : discipline.Ensures p held s P)
    (hQ : ∀ r s' s'', P r s' → Grows s' s'' → Q (f r) s'') :
    discipline.Ensures (p >>= fun r => pure (f r)) held s Q :=
  Ensures.bind h fun r s' _ hr => Ensures.ret fun s'' hs => hQ r s' s'' hr hs.1

/-- **Every function keeps to the discipline**, whatever the others do in between. -/
theorem keeps_code : discipline.Keeps Call.code (fun c s => c.Given s) Call.Post := by
  intro c s hs hc
  cases c with
  | getRoot =>
    exact ensures_answer (P := fun r _ => r = 0) (Ensures.ret fun _ _ => rfl)
      fun r _ _ hr _ => congrArg Answer.logger hr
  | getLogger name =>
    exact ensures_answer (LoggerManager.ensures_getLogger (below_none _) hs name)
      fun r _ _ hr hs => ⟨r, rfl, hs.names _ hr⟩
  | managerToYaml =>
    exact ensures_answer (LoggerManager.ensures_toYamlString (below_none _) hs)
      fun rs _ _ hr _ => ⟨rs, rfl, hr⟩
  | loggerToYaml l =>
    exact ensures_answer (Logger.ensures_toYamlString (below_none _) hs)
      fun r _ _ hr _ => ⟨[r], rfl, List.forall_mem_singleton.mpr hr⟩
  | getFormatter l =>
    refine ensures_answer (Logger.ensures_getFormatter (below_none _) hs) fun r _ _ hr _ => ?_
    exact (Option.ne_none_iff_exists'.mp hr).imp fun f hf => congrArg Answer.formatter hf
  | createStdout =>
    exact ensures_answer (LogAppender.ensures_create hs _)
      fun a _ _ ha hs => ⟨a, rfl, ha.trans_le hs.appenderCount⟩
  | createFile filename =>
    exact ensures_answer (LogAppender.ensures_createFile (below_none _) hs _)
      fun a _ _ ha hs => ⟨a, rfl, ha.trans_le hs.appenderCount⟩
  | addAppender l a =>
    exact ensures_nothing (Logger.ensures_addAppender (below_none _) hs hc.1 hc.2) fun _ => trivial
  | delAppender l a =>
    exact ensures_nothing (Logger.ensures_delAppender (below_none _) hs hc.1 a) fun _ => trivial
  | clearAppenders l =>
    exact ensures_nothing (Logger.ensures_clearAppenders (below_none _) hs hc) fun _ => trivial
  | setLevel l val => exact ensures_nothing (Logger.ensures_setLevel hs hc val) fun _ => trivial
  | setFormatterPtr l formatter =>
    exact ensures_nothing (Logger.ensures_setFormatterPtr (below_none _) hs hc.1 hc.2)
      fun _ => trivial
  | setFormatter l val =>
    exact ensures_nothing (Logger.ensures_setFormatter (below_none _) hs hc val) fun _ => trivial
  | log l level event =>
    exact ensures_nothing (Logger.ensures_log level event (below_none _) hs Nat.zero_lt_two
      fun _ => Nat.one_lt_two) fun _ => trivial
  | logEvent l level event =>
    exact ensures_nothing (ensures_logEvent hs l level event) fun _ => trivial
  | appenderSetFormatter a val =>
    exact ensures_nothing (LogAppender.ensures_setFormatter (below_none _) hc.1 hc.2)
      fun _ => trivial
  | appenderGetFormatter a =>
    exact ensures_answer (LogAppender.ensures_getFormatter (below_none _) a)
      fun _ _ _ _ _ => trivial
  | appenderSetLevel a val =>
    exact ensures_nothing (LogAppender.ensures_setLevel hc val) fun _ => trivial
  | appenderToYaml a =>
    exact ensures_answer (LogAppender.ensures_toYamlString (below_none _)) fun _ _ _ _ _ => trivial
  | reopen a => exact ensures_nothing (LogAppender.ensures_reopen (below_none _) a) fun _ => trivial
  | onChange event old_value new_value =>
    exact ensures_nothing (LogIniter.ensures_onChange hs event old_value new_value) fun _ => trivial

/-! ### Every run -/

theorem sound_init : Objects.init.Sound where
  root _ _ h := absurd h (Option.some_ne_none _).symm
  logger l := by
    rw [Objects.init]
    dsimp only
    split <;> exact Option.some_ne_none _
  appender l a ha := by
    by_cases hl : l = 0
    · have ha0 : a = 0 := by simpa [Objects.init, hl] using ha
      simp [Objects.init, ha0, Log.Logger.create]
    · simp [Objects.init, hl, Log.Logger.create] at ha
  names e he := by
    obtain rfl := List.mem_singleton.mp he
    exact ⟨Nat.zero_lt_one, rfl, fun h => absurd rfl h⟩
  keys e he e' he' _ := by
    rw [List.mem_singleton.mp he, List.mem_singleton.mp he']
  count := Nat.zero_lt_one
  unborn := by
    refine ⟨fun l hl => ?_, fun a ha => ?_⟩
    · have hl0 : l ≠ 0 := Nat.ne_of_gt hl
      simp [Objects.init, hl0, Log.Logger.create]
    · have ha0 : a ≠ 0 := Nat.ne_of_gt ha
      simp [Objects.init, ha0]

variable {T : Type*} [Fintype T] [DecidableEq T] {S : System T Call MutexOf Objects Answer}

/-- The threads do what the discipline says. -/
theorem kept_of_run (hr : TransitionSystem.Reachable (System.step Call.code)
    (System.Admitted fun c s => c.Given s) (System.init .init) S) :
    S.Kept discipline Call.Post :=
  System.kept_of_reachable sound_init (fun m => by cases m <;> first | trivial | exact Whole.nil)
    keeps_code (fun _ _ _ _ hs h => h.mono hs) hr

/-- An event. -/
def sampleEvent : LogEvent := ⟨"a.cpp", 1, 0, 7, 0, 5, "main", "text", .create "root", .INFO⟩

/-- Two threads ask for the same new logger, and one of them logs to it. -/
def sampleRun : List (Act Bool Call) :=
  [.call true (.getLogger "a"), .run true, .call false (.getLogger "a")] ++
    List.replicate 6 (.run true) ++ List.replicate 4 (.run false) ++
    [.call true (.logEvent 1 .INFO sampleEvent)] ++ List.replicate 38 (.run true)

/-- Where that run ends. -/
def sampleEnd : System Bool Call MutexOf Objects Answer :=
  (TransitionSystem.exec (System.step Call.code) (System.Admitted fun c s => c.Given s)
    (System.init .init) sampleRun).get (by decide)

theorem reachable_sampleEnd : TransitionSystem.Reachable (System.step Call.code)
    (System.Admitted fun c s => c.Given s) (System.init .init) sampleEnd :=
  TransitionSystem.reachable_get _

/-- **The log never blocks for good.** Whatever calls any number of threads make, in any order and
at the same time, no null formatter is followed, no mutex is unlocked that is not held, and `log`
does not go deeper than to the root logger. No run goes on for ever unless new calls are made, and
where no thread can go on, all calls have returned. -/
theorem log_calls_return (hr : TransitionSystem.Reachable (System.step Call.code)
    (System.Admitted fun c s => c.Given s) (System.init .init) S) :
    S.fault = false ∧
      Acc (fun S' S : System T Call MutexOf Objects Answer => ∃ t, S.run t = some S') S ∧
      ∀ S', TransitionSystem.Reachable System.run TransitionSystem.anyAction S S' →
        (∀ t, S'.run t = none) → ∀ t, S'.running t = none :=
  ⟨(kept_of_run hr).fault, (kept_of_run hr).calls_return fun _ _ _ _ hs h => h.mono hs⟩

theorem log_calls_return_sampleEnd : sampleEnd.fault = false ∧ sampleEnd.running false = none := by
  obtain ⟨hfault, -, hend⟩ := log_calls_return reachable_sampleEnd
  exact ⟨hfault, hend sampleEnd (.refl _) (by rintro (_ | _) <;> rfl) false⟩

/-- **One logger for each name.** Whatever the threads do, two calls of `getLogger` return the same
logger if and only if they are given the same name. It has that name, and unless it is the root
logger, it falls back on the root logger. -/
theorem getLogger_unique (hr : TransitionSystem.Reachable (System.step Call.code)
    (System.Admitted fun c s => c.Given s) (System.init .init) S) {t t' : T} {name name' : String}
    {r r' : Answer} (h : (t, .getLogger name, r) ∈ S.returned)
    (h' : (t', .getLogger name', r') ∈ S.returned) :
    ∃ l l', r = .logger l ∧ r' = .logger l' ∧ (l = l' ↔ name = name') ∧
      (S.shared.loggers l).name = name ∧ (l ≠ 0 → S.shared.root l = some 0) := by
  have hkept := kept_of_run hr
  obtain ⟨l, rfl, hl⟩ := hkept.returned _ h
  obtain ⟨l', rfl, hl'⟩ := hkept.returned _ h'
  obtain ⟨-, hname, hroot⟩ := hkept.global.names _ hl
  obtain ⟨-, hname', -⟩ := hkept.global.names _ hl'
  refine ⟨l, l', rfl, rfl, ⟨?_, ?_⟩, hname, hroot⟩
  · rintro rfl
    exact hname.symm.trans hname'
  · rintro rfl
    exact congrArg Prod.snd (hkept.global.keys _ hl _ hl' rfl)

theorem getLogger_unique_sampleEnd :
    (sampleEnd.shared.loggers 1).name = "a" ∧ sampleEnd.shared.root 1 = some 0 := by
  have htrue : sampleEnd.returned[2]? = some (true, .getLogger "a", .logger 1) := rfl
  have hfalse : sampleEnd.returned[1]? = some (false, .getLogger "a", .logger 1) := rfl
  obtain ⟨l, l', hl, -, -, hname, hroot⟩ := getLogger_unique reachable_sampleEnd
    (List.mem_of_getElem? htrue) (List.mem_of_getElem? hfalse)
  obtain rfl := Answer.logger.inj hl
  exact ⟨hname, hroot (by decide)⟩

end Concurrent

end Log

end Wille
