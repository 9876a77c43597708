import Wille.Log.Event

/-!
# Formatters of their own, and inherited ones

The README says that every appender can have its own formatter, and that the formatter of a logger
is a default for its appenders. The code does not record which of the two an appender has. It copies
the formatter of the logger into an appender without one when the appender is added, and
`Logger::setFormatter` overwrites the formatter of every appender in the logger.

Here are runs of the operations on any number of loggers and appenders. An appender keeps its own
formatter, and the others have that of their logger, as long as each operation finds the appenders
as it takes them to be; the first operation that does not breaks one of the two.

## Main definitions

* `LogObjects`, `LogOp`, `LogObjects.step` — loggers and appenders, and the operations
* `givenOwn` — which appenders have been given a formatter of their own
* `Lawful` — own formatters are kept, and the others are those of the loggers
* `Careful` — an operation finds the appenders as it takes them to be

## Main results

* `Formatted.step` — in a logger there is never an appender without a formatter
* `lawful_step_iff` — which operations keep to the law
* `lawful_iff` — which runs do
-/

namespace Wille

namespace Log

/-- The loggers and the appenders that there are. -/
structure LogObjects where
  loggers : ℕ → Logger
  /-- `m_root` -/
  root : ℕ → Option ℕ
  /-- The root logger has no root logger. -/
  root_root : ∀ {l r}, root l = some r → root r = none
  heap : Appenders

/-- The operations. -/
inductive LogOp where
  | addAppender (l a : ℕ)
  | delAppender (l a : ℕ)
  | clearAppenders (l : ℕ)
  /-- `Logger::setFormatter` of a pointer that is not null. -/
  | setFormatterPtr (l : ℕ) (formatter : LogFormatter)
  /-- `Logger::setFormatter` of a text. -/
  | setFormatter (l : ℕ) (val : String)
  | log (l : ℕ) (level : LogLevel) (event : LogEvent)
  /-- `LogAppender::setFormatter` -/
  | setOwn (a : ℕ) (formatter : LogFormatter)

namespace LogObjects

/-- The logger has become this one, and the appenders are these. -/
def store (s : LogObjects) (l : ℕ) (r : Logger × Appenders) : LogObjects :=
  { s with loggers := Function.update s.loggers l r.1, heap := r.2 }

/-- What `log` of a logger writes. -/
def log (strftime : Strftime) (s : LogObjects) (l : ℕ) (level : LogLevel) (event : LogEvent) :
    Except LogFault (List (ℕ × List Char)) :=
  Logger.log strftime level event s.heap (s.loggers l :: ((s.root l).map s.loggers).toList)

/-- What an operation does. -/
def step (s : LogObjects) : LogOp → LogObjects
  | .addAppender l a => s.store l ((s.loggers l).addAppender a s.heap)
  | .delAppender l a => s.store l ((s.loggers l).delAppender a, s.heap)
  | .clearAppenders l => s.store l ((s.loggers l).clearAppenders, s.heap)
  | .setFormatterPtr l formatter =>
    s.store l ((s.loggers l).setFormatterPtr (some formatter) s.heap)
  | .setFormatter l val => s.store l ((s.loggers l).setFormatter val s.heap)
  | .log .. => s
  | .setOwn a formatter => { s with heap := s.heap.modify a (·.setFormatter (some formatter)) }

/-- A run. -/
def run (s : LogObjects) (ops : List LogOp) : LogObjects := ops.foldl step s

theorem run_concat (s : LogObjects) (ops : List LogOp) (op : LogOp) :
    s.run (ops ++ [op]) = (s.run ops).step op := by
  rw [run, List.foldl_append]
  rfl

/-- Nothing has been done to the loggers and the appenders. -/
structure Fresh (s : LogObjects) : Prop where
  appenders : ∀ l, (s.loggers l).appenders = []
  logger : ∀ l, (s.loggers l).formatter ≠ none
  appender : ∀ {a : ℕ} {ap : LogAppender}, s.heap[a]? = some ap → ap.formatter = none

end LogObjects

/-- The formatters of their own that appenders have been given before, and after an operation. -/
def LogOp.own (own : ℕ → Option LogFormatter) : LogOp → ℕ → Option LogFormatter
  | .setOwn a formatter => Function.update own a (some formatter)
  | _ => own

/-- The formatters of their own that appenders have been given in a run. -/
def givenOwn (ops : List LogOp) : ℕ → Option LogFormatter := ops.foldl LogOp.own fun _ => none

theorem givenOwn_concat (ops : List LogOp) (op : LogOp) :
    givenOwn (ops ++ [op]) = op.own (givenOwn ops) := by
  rw [givenOwn, List.foldl_append]
  rfl

/-- **The law.** An appender that was given its own formatter has it, and every other appender in a
logger has that of the logger. -/
structure Lawful (s : LogObjects) (own : ℕ → Option LogFormatter) : Prop where
  kept : ∀ {a : ℕ} {ap : LogAppender} {formatter}, s.heap[a]? = some ap → own a = some formatter →
    ap.formatter = some formatter
  inherited : ∀ {l a : ℕ} {ap : LogAppender}, a ∈ (s.loggers l).appenders → s.heap[a]? = some ap →
    own a = none → ap.formatter = (s.loggers l).formatter

/-- No appender of the logger has a formatter of its own, other than this one; and those without
one are in no other logger, except in one that has this formatter. -/
def Takes (s : LogObjects) (own : ℕ → Option LogFormatter) (l : ℕ) (formatter : LogFormatter) :
    Prop :=
  ∀ a ∈ (s.loggers l).appenders, ∀ ap, s.heap[a]? = some ap →
    (own a = none ∨ own a = some formatter) ∧
      (own a = none → ∀ l', l' ≠ l → a ∈ (s.loggers l').appenders →
        (s.loggers l').formatter = some formatter)

/-- The operation finds the appenders as it takes them to be. -/
def Careful (s : LogObjects) (own : ℕ → Option LogFormatter) : LogOp → Prop
  | .addAppender l a => ∀ ap, s.heap[a]? = some ap → own a = none →
      ap.formatter = none ∨ ap.formatter = (s.loggers l).formatter
  | .setFormatterPtr l formatter => Takes s own l formatter
  | .setFormatter l val =>
    (LogFormatter.create val).isError = false → Takes s own l (.create val)
  | .delAppender .. | .clearAppenders _ | .log .. | .setOwn .. => True

/-! ### No null formatter -/

/-- Every logger has a formatter, and so has every appender in one. -/
structure Formatted (s : LogObjects) : Prop where
  logger : ∀ l, (s.loggers l).formatter ≠ none
  appender : ∀ {l a : ℕ} {ap : LogAppender}, a ∈ (s.loggers l).appenders → s.heap[a]? = some ap →
    ap.formatter ≠ none

/-- The appenders of a logger get the formatter, and the others stay. -/
theorem Logger.getElem?_setFormatterPtr (logger : Logger) (formatter : Option LogFormatter)
    (heap : Appenders) (a : ℕ) :
    (logger.setFormatterPtr formatter heap).2[a]? = if a ∈ logger.appenders then
      heap[a]?.map (·.setFormatter formatter) else heap[a]? := by
  rw [Logger.setFormatterPtr]
  generalize logger.appenders = refs
  induction refs generalizing heap with
  | nil => rfl
  | cons b refs ih =>
    rw [List.foldl_cons, ih, List.getElem?_modify]
    rcases heap[a]? with - | ap
    · simp
    · by_cases hba : b = a
      · simp [hba, LogAppender.setFormatter]
      · simp [hba, Ne.symm hba]

/-- An appender without a formatter gets that of the logger it is added to. -/
theorem Logger.getElem?_addAppender (logger : Logger) (b : ℕ) (heap : Appenders) (a : ℕ) :
    (logger.addAppender b heap).2[a]? = heap[a]?.map fun ap =>
      if b = a ∧ ap.formatter = none then ap.setFormatter logger.formatter else ap := by
  rw [Logger.addAppender, List.getElem?_modify]
  rcases heap[a]? with - | ap
  · rfl
  · by_cases hba : b = a <;> simp [hba]

namespace LogObjects

variable {s : LogObjects} {l l' : ℕ} {r : Logger × Appenders}

@[simp] theorem store_heap : (s.store l r).heap = r.2 := rfl

@[simp] theorem store_loggers_self : (s.store l r).loggers l = r.1 := Function.update_self ..

theorem store_loggers_of_ne (h : l' ≠ l) : (s.store l r).loggers l' = s.loggers l' :=
  Function.update_of_ne h ..

end LogObjects

variable {s : LogObjects} {own : ℕ → Option LogFormatter}

/-- What is done to a logger and its appenders leaves none without a formatter if it gives no
appender a null formatter and takes none in that has one. -/
theorem Formatted.store (h : Formatted s) {l : ℕ} {r : Logger × Appenders}
    (hlogger : r.1.formatter ≠ none)
    (hheap : ∀ {a : ℕ} {ap : LogAppender}, r.2[a]? = some ap →
      s.heap[a]? = some ap ∨ ap.formatter ≠ none)
    (hmem : ∀ {a : ℕ} {ap : LogAppender}, a ∈ r.1.appenders → r.2[a]? = some ap →
      a ∈ (s.loggers l).appenders ∨ ap.formatter ≠ none) : Formatted (s.store l r) where
  logger l' := by
    by_cases hl : l' = l
    · subst hl
      rwa [LogObjects.store_loggers_self]
    · rw [LogObjects.store_loggers_of_ne hl]
      exact h.logger l'
  appender {l' a ap} ha hap := by
    rcases hheap hap with hap' | hne
    · by_cases hl : l' = l
      · subst hl
        rw [LogObjects.store_loggers_self] at ha
        exact (hmem ha hap).elim (fun ha => h.appender ha hap') id
      · rw [LogObjects.store_loggers_of_ne hl] at ha
        exact h.appender ha hap'
    · exact hne

theorem Formatted.setFormatterPtr (h : Formatted s) (l : ℕ) (formatter : LogFormatter) :
    Formatted (s.store l ((s.loggers l).setFormatterPtr (some formatter) s.heap)) := by
  refine h.store (Option.some_ne_none formatter) (fun {a ap} hap => ?_) fun ha _ => Or.inl ha
  rw [Logger.getElem?_setFormatterPtr] at hap
  split at hap
  · obtain ⟨ap, -, rfl⟩ := Option.map_eq_some_iff.mp hap
    exact Or.inr (Option.some_ne_none formatter)
  · exact Or.inl hap

theorem Formatted.addAppender (h : Formatted s) (l b : ℕ) :
    Formatted (s.store l ((s.loggers l).addAppender b s.heap)) := by
  refine h.store (h.logger l) (fun {a ap} hap => ?_) fun {a ap} ha hap => ?_
  all_goals
    rw [Logger.getElem?_addAppender] at hap
    obtain ⟨ap, hold, rfl⟩ := Option.map_eq_some_iff.mp hap
  · split
    · exact Or.inr (h.logger l)
    · exact Or.inl hold
  · rcases List.mem_append.mp ha with ha | ha
    · exact Or.inl ha
    · obtain rfl := List.mem_singleton.mp ha
      right
      split
      · exact h.logger l
      · rename_i hne
        exact fun hnone => hne ⟨rfl, hnone⟩

/-- **In a logger there is never an appender without a formatter**: no operation puts one there. -/
theorem Formatted.step (h : Formatted s) (op : LogOp) : Formatted (s.step op) := by
  cases op with
  | addAppender l a => exact h.addAppender l a
  | delAppender l a =>
    exact h.store (h.logger l) Or.inl fun ha _ => Or.inl (List.mem_of_mem_erase ha)
  | clearAppenders l => exact h.store (h.logger l) Or.inl fun ha _ => absurd ha List.not_mem_nil
  | setFormatterPtr l formatter => exact h.setFormatterPtr l formatter
  | setFormatter l val =>
    rw [LogObjects.step, Logger.setFormatter]
    cases (LogFormatter.create val).isError with
    | true => exact h.store (h.logger l) Or.inl fun ha _ => Or.inl ha
    | false => exact h.setFormatterPtr l _
  | log l level event => exact h
  | setOwn b formatter =>
    refine ⟨h.logger, fun {l a ap} ha hap => ?_⟩
    rw [LogObjects.step, List.getElem?_modify] at hap
    obtain ⟨ap, hold, rfl⟩ := Option.map_eq_some_iff.mp hap
    split
    · exact Option.some_ne_none formatter
    · exact h.appender ha hold

theorem LogObjects.Fresh.formatted (h : s.Fresh) : Formatted s where
  logger := h.logger
  appender {l _ _} ha := absurd (h.appenders l ▸ ha) List.not_mem_nil

theorem LogObjects.Fresh.formatted_run (h : s.Fresh) (ops : List LogOp) :
    Formatted (s.run ops) := by
  induction ops using List.reverseRecOn with
  | nil => exact h.formatted
  | append_singleton ops op ih => exact LogObjects.run_concat s ops op ▸ ih.step op

/-- So `log` follows no null pointer. -/
theorem Formatted.log_ne (h : Formatted s) (strftime : Strftime) (l : ℕ) (level : LogLevel)
    (event : LogEvent) : s.log strftime l level event ≠ .error .nullFormatter := by
  intro hlog
  obtain ⟨logger, hlogger, a, ha, ap, hap, hnone⟩ := Logger.exists_of_nullFormatter hlog
  rcases List.mem_cons.mp hlogger with rfl | hroot
  · exact h.appender ha hap hnone
  · obtain ⟨l', -, rfl⟩ := Option.map_eq_some_iff.mp (Option.mem_toList.mp hroot)
    exact h.appender ha hap hnone

/-! ### The law -/

/-- Appenders that are taken out of a logger do not matter. -/
theorem Lawful.store (h : Lawful s own) {l : ℕ} {logger : Logger}
    (hformatter : logger.formatter = (s.loggers l).formatter)
    (hsubset : logger.appenders ⊆ (s.loggers l).appenders) :
    Lawful (s.store l (logger, s.heap)) own where
  kept := h.kept
  inherited {l' a ap} ha hap hown := by
    by_cases hl : l' = l
    · subst hl
      rw [LogObjects.store_loggers_self] at ha ⊢
      rw [hformatter]
      exact h.inherited (hsubset ha) hap hown
    · rw [LogObjects.store_loggers_of_ne hl] at ha ⊢
      exact h.inherited ha hap hown

/-- **Giving a logger a formatter** keeps to the law if and only if the appenders in the logger are
to take it. -/
theorem lawful_setFormatterPtr_iff (h : Lawful s own) (l : ℕ) (formatter : LogFormatter) :
    Lawful (s.store l ((s.loggers l).setFormatterPtr (some formatter) s.heap)) own ↔
      Takes s own l formatter := by
  have hget := fun a => (s.loggers l).getElem?_setFormatterPtr (some formatter) s.heap a
  constructor
  · intro hafter a ha ap hap
    have hap' : ((s.loggers l).setFormatterPtr (some formatter) s.heap).2[a]? =
        some (ap.setFormatter (some formatter)) := by
      rw [hget, if_pos ha, hap]
      rfl
    constructor
    · cases hown : own a with
      | none => exact Or.inl rfl
      | some formatter' => exact Or.inr (hafter.kept hap' hown).symm
    · intro hown l' hl ha'
      rw [← LogObjects.store_loggers_of_ne hl] at ha'
      have := hafter.inherited ha' hap' hown
      rw [LogObjects.store_loggers_of_ne hl] at this
      exact this.symm
  · intro htakes
    constructor
    · intro a ap formatter' hap hown
      rw [LogObjects.store_heap, hget] at hap
      split at hap
      · rename_i ha
        obtain ⟨ap, hold, rfl⟩ := Option.map_eq_some_iff.mp hap
        obtain ⟨hnone | hsome, -⟩ := htakes a ha ap hold
        · exact absurd (hown.symm.trans hnone) (Option.some_ne_none formatter')
        · exact hsome.symm.trans hown
      · exact h.kept hap hown
    · intro l' a ap ha hap hown
      rw [LogObjects.store_heap, hget] at hap
      split at hap
      · rename_i hmem
        obtain ⟨ap, hold, rfl⟩ := Option.map_eq_some_iff.mp hap
        by_cases hl : l' = l
        · subst hl
          rw [LogObjects.store_loggers_self]
          rfl
        · rw [LogObjects.store_loggers_of_ne hl] at ha ⊢
          exact ((htakes a hmem ap hold).2 hown l' hl ha).symm
      · rename_i hmem
        have hl : l' ≠ l := by
          rintro rfl
          rw [LogObjects.store_loggers_self] at ha
          exact hmem ha
        rw [LogObjects.store_loggers_of_ne hl] at ha ⊢
        exact h.inherited ha hap hown

/-- **Adding an appender** keeps to the law if and only if the appender has no formatter, or its
own, or that of the logger. -/
theorem lawful_addAppender_iff (h : Lawful s own) (hs : Formatted s) (l b : ℕ) :
    Lawful (s.store l ((s.loggers l).addAppender b s.heap)) own ↔
      Careful s own (.addAppender l b) := by
  have hget := fun a => (s.loggers l).getElem?_addAppender b s.heap a
  constructor
  · intro hafter ap hap hown
    by_cases hnone : ap.formatter = none
    · exact Or.inl hnone
    · have hap' : ((s.loggers l).addAppender b s.heap).2[b]? = some ap := by
        rw [hget, hap, Option.map_some, if_neg fun h => hnone h.2]
      have hmem : b ∈ ((s.store l ((s.loggers l).addAppender b s.heap)).loggers l).appenders := by
        rw [LogObjects.store_loggers_self]
        exact List.mem_append_right _ (List.mem_singleton_self b)
      have := hafter.inherited hmem hap' hown
      rw [LogObjects.store_loggers_self] at this
      exact Or.inr this
  · intro hcareful
    constructor
    · intro a ap formatter hap hown
      rw [LogObjects.store_heap, hget] at hap
      obtain ⟨ap, hold, rfl⟩ := Option.map_eq_some_iff.mp hap
      have hkept := h.kept hold hown
      rwa [if_neg fun h => Option.some_ne_none formatter (hkept.symm.trans h.2)]
    · intro l' a ap ha hap hown
      rw [LogObjects.store_heap, hget] at hap
      obtain ⟨ap, hold, rfl⟩ := Option.map_eq_some_iff.mp hap
      by_cases hl : l' = l
      · subst hl
        rw [LogObjects.store_loggers_self] at ha ⊢
        split
        · rfl
        · rename_i hne
          rcases List.mem_append.mp ha with ha | ha
          · exact h.inherited ha hold hown
          · obtain rfl := List.mem_singleton.mp ha
            exact (hcareful ap hold hown).resolve_left fun hnone => hne ⟨rfl, hnone⟩
      · rw [LogObjects.store_loggers_of_ne hl] at ha ⊢
        rw [if_neg fun hnone => hs.appender ha hold hnone.2]
        exact h.inherited ha hold hown

/-- An appender may always be given a formatter of its own. -/
theorem Lawful.setOwn (h : Lawful s own) (b : ℕ) (formatter : LogFormatter) :
    Lawful (s.step (.setOwn b formatter)) (Function.update own b (some formatter)) := by
  have hget : ∀ {a : ℕ} {ap : LogAppender}, (s.step (.setOwn b formatter)).heap[a]? = some ap →
      ∃ old, s.heap[a]? = some old ∧
        ap = if b = a then old.setFormatter (some formatter) else old := by
    intro a ap hap
    rw [LogObjects.step, List.getElem?_modify] at hap
    obtain ⟨old, hold, rfl⟩ := Option.map_eq_some_iff.mp hap
    exact ⟨old, hold, rfl⟩
  constructor
  · intro a ap formatter' hap hown
    obtain ⟨old, hold, rfl⟩ := hget hap
    by_cases hba : b = a
    · subst hba
      rw [Function.update_self] at hown
      rw [if_pos rfl, ← hown]
      rfl
    · rw [Function.update_of_ne (Ne.symm hba)] at hown
      rw [if_neg hba]
      exact h.kept hold hown
  · intro l a ap ha hap hown
    obtain ⟨old, hold, rfl⟩ := hget hap
    have hba : b ≠ a := by
      rintro rfl
      rw [Function.update_self] at hown
      exact Option.some_ne_none formatter hown
    rw [Function.update_of_ne hba.symm] at hown
    rw [if_neg hba]
    exact h.inherited ha hold hown

/-- **Which operations keep to the law.** -/
theorem lawful_step_iff (h : Lawful s own) (hs : Formatted s) (op : LogOp) :
    Lawful (s.step op) (op.own own) ↔ Careful s own op := by
  cases op with
  | addAppender l a => exact lawful_addAppender_iff h hs l a
  | delAppender l a => exact iff_of_true (h.store rfl List.erase_subset) trivial
  | clearAppenders l => exact iff_of_true (h.store rfl (List.nil_subset _)) trivial
  | setFormatterPtr l formatter => exact lawful_setFormatterPtr_iff h l formatter
  | setFormatter l val =>
    rw [LogObjects.step, Logger.setFormatter, Careful]
    cases (LogFormatter.create val).isError with
    | true =>
      exact iff_of_true (h.store rfl (List.Subset.refl _)) fun hval => Bool.noConfusion hval
    | false =>
      rw [if_neg Bool.false_ne_true]
      exact (lawful_setFormatterPtr_iff h l _).trans ⟨fun ht _ => ht, fun ht => ht rfl⟩
  | log l level event => exact iff_of_true h trivial
  | setOwn a formatter => exact iff_of_true (h.setOwn a formatter) trivial

theorem LogObjects.Fresh.lawful (h : s.Fresh) : Lawful s (givenOwn []) where
  kept _ hown := absurd hown (Option.some_ne_none _).symm
  inherited {l _ _} ha := absurd (h.appenders l ▸ ha) List.not_mem_nil

/-- **Which runs keep to the law.** From loggers and appenders to which nothing has been done, the
law holds in every state of a run if and only if each operation of it is careful. And in every
state `log` follows no null pointer. -/
theorem lawful_iff (h : s.Fresh) (ops : List LogOp) :
    ((∀ ops', ops' <+: ops → Lawful (s.run ops') (givenOwn ops')) ↔
      ∀ ops' op, ops' ++ [op] <+: ops → Careful (s.run ops') (givenOwn ops') op) ∧
    ∀ ops', ops' <+: ops → ∀ strftime l level event,
      (s.run ops').log strftime l level event ≠ .error .nullFormatter := by
  refine ⟨⟨fun hlawful ops' op hops => ?_, fun hcareful ops' => ?_⟩,
    fun ops' _ strftime l level event => (h.formatted_run ops').log_ne strftime l level event⟩
  · have hbefore := hlawful ops' ((List.prefix_append ops' [op]).trans hops)
    have hafter := hlawful (ops' ++ [op]) hops
    rw [LogObjects.run_concat, givenOwn_concat] at hafter
    exact (lawful_step_iff hbefore (h.formatted_run ops') op).mp hafter
  · induction ops' using List.reverseRecOn with
    | nil => exact fun _ => h.lawful
    | append_singleton ops' op ih =>
      intro hops
      have hbefore := ih ((List.prefix_append ops' [op]).trans hops)
      rw [LogObjects.run_concat, givenOwn_concat]
      exact (lawful_step_iff hbefore (h.formatted_run ops') op).mpr (hcareful ops' op hops)

/-- Two loggers, and one appender that writes to `std::cout`. -/
def sampleObjects : LogObjects where
  loggers l := .create (if l = 0 then "system" else "root")
  root l := if l = 0 then some 1 else none
  root_root {l r} h := by
    split at h
    · obtain rfl := Option.some.inj h
      rfl
    · exact absurd h (Option.some_ne_none r).symm
  heap := [.create .stdout]

theorem sampleObjects_fresh : sampleObjects.Fresh where
  appenders _ := rfl
  logger _ := Option.some_ne_none _
  appender {a ap} h := by
    obtain rfl := List.mem_singleton.mp (List.mem_of_getElem? h)
    rfl

theorem lawful_iff_inherited :
    Lawful (sampleObjects.run [.addAppender 0 0, .setFormatter 0 "%m%n"])
      (givenOwn [.addAppender 0 0, .setFormatter 0 "%m%n"]) := by
  refine (lawful_iff sampleObjects_fresh _).1.mpr (fun ops' op hops => ?_) _ (List.prefix_refl _)
  rcases ops' with - | ⟨op', - | ⟨op'', ops'⟩⟩
  · obtain rfl := (List.cons_prefix_cons.mp hops).1
    exact fun ap hap _ => Or.inl (sampleObjects_fresh.appender hap)
  · obtain ⟨rfl, hops'⟩ := List.cons_prefix_cons.mp hops
    obtain rfl := (List.cons_prefix_cons.mp hops').1
    intro _ a ha ap hap
    refine ⟨Or.inl rfl, fun _ l' hl ha' => ?_⟩
    rw [show (sampleObjects.run [.addAppender 0 0]).loggers l' = sampleObjects.loggers l' from
      LogObjects.store_loggers_of_ne hl] at ha'
    exact absurd ha' List.not_mem_nil
  · have hlength := hops.length_le
    simp at hlength

/-- The appender is given its own formatter and then added, and the logger is given another one. -/
def sampleOps : List LogOp :=
  [.setOwn 0 (.create "%d - %m%n"), .addAppender 0 0, .setFormatter 0 "%m%n"]

/-- The logger takes the appender's own formatter away. -/
theorem own_formatter_lost : ¬∀ ops', ops' <+: sampleOps →
    Lawful (sampleObjects.run ops') (givenOwn ops') := by
  intro h
  have hheap : (sampleObjects.run sampleOps).heap[0]? =
      some ⟨.stdout, .DEBUG, some (.create "%m%n")⟩ := by decide
  have hkept := (h sampleOps (List.prefix_refl _)).kept hheap rfl
  exact absurd (congrArg (Option.map LogFormatter.pattern) hkept) (by decide)

end Log

end Wille
