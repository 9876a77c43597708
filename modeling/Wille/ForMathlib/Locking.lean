import Mathlib.Data.Finset.Max
import Mathlib.Data.Fintype.Basic
import Mathlib.Logic.Function.Basic
import Mathlib.Logic.Hydra
import Mathlib.Tactic.ByContra
import Wille.ForMathlib.TransitionSystem

/-!
# Programs with locks

Threads run programs over one shared state. A program is a tree: it takes or gives back a lock, or
it does one atomic step that reads and changes the shared state, and goes on in a way that may
depend on what it has read. Where it has no meaning any more (a null pointer is followed) it is
stuck, which ends the run, and so does giving back a lock that is not held.

What a program relies on, and what it promises, is a *discipline*: an order of the locks, for each
lock what it protects and what holds of that while nobody writes, and what no step ever undoes.
A program that keeps to the discipline by itself, for any interference that the discipline allows,
keeps to it together with any others.

## Main definitions

* `Mode`, `Prog`, `Prog.bind`, `Prog.locked` — programs, as a monad
* `Discipline`, `Discipline.Rely`, `Discipline.Guar`
* `Discipline.Wp` — the program keeps to the discipline and ends in such a state
* `System`, `System.run`, `System.step` — threads that call programs
* `System.Kept` — every call that is under way keeps to the discipline

## Main results

* `Discipline.Wp.bind`, `Discipline.Wp.locked`, `Discipline.Wp.forEach` — the rules for programs
* `System.kept_of_reachable` — the invariant rule: nothing has gone wrong, and every call has
  returned what it promised
* `System.Kept.exists_run` — as long as a call is under way, some thread can go on
* `System.wellFounded_run` — no run goes on for ever without a new call
-/

namespace Locking

open TransitionSystem

/-- How a lock is held. -/
inductive Mode where
  | read
  | write
  deriving DecidableEq

/-- A program. -/
inductive Prog (L S : Type*) (R : Type) where
  /-- It is done. -/
  | ret (r : R)
  /-- It takes a lock. -/
  | lock (mode : Mode) (l : L) (next : Prog L S R)
  /-- It gives a lock back. -/
  | unlock (l : L) (next : Prog L S R)
  /-- One atomic step, and what follows for the state that it found. -/
  | act (f : S → S) (next : S → Prog L S R)
  /-- It does something that has no meaning. -/
  | stuck

variable {L S : Type*} {R R' : Type}

namespace Prog

/-- One program after the other. -/
def bind : Prog L S R → (R → Prog L S R') → Prog L S R'
  | .ret r, f => f r
  | .lock mode l next, f => .lock mode l (next.bind f)
  | .unlock l next, f => .unlock l (next.bind f)
  | .act g next, f => .act g fun s => (next s).bind f
  | .stuck, _ => .stuck

instance : Monad (Prog L S) where
  pure := .ret
  bind := .bind

/-- What is in the state. -/
def read (f : S → R) : Prog L S R := .act id fun s => .ret (f s)

/-- What is in the state, if it is there. -/
def follow (f : S → Option R) : Prog L S R := .act id fun s => (f s).elim .stuck .ret

/-- The state changes. -/
def modify (f : S → S) : Prog L S Unit := .act f fun _ => .ret ()

/-- A program, if this holds. -/
def when (c : Prop) [Decidable c] (p : Prog L S Unit) : Prog L S Unit := if c then p else .ret ()

/-- A program that holds a lock, and gives it back at its end. -/
def locked (mode : Mode) (l : L) (p : Prog L S R) : Prog L S R :=
  .lock mode l (p.bind fun r => .unlock l (.ret r))

/-- A loop over a list. -/
def forEach {α : Type*} : List α → (α → Prog L S Unit) → Prog L S Unit
  | [], _ => .ret ()
  | a :: as, f => (f a).bind fun _ => forEach as f

/-- A loop over a list that keeps the results. -/
def collect {α : Type*} : List α → (α → Prog L S R) → Prog L S (List R)
  | [], _ => .ret []
  | a :: as, f => (f a).bind fun r => (collect as f).bind fun rs => .ret (r :: rs)

end Prog

/-- What threads may rely on. -/
structure Discipline (L S : Type*) where
  /-- The order in which locks are taken. -/
  rank : L → ℕ
  /-- What holds of every state. -/
  Global : S → Prop
  /-- What no step undoes. -/
  Mono : S → S → Prop
  /-- The states agree on what the lock protects. -/
  Agree : L → S → S → Prop
  /-- What holds while nobody holds the lock for writing. -/
  Inv : L → S → Prop
  mono_refl : ∀ s, Mono s s
  mono_trans : ∀ {s s' s''}, Mono s s' → Mono s' s'' → Mono s s''
  agree_refl : ∀ l s, Agree l s s
  agree_trans : ∀ {l s s' s''}, Agree l s s' → Agree l s' s'' → Agree l s s''
  global_of_mono : ∀ {s s'}, Mono s s' → Global s → Global s'
  inv_of_agree : ∀ {l s s'}, Mono s s' → Agree l s s' → Inv l s → Inv l s'

namespace Discipline

variable (D : Discipline L S)

/-- What the others may do while these locks are held. -/
def Rely (held : L → Option Mode) (s s' : S) : Prop :=
  D.Mono s s' ∧ ∀ l, held l ≠ none → D.Agree l s s'

/-- What a thread that holds these locks may do. -/
def Guar (held : L → Option Mode) (s s' : S) : Prop :=
  D.Mono s s' ∧ ∀ l, held l ≠ some .write → D.Agree l s s'

section

variable [DecidableEq L]

/-- Begun in this state with these locks, the program keeps to the discipline whatever the others
do, and at its end this holds of its result, the locks it holds and the state. -/
def Wp : Prog L S R → (L → Option Mode) → S → (R → (L → Option Mode) → S → Prop) → Prop
  | .ret r, held, s, Q => ∀ s', D.Rely held s s' → Q r held s'
  | .lock mode l next, held, s, Q => (∀ l', held l' ≠ none → D.rank l' < D.rank l) ∧
      ∀ s', D.Rely held s s' → D.Inv l s' → Wp next (Function.update held l (some mode)) s' Q
  | .unlock l next, held, s, Q => held l ≠ none ∧ ∀ s', D.Rely held s s' →
      (held l = some .write → D.Inv l s') ∧ Wp next (Function.update held l none) s' Q
  | .act f next, held, s, Q => ∀ s', D.Rely held s s' →
      D.Guar held s' (f s') ∧ Wp (next s') held (f s') Q
  | .stuck, _, _, _ => False

end

variable {D} {held : L → Option Mode} {s s' s'' : S}
  {Q : R → (L → Option Mode) → S → Prop}

theorem Rely.refl (held : L → Option Mode) (s : S) : D.Rely held s s :=
  ⟨D.mono_refl s, fun l _ => D.agree_refl l s⟩

theorem Guar.refl (held : L → Option Mode) (s : S) : D.Guar held s s :=
  ⟨D.mono_refl s, fun l _ => D.agree_refl l s⟩

theorem Rely.trans (h : D.Rely held s s') (h' : D.Rely held s' s'') : D.Rely held s s'' :=
  ⟨D.mono_trans h.1 h'.1, fun l hl => D.agree_trans (h.2 l hl) (h'.2 l hl)⟩

variable [DecidableEq L]

omit [DecidableEq L] in
/-- What holds of a lock goes on to hold for who has it. -/
theorem Rely.inv {l : L} (h : D.Rely held s s') (hl : held l ≠ none) (hinv : D.Inv l s) :
    D.Inv l s' := D.inv_of_agree h.1 (h.2 l hl) hinv

/-! ### Rules for programs -/

/-- What the others do before the program goes on does not matter. -/
theorem Wp.rely {p : Prog L S R} (h : D.Wp p held s Q) (hs : D.Rely held s s') :
    D.Wp p held s' Q := by
  cases p with
  | ret r => exact fun s'' hs' => h s'' (hs.trans hs')
  | lock mode l next => exact ⟨h.1, fun s'' hs' => h.2 s'' (hs.trans hs')⟩
  | unlock l next => exact ⟨h.1, fun s'' hs' => h.2 s'' (hs.trans hs')⟩
  | act f next => exact fun s'' hs' => h s'' (hs.trans hs')
  | stuck => exact h.elim

/-- The rule of consequence. -/
theorem Wp.mono {Q' : R → (L → Option Mode) → S → Prop} {p : Prog L S R} (h : D.Wp p held s Q)
    (hQ : ∀ r held s, Q r held s → Q' r held s) : D.Wp p held s Q' := by
  induction p generalizing held s with
  | ret r => exact fun s' hs => hQ r held s' (h s' hs)
  | lock mode l next ih => exact ⟨h.1, fun s' hs hinv => ih (h.2 s' hs hinv)⟩
  | unlock l next ih => exact ⟨h.1, fun s' hs => ⟨(h.2 s' hs).1, ih (h.2 s' hs).2⟩⟩
  | act f next ih => exact fun s' hs => ⟨(h s' hs).1, ih s' (h s' hs).2⟩
  | stuck => exact h.elim

/-- One program after the other. -/
theorem Wp.bind {Q' : R' → (L → Option Mode) → S → Prop} {p : Prog L S R}
    {f : R → Prog L S R'} (h : D.Wp p held s fun r held s => D.Wp (f r) held s Q') :
    D.Wp (p.bind f) held s Q' := by
  induction p generalizing held s with
  | ret r => exact h s (Rely.refl held s)
  | lock mode l next ih => exact ⟨h.1, fun s' hs hinv => ih (h.2 s' hs hinv)⟩
  | unlock l next ih => exact ⟨h.1, fun s' hs => ⟨(h.2 s' hs).1, ih (h.2 s' hs).2⟩⟩
  | act g next ih => exact fun s' hs => ⟨(h s' hs).1, ih s' (h s' hs).2⟩
  | stuck => exact h.elim

/-- What no step undoes, a program does not undo. -/
theorem Wp.grows {p : Prog L S R} (h : D.Wp p held s Q) :
    D.Wp p held s fun r held s' => D.Mono s s' ∧ Q r held s' := by
  have hmono {s s' : S} (hs : D.Mono s s') {p : Prog L S R} {held : L → Option Mode}
      (h : D.Wp p held s' fun r held s'' => D.Mono s' s'' ∧ Q r held s'') :
      D.Wp p held s' fun r held s'' => D.Mono s s'' ∧ Q r held s'' :=
    Wp.mono h fun _ _ _ hr => ⟨D.mono_trans hs hr.1, hr.2⟩
  induction p generalizing held s with
  | ret r => exact fun s' hs => ⟨hs.1, h s' hs⟩
  | lock mode l next ih => exact ⟨h.1, fun s' hs hinv => hmono hs.1 (ih (h.2 s' hs hinv))⟩
  | unlock l next ih => exact ⟨h.1, fun s' hs => ⟨(h.2 s' hs).1, hmono hs.1 (ih (h.2 s' hs).2)⟩⟩
  | act f next ih =>
    intro s' hs
    obtain ⟨hguar, hnext⟩ := h s' hs
    exact ⟨hguar, hmono (D.mono_trans hs.1 hguar.1) (ih s' hnext)⟩
  | stuck => exact h.elim

/-! ### Rules for programs that give back what they take -/

variable (D) in
/-- At its end the program holds the locks it held before, and this holds of its result. -/
def Ensures (p : Prog L S R) (held : L → Option Mode) (s : S) (Q : R → S → Prop) : Prop :=
  D.Wp p held s fun r held' s' => held' = held ∧ Q r s'

variable {p : Prog L S R} {P : R → S → Prop}

theorem Ensures.rely (h : D.Ensures p held s P) (hs : D.Rely held s s') :
    D.Ensures p held s' P := Wp.rely h hs

theorem Ensures.mono {P' : R → S → Prop} (h : D.Ensures p held s P)
    (hP : ∀ r s, P r s → P' r s) : D.Ensures p held s P' :=
  Wp.mono h fun r _ s hr => ⟨hr.1, hP r s hr.2⟩

theorem Ensures.ret {r : R} (h : ∀ s', D.Rely held s s' → P r s') :
    D.Ensures (.ret r) held s P := fun s' hs => ⟨rfl, h s' hs⟩

theorem Ensures.bind {P' : R' → S → Prop} {f : R → Prog L S R'} (h : D.Ensures p held s P)
    (hf : ∀ r s', D.Mono s s' → P r s' → D.Ensures (f r) held s' P') :
    D.Ensures (p >>= f) held s P' := by
  refine Wp.bind (Wp.mono (Wp.grows h) ?_)
  rintro r _ s' ⟨hs, rfl, hr⟩
  exact hf r s' hs hr

theorem Ensures.read {f : S → R}
    (h : ∀ s', D.Rely held s s' → ∀ s'', D.Rely held s' s'' → P (f s') s'') :
    D.Ensures (.read f) held s P :=
  fun s' hs => ⟨.refl held s', Ensures.ret (h s' hs)⟩

theorem Ensures.follow {f : S → Option R}
    (h : ∀ s', D.Rely held s s' → ∃ r, f s' = some r ∧ ∀ s'', D.Rely held s' s'' → P r s'') :
    D.Ensures (.follow f) held s P := by
  intro s' hs
  obtain ⟨r, hr, hP⟩ := h s' hs
  have hret : D.Ensures ((f s').elim .stuck .ret) held s' P := by
    rw [hr]
    exact Ensures.ret hP
  exact ⟨.refl held s', hret⟩

theorem Ensures.modify {f : S → S} {P : Unit → S → Prop}
    (h : ∀ s', D.Rely held s s' → D.Guar held s' (f s') ∧
      ∀ s'', D.Rely held (f s') s'' → P () s'') : D.Ensures (.modify f) held s P :=
  fun s' hs => ⟨(h s' hs).1, Ensures.ret (h s' hs).2⟩

theorem Ensures.when {c : Prop} [Decidable c] {p : Prog L S Unit} {P : Unit → S → Prop}
    (h : c → D.Ensures p held s P) (hnot : ¬c → ∀ s', D.Rely held s s' → P () s') :
    D.Ensures (.when c p) held s P := by
  rw [Prog.when]
  split
  · exact h ‹_›
  · exact Ensures.ret (hnot ‹_›)

/-- With fewer locks there is less to rely on. -/
theorem Rely.of_update {l : L} {mode : Mode} (hl : held l = none)
    (h : D.Rely (Function.update held l (some mode)) s s') : D.Rely held s s' := by
  refine ⟨h.1, fun l' hl' => h.2 l' ?_⟩
  rw [Function.update_of_ne (by rintro rfl; exact hl' hl)]
  exact hl'

/-- **The rule for a program that holds a lock.** It finds what holds of the lock, and leaves it. -/
theorem Ensures.locked {mode : Mode} {l : L}
    (hrank : ∀ l', held l' ≠ none → D.rank l' < D.rank l)
    (hP : ∀ r s' s'', P r s' → D.Rely held s' s'' → P r s'')
    (h : ∀ s', D.Rely held s s' → D.Inv l s' →
      D.Ensures p (Function.update held l (some mode)) s' fun r s'' =>
        (mode = .write → D.Inv l s'') ∧ P r s'') :
    D.Ensures (.locked mode l p) held s P := by
  have hl : held l = none := by
    by_contra hne
    exact Nat.lt_irrefl _ (hrank l hne)
  have hself : Function.update held l (some mode) l = some mode := Function.update_self ..
  refine ⟨hrank, fun s' hs hinv => Wp.bind (Wp.mono (h s' hs hinv) ?_)⟩
  rintro r _ s₁ ⟨rfl, hinv₁, hr⟩
  refine ⟨by rw [hself]; exact Option.some_ne_none _, fun s₂ hs₂ => ⟨fun hmode => ?_, ?_⟩⟩
  · rw [hself] at hmode
    exact D.inv_of_agree hs₂.1 (hs₂.2 l (by rw [hself]; exact Option.some_ne_none _))
      (hinv₁ (Option.some.inj hmode))
  · rw [Function.update_idem, ← hl, Function.update_eq_self]
    exact fun s₃ hs₃ => ⟨rfl, hP r s₁ s₃ hr ((hs₂.of_update hl).trans hs₃)⟩

/-- **The rule for a loop.** What holds may depend on the elements that are done. -/
theorem Ensures.forEach {α : Type*} {as : List α} {f : α → Prog L S Unit} {I : List α → S → Prop}
    (hs : I [] s) (hI : ∀ done s s', I done s → D.Rely held s s' → I done s')
    (h : ∀ done a rest, as = done ++ a :: rest → ∀ s', D.Mono s s' → I done s' →
      D.Ensures (f a) held s' fun _ => I (done ++ [a])) :
    D.Ensures (.forEach as f) held s fun _ => I as := by
  have key : ∀ rest done, as = done ++ rest → ∀ s', D.Mono s s' → I done s' →
      D.Ensures (.forEach rest f) held s' fun _ => I as := by
    intro rest
    induction rest with
    | nil =>
      rintro done rfl s' - hs'
      rw [List.append_nil]
      exact Ensures.ret fun s'' hs'' => hI done s' s'' hs' hs''
    | cons a rest ih =>
      intro done has s' hmono hs'
      exact Ensures.bind (h done a rest has s' hmono hs') fun _ s'' hmono' hs'' =>
        ih (done ++ [a]) (by rw [has, List.append_assoc]; rfl) s'' (D.mono_trans hmono hmono') hs''
  exact key as [] rfl s (D.mono_refl s) hs

/-- A loop that keeps the results: each is as it must be. -/
theorem Ensures.collect {α : Type*} {as : List α} {f : α → Prog L S R} {K : R → Prop}
    (h : ∀ a ∈ as, ∀ s', D.Mono s s' → D.Ensures (f a) held s' fun r _ => K r) :
    D.Ensures (.collect as f) held s fun rs _ => ∀ r ∈ rs, K r := by
  induction as generalizing s with
  | nil => exact Ensures.ret fun s' _ => List.forall_mem_nil _
  | cons a as ih =>
    obtain ⟨ha, has⟩ := List.forall_mem_cons.mp h
    refine Ensures.bind (ha s (D.mono_refl s)) fun r s₁ h₁ hr => ?_
    refine Ensures.bind (ih fun a ha s₂ h₂ => has a ha s₂ (D.mono_trans h₁ h₂))
      fun rs s₂ _ hrs => ?_
    exact Ensures.ret fun s' _ => List.forall_mem_cons.mpr ⟨hr, hrs⟩

variable (D) in
/-- Every call that is given what it must be given keeps to the discipline, gives back its locks
and returns what it promises. -/
def Keeps {C : Type*} (code : C → Prog L S R) (Pre : C → S → Prop) (Post : C → R → S → Prop) :
    Prop :=
  ∀ c s, D.Global s → Pre c s → D.Ensures (code c) (fun _ => none) s (Post c)

end Discipline

/-! ### Threads -/

/-- The threads `T`, which run calls `C` of programs. -/
structure System (T C L S : Type*) (R : Type) where
  /-- The call that a thread is in, and what is left of its program. -/
  running : T → Option (C × Prog L S R)
  /-- The locks that a thread holds. -/
  held : T → L → Option Mode
  shared : S
  /-- The calls that have returned, and their results. -/
  returned : List (T × C × R)
  /-- Something without a meaning has been done. -/
  fault : Bool

/-- What can happen. -/
inductive Act (T C : Type*) where
  /-- A thread calls a program. -/
  | call (t : T) (c : C)
  /-- A thread goes on. -/
  | run (t : T)

namespace System

variable {T C : Type*}

/-- No thread is in a call. -/
def init (s : S) : System T C L S R := ⟨fun _ => none, fun _ _ => none, s, [], false⟩

section Step

variable [Fintype T] [DecidableEq T] [DecidableEq L] (s : System T C L S R)

/-- Nobody is in the way of a thread that wants to have the lock. -/
def Free (l : L) : Mode → Prop
  | .read => ∀ t, s.held t l ≠ some .write
  | .write => ∀ t, s.held t l = none

instance (l : L) : (mode : Mode) → Decidable (s.Free l mode)
  | .read => inferInstanceAs (Decidable (∀ t, s.held t l ≠ some .write))
  | .write => inferInstanceAs (Decidable (∀ t, s.held t l = none))

/-- A thread goes on with this, and with these locks. -/
def goto (t : T) (c : C) (p : Prog L S R) (held : L → Option Mode) : System T C L S R :=
  { s with
    running := Function.update s.running t (some (c, p))
    held := Function.update s.held t held }

/-- A thread goes on. -/
def run (t : T) : Option (System T C L S R) :=
  if s.fault then none
  else
    match s.running t with
    | none => none
    | some (c, .ret r) =>
      some { s with running := Function.update s.running t none,
                    returned := (t, c, r) :: s.returned }
    | some (c, .lock mode l next) =>
      if s.Free l mode then some (s.goto t c next (Function.update (s.held t) l (some mode)))
      else none
    | some (c, .unlock l next) =>
      if s.held t l = none then some { s with fault := true }
      else some (s.goto t c next (Function.update (s.held t) l none))
    | some (c, .act f next) =>
      some { s.goto t c (next s.shared) (s.held t) with shared := f s.shared }
    | some (_, .stuck) => some { s with fault := true }

/-- One step, where a call `c` runs the program `code c`. -/
def step (code : C → Prog L S R) (s : System T C L S R) : Act T C → Option (System T C L S R)
  | .call t c =>
    if s.fault = false ∧ s.running t = none then
      some { s with running := Function.update s.running t (some (c, code c)) }
    else none
  | .run t => s.run t

end Step

variable [DecidableEq L] {D : Discipline L S} {code : C → Prog L S R}
  {Pre : C → S → Prop} {Post : C → R → S → Prop} {s s' : System T C L S R}

/-- Every call that is under way keeps to the discipline. -/
structure Kept (D : Discipline L S) (Post : C → R → S → Prop) (s : System T C L S R) : Prop where
  safe : ∀ t c p, s.running t = some (c, p) →
    D.Wp p (s.held t) s.shared fun r held shared => held = (fun _ => none) ∧ Post c r shared
  idle : ∀ t, s.running t = none → s.held t = fun _ => none
  apart : ∀ t t' l, t ≠ t' → s.held t l = some .write → s.held t' l = none
  inv : ∀ l, (∀ t, s.held t l ≠ some .write) → D.Inv l s.shared
  returned : ∀ x ∈ s.returned, Post x.2.1 x.2.2 s.shared
  global : D.Global s.shared
  fault : s.fault = false

theorem kept_init {shared : S} (hglobal : D.Global shared) (hinv : ∀ l, D.Inv l shared) :
    (init shared : System T C L S R).Kept D Post where
  safe _ _ _ h := absurd h (Option.some_ne_none _).symm
  idle _ _ := rfl
  apart _ _ _ _ h := absurd h (Option.some_ne_none _).symm
  inv l _ := hinv l
  returned _ h := absurd h List.not_mem_nil
  global := hglobal
  fault := rfl

omit [DecidableEq L] in
theorem Free.not_write {l : L} {mode : Mode} (h : s.Free l mode) (t : T) :
    s.held t l ≠ some .write := by
  cases mode with
  | read => exact h t
  | write => exact (h t).symm ▸ (Option.some_ne_none _).symm

theorem Kept.inv_of_others (h : s.Kept D Post) {t : T} {l : L}
    (hl : ∀ t', t' ≠ t → s.held t' l ≠ some .write) (ht : s.held t l ≠ some .write) :
    D.Inv l s.shared := by
  refine h.inv l fun t' => ?_
  rcases eq_or_ne t' t with rfl | hne
  · exact ht
  · exact hl t' hne

variable [DecidableEq T]

/-- One thread goes on. It does to the shared state what its locks allow, and its new locks are in
nobody's way. -/
theorem Kept.goto (h : s.Kept D Post) {t : T} {c : C} {p : Prog L S R} {held : L → Option Mode}
    {shared : S} (hguar : D.Guar (s.held t) s.shared shared)
    (hsafe : D.Wp p held shared fun r held shared => held = (fun _ => none) ∧ Post c r shared)
    (hapart : ∀ t', t' ≠ t → ∀ l, (held l = some .write → s.held t' l = none) ∧
      (s.held t' l = some .write → held l = none))
    (hinv : ∀ l, (∀ t', t' ≠ t → s.held t' l ≠ some .write) → held l ≠ some .write →
      D.Inv l shared)
    (hpost : ∀ c r s s', D.Mono s s' → Post c r s → Post c r s') :
    ({ s.goto t c p held with shared := shared } : System T C L S R).Kept D Post := by
  have hrely (t' : T) (ht : t' ≠ t) : D.Rely (s.held t') s.shared shared :=
    ⟨hguar.1, fun l hl => hguar.2 l fun hwrite => hl (h.apart t t' l ht.symm hwrite)⟩
  have hself : (s.goto t c p held).held t = held := Function.update_self ..
  have hother (t' : T) (ht : t' ≠ t) : (s.goto t c p held).held t' = s.held t' :=
    Function.update_of_ne ht ..
  have hrunning (t' : T) (ht : t' ≠ t) : (s.goto t c p held).running t' = s.running t' :=
    Function.update_of_ne ht ..
  refine ⟨fun t' c' p' hp => ?_, fun t' hp => ?_, fun t₁ t₂ l hne hl => ?_, fun l hl => ?_,
    fun x hx => hpost _ _ _ _ hguar.1 (h.returned x hx), D.global_of_mono hguar.1 h.global, h.fault⟩
  · by_cases ht : t' = t
    · subst ht
      obtain ⟨rfl, rfl⟩ : c = c' ∧ p = p' := by
        simpa [System.goto] using hp
      exact hself.symm ▸ hsafe
    · have hp' := h.safe t' c' p' ((hrunning t' ht).symm.trans hp)
      exact (hother t' ht).symm ▸ hp'.rely (hrely t' ht)
  · have ht : t' ≠ t := by
      rintro rfl
      simp [System.goto] at hp
    exact (hother t' ht).trans (h.idle t' ((hrunning t' ht).symm.trans hp))
  · dsimp only at hl ⊢
    by_cases ht₁ : t₁ = t
    · subst ht₁
      rw [hself] at hl
      rw [hother t₂ hne.symm]
      exact (hapart t₂ hne.symm l).1 hl
    · rw [hother t₁ ht₁] at hl
      by_cases ht₂ : t₂ = t
      · subst ht₂
        rw [hself]
        exact (hapart t₁ ht₁ l).2 hl
      · rw [hother t₂ ht₂]
        exact h.apart t₁ t₂ l hne hl
  · refine hinv l (fun t' ht => ?_) ?_
    · rw [← hother t' ht]
      exact hl t'
    · rw [← hself]
      exact hl t

/-- A call returns. -/
theorem Kept.leave (h : s.Kept D Post) {t : T} {c : C} {r : R} (hheld : s.held t = fun _ => none)
    (hr : Post c r s.shared) :
    ({ s with
      running := Function.update s.running t none, returned := (t, c, r) :: s.returned } :
        System T C L S R).Kept D Post := by
  refine ⟨fun t' c' p hp => ?_, fun t' hp => ?_, h.apart, h.inv, fun x hx => ?_, h.global, h.fault⟩
  · have ht : t' ≠ t := by
      rintro rfl
      exact Option.some_ne_none _ (hp.symm.trans (Function.update_self ..))
    exact h.safe t' c' p ((Function.update_of_ne ht ..).symm.trans hp)
  · by_cases ht : t' = t
    · exact ht ▸ hheld
    · exact h.idle t' ((Function.update_of_ne ht ..).symm.trans hp)
  · rcases List.mem_cons.mp hx with rfl | hold
    · exact hr
    · exact h.returned x hold

/-- What a call is given is as it must be. -/
def Admitted (Pre : C → S → Prop) (s : System T C L S R) : Act T C → Prop
  | .call _ c => Pre c s.shared
  | .run _ => True

instance [∀ c s, Decidable (Pre c s)] :
    DecidableRel (Admitted Pre : System T C L S R → Act T C → Prop)
  | s, .call _ c => inferInstanceAs (Decidable (Pre c s.shared))
  | _, .run _ => instDecidableTrue

variable [Fintype T]

/-- A thread goes on. -/
theorem Kept.of_run (h : s.Kept D Post) (hpost : ∀ c r s s', D.Mono s s' → Post c r s → Post c r s')
    {t : T} (hs : s.run t = some s') : s'.Kept D Post := by
  rw [System.run, if_neg (by simp [h.fault])] at hs
  split at hs
  · exact absurd hs (Option.some_ne_none _).symm
  · rename_i c r hrunning
    obtain rfl := Option.some.inj hs
    obtain ⟨hheld, hr⟩ := h.safe t _ _ hrunning s.shared (.refl _ _)
    exact h.leave hheld hr
  · rename_i c mode l next hrunning
    obtain ⟨hfree, hs⟩ := Option.ite_none_right_eq_some.mp hs
    obtain rfl := Option.some.inj hs
    obtain ⟨-, hnext⟩ := h.safe t _ _ hrunning
    have hinv := h.inv l hfree.not_write
    refine h.goto (.refl _ _) (hnext s.shared (.refl _ _) hinv) (fun t' ht l' => ?_)
      (fun l' hl' hne => ?_) hpost
    · rcases eq_or_ne l' l with rfl | hl'l
      · rw [Function.update_self]
        refine ⟨fun hmode => ?_, fun hwrite => absurd hwrite (hfree.not_write t')⟩
        obtain rfl := Option.some.inj hmode
        exact hfree t'
      · rw [Function.update_of_ne hl'l]
        exact ⟨h.apart t t' l' ht.symm, h.apart t' t l' ht⟩
    · rcases eq_or_ne l' l with rfl | hl'l
      · exact hinv
      · rw [Function.update_of_ne hl'l] at hne
        exact h.inv_of_others hl' hne
  · rename_i c l next hrunning
    have hsafe := h.safe t _ _ hrunning
    rw [if_neg hsafe.1] at hs
    obtain rfl := Option.some.inj hs
    obtain ⟨hl, hnext⟩ := hsafe.2 s.shared (.refl _ _)
    refine h.goto (.refl _ _) hnext (fun t' ht l' => ?_) (fun l' hl' hne => ?_) hpost
    · rcases eq_or_ne l' l with rfl | hne
      · rw [Function.update_self]
        exact ⟨fun hnone => absurd hnone (Option.some_ne_none _).symm, fun _ => rfl⟩
      · rw [Function.update_of_ne hne]
        exact ⟨h.apart t t' l' ht.symm, h.apart t' t l' ht⟩
    · by_cases hwrite : s.held t l' = some .write
      · rcases eq_or_ne l' l with rfl | hl'l
        · exact hl hwrite
        · rw [Function.update_of_ne hl'l] at hne
          exact absurd hwrite hne
      · exact h.inv_of_others hl' hwrite
  · rename_i c f next hrunning
    obtain rfl := Option.some.inj hs
    obtain ⟨hguar, hnext⟩ := h.safe t _ _ hrunning s.shared (.refl _ _)
    refine h.goto hguar hnext (fun t' ht l => ⟨?_, ?_⟩) (fun l hl hl' => ?_) hpost
    · exact h.apart t t' l ht.symm
    · exact h.apart t' t l ht
    · exact D.inv_of_agree hguar.1 (hguar.2 l hl') (h.inv_of_others hl hl')
  · rename_i c hrunning
    exact (h.safe t _ _ hrunning).elim

/-- One step, if every call keeps to the discipline by itself. -/
theorem Kept.of_step (h : s.Kept D Post) (hcode : D.Keeps code Pre Post)
    (hpost : ∀ c r s s', D.Mono s s' → Post c r s → Post c r s') {a : Act T C}
    (ha : s.Admitted Pre a) (hs : s.step code a = some s') : s'.Kept D Post := by
  cases a with
  | call t c =>
    obtain ⟨⟨-, hidle⟩, hs⟩ := Option.ite_none_right_eq_some.mp hs
    obtain rfl := Option.some.inj hs
    have hsafe : D.Wp (code c) (s.held t) s.shared fun r held shared =>
        held = (fun _ => none) ∧ Post c r shared := by
      rw [h.idle t hidle]
      exact hcode c _ h.global ha
    have hgoto := h.goto (.refl _ _) hsafe
      (fun t' ht l => ⟨h.apart t t' l ht.symm, h.apart t' t l ht⟩) (fun _ => h.inv_of_others) hpost
    rw [System.goto, Function.update_eq_self] at hgoto
    exact hgoto
  | run t => exact h.of_run hpost hs

/-- **The invariant rule.** If every call keeps to the discipline by itself, all calls do together:
nothing has gone wrong, and the calls that have returned have returned what they promised. -/
theorem kept_of_reachable {shared : S} (hglobal : D.Global shared) (hinv : ∀ l, D.Inv l shared)
    (hcode : D.Keeps code Pre Post) (hpost : ∀ c r s s', D.Mono s s' → Post c r s → Post c r s')
    (hr : Reachable (step code) (Admitted Pre) (init shared) s) : s.Kept D Post :=
  hr.invariant (kept_init hglobal hinv) fun _ _ _ h ha hs => h.of_step hcode hpost ha hs

/-! ### Progress -/

/-- The rank of the lock that a thread is about to take. -/
def wants (D : Discipline L S) (s : System T C L S R) (t : T) : ℕ :=
  match s.running t with
  | some (_, .lock _ l _) => D.rank l
  | _ => 0

/-- A thread in a call that cannot go on waits for a lock that some thread has. -/
theorem Kept.waits (h : s.Kept D Post) {t : T} (ht : s.running t ≠ none) (hrun : s.run t = none) :
    ∃ c mode l next t', s.running t = some (c, .lock mode l next) ∧ s.held t' l ≠ none := by
  rw [System.run, if_neg (by simp [h.fault])] at hrun
  split at hrun
  · contradiction
  · exact absurd hrun (Option.some_ne_none _)
  · rename_i c mode l next hrunning
    have hfree : ¬s.Free l mode := fun hfree => by
      rw [if_pos hfree] at hrun
      exact Option.some_ne_none _ hrun
    cases mode with
    | read =>
      obtain ⟨t', ht'⟩ := not_forall.mp hfree
      exact ⟨c, .read, l, next, t', hrunning, by rw [not_not.mp ht']; exact Option.some_ne_none _⟩
    | write =>
      obtain ⟨t', ht'⟩ := not_forall.mp hfree
      exact ⟨c, .write, l, next, t', hrunning, ht'⟩
  · split at hrun <;> exact absurd hrun (Option.some_ne_none _)
  · exact absurd hrun (Option.some_ne_none _)
  · exact absurd hrun (Option.some_ne_none _)

/-- **No deadlock.** As long as a call is under way, some thread can go on. -/
theorem Kept.exists_run (h : s.Kept D Post) {t : T} (ht : s.running t ≠ none) :
    ∃ t', s.run t' ≠ none := by
  by_contra hnone
  simp only [not_exists, not_not] at hnone
  -- The thread that waits for the lock of the highest rank waits for one that waits for a higher.
  obtain ⟨m, hm, hmax⟩ := Finset.exists_max_image
    (Finset.univ.filter fun t => s.running t ≠ none) (s.wants D) ⟨t, by simpa using ht⟩
  obtain ⟨c, mode, l, next, t', hrunning, hheld⟩ := h.waits (by simpa using hm) (hnone m)
  have ht' : s.running t' ≠ none := fun hidle => hheld (congrFun (h.idle t' hidle) l)
  obtain ⟨c', mode', l', next', -, hrunning', -⟩ := h.waits ht' (hnone t')
  have hlt : D.rank l < D.rank l' := (h.safe t' _ _ hrunning').1 l hheld
  have hle := hmax t' (by simpa using ht')
  simp only [wants, hrunning, hrunning'] at hle
  omega

/-! ### Termination -/

/-- What is left of a call after one step. -/
inductive Left : Option (Prog L S R) → Option (Prog L S R) → Prop where
  | ret (r : R) : Left none (some (.ret r))
  | lock (mode : Mode) (l : L) (next : Prog L S R) : Left (some next) (some (.lock mode l next))
  | unlock (l : L) (next : Prog L S R) : Left (some next) (some (.unlock l next))
  | act (f : S → S) (next : S → Prog L S R) (s : S) :
    Left (some (next s)) (some (.act f next))

omit [DecidableEq L] [DecidableEq T] [Fintype T] in
theorem wellFounded_left : WellFounded (Left (L := L) (S := S) (R := R)) := by
  have hnone : Acc (Left (L := L) (S := S) (R := R)) none := ⟨_, nofun⟩
  have hsome (p : Prog L S R) : Acc Left (some p) := by
    induction p with
    | ret r => exact ⟨_, fun _ h => by cases h; exact hnone⟩
    | lock mode l next ih => exact ⟨_, fun _ h => by cases h; exact ih⟩
    | unlock l next ih => exact ⟨_, fun _ h => by cases h; exact ih⟩
    | act f next ih => exact ⟨_, fun _ h => by cases h; exact ih _⟩
    | stuck => exact ⟨_, nofun⟩
  exact ⟨fun p => p.casesOn hnone hsome⟩

/-- What is left of all calls. -/
def pending (s : System T C L S R) : Multiset (Option (Prog L S R)) :=
  Finset.univ.val.map fun t => (s.running t).map Prod.snd

omit [DecidableEq L] in
/-- The call of one thread gets shorter. -/
theorem cutExpand_pending {t : T} {c : C} {p : Prog L S R} {x : Option (C × Prog L S R)}
    (ht : s.running t = some (c, p)) (hx : Left (x.map Prod.snd) (some p))
    (hs : s'.running = Function.update s.running t x) :
    Relation.CutExpand Left s'.pending s.pending := by
  have hsplit (s : System T C L S R) : s.pending = (s.running t).map Prod.snd ::ₘ
      (Finset.univ.erase t).val.map fun t => (s.running t).map Prod.snd := by
    rw [Finset.erase_val, ← Multiset.map_cons fun t => (s.running t).map Prod.snd,
      Multiset.cons_erase (Finset.mem_univ_val t)]
    rfl
  have hrest : ((Finset.univ.erase t).val.map fun t => (s'.running t).map Prod.snd) =
      (Finset.univ.erase t).val.map fun t => (s.running t).map Prod.snd :=
    Multiset.map_congr rfl fun t' ht' => by
      rw [hs, Function.update_of_ne (Finset.ne_of_mem_erase ht')]
  rw [hsplit s', hsplit s, hrest, hs, Function.update_self, ht]
  exact Relation.cutExpand_single_add hx _

/-- A thread goes on: the rest of its call gets shorter. -/
theorem cutExpand_of_run {t : T} (hs : s.run t = some s') (hfault : s'.fault = false) :
    Relation.CutExpand Left s'.pending s.pending := by
  rw [System.run] at hs
  split at hs
  · exact absurd hs (Option.some_ne_none _).symm
  split at hs
  · exact absurd hs (Option.some_ne_none _).symm
  · rename_i c r hrunning
    obtain rfl := Option.some.inj hs
    exact cutExpand_pending (x := none) hrunning (.ret r) rfl
  · rename_i c mode l next hrunning
    obtain ⟨-, hs⟩ := Option.ite_none_right_eq_some.mp hs
    obtain rfl := Option.some.inj hs
    exact cutExpand_pending (x := some (c, next)) hrunning (.lock mode l next) rfl
  · rename_i c l next hrunning
    split at hs <;> obtain rfl := Option.some.inj hs
    · exact absurd hfault Bool.noConfusion
    · exact cutExpand_pending (x := some (c, next)) hrunning (.unlock l next) rfl
  · rename_i c f next hrunning
    obtain rfl := Option.some.inj hs
    exact cutExpand_pending (x := some (c, next s.shared)) hrunning (.act f next s.shared) rfl
  · obtain rfl := Option.some.inj hs
    exact absurd hfault Bool.noConfusion

/-- **The calls return.** From a state in which all calls keep to the discipline, no run without a
new call goes on for ever, and where it ends no call is under way. -/
theorem Kept.calls_return (h : s.Kept D Post)
    (hpost : ∀ c r s s', D.Mono s s' → Post c r s → Post c r s') :
    Acc (fun s' s : System T C L S R => ∃ t, s.run t = some s') s ∧
      ∀ s', Reachable run anyAction s s' → (∀ t, s'.run t = none) → ∀ t, s'.running t = none := by
  constructor
  · have hacc := (wellFounded_left (L := L) (S := S) (R := R)).cutExpand.apply s.pending
    generalize hpending : s.pending = n at hacc
    induction hacc generalizing s with
    | intro n _ ih =>
      refine ⟨s, fun s' ⟨t, hs⟩ => ?_⟩
      have h' := h.of_run hpost hs
      exact ih _ (hpending ▸ cutExpand_of_run hs h'.fault) h' rfl
  · intro s' hr hend t
    have h' := hr.invariant (P := Kept D Post) h fun _ _ _ h _ hs => h.of_run hpost hs
    by_contra ht
    obtain ⟨t', ht'⟩ := h'.exists_run ht
    exact ht' (hend t')

end System

end Locking
