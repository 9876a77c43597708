import Wille.ForMathlib.OrderedSet
import Mathlib.Data.Finset.Dedup
import Mathlib.Data.Set.Finite.Basic

/-!
# Containers

What the containers of a C++ standard library have in common: a loop goes through the elements in
some order, and a container is made by inserting elements one after the other. The order of an
unordered container is not specified, so it is a relation: a loop may meet the elements of equal
containers in different orders.

## Main definitions

* `Container` — the orders of a loop, and the result of inserting
* `Container.sequence`, `ordered`, `finset`, `map`, `finiteMap`

## Main results

* `Container.ofList_of_orders` — inserting what a loop has met gives the container back
* `Container.loop_gives_back`, `Container.loop_result` — a loop that writes each element and a loop
  that reads what was written
-/

/-- A type `C` of containers with elements in `E`. -/
structure Container (E C : Type*) where
  /-- A loop over the container may meet the elements in this order. -/
  Orders : C → List E → Prop
  /-- What inserting these elements into an empty container gives. -/
  ofList : List E → C
  exists_orders : ∀ c, ∃ l, Orders c l
  ofList_of_orders : ∀ {c l}, Orders c l → ofList l = c
  /-- Nothing is in a container that was not inserted. -/
  mem_of_orders : ∀ {l l' x}, Orders (ofList l) l' → x ∈ l' → x ∈ l

namespace Container

variable {E V : Type*}

/-- A sequence, such as a `std::vector` or a `std::list`. -/
def sequence : Container E (List E) where
  Orders c l := l = c
  ofList l := l
  exists_orders c := ⟨c, rfl⟩
  ofList_of_orders h := h
  mem_of_orders h hx := h ▸ hx

/-- A `std::set`, or a `std::map` with a comparator that reads the keys. -/
def ordered (lt : E → E → Bool) (ho : OrderedSet.StrictOrder lt) :
    Container E {l : List E // OrderedSet.Sorted lt l} where
  Orders c l := l = c.1
  ofList l := ⟨OrderedSet.build lt l, (OrderedSet.sorted_build ho l).1⟩
  exists_orders c := ⟨c.1, rfl⟩
  ofList_of_orders {c l} h := by
    subst h
    exact Subtype.ext (OrderedSet.build_of_sorted ho c.2)
  mem_of_orders {l l' x} h hx := by
    subst h
    exact (OrderedSet.sorted_build ho l).2 x hx

/-- A `std::unordered_set`. -/
def finset [DecidableEq E] : Container E (Finset E) where
  Orders c l := l.Nodup ∧ l.toFinset = c
  ofList l := l.toFinset
  exists_orders c := ⟨c.toList, c.nodup_toList, Finset.toList_toFinset c⟩
  ofList_of_orders h := h.2
  mem_of_orders {l l' x} h hx := by
    rw [← List.mem_toFinset, ← h.2, List.mem_toFinset]
    exact hx

/-- A finite map. -/
@[ext] structure FiniteMap (K V : Type*) where
  get : K → Option V
  finite : {k | get k ≠ none}.Finite

variable {K : Type*}

/-- The map that results from inserting pairs: the first value that is inserted for a key stays. -/
def FiniteMap.ofList [DecidableEq K] (l : List (K × V)) : FiniteMap K V where
  get k := (l.find? fun e => e.1 = k).map Prod.snd
  finite := by
    refine (List.finite_toSet (l.map Prod.fst)).subset fun k hk => ?_
    obtain ⟨v, hv⟩ := Option.ne_none_iff_exists'.mp hk
    obtain ⟨e, he, -⟩ := Option.map_eq_some_iff.mp hv
    have hkey : e.1 = k := by simpa using List.find?_some he
    exact List.mem_map.mpr ⟨e, List.mem_of_find?_eq_some he, hkey⟩

/-- The pairs a function makes of keys. -/
def pairs (get : K → Option V) (keys : List K) : List (K × V) :=
  keys.filterMap fun k => (get k).map (k, ·)

theorem mem_pairs {get : K → Option V} {keys : List K} {k : K} {v : V} :
    (k, v) ∈ pairs get keys ↔ k ∈ keys ∧ get k = some v := by
  simp [pairs]

theorem pairs_keys_sublist (get : K → Option V) (keys : List K) :
    ((pairs get keys).map Prod.fst).Sublist keys := by
  induction keys with
  | nil => exact List.Sublist.refl _
  | cons k keys ih =>
    rcases hget : get k with - | v
    · rw [pairs, List.filterMap_cons_none (by rw [hget]; rfl)]
      exact ih.cons k
    · rw [pairs, List.filterMap_cons_some (by rw [hget]; rfl), List.map_cons]
      exact ih.cons_cons k

/-- Where no key occurs twice, looking a key up finds its pair. -/
theorem find?_eq_some_of_nodup [DecidableEq K] {l : List (K × V)} (h : (l.map Prod.fst).Nodup)
    {k : K} {v : V} (hmem : (k, v) ∈ l) : l.find? (fun e => e.1 = k) = some (k, v) := by
  rcases hfind : l.find? (fun e => e.1 = k) with - | e
  · exact absurd (decide_eq_true rfl) (List.find?_eq_none.mp hfind (k, v) hmem)
  · have hkey : e.1 = k := by simpa using List.find?_some hfind
    rw [hfind, List.inj_on_of_nodup_map h (List.mem_of_find?_eq_some hfind) hmem hkey]

/-- A `std::unordered_map`. -/
def finiteMap [DecidableEq K] : Container (K × V) (FiniteMap K V) where
  Orders c l := (l.map Prod.fst).Nodup ∧ ∀ k v, (k, v) ∈ l ↔ c.get k = some v
  ofList l := FiniteMap.ofList l
  exists_orders c := by
    refine ⟨pairs c.get c.finite.toFinset.toList,
      (pairs_keys_sublist _ _).nodup (Finset.nodup_toList _), fun k v => ?_⟩
    rw [mem_pairs, Finset.mem_toList, Set.Finite.mem_toFinset]
    refine and_iff_right_of_imp fun hget => ?_
    simp [hget]
  ofList_of_orders {c l} h := by
    refine FiniteMap.ext (funext fun k => ?_)
    rcases hget : c.get k with - | v
    · have hnone : l.find? (fun e => e.1 = k) = none := by
        refine List.find?_eq_none.mpr fun e he => ?_
        rintro hkey
        obtain rfl : e.1 = k := of_decide_eq_true hkey
        exact absurd ((h.2 e.1 e.2).mp he) (by simp [hget])
      simp only [FiniteMap.ofList, hnone, Option.map_none]
    · have hsome := find?_eq_some_of_nodup h.1 ((h.2 k v).mpr hget)
      simp only [FiniteMap.ofList, hsome, Option.map_some]
  mem_of_orders {l l' x} h hx := by
    obtain ⟨e, he, hv⟩ := Option.map_eq_some_iff.mp ((h.2 x.1 x.2).mp hx)
    have hkey : e.1 = x.1 := by simpa using List.find?_some he
    rw [← Prod.ext hkey hv]
    exact List.mem_of_find?_eq_some he

/-! ### A loop that writes and a loop that reads -/

section Loops

variable {α β γ : Type*}

/-- A loop that may fail succeeds if every turn does. -/
theorem mapM_eq_some {f : α → Option β} {l : List α} {l' : List β} :
    l.mapM f = some l' ↔ List.Forall₂ (fun x y => f x = some y) l l' := by
  induction l generalizing l' with
  | nil => simp [eq_comm]
  | cons x l ih =>
    rw [List.mapM_cons, List.forall₂_cons_left_iff]
    simp only [Option.bind_eq_bind, Option.bind_eq_some_iff, ih, Option.pure_def,
      Option.some.injEq]
    constructor
    · rintro ⟨y, hy, ys, hys, rfl⟩
      exact ⟨y, ys, hy, hys, rfl⟩
    · rintro ⟨y, ys, hy, hys, rfl⟩
      exact ⟨y, hy, ys, hys, rfl⟩

/-- It fails if a turn does. -/
theorem mapM_eq_none {f : α → Option β} {l : List α} : l.mapM f = none ↔ ∃ x ∈ l, f x = none := by
  induction l with
  | nil => simp
  | cons x l ih =>
    rw [List.mapM_cons, List.exists_mem_cons_iff, ← ih]
    rcases f x with - | y
    · exact ⟨fun _ => .inl rfl, fun _ => rfl⟩
    · rcases l.mapM f with - | ys
      · exact ⟨fun _ => .inr rfl, fun _ => rfl⟩
      · simp

/-- Every result of such a loop comes from a turn. -/
theorem mem_of_mapM {f : α → Option β} {l : List α} {l' : List β} (h : l.mapM f = some l') {y : β}
    (hy : y ∈ l') : ∃ x ∈ l, f x = some y := by
  have hall := mapM_eq_some.mp h
  clear h
  induction hall with
  | nil => exact absurd hy List.not_mem_nil
  | @cons x z l l' hx hall ih =>
    rcases List.mem_cons.mp hy with rfl | hy
    · exact ⟨x, List.mem_cons_self .., hx⟩
    · obtain ⟨x', hx', hf⟩ := ih hy
      exact ⟨x', List.mem_cons_of_mem x hx', hf⟩

/-- A loop over images whose turns undo the map. -/
theorem mapM_map_eq_some {f : β → Option γ} {g : α → β} {k : α → γ} {l : List α}
    (h : ∀ x ∈ l, f (g x) = some (k x)) : (l.map g).mapM f = some (l.map k) := by
  rw [mapM_eq_some, List.forall₂_map_left_iff, List.forall₂_map_right_iff, List.forall₂_same]
  exact h

/-- Loops over lists that are related do the same if related elements have the same turns. -/
theorem mapM_congr {f : α → Option γ} {g : β → Option γ} {l : List α} {l' : List β}
    (h : List.Forall₂ (fun x y => f x = g y) l l') : l.mapM f = l'.mapM g := by
  induction h with
  | nil => rfl
  | cons hx _ ih => rw [List.mapM_cons, List.mapM_cons, hx, ih]

theorem map_congr {f : α → γ} {g : β → γ} {l : List α} {l' : List β}
    (h : List.Forall₂ (fun x y => f x = g y) l l') : l.map f = l'.map g := by
  rwa [← List.forall₂_eq_eq_eq, List.forall₂_map_left_iff, List.forall₂_map_right_iff]

theorem rel_getElem? {R : α → β → Prop} {l : List α} {l' : List β} (h : List.Forall₂ R l l')
    (i : ℕ) : Option.Rel R l[i]? l'[i]? := by
  induction h generalizing i with
  | nil => exact .none
  | cons hx _ ih =>
    cases i with
    | zero => exact .some hx
    | succ i => exact ih i

/-- The first pair whose key passes a test, where related pairs have keys that pass alike. -/
theorem rel_find? {κ ν : Type*} {R : ν → ν → Prop} {p : κ → Bool} {l l' : List (κ × ν)}
    (h : List.Forall₂ (fun e e' => p e.1 = p e'.1 ∧ R e.2 e'.2) l l') :
    Option.Rel R ((l.find? fun e => p e.1).map Prod.snd)
      ((l'.find? fun e => p e.1).map Prod.snd) := by
  induction h with
  | nil => exact .none
  | @cons e e' l l' he _ ih =>
    rw [List.find?_cons, List.find?_cons, ← he.1]
    cases p e.1 with
    | true => exact .some he.2
    | false => exact ih

theorem bind_congr {R : α → β → Prop} {f : α → Option γ} {g : β → Option γ} {o : Option α}
    {o' : Option β} (h : Option.Rel R o o') (hfg : ∀ x y, R x y → f x = g y) :
    o.bind f = o'.bind g := by
  cases h with
  | none => rfl
  | some h => exact hfg _ _ h

theorem exists_forall₂ {R : α → β → Prop} :
    ∀ {l : List α}, (∀ x ∈ l, ∃ y, R x y) → ∃ l', List.Forall₂ R l l'
  | [], _ => ⟨[], .nil⟩
  | x :: l, h => by
    obtain ⟨y, hy⟩ := h x (List.mem_cons_self ..)
    obtain ⟨l', hl'⟩ := exists_forall₂ fun z hz => h z (List.mem_cons_of_mem x hz)
    exact ⟨y :: l', .cons hy hl'⟩

/-- A loop over elements with different keys, where the turn for an element concerns nothing but
what is at its key. -/
theorem foldl_keyed {σ κ : Type*} [DecidableEq κ] {key : α → κ} {Inv : σ → Prop}
    (turn : σ → α → σ) (look : σ → κ → β) (g : α → β → β)
    (hturn : ∀ s x, Inv s → Inv (turn s x) ∧
      ∀ k, look (turn s x) k = if key x = k then g x (look s k) else look s k)
    {l : List α} (hl : (l.map key).Nodup) {s : σ} (hs : Inv s) :
    Inv (l.foldl turn s) ∧ ∀ k, look (l.foldl turn s) k =
      (l.find? fun x => key x = k).elim (look s k) fun x => g x (look s k) := by
  induction l generalizing s with
  | nil => exact ⟨hs, fun _ => rfl⟩
  | cons x l ih =>
    obtain ⟨hx, hl⟩ := List.nodup_cons.mp hl
    obtain ⟨hInv, hlook⟩ := hturn s x hs
    obtain ⟨hInv', hlook'⟩ := ih hl hInv
    refine ⟨hInv', fun k => ?_⟩
    rw [List.foldl_cons, hlook', hlook]
    by_cases hk : key x = k
    · have hnone : l.find? (fun x => key x = k) = none := by
        refine List.find?_eq_none.mpr fun z hz hzk => hx ?_
        rw [hk, ← of_decide_eq_true hzk]
        exact List.mem_map_of_mem hz
      rw [hnone, if_pos hk, List.find?_cons_of_pos (by simp [hk])]
      rfl
    · rw [if_neg hk, List.find?_cons_of_neg (by simp [hk])]

variable {C : Type*} {c : Container E C} {writes : E → β → Prop} {load : β → Option γ}
  {read : γ → Option E} {Q : E → Prop} {v : C}

/-- If each element with `Q` can be written, and whatever is written of it is read as that element,
then a container of them can be written, and is read as that container. -/
theorem loop_gives_back
    (hQ : ∀ x, Q x → (∃ t, writes x t) ∧
      ∀ t, writes x t → ∃ n, load t = some n ∧ read n = some x)
    (hv : ∀ l, c.Orders v l → ∀ x ∈ l, Q x) :
    (∃ l ts ns, c.Orders v l ∧ List.Forall₂ writes l ts ∧ ts.mapM load = some ns) ∧
      ∀ l ts ns, c.Orders v l → List.Forall₂ writes l ts → ts.mapM load = some ns →
        (ns.mapM read).map c.ofList = some v := by
  have hread : ∀ {l ts}, (∀ x ∈ l, Q x) → List.Forall₂ writes l ts →
      ∃ ns, List.Forall₂ (fun t n => load t = some n) ts ns ∧
        List.Forall₂ (fun n x => read n = some x) ns l := by
    intro l ts hl hts
    induction hts with
    | nil => exact ⟨[], .nil, .nil⟩
    | @cons x t l ts hx hts ih =>
      obtain ⟨hxQ, hl⟩ := List.forall_mem_cons.mp hl
      obtain ⟨n, hn, hnx⟩ := (hQ x hxQ).2 t hx
      obtain ⟨ns, hns, hnsl⟩ := ih hl
      exact ⟨n :: ns, .cons hn hns, .cons hnx hnsl⟩
  constructor
  · obtain ⟨l, hl⟩ := c.exists_orders v
    obtain ⟨ts, hts⟩ := exists_forall₂ fun x hx => (hQ x (hv l hl x hx)).1
    obtain ⟨ns, hns, -⟩ := hread (hv l hl) hts
    exact ⟨l, ts, ns, hl, hts, mapM_eq_some.mpr hns⟩
  · intro l ts ns hl hts hns
    obtain ⟨ns', hns', hnsl⟩ := hread (hv l hl) hts
    obtain rfl : ns' = ns := Option.some.inj ((mapM_eq_some.mpr hns').symm.trans hns)
    rw [mapM_eq_some.mpr hnsl, Option.map_some, c.ofList_of_orders hl]

/-- Whatever is read of what was written of an element has `Q`: then so have the elements of what
is read of what was written of a container. -/
theorem loop_result
    (hQ : ∀ x t n x', writes x t → load t = some n → read n = some x' → Q x')
    {l : List E} {ts : List β} {ns : List γ} (hts : List.Forall₂ writes l ts)
    (hns : ts.mapM load = some ns) (hv : (ns.mapM read).map c.ofList = some v) :
    ∀ l', c.Orders v l' → ∀ x ∈ l', Q x := by
  obtain ⟨xs, hxs, rfl⟩ := Option.map_eq_some_iff.mp hv
  have hall : ∀ {l : List E} {ts : List β} {ns : List γ} {xs : List E},
      List.Forall₂ writes l ts → List.Forall₂ (fun t n => load t = some n) ts ns →
        List.Forall₂ (fun n x => read n = some x) ns xs → ∀ x ∈ xs, Q x := by
    intro l ts ns xs hts hns hxs
    induction hts generalizing ns xs with
    | nil =>
      cases hns
      cases hxs
      exact fun _ h => absurd h List.not_mem_nil
    | @cons x t l ts hx hts ih =>
      cases hns with
      | @cons _ n _ ns hn hns =>
        cases hxs with
        | @cons _ x' _ xs hx' hxs =>
          exact List.forall_mem_cons.mpr ⟨hQ x t n x' hx hn hx', ih hns hxs⟩
  intro l' hl' x hx
  exact hall hts (mapM_eq_some.mp hns) (mapM_eq_some.mp hxs) x (c.mem_of_orders hl' hx)

end Loops

end Container
