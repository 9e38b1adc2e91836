import Mathlib.Data.Finset.Powerset
import ParserGen.Proofs.Automaton.Closure
import ParserGen.Proofs.Automaton.Kernel

/-!
# The collection of states

The exploration keeps its list of kernels and its index in step: the keys of the index are those of
the kernels, in order and without repetition. Kernels are sets of items of the grammar, so there are
at most `2 ^ n` of them for `n` items, and the exploration comes to an end by itself.

* `Discovery.Explores`: the exploration without fuel, as a relation.
* `explores_collection`: **the exploration from the start item ends, and its states are the
  collection.**
* `Explores.describes`: each state found holds the closure of its kernel, and its edges lead to the
  states of the moved items.
* `Explores.entered`: each state found on the way is entered by an edge from an earlier one.
-/

namespace ParserGen

variable {V : Type} {g : Grammar V}

namespace Grammar

/-- The item is a rule of the grammar with a dot in it. -/
def IsItem (g : Grammar V) (i : Item) : Prop :=
  i.rule < g.rules.size ∧ i.dot ≤ g.ruleLength i.rule

/-- The codes of all items are computed within 64 bits. Beyond that the codes of two items may be
the same, and a kernel may be taken for another. -/
def CodesFit (g : Grammar V) : Prop :=
  ∀ k < g.rules.size, k + g.ruleLength k < 2 ^ 32

/-- Right sides are lists in memory, which have fewer than `2 ^ 63` members. -/
def LengthsFit (g : Grammar V) : Prop :=
  ∀ k < g.rules.size, g.ruleLength k < 2 ^ 63

theorem CodesFit.lengthsFit (h : g.CodesFit) : g.LengthsFit := by
  intro k hk
  have hcode := h k hk
  omega

theorem brackets_codesFit : brackets.CodesFit := by
  unfold CodesFit
  decide +kernel

theorem IsItem.fits (hg : g.CodesFit) {i : Item} (hi : g.IsItem i) : i.Fits := by
  have := hg i.rule hi.1
  have := hi.2
  unfold Item.Fits
  omega

theorem symbolsOf_eq {k : Nat} {r : Rule V} (h : g.rules[k]? = some r) : g.symbolsOf k = r.symbols := by
  simp only [symbolsOf, h]

/-- The symbol after the dot parts a rule in two. -/
theorem symbols_split {i : Item} {x : Symbol} {r : Rule V} (hr : g.rules[i.rule]? = some r)
    (hx : g.symbolAfterDot i = some x) :
    r.symbols = r.symbols.take i.dot ++ x :: g.symbolsBehind i := by
  obtain ⟨r', hr', hm⟩ := symbolAfterDot_cases hx
  cases hr.symm.trans hr'
  obtain ⟨hlt, hget⟩ := List.getElem?_eq_some_iff.1 hm
  rw [symbolsBehind, symbolsOf_eq hr, ← hget, ← List.drop_eq_getElem_cons hlt,
    List.take_append_drop]

theorem take_advance {i : Item} {x : Symbol} {r : Rule V} (hr : g.rules[i.rule]? = some r)
    (hx : g.symbolAfterDot i = some x) :
    r.symbols.take i.dot ++ [x] = r.symbols.take (i.dot + 1) := by
  obtain ⟨r', hr', hm⟩ := symbolAfterDot_cases hx
  cases hr.symm.trans hr'
  rw [List.take_add_one, hm]
  rfl

theorem length_symbolsBehind {i : Item} {x : Symbol} {r : Rule V} (hr : g.rules[i.rule]? = some r)
    (hx : g.symbolAfterDot i = some x) :
    i.dot + 1 + (g.symbolsBehind i).length = r.symbols.length := by
  obtain ⟨r', hr', hm⟩ := symbolAfterDot_cases hx
  cases hr.symm.trans hr'
  have hlt := (List.getElem?_eq_some_iff.1 hm).1
  rw [symbolsBehind, symbolsOf_eq hr, List.length_drop]
  omega

theorem isItem_advance {i : Item} {x : Symbol} (h : g.symbolAfterDot i = some x) :
    g.IsItem i.advance := by
  obtain ⟨r, hr, -⟩ := symbolAfterDot_cases h
  refine ⟨(Array.getElem?_eq_some_iff.1 hr).1, ?_⟩
  unfold symbolAfterDot at h
  exact (List.getElem?_eq_some_iff.1 h).1

theorem isItem_of_closure {kernel : List Item} (hk : ∀ i ∈ kernel, g.IsItem i) {i : Item}
    (h : g.Closure kernel i) : g.IsItem i := by
  cases h with
  | kernel hi => exact hk i hi
  | opened _ _ hr _ => exact ⟨(Array.getElem?_eq_some_iff.1 hr).1, Nat.zero_le _⟩

/-- All items of the grammar. -/
def allItems (g : Grammar V) : List Item :=
  (List.range g.rules.size).flatMap fun k => (List.range (g.ruleLength k + 1)).map (Item.mk k)

theorem mem_allItems {i : Item} : i ∈ g.allItems ↔ g.IsItem i := by
  obtain ⟨k, d⟩ := i
  simp only [allItems, List.mem_flatMap, List.mem_range, List.mem_map, Item.mk.injEq, IsItem,
    Nat.lt_succ_iff]
  constructor
  · rintro ⟨k', hk, d', hd, rfl, rfl⟩; exact ⟨hk, hd⟩
  · rintro ⟨hk, hd⟩; exact ⟨k, hk, d, hd, rfl, rfl⟩

theorem length_allItems (g : Grammar V) : g.allItems.length = g.itemCount := by
  have hsum : ∀ (l : List (Rule V)) (n : Nat),
      l.foldl (fun n r => n + (r.symbols.length + 1)) n =
        n + (l.map fun r => r.symbols.length + 1).sum := by
    intro l
    induction l with
    | nil => intro n; simp
    | cons r rest ih => intro n; rw [List.foldl_cons, ih]; simp [Nat.add_assoc]
  -- rule by rule the two lists have the same lengths
  have hmap : (List.range g.rules.size).map (fun k => g.ruleLength k + 1) =
      g.rules.toList.map fun r => r.symbols.length + 1 := by
    apply List.ext_getElem
    · simp
    · intro k hk hk'
      have hlt : k < g.rules.size := by simpa using hk
      have hr : g.rules[k]? = some g.rules[k] := Array.getElem?_eq_getElem hlt
      simp [ruleLength, symbolsOf_eq hr]
  unfold itemCount
  rw [hsum, ← hmap]
  simp [allItems, List.length_flatMap]

theorem mem_successorKernels {items : List Item} {x : Symbol} {kernel : List Item} :
    (x, kernel) ∈ g.successorKernels items ↔ (∃ i ∈ items, g.symbolAfterDot i = some x) ∧
      kernel = (items.filter fun i => g.symbolAfterDot i == some x).map Item.advance := by
  unfold successorKernels
  simp only [List.mem_map, List.mem_eraseDups, List.mem_filterMap, Prod.mk.injEq]
  constructor
  · rintro ⟨y, hy, rfl, rfl⟩; exact ⟨hy, rfl⟩
  · rintro ⟨hx, rfl⟩; exact ⟨x, hx, rfl, rfl⟩

/-- A successor's kernel holds exactly the items moved over the symbol. -/
theorem mem_successorKernel {items : List Item} {x : Symbol} {kernel : List Item}
    (h : (x, kernel) ∈ g.successorKernels items) {i : Item} :
    i ∈ kernel ↔ ∃ j ∈ items, g.symbolAfterDot j = some x ∧ i = j.advance := by
  obtain ⟨-, rfl⟩ := mem_successorKernels.1 h
  simp only [List.mem_map, List.mem_filter, beq_iff_eq, and_assoc, @eq_comm _ _ i]

theorem advance_injective : Function.Injective Item.advance := by
  rintro ⟨r, d⟩ ⟨r', d'⟩ h
  simp only [Item.advance, Item.mk.injEq, Nat.add_right_cancel_iff] at h
  rw [h.1, h.2]

theorem nodup_eraseDups {α : Type} [DecidableEq α] (l : List α) : l.eraseDups.Nodup := by
  induction h : l.length using Nat.strongRecOn generalizing l with
  | _ n ih =>
    cases l with
    | nil => exact List.nodup_nil
    | cons a rest =>
      rw [List.eraseDups_cons, List.nodup_cons]
      have hlt : (rest.filter fun b => !b == a).length < n := by
        have := List.length_filter_le (fun b => !b == a) rest
        rw [List.length_cons] at h
        omega
      exact ⟨by simp [List.mem_eraseDups], ih _ hlt _ rfl⟩

theorem nodup_keys_successorKernels (items : List Item) :
    ((g.successorKernels items).map (·.1)).Nodup := by
  unfold successorKernels
  rw [List.map_map]
  have : ((·.1) ∘ fun x => (x, (items.filter fun i => g.symbolAfterDot i == some x).map Item.advance)) =
      (id : Symbol → Symbol) := rfl
  rw [this, List.map_id]
  exact nodup_eraseDups _

/-- A list of items of the grammar without repetition. -/
def IsKernel (g : Grammar V) (kernel : List Item) : Prop :=
  kernel.Nodup ∧ ∀ i ∈ kernel, g.IsItem i

theorem isKernel_successor {items : List Item} (hnd : items.Nodup) {e : Symbol × List Item}
    (h : e ∈ g.successorKernels items) : g.IsKernel e.2 := by
  obtain ⟨x, kernel⟩ := e
  refine ⟨?_, ?_⟩
  · obtain ⟨-, rfl⟩ := mem_successorKernels.1 h
    exact (hnd.filter _).map advance_injective
  · intro i hi
    obtain ⟨j, -, hj, rfl⟩ := (mem_successorKernel h).1 hi
    exact isItem_advance hj

end Grammar

namespace Discovery

/-- The index is in step with the kernels, which are different sets of items of the grammar. -/
structure Valid (g : Grammar V) (d : Discovery) : Prop where
  /-- The keys are those of the kernels, in order. -/
  keys : d.index.keys.toList = d.kernels.toList.map Kernel.key
  nodup : d.index.keys.toList.Nodup
  kernels : ∀ kernel ∈ d.kernels, g.IsKernel kernel

theorem Valid.size_index {d : Discovery} (h : d.Valid g) : d.index.keys.size = d.kernels.size := by
  have := congrArg List.length h.keys
  simpa using this

theorem Valid.key {d : Discovery} (h : d.Valid g) (n : Nat) :
    d.index.keys[n]? = d.kernels[n]?.map Kernel.key := by
  have := congrArg (·[n]?) h.keys
  simpa using this

/-- Kernels with the same items have the same number. -/
theorem Valid.eq_of_mem_iff {d : Discovery} (h : d.Valid g) {n m : Nat} {k k' : List Item}
    (hn : d.kernels[n]? = some k) (hm : d.kernels[m]? = some k') (he : ∀ i, i ∈ k ↔ i ∈ k') :
    n = m := by
  have hn' : d.index.keys.toList[n]? = some (Kernel.key k) := by
    rw [Array.getElem?_toList, h.key, hn]; rfl
  have hm' : d.index.keys.toList[m]? = some (Kernel.key k) := by
    rw [Array.getElem?_toList, h.key, hm, Kernel.key_congr he]; rfl
  have hlt := (List.getElem?_eq_some_iff.1 hn').1
  exact (List.getElem?_inj hlt h.nodup).1 (hn'.trans hm'.symm)

/-- **There are no more kernels than sets of items.** -/
theorem Valid.size_le {d : Discovery} (h : d.Valid g) : d.kernels.size ≤ 2 ^ g.itemCount := by
  -- different numbers have different sets of items
  have hnd : (d.kernels.toList.map List.toFinset).Nodup := by
    rw [List.nodup_iff_getElem?_ne_getElem?]
    intro n m hnm hm he
    rw [List.length_map, Array.length_toList] at hm
    have hn : n < d.kernels.size := by omega
    simp only [List.getElem?_map, Array.getElem?_toList, Array.getElem?_eq_getElem hn,
      Array.getElem?_eq_getElem hm, Option.map_some, Option.some.injEq] at he
    have := h.eq_of_mem_iff (Array.getElem?_eq_getElem hn) (Array.getElem?_eq_getElem hm)
      fun i => by rw [← List.mem_toFinset, he, List.mem_toFinset]
    omega
  have hsub : (d.kernels.toList.map List.toFinset).toFinset ⊆ g.allItems.toFinset.powerset := by
    intro s hs
    obtain ⟨k, hk, rfl⟩ := List.mem_map.1 (List.mem_toFinset.1 hs)
    rw [Finset.mem_powerset]
    intro i hi
    rw [List.mem_toFinset] at hi ⊢
    exact Grammar.mem_allItems.2 ((h.kernels k (Array.mem_toList_iff.1 hk)).2 i hi)
  have hcard := Finset.card_le_card hsub
  rw [List.toFinset_card_of_nodup hnd, Finset.card_powerset, List.length_map,
    Array.length_toList] at hcard
  have hlen := List.toFinset_card_le g.allItems
  rw [Grammar.length_allItems] at hlen
  exact hcard.trans (Nat.pow_le_pow_right (by omega) hlen)

theorem valid_initial (wf : g.WellFormed) : Discovery.initial.Valid g := by
  obtain ⟨r, hr, -⟩ := wf.startRule
  have hlt := (Array.getElem?_eq_some_iff.1 hr).1
  refine ⟨rfl, List.nodup_singleton _, ?_⟩
  intro kernel hk
  have hk : kernel = [Item.start] := by simpa [initial] using hk
  subst hk
  exact ⟨List.nodup_singleton _, by simpa [Item.start, Grammar.IsItem] using hlt⟩

/-- A new kernel gets the number of kernels so far. -/
theorem Valid.insert_new {d : Discovery} (h : d.Valid g) {kernel : List Item}
    (hf : d.index.find? kernel = none) :
    (d.index.insert kernel).1 = (d.kernels.size, true) := by
  unfold KernelIndex.insert
  rw [hf]
  show (d.index.keys.size, true) = _
  rw [h.size_index]

theorem register_cases (d : Discovery) (kernel : List Item) :
    (∃ n, d.index.keys[n]? = some (Kernel.key kernel) ∧ d.register kernel = (n, d)) ∨
      Kernel.key kernel ∉ d.index.keys.toList ∧ d.register kernel = (d.index.keys.size,
        ⟨d.kernels.push kernel, ⟨d.index.keys.push (Kernel.key kernel)⟩⟩) := by
  unfold register
  rcases KernelIndex.insert_cases d.index kernel with ⟨n, hn, he⟩ | ⟨hn, he⟩
  · rw [he]; exact Or.inl ⟨n, hn, rfl⟩
  · rw [he]; exact Or.inr ⟨hn, rfl⟩

theorem valid_register {d : Discovery} (h : d.Valid g) {kernel : List Item}
    (hk : g.IsKernel kernel) : (d.register kernel).2.Valid g := by
  rcases register_cases d kernel with ⟨n, -, he⟩ | ⟨hn, he⟩
  · rw [he]; exact h
  · rw [he]
    refine ⟨by simp [h.keys], ?_, ?_⟩
    · rw [Array.toList_push, List.nodup_append]
      refine ⟨h.nodup, List.nodup_singleton _, ?_⟩
      intro a ha b hb hab
      rw [List.mem_singleton] at hb
      exact hn (hb ▸ hab ▸ ha)
    · intro k hm
      rcases Array.mem_push.1 hm with hm | rfl
      · exact h.kernels k hm
      · exact hk

theorem prefix_register (d : Discovery) (kernel : List Item) :
    d.kernels.toList <+: (d.register kernel).2.kernels.toList := by
  rcases register_cases d kernel with ⟨n, -, he⟩ | ⟨hn, he⟩
  · rw [he]
  · rw [he, Array.toList_push]; exact List.prefix_append _ _

/-- The number returned is that of a kernel with the same key, and the only one that can be new. -/
theorem register_number {d : Discovery} (h : d.Valid g) (kernel : List Item) :
    (∃ k, (d.register kernel).2.kernels[(d.register kernel).1]? = some k ∧
      Kernel.key k = Kernel.key kernel) ∧
    ∀ m, d.kernels.size ≤ m → m < (d.register kernel).2.kernels.size →
      m = (d.register kernel).1 := by
  rcases register_cases d kernel with ⟨n, hn, he⟩ | ⟨-, he⟩
  · rw [he]
    rw [h.key] at hn
    obtain ⟨k, hk, hkey⟩ := Option.map_eq_some_iff.1 hn
    exact ⟨⟨k, hk, hkey⟩, fun m hm hlt => absurd hlt (by simp only; omega)⟩
  · rw [he, h.size_index]
    refine ⟨⟨kernel, by simp, rfl⟩, ?_⟩
    intro m hm hlt
    simp only [Array.size_push] at hlt
    simp only
    omega

/-- The edge `f` leads to the state of the kernel in `e`. -/
def Leads (d : Discovery) (e : Symbol × List Item) (f : Symbol × Nat) : Prop :=
  e.1 = f.1 ∧ ∃ k, d.kernels[f.2]? = some k ∧ Kernel.key k = Kernel.key e.2

theorem getElem?_grow {d d' : Discovery} (hp : d.kernels.toList <+: d'.kernels.toList) {n : Nat}
    {k : List Item} (h : d.kernels[n]? = some k) : d'.kernels[n]? = some k := by
  rw [← Array.getElem?_toList] at h ⊢
  obtain ⟨rest, hrest⟩ := hp
  rw [← hrest, List.getElem?_append_left (List.getElem?_eq_some_iff.1 h).1]
  exact h

theorem Leads.mono {d d' : Discovery} (hp : d.kernels.toList <+: d'.kernels.toList)
    {e : Symbol × List Item} {f : Symbol × Nat} (h : d.Leads e f) : d'.Leads e f := by
  obtain ⟨hx, k, hk, hkey⟩ := h
  exact ⟨hx, k, getElem?_grow hp hk, hkey⟩

/-- Registering the successors of a state keeps the discovery valid, only adds kernels, and gives
edges that lead to the successors, among them every kernel that was added. -/
theorem registerAll_spec {l : List (Symbol × List Item)} (hl : ∀ e ∈ l, g.IsKernel e.2)
    {d : Discovery} (h : d.Valid g) :
    (registerAll l d).2.Valid g ∧ d.kernels.toList <+: (registerAll l d).2.kernels.toList ∧
      List.Forall₂ (registerAll l d).2.Leads l (registerAll l d).1 ∧
      ∀ m, d.kernels.size ≤ m → m < (registerAll l d).2.kernels.size →
        ∃ x, (x, m) ∈ (registerAll l d).1 := by
  induction l generalizing d with
  | nil =>
    refine ⟨h, List.prefix_rfl, .nil, ?_⟩
    intro m hm hlt
    simp only [registerAll] at hlt
    omega
  | cons e rest ih =>
    obtain ⟨x, kernel⟩ := e
    have hk := hl _ List.mem_cons_self
    have hv := valid_register h hk
    have hp := prefix_register d kernel
    obtain ⟨⟨k, hk', hkey⟩, hnew⟩ := register_number h kernel
    obtain ⟨hv', hp', hf, hn⟩ := ih (fun e he => hl e (List.mem_cons_of_mem _ he)) hv
    simp only [registerAll]
    refine ⟨hv', hp.trans hp', .cons ⟨rfl, k, getElem?_grow hp' hk', hkey⟩ hf, ?_⟩
    intro m hm hlt
    -- a kernel that is new after all was new at this registration or at a later one
    rcases Nat.lt_or_ge m (d.register kernel).2.kernels.size with hlt' | hge
    · exact ⟨x, by rw [hnew m hm hlt']; exact List.mem_cons_self⟩
    · obtain ⟨y, hy⟩ := hn m hge hlt
      exact ⟨y, List.mem_cons_of_mem _ hy⟩

/-- The state that is built from a kernel, and the discovery after it. -/
def expand (g : Grammar V) (kernel : List Item) (d : Discovery) : CoreState × Discovery :=
  let items := g.closure kernel
  let found := registerAll (g.successorKernels items) d
  ({ kernel, items, edges := found.1 }, found.2)

/-- The exploration without fuel: the states from number `n` on are expanded until none is left. -/
inductive Explores (g : Grammar V) : Nat → Discovery → List CoreState → Discovery → Prop where
  | done {n : Nat} {d : Discovery} (h : d.kernels[n]? = none) : Explores g n d [] d
  | step {n : Nat} {d d' : Discovery} {kernel : List Item} {states : List CoreState}
      (h : d.kernels[n]? = some kernel) (hrest : Explores g (n + 1) (expand g kernel d).2 states d') :
      Explores g n d ((expand g kernel d).1 :: states) d'

theorem explore_succ (fuel n : Nat) (d : Discovery) :
    explore g (fuel + 1) n d =
      match d.kernels[n]? with
      | none => []
      | some kernel => (expand g kernel d).1 :: explore g fuel (n + 1) (expand g kernel d).2 := rfl

theorem expand_spec (wf : g.WellFormed) {d : Discovery} (h : d.Valid g) {n : Nat}
    {kernel : List Item} (hk : d.kernels[n]? = some kernel) :
    (expand g kernel d).2.Valid g ∧ d.kernels.toList <+: (expand g kernel d).2.kernels.toList ∧
      List.Forall₂ (expand g kernel d).2.Leads (g.successorKernels (g.closure kernel))
        (expand g kernel d).1.edges ∧
      ∀ m, d.kernels.size ≤ m → m < (expand g kernel d).2.kernels.size →
        ∃ x, (x, m) ∈ (expand g kernel d).1.edges := by
  have hnd := (h.kernels kernel (Array.mem_of_getElem? hk)).1
  exact registerAll_spec (fun e he => Grammar.isKernel_successor (Grammar.nodup_closure wf hnd) he) h

/-- **The exploration comes to an end**: there are at most `2 ^ itemCount` kernels, so the fuel lasts
until none is left to be expanded. -/
theorem explores_of_fuel (wf : g.WellFormed) {fuel n : Nat} {d : Discovery} (h : d.Valid g)
    (hn : n ≤ d.kernels.size) (hf : 2 ^ g.itemCount < n + fuel) :
    ∃ d', Explores g n d (explore g fuel n d) d' := by
  induction fuel generalizing n d with
  | zero =>
    have := h.size_le
    omega
  | succ fuel ih =>
    rw [explore_succ]
    cases hk : d.kernels[n]? with
    | none => exact ⟨d, .done hk⟩
    | some kernel =>
      obtain ⟨hv, hp, -, -⟩ := expand_spec wf h hk
      have hlt := (Array.getElem?_eq_some_iff.1 hk).1
      have hle : n + 1 ≤ (expand g kernel d).2.kernels.size := by
        have := hp.length_le
        simp only [Array.length_toList] at this
        omega
      obtain ⟨d', hd'⟩ := ih hv hle (by omega)
      exact ⟨d', .step hk hd'⟩

/-- An exploration that ends is found with any fuel above the number of its states. -/
theorem Explores.explore_eq {n fuel : Nat} {d d' : Discovery} {states : List CoreState}
    (h : Explores g n d states d') (hf : states.length < fuel) : explore g fuel n d = states := by
  induction h generalizing fuel with
  | done hk =>
    obtain ⟨fuel, rfl⟩ : ∃ k, fuel = k + 1 := ⟨fuel - 1, by simp at hf; omega⟩
    rw [explore_succ, hk]
  | step hk _ ih =>
    rw [List.length_cons] at hf
    obtain ⟨fuel, rfl⟩ : ∃ k, fuel = k + 1 := ⟨fuel - 1, by omega⟩
    rw [explore_succ, hk]
    simp only
    rw [ih (by omega)]

variable {n : Nat} {d d' : Discovery} {states : List CoreState}

theorem Explores.valid (wf : g.WellFormed) (h : Explores g n d states d') (hv : d.Valid g) :
    d'.Valid g := by
  induction h with
  | done _ => exact hv
  | step hk _ ih => exact ih (expand_spec wf hv hk).1

theorem Explores.grows (wf : g.WellFormed) (h : Explores g n d states d') (hv : d.Valid g) :
    d.kernels.toList <+: d'.kernels.toList := by
  induction h with
  | done _ => exact List.prefix_rfl
  | step hk _ ih =>
    obtain ⟨hv', hp, -⟩ := expand_spec wf hv hk
    exact hp.trans (ih hv')

/-- There is one state for each kernel from number `n` on. -/
theorem Explores.length (wf : g.WellFormed) (h : Explores g n d states d') (hv : d.Valid g)
    (hn : n ≤ d.kernels.size) : n + states.length = d'.kernels.size := by
  induction h with
  | done hk =>
    have := Array.getElem?_eq_none_iff.1 hk
    rw [List.length_nil]
    omega
  | step hk _ ih =>
    obtain ⟨hv', hp, -⟩ := expand_spec wf hv hk
    have hlt := (Array.getElem?_eq_some_iff.1 hk).1
    have hle := hp.length_le
    simp only [Array.length_toList] at hle
    rw [List.length_cons, ← ih hv' (by omega)]
    omega

/-- The state with number `q` holds the closure of its kernel, and its edges lead to the states of
the moved items. -/
structure Describes (g : Grammar V) (d : Discovery) (q : Nat) (s : CoreState) : Prop where
  kernel : d.kernels[q]? = some s.kernel
  items : s.items = g.closure s.kernel
  edges : List.Forall₂ d.Leads (g.successorKernels s.items) s.edges

theorem Explores.describes (wf : g.WellFormed) (h : Explores g n d states d') (hv : d.Valid g)
    {k : Nat} {s : CoreState} (hs : states[k]? = some s) : Describes g d' (n + k) s := by
  induction h generalizing k with
  | done _ => simp at hs
  | step hk hrest ih =>
    obtain ⟨hv', hp, he, -⟩ := expand_spec wf hv hk
    have hp' := hrest.grows wf hv'
    cases k with
    | zero =>
      cases hs
      exact ⟨getElem?_grow (hp.trans hp') hk, rfl, he.imp fun _ _ hl => hl.mono hp'⟩
    | succ k =>
      have := ih hv' (by simpa using hs)
      rwa [Nat.add_right_comm] at this

/-- **Every kernel found on the way is entered from a state with a smaller number.** -/
theorem Explores.entered (wf : g.WellFormed) (h : Explores g n d states d') (hv : d.Valid g) {m : Nat}
    (hm : d.kernels.size ≤ m) (hlt : m < d'.kernels.size) :
    ∃ k s x, states[k]? = some s ∧ n + k < m ∧ (x, m) ∈ s.edges := by
  induction h with
  | done _ => omega
  | @step n d d' kernel states hk hrest ih =>
    obtain ⟨hv', -, -, hnew⟩ := expand_spec wf hv hk
    have hlt' := (Array.getElem?_eq_some_iff.1 hk).1
    -- the kernel is new at this state or at a later one
    rcases Nat.lt_or_ge m (expand g kernel d).2.kernels.size with hm' | hm'
    · obtain ⟨x, hx⟩ := hnew m hm hm'
      exact ⟨0, _, x, rfl, by omega, hx⟩
    · obtain ⟨k, s, x, hs, hk', hx⟩ := ih hv' hm' hlt
      exact ⟨k + 1, s, x, by simpa using hs, by omega, hx⟩

end Discovery

/-- **The exploration from the start item ends, and its states are the collection.** -/
theorem Grammar.explores_collection (wf : g.WellFormed) :
    ∃ d, Discovery.Explores g 0 .initial g.collection d :=
  Discovery.explores_of_fuel wf (Discovery.valid_initial wf) (Nat.zero_le _)
    (by show 2 ^ g.itemCount < 0 + (2 ^ g.itemCount + 1); omega)

end ParserGen
