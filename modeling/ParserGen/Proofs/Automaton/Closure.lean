import Mathlib.Data.Finset.Card
import ParserGen.Automaton.Collection
import ParserGen.Proofs.Grammar.WellFormed

/-!
# Closures of kernels

A state holds the closure of its kernel: with every item that has a nonterminal after its dot, the
rules of that nonterminal with the dot in front. The loop that completes a list of items keeps the
rules it has opened; each step takes one item from the list and adds a rule not opened before, so
list and unopened rules together shrink, and the fuel it is given suffices.

* `mem_closure_iff`: **the items of a state are exactly the closure of its kernel.**
* `prefix_closure`, `nodup_closure`: the kernel comes first, and no item stands twice.
* `closeItems_stable`: more fuel changes nothing.
-/

namespace ParserGen

namespace Grammar

variable {V : Type} {g : Grammar V}

/-- The closure of a kernel: the kernel, and the rules of every nonterminal after a dot. -/
inductive Closure (g : Grammar V) (kernel : List Item) : Item → Prop where
  | kernel {i : Item} (hi : i ∈ kernel) : Closure g kernel i
  | opened {i : Item} {n k : Nat} {r : Rule V} (hi : Closure g kernel i)
      (hx : g.symbolAfterDot i = some (.nonterminal n)) (hk : g.rules[k]? = some r)
      (hr : r.left = n) : Closure g kernel ⟨k, 0⟩

theorem symbolAfterDot_cases {i : Item} {x : Symbol} (h : g.symbolAfterDot i = some x) :
    ∃ r, g.rules[i.rule]? = some r ∧ r.symbols[i.dot]? = some x := by
  unfold symbolAfterDot symbolsOf at h
  split at h
  · rename_i r hr; exact ⟨r, hr, h⟩
  · simp at h

theorem symbolAfterDot_of_drop {k d : Nat} {x : Symbol} {xs : List Symbol}
    (h : (g.symbolsOf k).drop d = x :: xs) : g.symbolAfterDot ⟨k, d⟩ = some x := by
  unfold symbolAfterDot
  rw [← List.head?_drop, h]
  rfl

theorem symbolsBehind_of_drop {k d : Nat} {x : Symbol} {xs : List Symbol}
    (h : (g.symbolsOf k).drop d = x :: xs) : g.symbolsBehind ⟨k, d⟩ = xs := by
  unfold symbolsBehind
  rw [← List.drop_drop, h]
  rfl

theorem mem_openedRules (wf : g.WellFormed) {i : Item} {k : Nat} :
    k ∈ g.openedRules i ↔
      ∃ n r, g.symbolAfterDot i = some (.nonterminal n) ∧ g.rules[k]? = some r ∧ r.left = n := by
  unfold openedRules
  split
  · rename_i n hn
    rw [wf.mem_alternatives]
    constructor
    · rintro ⟨r, hr, hl⟩; exact ⟨n, r, hn, hr, hl⟩
    · rintro ⟨m, r, hm, hr, hl⟩
      rw [hn] at hm
      cases hm
      exact ⟨r, hr, hl⟩
  · rename_i hn
    constructor
    · intro h; cases h
    · rintro ⟨n, r, hm, -⟩; exact absurd hm (hn n)

theorem nodup_openedRules (wf : g.WellFormed) (i : Item) : (g.openedRules i).Nodup := by
  unfold openedRules
  split
  · rename_i n _
    exact (wf.alternatives_sorted n).imp fun h => Nat.ne_of_lt h
  · exact List.nodup_nil

theorem lt_of_mem_openedRules (wf : g.WellFormed) {i : Item} {k : Nat}
    (h : k ∈ g.openedRules i) : k < g.rules.size := by
  obtain ⟨n, r, -, hr, -⟩ := (mem_openedRules wf).1 h
  exact (Array.getElem?_eq_some_iff.1 hr).1

/-- The rules that are not opened yet. -/
def unopened (g : Grammar V) (opened : IndexSet) : Finset Nat :=
  (Finset.range g.rules.size).filter fun k => opened.contains k = false

/-- The rules that an item opens for the first time. -/
def freshRules (g : Grammar V) (opened : IndexSet) (i : Item) : List Nat :=
  (g.openedRules i).filter fun rule => !opened.contains rule

theorem mem_freshRules {opened : IndexSet} {i : Item} {k : Nat} :
    k ∈ g.freshRules opened i ↔ k ∈ g.openedRules i ∧ opened.contains k = false := by
  simp [freshRules]

theorem closeItems_cons (fuel : Nat) (item : Item) (todo : List Item) (opened : IndexSet) :
    g.closeItems (fuel + 1) (item :: todo) opened =
      item :: g.closeItems fuel (todo ++ (g.freshRules opened item).map fun rule => ⟨rule, 0⟩)
        ((g.freshRules opened item).foldl IndexSet.insert opened) := rfl

theorem closeItems_nil (fuel : Nat) (opened : IndexSet) : g.closeItems fuel [] opened = [] := by
  cases fuel <;> rfl

/-- Taking an item from the list and opening its rules brings list and unopened rules down by one. -/
theorem card_unopened_step (wf : g.WellFormed) {fuel : Nat} {item : Item} {todo : List Item}
    {opened : IndexSet} (h : (item :: todo).length + (g.unopened opened).card ≤ fuel + 1) :
    (todo ++ (g.freshRules opened item).map fun rule => (⟨rule, 0⟩ : Item)).length +
      (g.unopened ((g.freshRules opened item).foldl IndexSet.insert opened)).card ≤ fuel := by
  set fresh := g.freshRules opened item with hfresh
  have hnd : fresh.Nodup := (nodup_openedRules wf item).filter _
  have hsub : fresh.toFinset ⊆ g.unopened opened := by
    intro k hk
    obtain ⟨hk, hc⟩ := mem_freshRules.1 (List.mem_toFinset.1 hk)
    exact Finset.mem_filter.2 ⟨Finset.mem_range.2 (lt_of_mem_openedRules wf hk), hc⟩
  -- exactly the fresh rules stop being unopened
  have hdiff : g.unopened (fresh.foldl IndexSet.insert opened) = g.unopened opened \ fresh.toFinset := by
    ext k
    simp only [unopened, Finset.mem_filter, Finset.mem_sdiff, List.mem_toFinset, Finset.mem_range,
      ← Bool.not_eq_true, IndexSet.contains_foldl_insert, not_or, and_assoc]
  have hcard := Finset.card_sdiff_add_card_eq_card hsub
  rw [List.toFinset_card_of_nodup hnd] at hcard
  rw [hdiff, List.length_append, List.length_map]
  rw [List.length_cons] at h
  omega

/-- **More fuel changes nothing** once there is enough for the list and the unopened rules. -/
theorem closeItems_stable (wf : g.WellFormed) {fuel fuel' : Nat} {todo : List Item}
    {opened : IndexSet} (h : todo.length + (g.unopened opened).card ≤ fuel)
    (h' : todo.length + (g.unopened opened).card ≤ fuel') :
    g.closeItems fuel todo opened = g.closeItems fuel' todo opened := by
  induction fuel generalizing fuel' todo opened with
  | zero =>
    have : todo = [] := List.eq_nil_of_length_eq_zero (by omega)
    rw [this, closeItems_nil, closeItems_nil]
  | succ fuel ih =>
    cases todo with
    | nil => rw [closeItems_nil, closeItems_nil]
    | cons item todo =>
      obtain ⟨fuel', rfl⟩ : ∃ n, fuel' = n + 1 := ⟨fuel' - 1, by simp at h'; omega⟩
      rw [closeItems_cons, closeItems_cons]
      rw [ih (card_unopened_step wf h) (card_unopened_step wf h')]

theorem prefix_closeItems (wf : g.WellFormed) {fuel : Nat} {todo : List Item} {opened : IndexSet}
    (h : todo.length + (g.unopened opened).card ≤ fuel) :
    todo <+: g.closeItems fuel todo opened := by
  induction fuel generalizing todo opened with
  | zero =>
    have : todo = [] := List.eq_nil_of_length_eq_zero (by omega)
    rw [this]; exact List.nil_prefix
  | succ fuel ih =>
    cases todo with
    | nil => exact List.nil_prefix
    | cons item todo =>
      rw [closeItems_cons, List.cons_prefix_cons]
      exact ⟨rfl, (List.prefix_append _ _).trans (ih (card_unopened_step wf h))⟩

/-- Every item on the list was there at the beginning or starts a rule not opened before. -/
theorem mem_closeItems_cases {fuel : Nat} {todo : List Item} {opened : IndexSet} {i : Item}
    (h : i ∈ g.closeItems fuel todo opened) :
    i ∈ todo ∨ i.dot = 0 ∧ opened.contains i.rule = false := by
  induction fuel generalizing todo opened with
  | zero => simp [closeItems] at h
  | succ fuel ih =>
    cases todo with
    | nil => rw [closeItems_nil] at h; cases h
    | cons item todo =>
      rw [closeItems_cons] at h
      rcases List.mem_cons.1 h with rfl | h
      · exact Or.inl List.mem_cons_self
      rcases ih h with h | ⟨hd, ho⟩
      · rcases List.mem_append.1 h with h | h
        · exact Or.inl (List.mem_cons_of_mem _ h)
        · obtain ⟨k, hk, rfl⟩ := List.mem_map.1 h
          exact Or.inr ⟨rfl, (mem_freshRules.1 hk).2⟩
      · refine Or.inr ⟨hd, ?_⟩
        rw [← Bool.not_eq_true, IndexSet.contains_foldl_insert, not_or] at ho
        simpa using ho.1

theorem nodup_closeItems (wf : g.WellFormed) {fuel : Nat} {todo : List Item} {opened : IndexSet}
    (hnd : todo.Nodup) (ho : ∀ k, (⟨k, 0⟩ : Item) ∈ todo → opened.contains k = true) :
    (g.closeItems fuel todo opened).Nodup := by
  induction fuel generalizing todo opened with
  | zero => exact List.nodup_nil
  | succ fuel ih =>
    cases todo with
    | nil => rw [closeItems_nil]; exact List.nodup_nil
    | cons item todo =>
      obtain ⟨hitem, htodo⟩ := List.nodup_cons.1 hnd
      -- an item that starts a rule is on the list only if the rule is opened
      have hfresh : ∀ k ∈ g.freshRules opened item, (⟨k, 0⟩ : Item) ∉ item :: todo := by
        intro k hk hm
        have := (mem_freshRules.1 hk).2
        rw [ho k hm] at this
        cases this
      rw [closeItems_cons, List.nodup_cons]
      refine ⟨?_, ih ?_ ?_⟩
      · -- the item does not come again: its rule, if it starts one, is opened
        intro h
        rcases mem_closeItems_cases h with h | ⟨hd, hc⟩
        · rcases List.mem_append.1 h with h | h
          · exact hitem h
          · obtain ⟨k, hk, rfl⟩ := List.mem_map.1 h
            exact hfresh k hk List.mem_cons_self
        · rw [← Bool.not_eq_true, IndexSet.contains_foldl_insert, not_or] at hc
          have hi : (⟨item.rule, 0⟩ : Item) = item := by
            obtain ⟨r, d⟩ := item
            simp only at hd
            rw [hd]
          exact hc.1 (ho item.rule (by rw [hi]; exact List.mem_cons_self))
      · rw [List.nodup_append]
        refine ⟨htodo, ?_, ?_⟩
        · refine ((nodup_openedRules wf item).filter _).map ?_
          intro a b hab
          exact congrArg Item.rule hab
        · intro a ha b hb hab
          obtain ⟨k, hk, rfl⟩ := List.mem_map.1 hb
          exact hfresh k hk (List.mem_cons_of_mem _ (hab ▸ ha))
      · intro k hk
        rw [IndexSet.contains_foldl_insert]
        rcases List.mem_append.1 hk with hk | hk
        · exact Or.inl (ho k (List.mem_cons_of_mem _ hk))
        · obtain ⟨j, hj, he⟩ := List.mem_map.1 hk
          cases he
          exact Or.inr hj

theorem closure_of_mem_closeItems (wf : g.WellFormed) {kernel : List Item} {fuel : Nat}
    {todo : List Item} {opened : IndexSet} (ht : ∀ i ∈ todo, g.Closure kernel i) {i : Item}
    (h : i ∈ g.closeItems fuel todo opened) : g.Closure kernel i := by
  induction fuel generalizing todo opened with
  | zero => simp [closeItems] at h
  | succ fuel ih =>
    cases todo with
    | nil => rw [closeItems_nil] at h; cases h
    | cons item todo =>
      rw [closeItems_cons] at h
      have hitem := ht item List.mem_cons_self
      rcases List.mem_cons.1 h with rfl | h
      · exact hitem
      refine ih ?_ h
      intro j hj
      rcases List.mem_append.1 hj with hj | hj
      · exact ht j (List.mem_cons_of_mem _ hj)
      · obtain ⟨k, hk, rfl⟩ := List.mem_map.1 hj
        obtain ⟨n, r, hx, hr, hl⟩ := (mem_openedRules wf).1 (mem_freshRules.1 hk).1
        exact .opened hitem hx hr hl

/-- What an item on the list opens is opened at the beginning or stands on the list. -/
theorem closeItems_closed (wf : g.WellFormed) {fuel : Nat} {todo : List Item} {opened : IndexSet}
    (h : todo.length + (g.unopened opened).card ≤ fuel) {i : Item}
    (hi : i ∈ g.closeItems fuel todo opened) {k : Nat} (hk : k ∈ g.openedRules i) :
    opened.contains k = true ∨ (⟨k, 0⟩ : Item) ∈ g.closeItems fuel todo opened := by
  induction fuel generalizing todo opened with
  | zero => simp [closeItems] at hi
  | succ fuel ih =>
    cases todo with
    | nil => rw [closeItems_nil] at hi; cases hi
    | cons item todo =>
      have hstep := card_unopened_step wf h
      have hpre := prefix_closeItems wf hstep
      rw [closeItems_cons] at hi ⊢
      -- what the first item opens anew stays on the list
      have hfresh : ∀ j ∈ g.freshRules opened item, (⟨j, 0⟩ : Item) ∈
          g.closeItems fuel (todo ++ (g.freshRules opened item).map fun rule => ⟨rule, 0⟩)
            ((g.freshRules opened item).foldl IndexSet.insert opened) := fun j hj =>
        hpre.subset (List.mem_append_right _ (List.mem_map.2 ⟨j, hj, rfl⟩))
      rcases List.mem_cons.1 hi with rfl | hi
      · cases hc : opened.contains k with
        | true => exact Or.inl rfl
        | false => exact Or.inr (List.mem_cons_of_mem _ (hfresh k (mem_freshRules.2 ⟨hk, hc⟩)))
      · rcases ih hstep hi with hc | hm
        · rcases (IndexSet.contains_foldl_insert _ _ _).1 hc with hc | hj
          · exact Or.inl hc
          · exact Or.inr (List.mem_cons_of_mem _ (hfresh k hj))
        · exact Or.inr (List.mem_cons_of_mem _ hm)

/-- The fuel of `closure` suffices. -/
theorem closure_fuel (g : Grammar V) (kernel : List Item) (opened : IndexSet) :
    kernel.length + (g.unopened opened).card ≤ kernel.length + g.rules.size := by
  have := Finset.card_filter_le (Finset.range g.rules.size) fun k => opened.contains k = false
  rw [Finset.card_range] at this
  unfold unopened
  omega

theorem contains_openedKernel {kernel : List Item} {k : Nat} :
    (IndexSet.ofList ((kernel.filter (·.dot == 0)).map (·.rule))).contains k = true ↔
      (⟨k, 0⟩ : Item) ∈ kernel := by
  rw [IndexSet.contains_ofList, List.mem_map]
  constructor
  · rintro ⟨i, hi, rfl⟩
    obtain ⟨hi, hd⟩ := List.mem_filter.1 hi
    obtain ⟨r, d⟩ := i
    have hd : d = 0 := by simpa using hd
    rw [hd] at hi
    exact hi
  · intro h
    exact ⟨_, List.mem_filter.2 ⟨h, rfl⟩, rfl⟩

/-- The kernel comes first. -/
theorem prefix_closure (wf : g.WellFormed) (kernel : List Item) : kernel <+: g.closure kernel :=
  prefix_closeItems wf (closure_fuel g kernel _)

theorem nodup_closure (wf : g.WellFormed) {kernel : List Item} (h : kernel.Nodup) :
    (g.closure kernel).Nodup :=
  nodup_closeItems wf h fun _ hk => contains_openedKernel.2 hk

/-- **The items of a state are exactly the closure of its kernel.** -/
theorem mem_closure_iff (wf : g.WellFormed) {kernel : List Item} {i : Item} :
    i ∈ g.closure kernel ↔ g.Closure kernel i := by
  constructor
  · exact closure_of_mem_closeItems wf fun i hi => .kernel hi
  · intro h
    induction h with
    | kernel hi => exact (prefix_closure wf kernel).subset hi
    | opened hi hx hk hr ih =>
      have ho := (mem_openedRules wf).2 ⟨_, _, hx, hk, hr⟩
      rcases closeItems_closed wf (closure_fuel g kernel _) ih ho with hc | hm
      · exact (prefix_closure wf kernel).subset (contains_openedKernel.1 hc)
      · exact hm

end Grammar

end ParserGen
