import ParserGen.Proofs.Automaton.Canonical

/-!
# What the lookaheads hold

The lookaheads obey the rules by which they are defined: `$eof` follows the start item, a terminal
that follows an item follows it when its dot has moved on, and an item that opens a rule hands on to
it what can stand behind.

* `looksAhead_start`, `looksAhead_advance`, `looksAhead_first`, `looksAhead_nullable`: **the
  lookaheads are closed under these rules.**
-/

namespace ParserGen

variable {V : Type} {g : Grammar V}

/-- The terminal `t` is in the lookahead of item `i` in state `q`. -/
def Grammar.LooksAhead (g : Grammar V) (q : Nat) (i : Item) (t : Nat) : Prop :=
  ∃ s la, g.automaton.states[q]? = some s ∧ (i, la) ∈ s.items ∧ la.contains t = true

/-- The node of an item of a state. -/
theorem exists_node (wf : g.WellFormed) {q : Nat} {c : CoreState} {i : Item}
    (hc : g.collection[q]? = some c) (hi : i ∈ c.items) :
    ∃ j, c.items[j]? = some i ∧
      (Layout.ofStates g.collection).node? q i = some (offset g.collection q + j) ∧
      offset g.collection q + j <
        ((Layout.ofStates g.collection).edges g (FirstSets.compute g)).size := by
  obtain ⟨j, hj⟩ := List.mem_iff_getElem?.1 hi
  refine ⟨j, hj, Layout.node?_eq hc (nodup_core wf hc) hj, ?_⟩
  rw [Layout.size_edges]
  exact offset_add_lt hc (List.getElem?_eq_some_iff.1 hj).1

/-- **A terminal is in the lookahead of an item if the flood brought it to the item's node.** -/
theorem looksAhead_iff (wf : g.WellFormed) {q j t : Nat} {c : CoreState} {i : Item}
    (hc : g.collection[q]? = some c) (hj : c.items[j]? = some i) :
    g.LooksAhead q i t ↔ IndexSet.At g.flooded (offset g.collection q + j) t := by
  have hget := getElem?_completed hc hj
  constructor
  · rintro ⟨s, la, hs, hm, ht⟩
    rw [completed_state hc] at hs
    cases hs
    -- the state has the item once
    obtain ⟨j', hj'⟩ := List.mem_iff_getElem?.1 hm
    have hi' : c.items[j']? = some i := by
      rw [← map_fst_completed hc, List.getElem?_map, hj']
      rfl
    have hlt := (List.getElem?_eq_some_iff.1 hj).1
    obtain rfl := (List.getElem?_inj hlt (nodup_core wf hc)).1 (hj.trans hi'.symm)
    rw [hget] at hj'
    obtain rfl := (Prod.mk.inj (Option.some.inj hj')).2
    exact ht
  · intro ht
    exact ⟨_, _, completed_state hc, List.mem_of_getElem? hget, ht⟩

theorem Grammar.LooksAhead.mem_core (wf : g.WellFormed) {q t : Nat} {i : Item} (h : g.LooksAhead q i t) :
    ∃ c, g.collection[q]? = some c ∧ i ∈ c.items := by
  obtain ⟨s, la, hs, hm, -⟩ := h
  obtain ⟨c, hc, hcore, -⟩ := state_cases wf hs
  exact ⟨c, hc, hcore ▸ List.mem_map.2 ⟨_, hm, rfl⟩⟩

theorem Grammar.LooksAhead.exists_transition {q t : Nat} {i : Item} {x : Symbol}
    (h : g.LooksAhead q i t) (hcan : g.Canonical g.automaton) (hx : g.symbolAfterDot i = some x) :
    ∃ p, g.automaton.transition? q x = some p := by
  obtain ⟨s, la, hs, hi, -⟩ := h
  exact hcan.transition_iff.2 ⟨s, hs, i, List.mem_map.2 ⟨_, hi, rfl⟩, hx⟩

/-- What an item passes on arrives at the items it passes on to. -/
theorem looksAhead_of_successor (wf : g.WellFormed) {q p t v : Nat} {c c' : CoreState} {i i' : Item}
    (hc : g.collection[q]? = some c) (hc' : g.collection[p]? = some c') (hi' : i' ∈ c'.items)
    (hv : (Layout.ofStates g.collection).node? p i' = some v)
    (hsucc : v ∈ (Layout.ofStates g.collection).successors g (.compute g) q c i)
    (h : g.LooksAhead q i t) : g.LooksAhead p i' t := by
  obtain ⟨c₀, hc₀, hi⟩ := h.mem_core wf
  rw [hc] at hc₀
  cases hc₀
  obtain ⟨j, hj, -, -⟩ := exists_node wf hc hi
  obtain ⟨j', hj', hv', hlt⟩ := exists_node wf hc' hi'
  rw [hv] at hv'
  cases hv'
  rw [looksAhead_iff wf hc hj] at h
  rw [looksAhead_iff wf hc' hj']
  refine flood_closed h ?_ hlt
  rw [Layout.edges_getD hc hj]
  exact hsucc

/-- `$eof` follows the start item. -/
theorem looksAhead_start (wf : g.WellFormed) : g.LooksAhead 0 Item.start Terminal.eof := by
  obtain ⟨d, hex⟩ := g.explores_collection wf
  obtain ⟨c, hc, hkernel⟩ := collection_zero wf hex
  -- the start item is node `0`, which is given `$eof`
  have hj : c.items[0]? = some Item.start := by
    obtain ⟨rest, hrest⟩ := prefix_items wf hex hc
    rw [← hrest, hkernel]
    rfl
  rw [looksAhead_iff wf hc hj]
  refine flood_given List.mem_cons_self ?_ (by simp)
  rw [Layout.size_edges]
  exact offset_add_lt hc (List.getElem?_eq_some_iff.1 hj).1

/-- What follows an item follows it when its dot has moved on, in a state that has the moved item. -/
theorem looksAhead_moved (wf : g.WellFormed) {q p t : Nat} {i : Item} {x : Symbol} {c' : CoreState}
    (hx : g.symbolAfterDot i = some x) (hp : g.automaton.transition? q x = some p)
    (hc' : g.collection[p]? = some c') (hi' : i.advance ∈ c'.items) (h : g.LooksAhead q i t) :
    g.LooksAhead p i.advance t := by
  obtain ⟨c, hc, hi⟩ := h.mem_core wf
  obtain ⟨j, -, hnode, -⟩ := exists_node wf hc' hi'
  refine looksAhead_of_successor wf hc hc' hi' hnode ?_ h
  -- the node of the moved item is the last of the successors
  rw [transition?_lookup hc] at hp
  unfold Layout.successors
  refine List.mem_append_right _ ?_
  simp [Layout.movedNode?, hx, hp, hnode]

/-- What follows an item follows it when its dot has moved on. -/
theorem looksAhead_advance (wf : g.WellFormed) (hfit : g.CodesFit) {q p t : Nat} {i : Item}
    {x : Symbol} (hx : g.symbolAfterDot i = some x) (hp : g.automaton.transition? q x = some p)
    (h : g.LooksAhead q i t) : g.LooksAhead p i.advance t := by
  obtain ⟨c, hc, hi⟩ := h.mem_core wf
  obtain ⟨c', hc', hedge⟩ := (transition?_eq wf).1 hp
  rw [hc] at hc'
  cases hc'
  obtain ⟨t', ht', hmem⟩ := mem_target_kernel wf hfit hc hedge
  have hadv : i.advance ∈ t'.items :=
    (mem_core_iff wf ht' _).2 (.kernel ((hmem _).2 ⟨i, hi, hx, rfl⟩))
  exact looksAhead_moved wf hx hp ht' hadv h

section Opened

variable {q k n : Nat} {c : CoreState} {i : Item} {r : Rule V}

theorem mem_opened (wf : g.WellFormed) (hc : g.collection[q]? = some c) (hi : i ∈ c.items)
    (hx : g.symbolAfterDot i = some (.nonterminal n)) (hr : g.rules[k]? = some r)
    (hl : r.left = n) : ⟨k, 0⟩ ∈ c.items :=
  (mem_core_iff wf hc _).2 (.opened ((mem_core_iff wf hc i).1 hi) hx hr hl)

theorem mem_openedNodes (wf : g.WellFormed) {v : Nat}
    (hx : g.symbolAfterDot i = some (.nonterminal n)) (hr : g.rules[k]? = some r) (hl : r.left = n)
    (hv : (Layout.ofStates g.collection).node? q ⟨k, 0⟩ = some v) :
    v ∈ (Layout.ofStates g.collection).openedNodes g q i := by
  unfold Layout.openedNodes
  rw [List.mem_filterMap]
  exact ⟨k, (Grammar.mem_openedRules wf).2 ⟨n, r, hx, hr, hl⟩, hv⟩

/-- What can begin behind the opened nonterminal follows its rules. -/
theorem looksAhead_first (wf : g.WellFormed) (hc : g.collection[q]? = some c) (hi : i ∈ c.items)
    (hx : g.symbolAfterDot i = some (.nonterminal n)) (hr : g.rules[k]? = some r)
    (hl : r.left = n) {t : Nat}
    (ht : ((FirstSets.compute g).ofSequence (g.symbolsBehind i)).contains t = true)
    (hne : t ≠ Terminal.epsilon) : g.LooksAhead q ⟨k, 0⟩ t := by
  obtain ⟨j, hj, hnode, hlt⟩ := exists_node wf hc (mem_opened wf hc hi hx hr hl)
  rw [looksAhead_iff wf hc hj]
  have hgift : (offset g.collection q + j,
      ((FirstSets.compute g).ofSequence (g.symbolsBehind i)).erase Terminal.epsilon) ∈
        (Layout.ofStates g.collection).given g (.compute g) :=
    Layout.mem_given hc hi (List.mem_map.2 ⟨_, mem_openedNodes wf hx hr hl hnode, rfl⟩)
  refine flood_given hgift hlt ?_
  simp [ht, hne.symm]

/-- What follows an item follows the rules it opens, if nothing need stand behind them. -/
theorem looksAhead_nullable (wf : g.WellFormed) (hx : g.symbolAfterDot i = some (.nonterminal n))
    (hr : g.rules[k]? = some r) (hl : r.left = n)
    (hnull : ((FirstSets.compute g).ofSequence (g.symbolsBehind i)).contains Terminal.epsilon = true)
    {t : Nat} (h : g.LooksAhead q i t) : g.LooksAhead q ⟨k, 0⟩ t := by
  obtain ⟨c, hc, hi⟩ := h.mem_core wf
  have hopen := mem_opened wf hc hi hx hr hl
  obtain ⟨j, -, hnode, -⟩ := exists_node wf hc hopen
  refine looksAhead_of_successor wf hc hc hopen hnode ?_ h
  unfold Layout.successors
  rw [if_pos hnull]
  exact List.mem_append_left _ (mem_openedNodes wf hx hr hl hnode)

end Opened

end ParserGen
