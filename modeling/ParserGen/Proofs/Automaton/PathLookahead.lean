import ParserGen.Proofs.Automaton.Lookahead
import ParserGen.Proofs.Grammar.FirstExact

/-!
# Lookaheads along paths

What may follow an item depends on the path that leads to its state. Along one path it is found by
three rules: `$eof` follows the start item; what follows an item follows it when its dot has moved on;
and the rules that an item opens are followed by what can begin behind the opened nonterminal and, if
nothing need stand there, by what follows the item. A state is entered along many paths, and the
lookahead of an item holds what follows the item along any of them.

* `PathLookahead`: what follows an item along a path.
* `looksAhead_iff_path`: **the lookahead of an item is the union over all paths to its state.**
* `CanonicalLookahead`: the canonical items with one terminal of lookahead.
* `pathLookahead_iff_canonical`: where no FIRST set is empty, they are found along the same paths.
* `lookaheads_exact`: both for the automaton of a grammar.
-/

namespace ParserGen

variable {V : Type} {g : Grammar V}

namespace Grammar

/-- The state to which a word leads has the item. -/
def HasItem (g : Grammar V) (w : List Symbol) (i : Item) : Prop :=
  ∃ q s, g.automaton.walk? w = some q ∧ g.automaton.states[q]? = some s ∧ i ∈ s.core

/-- The terminal `t` follows item `i` along the path over the word `w`. The terminals are the least
sets, one for each path and each item of the state it leads to, that are closed under these rules. -/
inductive PathLookahead (g : Grammar V) : List Symbol → Item → Nat → Prop where
  | start : PathLookahead g [] Item.start Terminal.eof
  | advance {w : List Symbol} {i : Item} {x : Symbol} {t : Nat} (h : PathLookahead g w i t)
      (hx : g.symbolAfterDot i = some x) (hi : g.HasItem (w ++ [x]) i.advance) :
      PathLookahead g (w ++ [x]) i.advance t
  /-- What begins behind the nonterminal that is opened. -/
  | first {w : List Symbol} {i : Item} {n k t : Nat} {r : Rule V} {rest : List Symbol}
      (hi : g.HasItem w i) (hx : g.symbolAfterDot i = some (.nonterminal n))
      (hr : g.rules[k]? = some r) (hl : r.left = n)
      (ht : g.Yields (g.symbolsBehind i) (.terminal t :: rest)) : PathLookahead g w ⟨k, 0⟩ t
  /-- What follows the item, if what stands behind can be empty. -/
  | nullable {w : List Symbol} {i : Item} {n k t : Nat} {r : Rule V} (h : PathLookahead g w i t)
      (hx : g.symbolAfterDot i = some (.nonterminal n)) (hr : g.rules[k]? = some r) (hl : r.left = n)
      (hnull : g.Yields (g.symbolsBehind i) []) : PathLookahead g w ⟨k, 0⟩ t

theorem HasItem.exists_core (wf : g.WellFormed) {w : List Symbol} {i : Item} (h : g.HasItem w i) :
    ∃ q c, g.automaton.walk? w = some q ∧ g.collection[q]? = some c ∧ i ∈ c.items := by
  obtain ⟨q, s, hw, hs, hi⟩ := h
  obtain ⟨c, hc, hcore, -⟩ := state_cases wf hs
  exact ⟨q, c, hw, hc, hcore ▸ hi⟩

theorem hasItem_of_core {w : List Symbol} {i : Item} {q : Nat} {c : CoreState}
    (hw : g.automaton.walk? w = some q) (hc : g.collection[q]? = some c) (hi : i ∈ c.items) :
    g.HasItem w i :=
  ⟨q, _, hw, completed_state hc, core_completed hc ▸ hi⟩

/-- The symbols behind the one after a dot are components of a rule. -/
theorem mem_symbolsBehind {i : Item} {x y : Symbol} (hx : g.symbolAfterDot i = some x)
    (hy : y ∈ g.symbolsBehind i) : ∃ (k : Nat) (r : Rule V), g.rules[k]? = some r ∧ y ∈ r.symbols := by
  obtain ⟨r, hr, -⟩ := symbolAfterDot_cases hx
  refine ⟨i.rule, r, hr, ?_⟩
  rw [← symbolsOf_eq hr]
  exact List.mem_of_mem_drop hy

theorem epsilon_not_mem_symbolsBehind (wf : g.WellFormed) {i : Item} {x : Symbol}
    (hx : g.symbolAfterDot i = some x) : .terminal Terminal.epsilon ∉ g.symbolsBehind i := by
  intro h
  obtain ⟨k, r, hr, hm⟩ := mem_symbolsBehind hx h
  exact FirstSets.epsilon_not_mem wf hr hm

/-- What can begin behind a dot is a terminal that stands in some rule. -/
theorem mem_symbols_of_starts {i : Item} {x : Symbol} {t : Nat} (hx : g.symbolAfterDot i = some x)
    (h : g.Starts t (g.symbolsBehind i)) :
    ∃ (k : Nat) (r : Rule V), g.rules[k]? = some r ∧ .terminal t ∈ r.symbols :=
  h.mem.elim (mem_symbolsBehind hx) id

/-- What follows an item is a terminal of the grammar and not `$epsilon`. -/
theorem PathLookahead.bounds (wf : g.WellFormed) {w : List Symbol} {i : Item} {t : Nat}
    (h : g.PathLookahead w i t) : t ≠ Terminal.epsilon ∧ t < g.terminals.size := by
  induction h with
  | start => exact ⟨by decide, NameTable.lt_size_of_name? wf.eof⟩
  | advance _ _ _ ih => exact ih
  | first _ hx _ _ ht =>
    obtain ⟨k, r, hr, hm⟩ := mem_symbols_of_starts hx (starts_iff.2 ⟨_, ht⟩)
    obtain ⟨hres, hlt⟩ := wf.terminal hr hm
    refine ⟨?_, hlt⟩
    rintro rfl
    exact absurd hres (by decide)
  | nullable _ _ _ _ _ ih => exact ih

theorem contains_first_of_yields (wf : g.WellFormed) {i : Item} {x : Symbol} {t : Nat}
    {rest : List Symbol} (hx : g.symbolAfterDot i = some x)
    (ht : g.Yields (g.symbolsBehind i) (.terminal t :: rest)) : t ≠ Terminal.epsilon ∧
      ((FirstSets.compute g).ofSequence (g.symbolsBehind i)).contains t = true := by
  have hs : g.Starts t (g.symbolsBehind i) := starts_iff.2 ⟨rest, ht⟩
  have hne : t ≠ Terminal.epsilon := by
    rintro rfl
    obtain ⟨k, r, hr, hm⟩ := mem_symbols_of_starts hx hs
    exact FirstSets.epsilon_not_mem wf hr hm
  exact ⟨hne, FirstSets.contains_of_starts wf hne hs⟩

/-- **What follows an item along a path is in its lookahead.** -/
theorem PathLookahead.looksAhead (wf : g.WellFormed) {w : List Symbol} {i : Item} {t q : Nat}
    (h : g.PathLookahead w i t) (hq : g.automaton.walk? w = some q) : g.LooksAhead q i t := by
  induction h generalizing q with
  | start =>
    obtain rfl : 0 = q := Option.some.inj hq
    exact looksAhead_start wf
  | advance _ hx hi ih =>
    obtain ⟨p, hw, hp⟩ := Automaton.walk?_concat hq
    obtain ⟨q', c, hq', hc, hi⟩ := hi.exists_core wf
    rw [hq] at hq'
    cases hq'
    exact looksAhead_moved wf hx hp hc hi (ih hw)
  | first hi hx hr hl ht =>
    obtain ⟨q', c, hq', hc, hi⟩ := hi.exists_core wf
    rw [hq] at hq'
    cases hq'
    obtain ⟨hne, hfirst⟩ := contains_first_of_yields wf hx ht
    exact looksAhead_first wf hc hi hx hr hl hfirst hne
  | nullable _ hx hr hl hnull ih =>
    have hfirst := FirstSets.contains_of_vanishes wf (vanishes_iff.2 hnull)
    exact looksAhead_nullable wf hx hr hl hfirst (ih hq)

/-- The node is that of an item which the terminal follows along some path. -/
def FollowedAt (g : Grammar V) (v t : Nat) : Prop :=
  ∃ q c j i w, g.collection[q]? = some c ∧ c.items[j]? = some i ∧ v = offset g.collection q + j ∧
    g.automaton.walk? w = some q ∧ g.PathLookahead w i t

theorem followedAt_of_node {q v t : Nat} {i : Item} {w : List Symbol}
    (hv : (Layout.ofStates g.collection).node? q i = some v) (hw : g.automaton.walk? w = some q)
    (h : g.PathLookahead w i t) : g.FollowedAt v t := by
  obtain ⟨c, j, hc, hj, rfl⟩ := Layout.node?_cases hv
  exact ⟨q, c, j, i, w, hc, hj, rfl, hw, h⟩

/-- What the nodes pass on keeps to the paths. -/
theorem followedAt_successor (wf : g.WellFormed) {v u t : Nat} (h : g.FollowedAt v t)
    (hu : u ∈ ((Layout.ofStates g.collection).edges g (.compute g)).getD v []) :
    g.FollowedAt u t := by
  obtain ⟨q, c, j, i, w, hc, hj, rfl, hw, h⟩ := h
  rw [Layout.edges_getD hc hj] at hu
  rcases List.mem_append.1 hu with hu | hu
  · -- to a rule that the item opens
    split at hu
    · rename_i hnull
      obtain ⟨k, hk, hv⟩ := List.mem_filterMap.1 hu
      obtain ⟨n, r, hx, hr, hl⟩ := (mem_openedRules wf).1 hk
      have hvanish := (FirstSets.contains_epsilon_iff wf (epsilon_not_mem_symbolsBehind wf hx)).1 hnull
      exact followedAt_of_node hv hw (.nullable h hx hr hl hvanish.yields)
    · cases hu
  · -- to the item with the dot moved on
    obtain ⟨x, hx, hu⟩ := Option.bind_eq_some_iff.1 (Option.mem_toList.1 hu)
    obtain ⟨p, hp, hv⟩ := Option.bind_eq_some_iff.1 hu
    have hwalk : g.automaton.walk? (w ++ [x]) = some p := by
      rw [Automaton.walk?_append hw, transition?_lookup hc]
      exact hp
    obtain ⟨c', j', hc', hj', -⟩ := Layout.node?_cases hv
    have hitem := hasItem_of_core hwalk hc' (List.mem_of_getElem? hj')
    exact followedAt_of_node hv hwalk (.advance h hx hitem)

/-- What is given to the nodes keeps to the paths. -/
theorem followedAt_given (wf : g.WellFormed) {v t : Nat} {s : TerminalSet}
    (h : (v, s) ∈ (Layout.ofStates g.collection).given g (.compute g)) (ht : s.contains t = true) :
    g.FollowedAt v t := by
  rcases Layout.mem_given_cases h with h | ⟨q, c, i, hc, hi, h⟩
  · obtain ⟨rfl, rfl⟩ := Prod.mk.inj h
    rw [IndexSet.contains_singleton, decide_eq_true_eq] at ht
    obtain ⟨d, hex⟩ := g.explores_collection wf
    obtain ⟨c, hc, hkernel⟩ := collection_zero wf hex
    obtain ⟨rest, hrest⟩ := prefix_items wf hex hc
    have hj : c.items[0]? = some Item.start := by
      rw [← hrest, hkernel]
      rfl
    exact ⟨0, c, 0, _, [], hc, hj, rfl, rfl, ht ▸ .start⟩
  · obtain ⟨u, hu, he⟩ := List.mem_map.1 h
    obtain ⟨rfl, rfl⟩ := Prod.mk.inj he
    obtain ⟨k, hk, hv⟩ := List.mem_filterMap.1 hu
    obtain ⟨n, r, hx, hr, hl⟩ := (mem_openedRules wf).1 hk
    simp only [IndexSet.contains_erase, Bool.and_eq_true, Bool.not_eq_true',
      decide_eq_false_iff_not] at ht
    have hstarts := (FirstSets.contains_terminal_iff wf (Ne.symm ht.2)).1 ht.1
    obtain ⟨rest, hyields⟩ := hstarts.yields
    -- some path leads to the state
    obtain ⟨w, hw⟩ := exists_walk wf q (List.getElem?_eq_some_iff.1 hc).1
    exact followedAt_of_node hv hw (.first (hasItem_of_core hw hc hi) hx hr hl hyields)

/-- **The lookahead of an item is the union over all paths to its state.** -/
theorem looksAhead_iff_path (wf : g.WellFormed) {q t : Nat} {i : Item} :
    g.LooksAhead q i t ↔ ∃ w, g.automaton.walk? w = some q ∧ g.PathLookahead w i t := by
  constructor
  · intro h
    obtain ⟨c, hc, hi⟩ := h.mem_core wf
    obtain ⟨j, hj⟩ := List.mem_iff_getElem?.1 hi
    rw [looksAhead_iff wf hc hj] at h
    obtain ⟨q', c', j', i', w, hc', hj', he, hw, hpath⟩ :=
      flood_least (P := g.FollowedAt) (fun _ _ _ => followedAt_successor wf)
        (fun _ _ _ => followedAt_given wf) h
    -- the node belongs to one item only
    obtain ⟨rfl, rfl⟩ := offset_inj hc hc' (List.getElem?_eq_some_iff.1 hj).1
      (List.getElem?_eq_some_iff.1 hj').1 he
    rw [hc] at hc'
    cases hc'
    rw [hj] at hj'
    cases hj'
    exact ⟨w, hw, hpath⟩
  · rintro ⟨w, hw, h⟩
    exact h.looksAhead wf hw

/-- The item `i` with the lookahead `t` is in the canonical set of items with one terminal of
lookahead to which the word `w` leads. -/
inductive CanonicalLookahead (g : Grammar V) : List Symbol → Item → Nat → Prop where
  | start : CanonicalLookahead g [] Item.start Terminal.eof
  | goto {w : List Symbol} {i : Item} {x : Symbol} {t : Nat} (h : CanonicalLookahead g w i t)
      (hx : g.symbolAfterDot i = some x) : CanonicalLookahead g (w ++ [x]) i.advance t
  | closure {w : List Symbol} {i : Item} {n k t u : Nat} {r : Rule V} {rest : List Symbol}
      (h : CanonicalLookahead g w i t) (hx : g.symbolAfterDot i = some (.nonterminal n))
      (hr : g.rules[k]? = some r) (hl : r.left = n)
      (hu : g.Yields (g.symbolsBehind i ++ [.terminal t]) (.terminal u :: rest)) :
      CanonicalLookahead g w ⟨k, 0⟩ u

section Canonical

variable {w : List Symbol} {i : Item}

theorem HasItem.advance (wf : g.WellFormed) (hfit : g.CodesFit) (h : g.HasItem w i) {x : Symbol}
    (hx : g.symbolAfterDot i = some x) : g.HasItem (w ++ [x]) i.advance := by
  obtain ⟨q, s, hw, hs, hi⟩ := h
  have hcan := canonical_automaton wf hfit
  obtain ⟨p, hp⟩ := hcan.transition_iff.2 ⟨s, hs, i, hi, hx⟩
  obtain ⟨s', hs', hmem⟩ := hcan.target hs hp
  refine ⟨p, s', (Automaton.walk?_append hw x).trans hp, hs', (hcan.mem_core hs' _).2 (.kernel ?_)⟩
  exact (hmem _).2 ⟨i, hi, hx, rfl⟩

theorem HasItem.opened (wf : g.WellFormed) (h : g.HasItem w i) {n k : Nat} {r : Rule V}
    (hx : g.symbolAfterDot i = some (.nonterminal n)) (hr : g.rules[k]? = some r)
    (hl : r.left = n) : g.HasItem w ⟨k, 0⟩ := by
  obtain ⟨q, c, hw, hc, hi⟩ := h.exists_core wf
  exact hasItem_of_core hw hc (mem_opened wf hc hi hx hr hl)

/-- A property of items that the start item has, that moves on with the dot and that is handed to
opened rules, holds of all items of all states, along every path. -/
theorem HasItem.induction (wf : g.WellFormed) (hfit : g.CodesFit) {P : List Symbol → Item → Prop}
    (hstart : P [] Item.start)
    (hadvance : ∀ {w i x}, g.HasItem w i → g.symbolAfterDot i = some x → P w i → P (w ++ [x]) i.advance)
    (hopened : ∀ {w i n k} {r : Rule V}, g.HasItem w i → g.symbolAfterDot i = some (.nonterminal n) →
      g.rules[k]? = some r → r.left = n → P w i → P w ⟨k, 0⟩) (h : g.HasItem w i) : P w i := by
  have hcan := canonical_automaton wf hfit
  -- it is enough to look at the kernels, as the other items are opened by them
  have hclosure : ∀ {w q s}, g.automaton.walk? w = some q → g.automaton.states[q]? = some s →
      (∀ i ∈ s.coreKernel, P w i) → ∀ i ∈ s.core, P w i := by
    intro w q s hw hs hkernel i hi
    have hcl := (hcan.mem_core hs i).1 hi
    clear hi
    induction hcl with
    | kernel hi => exact hkernel _ hi
    | opened hi hx hr hl ih =>
      exact hopened ⟨q, s, hw, hs, (hcan.mem_core hs _).2 hi⟩ hx hr hl ih
  obtain ⟨q, s, hw, hs, hi⟩ := h
  induction w using List.reverseRecOn generalizing q s i with
  | nil =>
    obtain rfl : 0 = q := Option.some.inj hw
    obtain ⟨s', hs', hkernel⟩ := hcan.initial
    rw [hs] at hs'
    cases hs'
    refine hclosure hw hs (fun i hi => ?_) i hi
    rw [hkernel, List.mem_singleton] at hi
    rw [hi]
    exact hstart
  | append_singleton w x ih =>
    obtain ⟨p, hp, htrans⟩ := Automaton.walk?_concat hw
    obtain ⟨s₀, hs₀, -⟩ := hcan.transition_iff.1 ⟨q, htrans⟩
    obtain ⟨s', hs', hmem⟩ := hcan.target hs₀ htrans
    rw [hs] at hs'
    cases hs'
    refine hclosure hw hs (fun j hj => ?_) i hi
    obtain ⟨j₀, hj₀, hx, rfl⟩ := (hmem j).1 hj
    exact hadvance ⟨p, s₀, hp, hs₀, hj₀⟩ hx (ih p s₀ hp hs₀ hj₀)

theorem CanonicalLookahead.pathLookahead (wf : g.WellFormed) (hfit : g.CodesFit) {t : Nat}
    (h : g.CanonicalLookahead w i t) : g.HasItem w i ∧ g.PathLookahead w i t := by
  induction h with
  | start =>
    obtain ⟨s, hs, hkernel⟩ := (canonical_automaton wf hfit).initial
    refine ⟨⟨0, s, rfl, hs, ((canonical_automaton wf hfit).mem_core hs _).2 (.kernel ?_)⟩, .start⟩
    rw [hkernel]
    exact List.mem_singleton_self _
  | goto _ hx ih =>
    have hi := ih.1.advance wf hfit hx
    exact ⟨hi, .advance ih.2 hx hi⟩
  | closure _ hx hr hl hu ih =>
    refine ⟨ih.1.opened wf hx hr hl, ?_⟩
    -- the terminal begins what stands behind, or nothing stands there
    rcases starts_append.1 (starts_iff.2 ⟨_, hu⟩) with hs | ⟨hv, hs⟩
    · obtain ⟨rest, hy⟩ := hs.yields
      exact .first ih.1 hx hr hl hy
    · cases hs
      exact .nullable ih.2 hx hr hl hv.yields

/-- Every FIRST set has a member. -/
def FirstNonempty (g : Grammar V) : Prop :=
  ∀ n < g.nonterminals.size, ∃ t, ((FirstSets.compute g).ofNonterminal n).contains t = true

theorem exists_starts (wf : g.WellFormed) (hfirst : g.FirstNonempty) {xs : List Symbol}
    (hxs : ∀ n, .nonterminal n ∈ xs → n < g.nonterminals.size) (t : Nat) :
    ∃ u, g.Starts u (xs ++ [.terminal t]) := by
  induction xs with
  | nil => exact ⟨t, .terminal []⟩
  | cons x xs ih =>
    cases x with
    | terminal u => exact ⟨u, .terminal _⟩
    | nonterminal n =>
      obtain ⟨i, hi⟩ := hfirst n (hxs n List.mem_cons_self)
      by_cases he : i = Terminal.epsilon
      · obtain ⟨u, hu⟩ := ih fun m hm => hxs m (List.mem_cons_of_mem _ hm)
        exact ⟨u, starts_cons.2 (Or.inr ⟨(FirstSets.sound_compute wf).vanishes (he ▸ hi), hu⟩)⟩
      · exact ⟨i, starts_cons.2 (Or.inl ((FirstSets.sound_compute wf).starts he hi))⟩

/-- Where no FIRST set is empty, every item has a canonical lookahead along every path. -/
theorem exists_canonicalLookahead (wf : g.WellFormed) (hfit : g.CodesFit) (hfirst : g.FirstNonempty)
    (h : g.HasItem w i) : ∃ t, g.CanonicalLookahead w i t := by
  refine h.induction wf hfit (P := fun w i => ∃ t, g.CanonicalLookahead w i t) ⟨_, .start⟩ ?_ ?_
  · rintro w i x - hx ⟨t, ht⟩
    exact ⟨t, .goto ht hx⟩
  · rintro w i n k r - hx hr hl ⟨t, ht⟩
    have hxs : ∀ m, .nonterminal m ∈ g.symbolsBehind i → m < g.nonterminals.size := by
      intro m hm
      obtain ⟨k', r', hr', hm'⟩ := mem_symbolsBehind hx hm
      exact (wf.nonterminal hr' hm').2
    obtain ⟨u, hu⟩ := exists_starts wf hfirst hxs t
    obtain ⟨rest, hy⟩ := hu.yields
    exact ⟨u, .closure ht hx hr hl hy⟩

/-- **Where no FIRST set is empty, what follows an item along a path is its canonical lookahead.** -/
theorem pathLookahead_iff_canonical (wf : g.WellFormed) (hfit : g.CodesFit)
    (hfirst : g.FirstNonempty) {t : Nat} :
    g.PathLookahead w i t ↔ g.CanonicalLookahead w i t := by
  refine ⟨fun h => ?_, fun h => (h.pathLookahead wf hfit).2⟩
  induction h with
  | start => exact .start
  | advance _ hx _ ih => exact .goto ih hx
  | first hi hx hr hl ht =>
    obtain ⟨u, hu⟩ := exists_canonicalLookahead wf hfit hfirst hi
    exact .closure hu hx hr hl (ht.append_right [.terminal u])
  | nullable _ hx hr hl hnull ih => exact .closure ih hx hr hl (hnull.append_right _)

end Canonical

end Grammar

/-- A state has one lookahead for each of its items. -/
theorem contains_iff_looksAhead (wf : g.WellFormed) {q t : Nat} {s : State} {i : Item}
    {la : TerminalSet} (hs : g.automaton.states[q]? = some s) (hi : (i, la) ∈ s.items) :
    la.contains t = true ↔ g.LooksAhead q i t := by
  refine ⟨fun h => ⟨s, la, hs, hi, h⟩, ?_⟩
  rintro ⟨s', la', hs', hi', ht⟩
  rw [hs] at hs'
  cases hs'
  have hnd : (s.items.map (·.1)).Nodup := nodup_core_of_state wf hs
  have hla := (lookup_eq_some_iff_mem hnd).2 hi
  rw [(lookup_eq_some_iff_mem hnd).2 hi'] at hla
  rwa [← Option.some.inj hla]

/-- **Lookaheads are exact.** For every grammar, every state of its automaton and every item of the
state, the lookahead of the item is the union, over all words that lead to the state, of what follows
the item along them, and it never holds `$epsilon`. If no FIRST set is empty, this is the union of the
canonical lookaheads; rule numbers and lengths are then to be such that the codes of items do not
overflow, as otherwise an edge may lead to a state that does not hold the moved items. -/
theorem lookaheads_exact (hg : g.Defined) {q : Nat} {s : State} {i : Item} {la : TerminalSet}
    (hs : g.automaton.states[q]? = some s) (hi : (i, la) ∈ s.items) :
    (∀ t, la.contains t = true ↔ ∃ w, g.automaton.walk? w = some q ∧ g.PathLookahead w i t) ∧
    la.contains Terminal.epsilon = false ∧
    (g.CodesFit → g.FirstNonempty → ∀ t, la.contains t = true ↔
      ∃ w, g.automaton.walk? w = some q ∧ g.CanonicalLookahead w i t) := by
  have wf := hg.wellFormed
  have hpath : ∀ t, la.contains t = true ↔
      ∃ w, g.automaton.walk? w = some q ∧ g.PathLookahead w i t := fun t =>
    (contains_iff_looksAhead wf hs hi).trans (Grammar.looksAhead_iff_path wf)
  refine ⟨hpath, ?_, fun hfit hfirst t => ?_⟩
  · rw [← Bool.not_eq_true]
    intro h
    obtain ⟨w, -, hw⟩ := (hpath _).1 h
    exact (hw.bounds wf).1 rfl
  · rw [hpath t]
    simp only [Grammar.pathLookahead_iff_canonical wf hfit hfirst]

/-- Behind an opening bracket both the end and a closing bracket may follow the pair: the end along
the path over one bracket, a closing one along longer paths. -/
theorem brackets_lookaheads :
    (∀ t, (∃ w, Grammar.brackets.automaton.walk? w = some 2 ∧
        Grammar.brackets.PathLookahead w ⟨1, 1⟩ t) ↔ t = Terminal.eof ∨ t = 3) ∧
      ∀ t, (∃ w, Grammar.brackets.automaton.walk? w = some 2 ∧
        Grammar.brackets.CanonicalLookahead w ⟨1, 1⟩ t) ↔ t = Terminal.eof ∨ t = 3 := by
  have hstate : (Grammar.brackets.automaton.states[2]?).bind (·.lookahead? ⟨1, 1⟩) =
      some (IndexSet.ofList [Terminal.eof, 3]) := by
    decide +kernel
  have hfirst : Grammar.brackets.FirstNonempty := by
    intro n hn
    refine ⟨Terminal.epsilon, ?_⟩
    revert n
    decide +kernel
  obtain ⟨s, hs, hla⟩ := Option.bind_eq_some_iff.1 hstate
  have hcan := canonical_automaton Grammar.brackets_defined.wellFormed Grammar.brackets_codesFit
  obtain ⟨hpath, -, hcanonical⟩ := lookaheads_exact Grammar.brackets_defined hs
    ((hcan.lookahead_iff hs _ _).1 hla)
  refine ⟨fun t => ?_, fun t => ?_⟩
  · rw [← hpath t, IndexSet.contains_ofList]
    simp
  · rw [← hcanonical Grammar.brackets_codesFit hfirst t, IndexSet.contains_ofList]
    simp

end ParserGen
