import ParserGen.Automaton.Basic
import ParserGen.Proofs.Automaton.Flood

/-!
# Where the items of the states lie

The nodes of the lookahead graph are the items of all states one after the other: the item in place
`j` of state `q` is node `offset states q + j`. So the flood has one set for each item, and cutting it
into pieces gives each item its own.

* `node?_eq`, `edges_getD`, `mem_given`: nodes, edges and gifts of the graph in these terms.
* `automaton_state`: **the states of the automaton are those of the collection, and the lookahead of
  an item is what the flood left at its node.**
-/

namespace ParserGen

variable {V : Type} {g : Grammar V} {first : FirstSets} {states : List CoreState}

/-- The number of items of the states before number `q`. -/
def offset (states : List CoreState) (q : Nat) : Nat :=
  ((states.take q).map (·.items)).flatten.length

theorem offset_succ {q : Nat} {s : CoreState} (h : states[q]? = some s) :
    offset states (q + 1) = offset states q + s.items.length := by
  unfold offset
  rw [List.take_add_one, h]
  simp

theorem offset_mono (states : List CoreState) {q p : Nat} (h : q ≤ p) : offset states q ≤ offset states p := by
  induction p, h using Nat.le_induction with
  | base => exact le_rfl
  | succ p _ ih =>
    cases hs : states[p]? with
    | none =>
      have hsame : offset states (p + 1) = offset states p := by
        unfold offset
        rw [List.take_add_one, hs]
        simp
      rwa [hsame]
    | some s => rw [offset_succ hs]; omega

/-- The nodes of the items of a state lie below the number of all nodes. -/
theorem offset_add_lt {q j : Nat} {s : CoreState} (h : states[q]? = some s) (hj : j < s.items.length) :
    offset states q + j < offset states states.length := by
  have hlt := (List.getElem?_eq_some_iff.1 h).1
  have hle := offset_mono states (Nat.succ_le_of_lt hlt)
  rw [offset_succ h] at hle
  omega

/-- Different items lie at different nodes. -/
theorem offset_inj {q p j k : Nat} {s t : CoreState} (hs : states[q]? = some s)
    (ht : states[p]? = some t) (hj : j < s.items.length) (hk : k < t.items.length)
    (h : offset states q + j = offset states p + k) : q = p ∧ j = k := by
  -- the nodes of a state lie before those of the later states
  have hlt : ∀ {q p j : Nat} {s : CoreState}, states[q]? = some s → j < s.items.length → q < p →
      offset states q + j < offset states p := by
    intro q p j s hs hj hqp
    have hle := offset_mono states (Nat.succ_le_of_lt hqp)
    rw [offset_succ hs] at hle
    omega
  rcases Nat.lt_trichotomy q p with hqp | rfl | hqp
  · have := hlt hs hj hqp
    omega
  · exact ⟨rfl, by omega⟩
  · have := hlt ht hk hqp
    omega

theorem getElem?_flatten {α : Type} {lists : List (List α)} {q j : Nat} {l : List α}
    (h : lists[q]? = some l) (hj : j < l.length) :
    lists.flatten[(lists.take q).flatten.length + j]? = l[j]? := by
  induction lists generalizing q with
  | nil => simp at h
  | cons a rest ih =>
    cases q with
    | zero =>
      cases h
      simp [List.getElem?_append_left hj]
    | succ q =>
      rw [List.flatten_cons, List.take_succ_cons, List.flatten_cons, List.length_append,
        Nat.add_assoc, List.getElem?_append_right (Nat.le_add_right _ _), Nat.add_sub_cancel_left]
      exact ih (by simpa using h)

theorem getElem?_distribute {α β : Type} (pieces : List (List α)) (values : List β) (q : Nat) :
    (distribute pieces values)[q]? =
      pieces[q]?.map fun p => p.zip (values.drop (pieces.take q).flatten.length) := by
  induction pieces generalizing values q with
  | nil => simp [distribute]
  | cons a rest ih =>
    cases q with
    | zero => simp [distribute]
    | succ q => simp [distribute, ih, List.drop_drop]

namespace Layout

theorem getElem?_bases (states : List CoreState) (bases : Array Nat) (n k : Nat) :
    (states.foldl (fun (b : Array Nat × Nat) s => (b.1.push b.2, b.2 + s.items.length))
      (bases, n)).1[k]? =
      if k < bases.size then bases[k]?
      else if k - bases.size < states.length then some (n + offset states (k - bases.size))
      else none := by
  induction states generalizing bases n with
  | nil =>
    by_cases hk : k < bases.size
    · simp [hk]
    · simp [hk]
  | cons s rest ih =>
    rw [List.foldl_cons, ih]
    simp only [Array.size_push]
    by_cases hk : k < bases.size
    · rw [if_pos (by omega), if_pos hk, Array.getElem?_push_lt hk, Array.getElem?_eq_getElem hk]
    · rw [if_neg hk]
      by_cases he : k = bases.size
      · subst he
        simp [offset]
      · -- a later base counts the items of the first state too
        obtain ⟨j, rfl⟩ : ∃ j, k = bases.size + 1 + j := ⟨k - bases.size - 1, by omega⟩
        have hsub : bases.size + 1 + j - bases.size = j + 1 := by omega
        rw [if_neg (by omega), hsub, Nat.add_sub_cancel_left]
        simp [offset, Nat.add_assoc]

theorem bases_ofStates {q : Nat} (h : q < states.length) :
    (ofStates states).bases[q]? = some (offset states q) := by
  have hb := getElem?_bases states #[] 0 q
  rw [if_neg (by simp), if_pos (by simpa using h)] at hb
  simpa [ofStates] using hb

/-- The node of the item in place `j` of state `q`. -/
theorem node?_eq {q j : Nat} {s : CoreState} {i : Item} (hs : states[q]? = some s)
    (hnd : s.items.Nodup) (hi : s.items[j]? = some i) :
    (ofStates states).node? q i = some (offset states q + j) := by
  obtain ⟨hlt, he⟩ := List.getElem?_eq_some_iff.1 hi
  have hpos : s.position? i = some j := by
    unfold CoreState.position?
    rw [List.idxOf?_eq_some_iff]
    refine ⟨hlt, he, fun k hk hki => ?_⟩
    have hkj := (List.getElem_inj (hnd : List.Nodup s.items)).1 (hki.trans he.symm)
    omega
  have hstate : (ofStates states).states[q]? = some s := by simpa [ofStates] using hs
  simp [node?, hstate, bases_ofStates (List.getElem?_eq_some_iff.1 hs).1, hpos]

/-- A node that is found is that of an item in its place. -/
theorem node?_cases {q v : Nat} {i : Item} (h : (ofStates states).node? q i = some v) :
    ∃ s j, states[q]? = some s ∧ s.items[j]? = some i ∧ v = offset states q + j := by
  unfold node? at h
  obtain ⟨s, hs, h⟩ := Option.bind_eq_some_iff.1 h
  obtain ⟨base, hbase, h⟩ := Option.bind_eq_some_iff.1 h
  obtain ⟨j, hj, h⟩ := Option.bind_eq_some_iff.1 h
  have hstate : states[q]? = some s := by simpa [ofStates] using hs
  rw [bases_ofStates (List.getElem?_eq_some_iff.1 hstate).1] at hbase
  cases hbase
  obtain ⟨hlt, he, -⟩ := List.idxOf?_eq_some_iff.1 hj
  exact ⟨s, j, hstate, List.getElem?_eq_some_iff.2 ⟨hlt, he⟩, (Option.some.inj h).symm⟩

theorem size_edges (g : Grammar V) (first : FirstSets) (states : List CoreState) :
    ((ofStates states).edges g first).size = offset states states.length := by
  simp only [edges, ofStates, List.size_toArray, List.length_flatten, offset, List.take_length]
  congr 1
  apply List.ext_getElem <;> simp

theorem edges_getD {q j : Nat} {s : CoreState} {i : Item} (hs : states[q]? = some s)
    (hi : s.items[j]? = some i) :
    ((ofStates states).edges g first).getD (offset states q + j) [] =
      (ofStates states).successors g first q s i := by
  have hj := (List.getElem?_eq_some_iff.1 hi).1
  set l := ofStates states
  have hq : (states.mapIdx fun n s => s.items.map (l.successors g first n s))[q]? =
      some (s.items.map (l.successors g first q s)) := by simp [hs]
  -- the lists of successors are as long as the lists of items
  have hlen : ((states.mapIdx fun n s => s.items.map (l.successors g first n s)).take q).flatten.length
      = offset states q := by
    unfold offset
    rw [List.length_flatten, List.length_flatten]
    congr 1
    apply List.ext_getElem <;> simp
  have hget := getElem?_flatten hq (j := j) (by simpa using hj)
  rw [hlen] at hget
  have hstates : l.states.toList = states := rfl
  rw [Array.getD_eq_getD_getElem?, edges, hstates, List.getElem?_toArray, hget]
  simp [hi]

theorem mem_given {q : Nat} {s : CoreState} {i : Item} {gift : Nat × TerminalSet}
    (hs : states[q]? = some s) (hi : i ∈ s.items) (hg : gift ∈ (ofStates states).gifts g first q i) :
    gift ∈ (ofStates states).given g first := by
  refine List.mem_cons_of_mem _ (List.mem_flatten.2 ⟨_, ?_, List.mem_flatMap.2 ⟨i, hi, hg⟩⟩)
  refine List.mem_iff_getElem?.2 ⟨q, ?_⟩
  have hstate : (ofStates states).states[q]? = some s := by simpa [ofStates] using hs
  simp [hstate]

/-- What is given to a node is `$eof` for the start item, or comes from an item of its state. -/
theorem mem_given_cases {gift : Nat × TerminalSet} (h : gift ∈ (ofStates states).given g first) :
    gift = (0, .singleton Terminal.eof) ∨
      ∃ q s i, states[q]? = some s ∧ i ∈ s.items ∧ gift ∈ (ofStates states).gifts g first q i := by
  rcases List.mem_cons.1 h with h | h
  · exact Or.inl h
  · obtain ⟨l, hl, hgift⟩ := List.mem_flatten.1 h
    obtain ⟨q, hq⟩ := List.mem_iff_getElem?.1 hl
    rw [List.getElem?_mapIdx] at hq
    obtain ⟨s, hs, rfl⟩ := Option.map_eq_some_iff.1 hq
    obtain ⟨i, hi, hgift⟩ := List.mem_flatMap.1 hgift
    exact Or.inr ⟨q, s, i, hs, hi, hgift⟩

end Layout

/-- What the flood leaves at the nodes of the collection. -/
def Grammar.flooded (g : Grammar V) : Array TerminalSet :=
  flood ((Layout.ofStates g.collection).edges g (.compute g))
    ((Layout.ofStates g.collection).given g (.compute g))

theorem size_flooded (g : Grammar V) :
    g.flooded.size = offset g.collection g.collection.length :=
  (size_flood _ _).trans (Layout.size_edges g _ _)

/-- The state of the automaton that is made of state `q` of the collection. -/
def Grammar.completed (g : Grammar V) (q : Nat) (c : CoreState) : State where
  items := c.items.zip (g.flooded.toList.drop (offset g.collection q))
  kernelSize := c.kernel.length
  edges := c.edges

/-- **The states of the automaton are those of the collection.** -/
theorem automaton_state (g : Grammar V) (q : Nat) :
    g.automaton.states[q]? = g.collection[q]?.map (g.completed q) := by
  have hlook : (g.lookaheads g.collection)[q]? = g.collection[q]?.map fun c =>
      c.items.zip (g.flooded.toList.drop (offset g.collection q)) := by
    unfold Grammar.lookaheads
    rw [getElem?_distribute, List.getElem?_map, Option.map_map, ← List.map_take]
    rfl
  unfold Grammar.automaton
  rw [List.getElem?_toArray, List.getElem?_zipWith, hlook]
  cases g.collection[q]? with
  | none => rfl
  | some c => rfl

theorem size_automaton (g : Grammar V) : g.automaton.states.size = g.collection.length := by
  have hiff : ∀ q, g.automaton.states.size ≤ q ↔ g.collection.length ≤ q := by
    intro q
    rw [← Array.getElem?_eq_none_iff, automaton_state, Option.map_eq_none_iff,
      List.getElem?_eq_none_iff]
  have h := hiff g.automaton.states.size
  have h' := hiff g.collection.length
  omega

/-- **The lookahead of an item is what the flood left at its node.** -/
theorem getElem?_completed {q j : Nat} {c : CoreState} {i : Item} (hc : g.collection[q]? = some c)
    (hi : c.items[j]? = some i) : (g.completed q c).items[j]? =
      some (i, g.flooded.getD (offset g.collection q + j) ∅) := by
  have hlt := offset_add_lt hc (List.getElem?_eq_some_iff.1 hi).1
  rw [← size_flooded] at hlt
  unfold Grammar.completed
  rw [List.getElem?_zip_eq_some]
  refine ⟨hi, ?_⟩
  rw [List.getElem?_drop, Array.getElem?_toList, Array.getElem?_eq_getElem hlt]
  simp [hlt]

theorem map_fst_completed {q : Nat} {c : CoreState} (hc : g.collection[q]? = some c) :
    (g.completed q c).items.map (·.1) = c.items := by
  apply List.ext_getElem?
  intro j
  rw [List.getElem?_map]
  cases hi : c.items[j]? with
  | some i => rw [getElem?_completed hc hi]; rfl
  | none =>
    have hge := List.getElem?_eq_none_iff.1 hi
    have hlen : (g.completed q c).items.length ≤ c.items.length := by
      simp [Grammar.completed]
    rw [List.getElem?_eq_none_iff.2 (by omega)]
    rfl

end ParserGen
