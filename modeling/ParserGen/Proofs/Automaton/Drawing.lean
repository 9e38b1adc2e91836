import ParserGen.Proofs.Table.Cells
import ParserGen.Proofs.Text.Dot

/-!
# Drawings show the automaton

A drawing is read back as what it was made for, whatever the names of the symbols are: the label of a
state has its number and its items, and that of an edge the name of its symbol.

* `standsFor_item`, `standsFor_state`: the labels are read as the items and states.
* `read_automaton`, `read_state`: the statements of the drawings, of any automaton.
* `drawings_faithful`: **the drawing of the automaton has one node for each state and one edge for each
  transition, and that of a state has its successors and the transitions to them.**
-/

namespace ParserGen

variable {V : Type} {g : Grammar V}

namespace Dot

/-! ## Labels -/

/-- The line for an item: the left side unless it is that of the start rule, the components with the dot
among them, and the lookahead if the dot is at the end. -/
def itemLabel (g : Grammar V) (i : Item) (lookahead : TerminalSet) : String :=
  let components := g.componentsOf i.rule
  (if i.rule = 0 then "" else g.leftName i.rule ++ " &rarr; ") ++
    " ".intercalate (components.insertIdx i.dot "&bull;") ++
    if i.dot = components.length then " [" ++ " ".intercalate (g.terminalNames lookahead) ++ "]" else ""

/-- The number of a state. -/
def numberLabel (n : Nat) : String :=
  "State " ++ toString n

/-- The number of a state, an empty line and its items. -/
def stateLabel (g : Grammar V) (n : Nat) (s : State) : String :=
  numberLabel n ++ "\n\n" ++ "\n".intercalate (s.items.map fun e => itemLabel g e.1 e.2)

theorem insertIdx_eq_take_drop {α : Type} (a : α) {l : List α} {n : Nat} (h : n ≤ l.length) :
    l.insertIdx n a = l.take n ++ a :: l.drop n := by
  induction l generalizing n with
  | nil =>
    obtain rfl := Nat.le_zero.1 h
    rfl
  | cons b l ih =>
    cases n with
    | zero => rfl
    | succ n =>
      rw [List.insertIdx_succ_cons, ih (Nat.le_of_succ_le_succ h)]
      rfl

theorem standsFor_names (names : List String) : List.Forall₂ StandsFor (names.map escape) names := by
  rw [List.forall₂_map_left_iff]
  exact List.forall₂_same.2 fun name _ => standsFor_escape name

theorem standsFor_numberLabel (n : Nat) : StandsFor ("State " ++ toString n) (numberLabel n) := by
  refine .append (.plain (by decide)) (.plain (List.all_eq_true.2 fun c hc => ?_))
  have hdigit := isDigit_toString n c hc
  have hquote : c ≠ '"' := by
    rintro rfl
    cases hdigit
  have hback : c ≠ '\\' := by
    rintro rfl
    cases hdigit
  simp [isPlain, hquote, hback]

theorem length_componentsOf (wf : g.WellFormed) {rule : Nat} (h : rule < g.rules.size) :
    (g.componentsOf rule).length = g.ruleLength rule := by
  have hr := Array.getElem?_eq_getElem h
  unfold Grammar.componentsOf Grammar.ruleLength Grammar.symbolsOf
  rw [hr]
  exact wf.length hr

/-- **The text of an item is read as its label.** -/
theorem standsFor_item (wf : g.WellFormed) {i : Item} (hi : g.IsItem i) (lookahead : TerminalSet) :
    StandsFor (item g i lookahead) (itemLabel g i lookahead) := by
  have hlength := length_componentsOf wf hi.1
  have hblank : StandsFor " " " " := .plain (by decide)
  have hleft : StandsFor (if i.rule = 0 then "" else escape (g.leftName i.rule) ++ " &rarr; ")
      (if i.rule = 0 then "" else g.leftName i.rule ++ " &rarr; ") := by
    split_ifs
    · exact .empty
    · exact (standsFor_escape _).append (.plain (by decide))
  have hright : List.Forall₂ StandsFor
      (((g.componentsOf i.rule).map escape).take i.dot ++
        "&bull;" :: ((g.componentsOf i.rule).map escape).drop i.dot)
      ((g.componentsOf i.rule).insertIdx i.dot "&bull;") := by
    rw [insertIdx_eq_take_drop _ (hlength ▸ hi.2), ← List.map_take, ← List.map_drop]
    exact List.rel_append (standsFor_names _) (.cons (.plain (by decide)) (standsFor_names _))
  have hfollow : StandsFor
      (if g.isComplete i then " [" ++ " ".intercalate ((g.terminalNames lookahead).map escape) ++ "]"
        else "")
      (if i.dot = (g.componentsOf i.rule).length then
        " [" ++ " ".intercalate (g.terminalNames lookahead) ++ "]" else "") := by
    have hcomplete : g.isComplete i = true ↔ i.dot = (g.componentsOf i.rule).length := by
      rw [hlength]
      exact beq_iff_eq
    simp only [hcomplete]
    split_ifs
    · exact (StandsFor.append (.plain (by decide)) (hblank.intercalate (standsFor_names _))).append
        (.plain (by decide))
    · exact .empty
  exact (hleft.append (hblank.intercalate hright)).append hfollow

/-- **The text of a state is read as its label.** -/
theorem standsFor_state (wf : g.WellFormed) {n : Nat} {s : State}
    (hs : g.automaton.states[n]? = some s) :
    StandsFor ("State " ++ toString n ++ "\\n\\n" ++
      "\\n".intercalate (s.items.map fun e => item g e.1 e.2)) (stateLabel g n s) := by
  have hitems : List.Forall₂ StandsFor (s.items.map fun e => item g e.1 e.2)
      (s.items.map fun e => itemLabel g e.1 e.2) := by
    rw [List.forall₂_map_left_iff, List.forall₂_map_right_iff]
    exact List.forall₂_same.2 fun e he =>
      standsFor_item wf (isItem_of_mem_core wf hs (List.mem_map_of_mem he)) e.2
  exact ((standsFor_numberLabel n).append (StandsFor.newline.append .newline)).append
    (StandsFor.newline.intercalate hitems)

/-! ## Statements -/

theorem spells_fullState (wf : g.WellFormed) {n : Nat} {s : State}
    (hs : g.automaton.states[n]? = some s) :
    Spells (fullState g n s) (Statement.node n (stateLabel g n s)).pieces :=
  spells_node n (standsFor_state wf hs)

theorem spells_briefState (n : Nat) :
    Spells (briefState n) (Statement.node n (numberLabel n)).pieces :=
  spells_node n (standsFor_numberLabel n)

/-- The drawing of the automaton. -/
theorem read_automaton (wf : g.WellFormed) : Drawing.read (automaton g g.automaton) =
    some (.ofParts "Automaton"
      (g.automaton.states.toList.mapIdx fun n s => (n, stateLabel g n s))
      (g.automaton.transitions.map fun e => (e.1, e.2.2, g.symbolName e.2.1))) := by
  refine read_graph (by decide) (by decide) ?_ ?_
  · rw [List.mapIdx_eq_zipIdx_map, List.mapIdx_eq_zipIdx_map, List.forall₂_map_left_iff,
      List.forall₂_map_right_iff]
    refine List.forall₂_same.2 fun e he => spells_fullState wf ?_
    simpa using List.mem_zipIdx_iff_getElem?.1 he
  · rw [List.forall₂_map_left_iff, List.forall₂_map_right_iff]
    exact List.forall₂_same.2 fun e _ => spells_edge g e.1 e.2.2 e.2.1

/-- There are drawings of the states of the automaton only. -/
theorem state?_eq_none_iff {a : Automaton} {n : Nat} : state? g a n = none ↔ a.size ≤ n := by
  unfold state? Automaton.size
  split
  · rename_i hnone
    simpa using hnone
  · rename_i s hsome
    have hlt := (Array.getElem?_eq_some_iff.1 hsome).1
    simpa using hlt

/-- The successors of a state other than itself, each once. -/
def successors (n : Nat) (s : State) : List Nat :=
  (s.edges.map (·.2)).eraseDups.filter (· != n)

/-- The drawing of a state. -/
theorem read_state (wf : g.WellFormed) {n : Nat} {s : State}
    (hs : g.automaton.states[n]? = some s) : (state? g g.automaton n).bind Drawing.read =
    some (.ofParts ("State" ++ toString n)
      ((n, stateLabel g n s) :: (successors n s).map fun m => (m, numberLabel m))
      (s.edges.map fun e => (n, e.2, g.symbolName e.1))) := by
  have hname : ("State" ++ toString n).toList.all isLetter = true := by
    have hstate : "State".toList.all isLetter = true := by decide
    rw [String.toList_append, List.all_append, hstate, all_isLetter_toString]
    rfl
  have hne : "State" ++ toString n ≠ "" := by
    simp
  have htext : state? g g.automaton n = some (graph ("State" ++ toString n)
      (fullState g n s :: (successors n s).map briefState)
      (s.edges.map fun e => edge g n e.1 e.2)) := by
    unfold state?
    rw [hs]
    rfl
  rw [htext, Option.bind_some]
  refine read_graph hne hname (.cons (spells_fullState wf hs) ?_) ?_
  · rw [List.forall₂_map_left_iff, List.forall₂_map_right_iff]
    exact List.forall₂_same.2 fun m _ => spells_briefState m
  · rw [List.forall₂_map_left_iff, List.forall₂_map_right_iff]
    exact List.forall₂_same.2 fun e _ => spells_edge g n e.2 e.1

end Dot

/-! ## Transitions -/

theorem transitions_eq_flatMap (a : Automaton) : a.transitions =
    a.states.toList.zipIdx.flatMap fun e => e.1.edges.map fun f => (e.2, f.1, f.2) := by
  unfold Automaton.transitions
  rw [List.mapIdx_eq_zipIdx_map]
  rfl

theorem mem_transitions_iff (wf : g.WellFormed) {p q : Nat} {x : Symbol} :
    (p, x, q) ∈ g.automaton.transitions ↔ g.automaton.transition? p x = some q := by
  rw [transitions_eq_flatMap, List.mem_flatMap]
  constructor
  · rintro ⟨⟨s, n⟩, hs, he⟩
    obtain ⟨e, hmem, heq⟩ := List.mem_map.1 he
    cases heq
    exact (mem_edges_iff wf (by simpa using List.mem_zipIdx_iff_getElem?.1 hs)).1 hmem
  · intro h
    obtain ⟨s, hs, -⟩ := Option.bind_eq_some_iff.1 h
    refine ⟨(s, p), List.mem_zipIdx_iff_getElem?.2 (by simpa using hs), ?_⟩
    exact List.mem_map.2 ⟨(x, q), (mem_edges_iff wf hs).2 h, rfl⟩

/-- Each transition is listed once. -/
theorem nodup_transitions (wf : g.WellFormed) : g.automaton.transitions.Nodup := by
  rw [transitions_eq_flatMap, List.nodup_flatMap]
  constructor
  · rintro ⟨s, n⟩ hs
    have hedges := nodup_edges wf (by simpa using List.mem_zipIdx_iff_getElem?.1 hs)
    refine List.Nodup.map ?_ hedges.of_map
    rintro ⟨x, q⟩ ⟨y, p⟩ h
    cases h
    rfl
  · -- the transitions of two states differ in where they begin
    have hnumbers : (g.automaton.states.toList.zipIdx.map (·.2)).Nodup := by
      rw [List.zipIdx_map_snd]
      exact List.nodup_range'
    refine (List.pairwise_map.1 hnumbers).imp ?_
    intro e f hne t he hf
    obtain ⟨x, -, rfl⟩ := List.mem_map.1 he
    obtain ⟨y, -, heq⟩ := List.mem_map.1 hf
    exact hne (congrArg (·.1) heq).symm

namespace Dot

theorem mem_successors_iff (wf : g.WellFormed) {n m : Nat} {s : State}
    (hs : g.automaton.states[n]? = some s) :
    m ∈ successors n s ↔ m ≠ n ∧ ∃ x, g.automaton.transition? n x = some m := by
  unfold successors
  rw [List.mem_filter, List.mem_eraseDups, List.mem_map]
  simp only [bne_iff_ne, ← mem_edges_iff wf hs]
  constructor
  · rintro ⟨⟨⟨x, p⟩, he, rfl⟩, hne⟩
    exact ⟨hne, x, he⟩
  · rintro ⟨hne, x, he⟩
    exact ⟨⟨(x, m), he, rfl⟩, hne⟩

/-! ## What the drawings show -/

/-- The drawing shows the automaton: its labels in order, a node for each state and an edge for each
transition. -/
structure ShowsAutomaton (g : Grammar V) (d : Drawing) : Prop where
  name : d.name = "Automaton"
  labels : d.labels = "LR" :: (g.automaton.states.toList.mapIdx (stateLabel g) ++
    g.automaton.transitions.map fun e => g.symbolName e.2.1)
  nodes : d.nodes = g.automaton.states.toList.mapIdx fun n s => (n, stateLabel g n s)
  numbers : d.nodes.map (·.1) = List.range g.automaton.size
  edges : d.edges = g.automaton.transitions.map fun e => (e.1, e.2.2, g.symbolName e.2.1)
  nodup_transitions : g.automaton.transitions.Nodup
  mem_transitions : ∀ p x q,
    (p, x, q) ∈ g.automaton.transitions ↔ g.automaton.transition? p x = some q

/-- The drawing shows a state with its items, its other successors by their numbers, and the transitions
to them. -/
structure ShowsState (g : Grammar V) (n : Nat) (s : State) (d : Drawing) : Prop where
  name : d.name = "State" ++ toString n
  labels : d.labels = "LR" :: stateLabel g n s ::
    ((successors n s).map numberLabel ++ s.edges.map fun e => g.symbolName e.1)
  nodes : d.nodes = (n, stateLabel g n s) :: (successors n s).map fun m => (m, numberLabel m)
  edges : d.edges = s.edges.map fun e => (n, e.2, g.symbolName e.1)
  nodup_successors : (successors n s).Nodup
  mem_successors : ∀ m, m ∈ successors n s ↔
    m ≠ n ∧ ∃ x, g.automaton.transition? n x = some m
  lt_size : ∀ m ∈ successors n s, m < g.automaton.size
  nodup_edges : s.edges.Nodup
  mem_edges : ∀ x m, (x, m) ∈ s.edges ↔ g.automaton.transition? n x = some m

theorem showsAutomaton (wf : g.WellFormed) :
    ∃ d, Drawing.read (automaton g g.automaton) = some d ∧ ShowsAutomaton g d := by
  refine ⟨_, read_automaton wf, rfl, ?_, Drawing.nodes_ofParts .., ?_, Drawing.edges_ofParts ..,
    nodup_transitions wf, fun _ _ _ => mem_transitions_iff wf⟩
  · rw [Drawing.labels_ofParts, List.map_map, List.mapIdx_eq_zipIdx_map, List.mapIdx_eq_zipIdx_map,
      List.map_map]
    rfl
  · rw [Drawing.nodes_ofParts, List.mapIdx_eq_zipIdx_map, List.map_map]
    exact (List.zipIdx_map_snd 0 _).trans (by rw [Array.length_toList, List.range_eq_range']; rfl)

theorem showsState (wf : g.WellFormed) {n : Nat} {s : State}
    (hs : g.automaton.states[n]? = some s) :
    ∃ d, (state? g g.automaton n).bind Drawing.read = some d ∧ ShowsState g n s d := by
  refine ⟨_, read_state wf hs, rfl, ?_, Drawing.nodes_ofParts .., Drawing.edges_ofParts ..,
    (Grammar.nodup_eraseDups _).filter _, fun _ => mem_successors_iff wf hs, ?_,
    (nodup_edges wf hs).of_map, fun _ _ => mem_edges_iff wf hs⟩
  · rw [Drawing.labels_ofParts, List.map_cons, List.map_map, List.map_map]
    rfl
  · intro m hm
    obtain ⟨-, x, hx⟩ := (mem_successors_iff wf hs).1 hm
    exact transition?_lt wf hx

/-- **Drawings show the automaton, whatever the names of its symbols are.** The drawing of the automaton
can be read, and shows it; that of a state can be read, and shows the state. There is one for each state
and no other. -/
theorem drawings_faithful (hg : g.Defined) :
    (∃ d, Drawing.read (automaton g g.automaton) = some d ∧ ShowsAutomaton g d) ∧
    (∀ n < g.automaton.size, ∃ text s d, state? g g.automaton n = some text ∧
      g.automaton.states[n]? = some s ∧ Drawing.read text = some d ∧ ShowsState g n s d) ∧
    ∀ n, g.automaton.size ≤ n → state? g g.automaton n = none := by
  refine ⟨showsAutomaton hg.wellFormed, fun n hn => ?_, fun n hn => state?_eq_none_iff.2 hn⟩
  have hs : g.automaton.states[n]? = some g.automaton.states[n] := Array.getElem?_eq_getElem hn
  obtain ⟨d, hread, hshows⟩ := showsState hg.wellFormed hs
  obtain ⟨text, htext, hread⟩ := Option.bind_eq_some_iff.1 hread
  exact ⟨text, _, d, htext, hs, hread, hshows⟩

/-- Names with quotes, backslashes and line ends. -/
def oddCalls : List (Call Unit) :=
  [.rule "S\\" ["\"", "S\\", "a\nb"], .rule "S\\" [], .start "S\\"]

/-- The grammar of brackets with odd names. -/
def oddGrammar : Grammar Unit :=
  (Grammar.define (oddCalls.forM Call.attempt)).toOption.get (by decide +kernel)

theorem oddGrammar_labels : ∃ d, Drawing.read (automaton oddGrammar oddGrammar.automaton) = some d ∧
    d.labels.take 3 = ["LR",
      "State 0\n\n&bull; S\\\nS\\ &rarr; &bull; \" S\\ a\nb\nS\\ &rarr; &bull; [$eof]",
      "State 1\n\nS\\ &bull; [$eof]"] ∧
    d.edges.take 2 = [(0, 1, "S\\"), (0, 2, "\"")] := by
  have hdefined : oddGrammar.Defined := ⟨oddCalls, eq_ok_get _ _⟩
  obtain ⟨⟨d, hread, hshows⟩, -⟩ := drawings_faithful hdefined
  refine ⟨d, hread, ?_, ?_⟩
  · rw [hshows.labels]
    decide +kernel
  · rw [hshows.edges]
    decide +kernel

end Dot

end ParserGen
