import ParserGen.Parser
import ParserGen.Proofs.Grammar.ParseTree
import ParserGen.Proofs.Table.Cells

/-!
# The stack of the engine

The states on the stack are those of a path in the automaton, and each value on it is that of a tree
for the symbol the path goes over. An item in the state on top tells what lies beneath: the symbols
before its dot are the last ones of the path, and the same rule with the dot in front is in the state
under them. So a rule that the table reduces by finds its components on the stack, and its left side
leads on from the state that is uncovered.

* `Stacked`: the stack as a path with trees.
* `Stacked.item`: **what an item in the top state says about the stack.**
* `Stacked.reducible`: a rule to reduce by has its components on the stack, and a goto.
* `Stacked.reduce`: what a reduction makes of the stack.
* `Stacked.accepted`: where the table accepts, the stack holds a tree of the start symbol alone.
-/

namespace ParserGen

variable {V W : Type} {g : Grammar V} {e : Engine W}

/-- The engine runs on a table of the grammar, with any values. -/
structure Engine.RunsOn (e : Engine W) (g : Grammar V) : Prop where
  wf : g.WellFormed
  fit : g.CodesFit
  table : ∃ r, g.analyze.outcome = .ok r ∧ e.table = r.table
  lhs : ∀ k, e.reductions.lhs k = (g.rules[k]?).map (·.name)
  arity : ∀ k, e.reductions.arity k = (g.rules[k]?).map (·.length)

theorem Engine.RunsOn.canonical (he : e.RunsOn g) : g.Canonical g.automaton :=
  canonical_automaton he.wf he.fit

/-- The table looks gotos up by the name on the left of a rule. -/
theorem Engine.RunsOn.goto?_left (he : e.RunsOn g) {q k p : Nat} {r : Rule V}
    (hr : g.rules[k]? = some r)
    (hp : g.automaton.transition? q (.nonterminal r.left) = some p) :
    e.table.goto? q r.name = some p := by
  obtain ⟨y, hy, htable⟩ := he.table
  have hname : g.nonterminalName r.left = r.name := NameTable.name_eq (he.wf.name hr)
  rw [htable, ← hname]
  exact goto?_of_transition he.wf hy hp

/-- Only the first state is entered with a dot in front, that of the start item. -/
theorem start_of_mem_kernel (wf : g.WellFormed) (hfit : g.CodesFit) {q k : Nat} {s : State}
    (hs : g.automaton.states[q]? = some s) (hi : ⟨k, 0⟩ ∈ s.coreKernel) : q = 0 ∧ k = 0 := by
  have hcan := canonical_automaton wf hfit
  obtain ⟨w, hw⟩ := hcan.reachable q (Array.getElem?_eq_some_iff.1 hs).1
  rcases List.eq_nil_or_concat w with rfl | ⟨w, x, rfl⟩
  · obtain rfl : 0 = q := Option.some.inj hw
    obtain ⟨t, ht, hk⟩ := hcan.initial
    rw [hs] at ht
    cases ht
    rw [hk, List.mem_singleton] at hi
    exact ⟨rfl, congrArg Item.rule hi⟩
  · rw [List.concat_eq_append] at hw
    obtain ⟨p, -, hp⟩ := Automaton.walk?_concat hw
    exact absurd (dot_pos_of_transition wf hfit hp hs hi) (Nat.lt_irrefl 0)

/-- A state in which a rule other than the start rule begins has a transition over its left side. -/
theorem exists_transition_left (wf : g.WellFormed) (hfit : g.CodesFit) {q k : Nat} {s : State}
    {r : Rule V} (hs : g.automaton.states[q]? = some s) (hi : ⟨k, 0⟩ ∈ s.core) (h0 : k ≠ 0)
    (hr : g.rules[k]? = some r) : ∃ p, g.automaton.transition? q (.nonterminal r.left) = some p := by
  have hcan := canonical_automaton wf hfit
  cases (hcan.mem_core hs ⟨k, 0⟩).1 hi with
  | kernel hk => exact absurd (start_of_mem_kernel wf hfit hs hk).2 h0
  | opened hj hx hr' hl =>
    rw [hr] at hr'
    cases hr'
    subst hl
    exact hcan.transition_iff.2 ⟨s, hs, _, (hcan.mem_core hs _).2 hj, hx⟩

/-- The start rule begins in the first state only. -/
theorem eq_zero_of_start_item (wf : g.WellFormed) (hfit : g.CodesFit) {q : Nat} {s : State}
    (hs : g.automaton.states[q]? = some s) (hi : Item.start ∈ s.core) : q = 0 := by
  have hcan := canonical_automaton wf hfit
  have hclosure := (hcan.mem_core hs Item.start).1 hi
  unfold Item.start at hclosure
  cases hclosure with
  | kernel hm => exact (start_of_mem_kernel wf hfit hs hm).1
  | opened _ hx hr hl =>
    -- `$start` stands after no dot
    obtain ⟨r, hr', hleft, -⟩ := wf.startRule
    rw [hr] at hr'
    cases hr'
    obtain ⟨r', hr', hm⟩ := Grammar.symbolAfterDot_cases hx
    exact absurd (hl ▸ hleft) (wf.nonterminal hr' (List.mem_of_getElem? hm)).1

/-- The stack is a path in the automaton over the symbols `w`, the last one first, and its values are
those of trees for these symbols. -/
inductive Stacked (g : Grammar V) (e : Engine W) :
    List (Frame W) → List Symbol → List ParseTree → Prop where
  | nil : Stacked g e [] [] []
  | cons {stack : List (Frame W)} {w : List Symbol} {trees : List ParseTree} {x : Symbol} {q : Nat}
      {tree : ParseTree} (h : Stacked g e stack w trees)
      (hq : g.automaton.transition? (Machine.topState stack) x = some q) (ht : g.Derives x tree) :
      Stacked g e (⟨q, tree.eval e.reductions.reduce e.ofToken⟩ :: stack) (x :: w) (tree :: trees)

namespace Stacked

variable {stack : List (Frame W)} {w : List Symbol} {trees : List ParseTree}

/-- There is a state on top. -/
theorem exists_top (he : e.RunsOn g) (h : Stacked g e stack w trees) :
    ∃ s, g.automaton.states[Machine.topState stack]? = some s := by
  cases h with
  | nil =>
    obtain ⟨s, hs, -⟩ := he.canonical.initial
    exact ⟨s, hs⟩
  | cons _ hq _ =>
    obtain ⟨s, hs, -⟩ := he.canonical.transition_iff.1 ⟨_, hq⟩
    obtain ⟨t, ht, -⟩ := he.canonical.target hs hq
    exact ⟨t, ht⟩

/-- The symbols lead to the state on top. -/
theorem walk (h : Stacked g e stack w trees) :
    g.automaton.walk? w.reverse = some (Machine.topState stack) := by
  induction h with
  | nil => rfl
  | cons _ hq _ ih =>
    rw [List.reverse_cons, Automaton.walk?_append ih]
    exact hq

theorem derivesAll (h : Stacked g e stack w trees) : g.DerivesAll w.reverse trees.reverse := by
  induction h with
  | nil => exact .nil
  | cons _ _ ht ih =>
    rw [List.reverse_cons, List.reverse_cons]
    exact ih.append (.cons ht .nil)

theorem eq_nil_of_top (he : e.RunsOn g) (h : Stacked g e stack w trees)
    (h0 : Machine.topState stack = 0) : stack = [] := by
  cases h with
  | nil => rfl
  | cons _ hq _ =>
    have h0 : _ = 0 := h0
    subst h0
    exact absurd hq (transition_ne_zero he.wf he.fit.lengthsFit)

/-- What is beneath the first `d` frames is a stack, and the frames hold the trees above it. -/
theorem drop (h : Stacked g e stack w trees) (d : Nat) :
    Stacked g e (stack.drop d) (w.drop d) (trees.drop d) ∧
      ((stack.take d).map (·.value)).reverse =
        ParseTree.evalAll e.reductions.reduce e.ofToken (trees.take d).reverse ∧
      g.DerivesAll (w.take d).reverse (trees.take d).reverse := by
  induction d generalizing stack w trees with
  | zero => exact ⟨h, rfl, .nil⟩
  | succ d ih =>
    cases h with
    | nil => exact ⟨.nil, rfl, .nil⟩
    | cons h hq ht =>
      obtain ⟨hrest, hvalues, htrees⟩ := ih h
      refine ⟨hrest, ?_, ?_⟩
      · rw [ParseTree.evalAll_eq_map] at hvalues ⊢
        simp only [List.take_succ_cons, List.map_cons, List.reverse_cons, List.map_append, hvalues,
          List.map_nil]
      · simp only [List.take_succ_cons, List.reverse_cons]
        exact htrees.append (.cons ht .nil)

/-- **What an item in the top state says about the stack**: the symbols before the dot are the last
ones read, and the rule began in the state beneath them. -/
theorem item (he : e.RunsOn g) {k d : Nat} (h : Stacked g e stack w trees) {s : State}
    (hs : g.automaton.states[Machine.topState stack]? = some s) (hi : ⟨k, d⟩ ∈ s.core) :
    d ≤ stack.length ∧ (w.take d).reverse = (g.symbolsOf k).take d ∧
      ∃ s', g.automaton.states[Machine.topState (stack.drop d)]? = some s' ∧ ⟨k, 0⟩ ∈ s'.core := by
  induction d generalizing stack w trees s with
  | zero => exact ⟨Nat.zero_le _, rfl, s, hs, hi⟩
  | succ d ih =>
    -- an item whose dot has moved is one of the kernel
    have hk : ⟨k, d + 1⟩ ∈ s.coreKernel := by
      cases (he.canonical.mem_core hs _).1 hi with
      | kernel hk => exact hk
    cases h with
    | nil =>
      obtain ⟨t, ht, hkernel⟩ := he.canonical.initial
      have hs : g.automaton.states[0]? = some s := hs
      rw [hs] at ht
      cases ht
      rw [hkernel, List.mem_singleton] at hk
      cases hk
    | @cons stack w trees x q tree h hq ht =>
      -- the item with the dot before `x` is in the state beneath
      obtain ⟨t, hst⟩ := h.exists_top he
      obtain ⟨s', hs', hmem⟩ := he.canonical.target hst hq
      have hs : g.automaton.states[q]? = some s := hs
      rw [hs] at hs'
      cases hs'
      obtain ⟨⟨k', d'⟩, hj, hx, hadv⟩ := (hmem ⟨k, d + 1⟩).1 hk
      simp only [Item.advance, Item.mk.injEq, Nat.add_right_cancel_iff] at hadv
      obtain ⟨rfl, rfl⟩ := hadv
      obtain ⟨hle, hword, hbelow⟩ := ih h hst hj
      refine ⟨by simpa using hle, ?_, hbelow⟩
      rw [List.take_succ_cons, List.reverse_cons, hword, List.take_add_one]
      unfold Grammar.symbolAfterDot at hx
      simp only at hx
      rw [hx]
      rfl

/-- **A rule to reduce by has its components on the stack**, and its left side leads on from the
state beneath them. -/
theorem reducible (he : e.RunsOn g) (h : Stacked g e stack w trees) {s : State}
    (hs : g.automaton.states[Machine.topState stack]? = some s) {i : Item} (hi : i ∈ s.core)
    (h0 : i.rule ≠ 0) (hc : g.isComplete i = true) :
    ∃ r p, g.rules[i.rule]? = some r ∧ r.length ≤ stack.length ∧
      (w.take r.length).reverse = r.symbols ∧
      g.automaton.transition? (Machine.topState (stack.drop r.length)) (.nonterminal r.left) = some p ∧
      e.table.goto? (Machine.topState (stack.drop r.length)) r.name = some p := by
  obtain ⟨k, d⟩ := i
  have hitem : g.IsItem ⟨k, d⟩ := by
    obtain ⟨c, hcol, hcore, -⟩ := state_cases he.wf hs
    obtain ⟨f, hex⟩ := g.explores_collection he.wf
    rw [hcore] at hi
    exact Grammar.isItem_of_closure (isKernel_found he.wf hex hcol).2
      ((mem_core_iff he.wf hcol _).1 hi)
  obtain ⟨r, hr⟩ : ∃ r, g.rules[k]? = some r := ⟨_, Array.getElem?_eq_getElem hitem.1⟩
  have hsymbols : g.symbolsOf k = r.symbols := Grammar.symbolsOf_eq hr
  have hlength : r.length = r.symbols.length := he.wf.length hr
  -- the dot of a complete item counts the components
  obtain rfl : d = r.length := by
    have hd : d = (g.symbolsOf k).length := by simpa [Grammar.isComplete, Grammar.ruleLength] using hc
    rw [hd, hsymbols, hlength]
  obtain ⟨hle, hword, s', hs', hbegin⟩ := h.item he hs hi
  rw [hsymbols, hlength, List.take_length, ← hlength] at hword
  obtain ⟨p, hp⟩ := exists_transition_left he.wf he.fit hs' hbegin h0 hr
  exact ⟨r, p, hr, hle, hword, hp, he.goto?_left hr hp⟩

/-- **A reduction puts the left side of a rule on the stack in the place of its components**, and a
tree of the rule in the place of their trees. -/
theorem reduce (he : e.RunsOn g) {m : Machine W} (h : Stacked g e m.stack w trees) {s : State}
    (hs : g.automaton.states[Machine.topState m.stack]? = some s) {i : Item} (hi : i ∈ s.core)
    (h0 : i.rule ≠ 0) (hc : g.isComplete i = true) :
    ∃ r frame, g.rules[i.rule]? = some r ∧ (w.take r.length).reverse = r.symbols ∧
      e.reduce i.rule m = .next { m with
        stack := frame :: m.stack.drop r.length, reduced := i.rule :: m.reduced } ∧
      Stacked g e (frame :: m.stack.drop r.length) (.nonterminal r.left :: w.drop r.length)
        (.node i.rule (trees.take r.length).reverse :: trees.drop r.length) := by
  obtain ⟨r, p, hr, hle, hword, hp, hgoto⟩ := h.reducible he hs hi h0 hc
  obtain ⟨hrest, hvalues, htrees⟩ := h.drop r.length
  rw [hword] at htrees
  refine ⟨r, _, hr, hword, ?_, hrest.cons hp (.node hr htrees)⟩
  have hlt : ¬ r.length > m.stack.length := by omega
  unfold Engine.reduce
  simp only [he.lhs, he.arity, hr, Option.map_some, hlt, if_false, hgoto, hvalues, ParseTree.eval]

/-- **Where the table accepts, the stack holds one tree**, of the start symbol. -/
theorem accepted (he : e.RunsOn g) (h : Stacked g e stack w trees) {s : State}
    (hs : g.automaton.states[Machine.topState stack]? = some s) (hi : ⟨0, 1⟩ ∈ s.core) :
    ∃ q tree, trees = [tree] ∧ g.Derives (.nonterminal g.start) tree ∧
      stack = [⟨q, tree.eval e.reductions.reduce e.ofToken⟩] := by
  obtain ⟨hle, hword, s', hs', hbegin⟩ := h.item he hs hi
  -- the start rule begins in state `0`, which lies at the bottom of the stack only
  have hzero := eq_zero_of_start_item he.wf he.fit hs' hbegin
  have hnil := (h.drop 1).1.eq_nil_of_top he hzero
  cases h with
  | nil => simp at hle
  | @cons stack w trees x q tree h hq ht =>
    have hstack : stack = [] := hnil
    subst hstack
    cases h
    obtain ⟨r, hr, -, hsymbols⟩ := he.wf.startRule
    rw [Grammar.symbolsOf_eq hr, hsymbols] at hword
    have hx : x = .nonterminal g.start := by simpa using hword
    exact ⟨q, tree, rfl, hx ▸ ht, rfl⟩

end Stacked

end ParserGen
