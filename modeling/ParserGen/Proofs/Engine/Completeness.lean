import ParserGen.Proofs.Automaton.Lookahead
import ParserGen.Proofs.Engine.Soundness
import ParserGen.Proofs.Grammar.FirstSets

/-!
# Every parse tree is found

Where no conflict was settled the table holds everything the automaton proposes. The engine then
follows a given parse tree: on the leaves of a tree it comes to the tree's value in the state that the
tree's symbol leads to. The token behind the tree is in the lookahead of the tree's rule, because it
either begins what stands behind in the rule above, or follows that rule.

* `tree_runs`, `forest_runs`: the engine reads the leaves of a tree, or of the trees for what stands
  behind the dot of an item.
* `parse_complete`: **a parser without settled conflicts finds every parse tree**, and so there is
  at most one for each list of tokens.
-/

namespace ParserGen

variable {V W : Type} {g : Grammar V} {e : Engine W}

namespace TokenStream

/-- The tokens from the cursor on. -/
def rest (s : TokenStream) : List Token :=
  s.tokens.toList.drop s.position

theorem rest_eq_cons (s : TokenStream) :
    s.rest = s.current :: s.tokens.toList.drop (s.position + 1) :=
  List.drop_eq_getElem_cons s.position_lt

theorem current_of_rest {s : TokenStream} {token : Token} {l : List Token}
    (h : s.rest = token :: l) : s.current = token := by
  rw [rest_eq_cons] at h
  exact (List.cons.inj h).1

theorem exists_advance {s : TokenStream} {token next : Token} {l : List Token}
    (h : s.rest = token :: next :: l) : ∃ s', s.advance = .ok s' ∧ s'.rest = next :: l := by
  rw [rest_eq_cons] at h
  have htail := (List.cons.inj h).2
  rcases s.advance_cases with ⟨s', hs', htokens, hpos⟩ | ⟨-, hlast⟩
  · refine ⟨s', hs', ?_⟩
    unfold rest
    rw [htokens, hpos]
    exact htail
  · rw [List.drop_of_length_le (by rw [Array.length_toList]; omega)] at htail
    cases htail

end TokenStream

namespace Engine

/-- The table of the engine holds every action that the automaton proposes. -/
def Decided (e : Engine W) (g : Grammar V) : Prop :=
  ∀ ⦃q t : Nat⦄ ⦃s : State⦄ ⦃a : Action⦄, g.automaton.states[q]? = some s → t < g.terminals.size →
    s.Candidate g t a → e.table.action? q (g.terminalName t) = some a

/-- The rules of a nonterminal can be followed by `t` where the dot of an item stands before it. -/
def Follows (g : Grammar V) (q : Nat) (x : Symbol) (t : Nat) : Prop :=
  ∀ ⦃k : Nat⦄ ⦃r : Rule V⦄, g.rules[k]? = some r → x = .nonterminal r.left → g.LooksAhead q ⟨k, 0⟩ t

/-- From `m` the engine comes to where the tokens `l` are left, with `frames` put on the stack. -/
def ReadsOn (e : Engine W) (m : Machine W) (frames : List (Frame W)) (l : List Token) : Prop :=
  ∃ m', e.Reaches m m' ∧ m'.stack = frames ++ m.stack ∧ m'.stream.rest = l

theorem exists_step_shift {m : Machine W} {p : Nat} {token next : Token} {l : List Token}
    (ha : e.table.action? (Machine.topState m.stack) token.kind = some (.shift p))
    (h : m.stream.rest = token :: next :: l) : ∃ s : TokenStream, s.rest = next :: l ∧
      e.step m = .next { m with stack := ⟨p, e.ofToken token⟩ :: m.stack, stream := s } := by
  have hcur := TokenStream.current_of_rest h
  obtain ⟨s, hs, hrest⟩ := TokenStream.exists_advance h
  refine ⟨s, hrest, ?_⟩
  unfold step shift
  simp only [hcur, ha, hs]

theorem step_shift {m : Machine W} {p : Nat} {token next : Token} {l : List Token}
    (ha : e.table.action? (Machine.topState m.stack) token.kind = some (.shift p))
    (h : m.stream.rest = token :: next :: l) :
    e.ReadsOn m [⟨p, e.ofToken token⟩] (next :: l) := by
  obtain ⟨s, hrest, hstep⟩ := exists_step_shift ha h
  exact ⟨_, .single hstep, rfl, hrest⟩

/-- A reduction takes the values of its rule's components off the stack. -/
theorem step_reduce_of_goto {m : Machine W} {k p : Nat} {left : String} {frames below : List (Frame W)}
    (ha : e.table.action? (Machine.topState m.stack) m.stream.current.kind = some (.reduce k))
    (hleft : e.reductions.lhs k = some left) (hlen : e.reductions.arity k = some frames.length)
    (hstack : m.stack = frames ++ below)
    (hgoto : e.table.goto? (Machine.topState below) left = some p) :
    e.step m = .next { m with
      stack := ⟨p, e.reductions.reduce k (frames.map (·.value)).reverse⟩ :: below
      reduced := k :: m.reduced } := by
  have hle : ¬ frames.length > m.stack.length := by
    rw [hstack, List.length_append]
    omega
  unfold step reduce
  simp only [ha, hleft, hlen, hle, if_false]
  rw [hstack, List.take_left, List.drop_left, hgoto]

theorem step_reduce (he : e.RunsOn g) {m : Machine W} {k p : Nat} {r : Rule V}
    {frames below : List (Frame W)} {values : List W} (hr : g.rules[k]? = some r)
    (ha : e.table.action? (Machine.topState m.stack) m.stream.current.kind = some (.reduce k))
    (hstack : m.stack = frames ++ below) (hlen : frames.length = r.length)
    (hvalues : (frames.map (·.value)).reverse = values)
    (hp : g.automaton.transition? (Machine.topState below) (.nonterminal r.left) = some p) :
    e.step m = .next { m with
      stack := ⟨p, e.reductions.reduce k values⟩ :: below, reduced := k :: m.reduced } := by
  have hleft : e.reductions.lhs k = some r.name := by rw [he.lhs, hr]; rfl
  have harity : e.reductions.arity k = some frames.length := by rw [he.arity, hr, hlen]; rfl
  rw [step_reduce_of_goto ha hleft harity hstack (he.goto?_left hr hp), hvalues]

/-- What stands behind a tree in the stream may follow the rules of the tree's symbol: it begins what
stands behind in the rule above, or follows that rule. -/
theorem exists_follower (he : e.RunsOn g) {q k d t : Nat} {x : Symbol} {xs : List Symbol}
    {cs : List ParseTree} {token : Token} {l : List Token} (hxs : g.DerivesAll xs cs)
    (hdrop : (g.symbolsOf k).drop d = x :: xs) (hla : g.LooksAhead q ⟨k, d⟩ t)
    (hk : token.kind = g.terminalName t) (ht : t < g.terminals.size) :
    ∃ next l' u, ParseTree.leavesAll cs ++ token :: l = next :: l' ∧
      next.kind = g.terminalName u ∧ u < g.terminals.size ∧ Follows g q x u := by
  have hx := Grammar.symbolAfterDot_of_drop hdrop
  have hbehind := Grammar.symbolsBehind_of_drop hdrop
  have hplain : g.Plain xs := by
    obtain ⟨r, hr, -⟩ := Grammar.symbolAfterDot_cases hx
    intro u hu
    refine he.wf.terminal hr ?_
    rw [← Grammar.symbolsOf_eq hr]
    exact List.mem_of_mem_drop (hdrop ▸ List.mem_cons_of_mem x hu)
  have hbegins := hxs.first he.wf hplain
  cases hleaves : ParseTree.leavesAll cs with
  | nil =>
    -- nothing stands behind: what follows the rule above follows here too
    rw [hleaves] at hbegins
    refine ⟨token, l, t, rfl, hk, ht, fun k' r hr hn => ?_⟩
    exact looksAhead_nullable he.wf (hn ▸ hx) hr rfl (hbehind ▸ hbegins) hla
  | cons next l' =>
    rw [hleaves] at hbegins
    obtain ⟨u, hu, hlt, hnext, hfirst⟩ := hbegins
    refine ⟨next, l' ++ token :: l, u, rfl, hnext, hlt, fun k' r hr hn => ?_⟩
    obtain ⟨c, hc, hi⟩ := hla.mem_core he.wf
    refine looksAhead_first he.wf hc hi (hn ▸ hx) hr rfl (hbehind ▸ hfirst) ?_
    rintro rfl
    exact absurd hu (by decide)

/-- From `m` the engine comes to where the tokens `l` are left, with the values of the trees `cs` on
the stack, and the dot of an item has moved over their symbols. -/
def ReadsTrees (e : Engine W) (g : Grammar V) (m : Machine W) (i : Item) (t : Nat)
    (cs : List ParseTree) (l : List Token) : Prop :=
  ∃ frames m', frames.length = cs.length ∧
    (frames.map (·.value)).reverse = ParseTree.evalAll e.reductions.reduce e.ofToken cs ∧
    e.Reaches m m' ∧ m'.stack = frames ++ m.stack ∧ m'.stream.rest = l ∧
    g.LooksAhead (Machine.topState m'.stack) ⟨i.rule, i.dot + cs.length⟩ t

/-- Having read the children of a node, the engine reduces by the rule of the node. -/
theorem readsOn_node (he : e.RunsOn g) (hd : e.Decided g) {m : Machine W} {k p t : Nat} {r : Rule V}
    {cs : List ParseTree} {token : Token} {l : List Token} (hr : g.rules[k]? = some r)
    (hcs : g.DerivesAll r.symbols cs)
    (hp : g.automaton.transition? (Machine.topState m.stack) (.nonterminal r.left) = some p)
    (hk : token.kind = g.terminalName t) (ht : t < g.terminals.size)
    (h : e.ReadsTrees g m ⟨k, 0⟩ t cs (token :: l)) :
    e.ReadsOn m [⟨p, (ParseTree.node k cs).eval e.reductions.reduce e.ofToken⟩] (token :: l) := by
  obtain ⟨frames, m', hlen, hvalues, hreach, hstack, hrest, s, la, hs, hi, hla⟩ := h
  have hcount : cs.length = r.symbols.length := hcs.length_eq
  -- `$start` leads on from no state
  have hk0 : k ≠ 0 := by
    rintro rfl
    obtain ⟨r', hr', hleft, -⟩ := he.wf.startRule
    rw [hr] at hr'
    cases hr'
    obtain ⟨j, r'', hr'', hm⟩ := mem_symbols_of_transition he.wf hp
    exact (he.wf.nonterminal hr'' hm).1 hleft
  -- the rule is complete, and its lookahead holds the next token
  have hcomplete : g.isComplete ⟨k, 0 + cs.length⟩ = true := by
    simp [Grammar.isComplete, Grammar.ruleLength, Grammar.symbolsOf_eq hr, hcount]
  have ha := hd hs ht (.reduce hi hk0 hcomplete hla)
  rw [← hk, ← TokenStream.current_of_rest hrest] at ha
  have hlength : frames.length = r.length := by
    rw [hlen, hcount]
    exact (he.wf.length hr).symm
  have hstep := step_reduce he hr ha hstack hlength hvalues hp
  refine ⟨_, hreach.tail hstep, ?_, hrest⟩
  rw [ParseTree.eval]
  rfl

/-- Trees are read one after the other. -/
theorem ReadsTrees.cons (he : e.RunsOn g) {m : Machine W} {k d p t : Nat} {x : Symbol}
    {c : ParseTree} {cs : List ParseTree} {l l' : List Token}
    (hafter : g.symbolAfterDot ⟨k, d⟩ = some x) (hla : g.LooksAhead (Machine.topState m.stack) ⟨k, d⟩ t)
    (hp : g.automaton.transition? (Machine.topState m.stack) x = some p)
    (hfirst : e.ReadsOn m [⟨p, c.eval e.reductions.reduce e.ofToken⟩] l)
    (hrest : ∀ m₁, m₁.stream.rest = l → g.LooksAhead (Machine.topState m₁.stack) ⟨k, d + 1⟩ t →
      e.ReadsTrees g m₁ ⟨k, d + 1⟩ t cs l') : e.ReadsTrees g m ⟨k, d⟩ t (c :: cs) l' := by
  obtain ⟨m₁, hreach₁, hstack₁, hrest₁⟩ := hfirst
  have hla₁ : g.LooksAhead (Machine.topState m₁.stack) ⟨k, d + 1⟩ t := by
    rw [hstack₁]
    exact looksAhead_advance he.wf he.fit hafter hp hla
  obtain ⟨frames, m₂, hlen, hvalues, hreach₂, hstack₂, hrest₂, hla₂⟩ := hrest m₁ hrest₁ hla₁
  refine ⟨frames ++ [⟨p, c.eval e.reductions.reduce e.ofToken⟩], m₂, ?_, ?_,
    hreach₁.trans hreach₂, ?_, hrest₂, ?_⟩
  · rw [List.length_append, hlen]
    rfl
  · rw [List.map_append, List.reverse_append, hvalues, ParseTree.evalAll]
    rfl
  · rw [hstack₂, hstack₁, List.append_assoc]
  · have hdot : d + (c :: cs).length = d + 1 + cs.length := by
      rw [List.length_cons]
      omega
    rw [hdot]
    exact hla₂

mutual

/-- **The engine reads the leaves of a tree** and comes to the state that the tree's symbol leads to,
with the tree's value on the stack. -/
theorem tree_runs (he : e.RunsOn g) (hd : e.Decided g) :
    ∀ {x : Symbol} {c : ParseTree}, g.Derives x c → ∀ {m : Machine W} {p t : Nat} {token : Token}
      {l : List Token}, g.automaton.transition? (Machine.topState m.stack) x = some p →
      m.stream.rest = c.leaves ++ token :: l → token.kind = g.terminalName t →
      t < g.terminals.size → Follows g (Machine.topState m.stack) x t →
      e.ReadsOn m [⟨p, c.eval e.reductions.reduce e.ofToken⟩] (token :: l)
  | _, _, .leaf hkind => by
    intro hp hrest _ _ _
    obtain ⟨s, hs, -⟩ := he.canonical.transition_iff.1 ⟨_, hp⟩
    obtain ⟨k, r, hr, hm⟩ := mem_symbols_of_transition he.wf hp
    have ha := hd hs (he.wf.terminal hr hm).2 (.shift ((mem_edges_iff he.wf hs).2 hp))
    rw [← hkind] at ha
    exact step_shift ha hrest
  | _, _, .node hr hcs => by
    intro hp hrest hk ht hfollow
    refine readsOn_node he hd hr hcs hp hk ht ?_
    exact forest_runs he hd hcs (Grammar.symbolsOf_eq hr) (hfollow hr rfl) hrest hk ht

/-- **The engine reads the leaves of the trees for what stands behind the dot of an item** and comes
to a state in which the item is complete. -/
theorem forest_runs (he : e.RunsOn g) (hd : e.Decided g) :
    ∀ {xs : List Symbol} {cs : List ParseTree}, g.DerivesAll xs cs → ∀ {m : Machine W}
      {k d t : Nat} {token : Token} {l : List Token}, (g.symbolsOf k).drop d = xs →
      g.LooksAhead (Machine.topState m.stack) ⟨k, d⟩ t →
      m.stream.rest = ParseTree.leavesAll cs ++ token :: l → token.kind = g.terminalName t →
      t < g.terminals.size → e.ReadsTrees g m ⟨k, d⟩ t cs (token :: l)
  | _, _, .nil => by
    intro _ hla hrest _ _
    exact ⟨[], _, rfl, rfl, .refl, rfl, hrest, hla⟩
  | _, _, .cons hx hxs => by
    intro hdrop hla hrest hk ht
    have hafter := Grammar.symbolAfterDot_of_drop hdrop
    obtain ⟨p, hp⟩ := hla.exists_transition he.canonical hafter
    obtain ⟨next, l', u, hnext, hku, hu, hfollow⟩ := exists_follower he hxs hdrop hla hk ht
    rw [ParseTree.leavesAll, List.append_assoc, hnext] at hrest
    refine .cons he hafter hla hp (tree_runs he hd hx hp hrest hku hu hfollow) fun m₁ hrest₁ hla₁ => ?_
    rw [← hnext] at hrest₁
    exact forest_runs he hd hxs (Grammar.symbolsBehind_of_drop hdrop) hla₁ hrest₁ hk ht

end

/-- Steps and one that ends them are a run, with any fuel from some number on. -/
theorem run_of_reaches {m n m' : Machine W} {result : Except ParseError W} (h : e.Reaches m n)
    (hdone : e.step n = .done result m') :
    ∃ steps, ∀ fuel, steps ≤ fuel → e.run fuel m = some (result, m') := by
  induction h using Relation.ReflTransGen.head_induction_on with
  | refl =>
    refine ⟨1, fun fuel hfuel => ?_⟩
    obtain ⟨fuel, rfl⟩ : ∃ k, fuel = k + 1 := ⟨fuel - 1, by omega⟩
    rw [run, hdone]
  | head hstep _ ih =>
    obtain ⟨steps, hrun⟩ := ih
    refine ⟨steps + 1, fun fuel hfuel => ?_⟩
    obtain ⟨fuel, rfl⟩ : ∃ k, fuel = k + 1 := ⟨fuel - 1, by omega⟩
    rw [run, hstep]
    exact hrun fuel (by omega)

/-- Runs that end with different amounts of fuel end in the same way. -/
theorem run_unique {fuel fuel' : Nat} {m : Machine W} {a b : Except ParseError W × Machine W}
    (ha : e.run fuel m = some a) (hb : e.run fuel' m = some b) : a = b := by
  obtain ⟨n, hreach, hdone⟩ := exists_reaches_of_run ha
  obtain ⟨n', hreach', hdone'⟩ := exists_reaches_of_run hb
  obtain ⟨steps, hrun⟩ := run_of_reaches hreach hdone
  obtain ⟨steps', hrun'⟩ := run_of_reaches hreach' hdone'
  have h := hrun (max steps steps') (le_max_left _ _)
  rw [hrun' _ (le_max_right _ _)] at h
  exact (Option.some.inj h).symm

/-- **The engine finds every parse tree.** -/
theorem accepts_tree (he : e.RunsOn g) (hd : e.Decided g) {tree : ParseTree}
    (htree : g.Derives (.nonterminal g.start) tree) {stream : TokenStream} {eof : Token}
    {l : List Token} (hrest : stream.rest = tree.leaves ++ eof :: l)
    (heof : eof.kind = Token.eofKind) :
    ∃ steps m, ∀ fuel, steps ≤ fuel →
      e.run fuel (.initial stream) =
        some (.ok (tree.eval e.reductions.reduce e.ofToken), m) := by
  obtain ⟨r, hr, -, hsymbols⟩ := he.wf.startRule
  have hdrop : (g.symbolsOf 0).drop 0 = [.nonterminal g.start] := by
    rw [Grammar.symbolsOf_eq hr, hsymbols]
    rfl
  have hkind : eof.kind = g.terminalName Terminal.eof := by
    rw [heof, Grammar.terminalName_eof he.wf]
  have hleaves : (Machine.initial stream : Machine W).stream.rest =
      ParseTree.leavesAll [tree] ++ eof :: l := by
    rw [ParseTree.leavesAll, ParseTree.leavesAll, List.append_nil]
    exact hrest
  have hstart : g.LooksAhead (Machine.topState (Machine.initial stream : Machine W).stack)
      ⟨0, 0⟩ Terminal.eof := looksAhead_start he.wf
  -- the tree is what stands behind the dot of the start item
  obtain ⟨frames, m, hlen, hvalues, hreach, hstack, hrest', s, la, hs, hi, hla⟩ :=
    forest_runs he hd (.cons htree .nil) hdrop hstart hleaves hkind (Grammar.eof_lt he.wf)
  have ha := hd hs (Grammar.eof_lt he.wf)
    (.accept ((he.canonical.lookahead_iff hs _ _).2 hi) hla rfl)
  rw [← hkind, ← TokenStream.current_of_rest hrest'] at ha
  have hdone : e.step m = .done (.ok (tree.eval e.reductions.reduce e.ofToken)) m := by
    obtain ⟨f, rfl⟩ := List.length_eq_one_iff.1 hlen
    have hvalue : f.value = tree.eval e.reductions.reduce e.ofToken := by
      simpa [ParseTree.evalAll] using hvalues
    have hm : m.stack = [f] := hstack
    unfold step accept
    simp only [ha]
    rw [hm]
    simp only [hvalue]
  obtain ⟨steps, hrun⟩ := run_of_reaches hreach hdone
  exact ⟨steps, m, hrun⟩

end Engine

/-- An engine whose values are the parse trees themselves. -/
def Grammar.treeEngine (g : Grammar V) (table : ParseTable) : Engine ParseTree where
  table := table
  reductions :=
    { lhs := fun k => (g.rules[k]?).map (·.name)
      arity := fun k => (g.rules[k]?).map (·.length)
      reduce := .node }
  ofToken := .leaf

section Parser

variable {r : Synthesis}

theorem decided_of_unresolved (he : e.RunsOn g) (hr : g.analyze.outcome = .ok r)
    (hclean : r.resolved = #[]) (htable : e.table = r.table) : e.Decided g := by
  intro q t s a hs ht ha
  rw [htable]
  exact action?_of_candidate he.wf he.fit hr hclean hs ht ha

theorem runsOn_treeEngine (hg : g.Defined) (hfit : g.CodesFit) (hr : g.analyze.outcome = .ok r) :
    (g.treeEngine r.table).RunsOn g where
  wf := hg.wellFormed
  fit := hfit
  table := ⟨r, hr, rfl⟩
  lhs _ := rfl
  arity _ := rfl

/-- **A grammar without settled conflicts is unambiguous**: an engine for trees would otherwise
return two of them on one stream. -/
theorem tree_unique (hg : g.Defined) (hfit : g.CodesFit) (hr : g.analyze.outcome = .ok r)
    (hclean : r.resolved = #[]) {tree tree' : ParseTree}
    (htree : g.Derives (.nonterminal g.start) tree)
    (htree' : g.Derives (.nonterminal g.start) tree') (hleaves : tree'.leaves = tree.leaves) :
    tree' = tree := by
  have he := runsOn_treeEngine hg hfit hr
  have hd := decided_of_unresolved he hr hclean rfl
  -- one stream has the leaves of both trees
  let stream : TokenStream :=
    ⟨(tree.leaves ++ [Token.eof 1 0]).toArray, 0, by simp⟩
  have hrest : stream.rest = tree.leaves ++ [Token.eof 1 0] := rfl
  obtain ⟨n, m, hrun⟩ := Engine.accepts_tree he hd htree hrest rfl
  obtain ⟨n', m', hrun'⟩ := Engine.accepts_tree he hd htree' (hleaves ▸ hrest) rfl
  have hsame := (hrun (n + n') (by omega)).symm.trans (hrun' (n + n') (by omega))
  simp only [Option.some.injEq, Prod.mk.injEq, Except.ok.injEq] at hsame
  have hvalue : tree.eval ParseTree.node ParseTree.leaf = tree'.eval ParseTree.node ParseTree.leaf :=
    hsame.1
  rw [ParseTree.eval_node_leaf, ParseTree.eval_node_leaf] at hvalue
  exact hvalue.symm

/-- **Completeness.** Let the analysis of a grammar succeed without a settled conflict, and let the
stream hold the leaves of a parse tree of the start symbol and then a token `$eof`. Then the parser
comes to an end and returns the value of the tree; and no other tree has these leaves. Rule numbers
and lengths are such that the codes of items do not overflow. -/
theorem parse_complete [Inhabited V] (hg : g.Defined) (hfit : g.CodesFit)
    (hr : g.analyze.outcome = .ok r) (hclean : r.resolved = #[]) (ofToken : Token → V)
    {tree : ParseTree} (htree : g.Derives (.nonterminal g.start) tree) :
    (∀ {stream : TokenStream} {eof : Token}, stream.rest = tree.leaves ++ [eof] →
      eof.kind = Token.eofKind → ∃ steps m, ∀ fuel, steps ≤ fuel →
        (Parser.mk g r.table).parse? ofToken fuel stream =
          some (.ok (tree.eval g.reduce ofToken), m)) ∧
    ∀ {tree' : ParseTree}, g.Derives (.nonterminal g.start) tree' → tree'.leaves = tree.leaves →
      tree' = tree := by
  have he := runsOn_engine hg hfit hr ofToken
  have hd := decided_of_unresolved he hr hclean rfl
  exact ⟨fun hrest heof => Engine.accepts_tree he hd htree hrest heof, fun htree' hleaves =>
    tree_unique hg hfit hr hclean htree htree' hleaves⟩

/-- The parse tree of `( )`. -/
def bracketTree : ParseTree :=
  .node 1 [.leaf ⟨"(", "(", 1, 1⟩, .node 2 [], .leaf ⟨")", ")", 1, 2⟩]

theorem brackets_complete :
    Grammar.brackets.Derives (.nonterminal Grammar.brackets.start) bracketTree ∧
      ∃ steps m, ∀ fuel, steps ≤ fuel →
        (Parser.mk Grammar.brackets bracketSynthesis.table).parse? (fun _ => 0) fuel
          (.ofTokens (bracketTree.leaves ++ [Token.eof 1 0]).toArray) = some (.ok 1, m) := by
  have htree : Grammar.brackets.Derives (.nonterminal Grammar.brackets.start) bracketTree := by
    decide +kernel
  have hrest : (TokenStream.ofTokens (bracketTree.leaves ++ [Token.eof 1 0]).toArray).rest =
      bracketTree.leaves ++ [Token.eof 1 0] := by
    decide +kernel
  obtain ⟨steps, m, hrun⟩ := (parse_complete Grammar.brackets_defined Grammar.brackets_codesFit
    brackets_analyzed (by decide +kernel) (fun _ => 0) htree).1 hrest rfl
  have hvalue : bracketTree.eval Grammar.brackets.reduce (fun _ => 0) = 1 := by decide +kernel
  rw [hvalue] at hrun
  exact ⟨htree, steps, m, hrun⟩

end Parser

end ParserGen
