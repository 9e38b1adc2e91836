import ParserGen.Grammar.Basic
import ParserGen.Engine

/-!
# Parse trees

A parse tree has rules at its inner nodes and tokens at its leaves. It derives a symbol if its root
is a rule of that nonterminal, or a token of that terminal, and the children of every inner node
derive the components of the rule, in order.

The value of a tree is computed from the leaves up: the value of a token at a leaf, and at an inner
node what the rule makes of the values of the children.

* `derives_iff`: whether a tree derives a symbol can be computed.
-/

namespace ParserGen

/-- A tree with rules at its inner nodes and tokens at its leaves. -/
inductive ParseTree where
  | leaf (token : Token)
  | node (rule : Nat) (children : List ParseTree)
deriving Inhabited

namespace ParseTree

mutual

/-- The tokens at the leaves, from left to right. -/
def leaves : ParseTree → List Token
  | .leaf token => [token]
  | .node _ children => leavesAll children

/-- The tokens at the leaves of several trees. -/
def leavesAll : List ParseTree → List Token
  | [] => []
  | c :: rest => c.leaves ++ leavesAll rest

end

variable {W : Type}

mutual

/-- The value of a tree, from the leaves up. -/
def eval (reduce : Nat → List W → W) (ofToken : Token → W) : ParseTree → W
  | .leaf token => ofToken token
  | .node rule children => reduce rule (evalAll reduce ofToken children)

/-- The values of several trees. -/
def evalAll (reduce : Nat → List W → W) (ofToken : Token → W) : List ParseTree → List W
  | [] => []
  | c :: rest => c.eval reduce ofToken :: evalAll reduce ofToken rest

end

theorem leavesAll_append (l l' : List ParseTree) :
    leavesAll (l ++ l') = leavesAll l ++ leavesAll l' := by
  induction l with
  | nil => rfl
  | cons c rest ih => rw [List.cons_append, leavesAll, leavesAll, ih, List.append_assoc]

theorem evalAll_eq_map (reduce : Nat → List W → W) (ofToken : Token → W) (l : List ParseTree) :
    evalAll reduce ofToken l = l.map (eval reduce ofToken) := by
  induction l with
  | nil => rfl
  | cons c rest ih => rw [evalAll, ih, List.map_cons]

mutual

/-- With trees as values, the value of a tree is the tree. -/
theorem eval_node_leaf : ∀ t : ParseTree, t.eval node leaf = t
  | .leaf _ => rfl
  | .node rule children => by rw [eval, evalAll_node_leaf children]

theorem evalAll_node_leaf : ∀ l : List ParseTree, evalAll node leaf l = l
  | [] => rfl
  | c :: rest => by rw [evalAll, eval_node_leaf c, evalAll_node_leaf rest]

end

end ParseTree

mutual

/-- The tree derives the symbol. -/
inductive Grammar.Derives {V : Type} (g : Grammar V) : Symbol → ParseTree → Prop where
  | leaf {t : Nat} {token : Token} (h : token.kind = g.terminalName t) :
      Derives g (.terminal t) (.leaf token)
  | node {k : Nat} {r : Rule V} {children : List ParseTree} (hr : g.rules[k]? = some r)
      (hc : DerivesAll g r.symbols children) : Derives g (.nonterminal r.left) (.node k children)

/-- The trees derive the symbols, one by one. -/
inductive Grammar.DerivesAll {V : Type} (g : Grammar V) : List Symbol → List ParseTree → Prop where
  | nil : DerivesAll g [] []
  | cons {x : Symbol} {xs : List Symbol} {c : ParseTree} {rest : List ParseTree}
      (hx : Derives g x c) (hxs : DerivesAll g xs rest) : DerivesAll g (x :: xs) (c :: rest)

end

namespace Grammar

variable {V : Type} {g : Grammar V}

theorem DerivesAll.length_eq {xs : List Symbol} {l : List ParseTree} (h : g.DerivesAll xs l) :
    l.length = xs.length := by
  induction xs generalizing l with
  | nil => cases h; rfl
  | cons x xs ih =>
    cases h with
    | cons _ hxs => rw [List.length_cons, List.length_cons, ih hxs]

theorem DerivesAll.append {xs ys : List Symbol} {l l' : List ParseTree} (h : g.DerivesAll xs l)
    (h' : g.DerivesAll ys l') : g.DerivesAll (xs ++ ys) (l ++ l') := by
  induction xs generalizing l with
  | nil => cases h; exact h'
  | cons x xs ih =>
    cases h with
    | cons hx hxs => exact .cons hx (ih hxs)

mutual

/-- Checks a tree against a symbol. -/
def derives (g : Grammar V) : Symbol → ParseTree → Bool
  | .terminal t, .leaf token => token.kind == g.terminalName t
  | .nonterminal n, .node k children =>
    match g.rules[k]? with
    | some r => r.left == n && g.derivesAll r.symbols children
    | none => false
  | _, _ => false

/-- Checks trees against symbols, one by one. -/
def derivesAll (g : Grammar V) : List Symbol → List ParseTree → Bool
  | [], [] => true
  | x :: xs, c :: rest => g.derives x c && g.derivesAll xs rest
  | _, _ => false

end

mutual

theorem derives_iff : ∀ (x : Symbol) (c : ParseTree), g.derives x c = true ↔ g.Derives x c
  | .terminal t, .leaf token => by
    rw [derives, beq_iff_eq]
    exact ⟨.leaf, fun h => by cases h with | leaf hk => exact hk⟩
  | .nonterminal n, .node k children => by
    rw [derives]
    constructor
    · intro h
      split at h
      · rename_i r hr
        rw [Bool.and_eq_true, beq_iff_eq, derivesAll_iff] at h
        exact h.1 ▸ .node hr h.2
      · cases h
    · intro h
      cases h with
      | node hr hc =>
        rw [hr]
        simp only [beq_self_eq_true, Bool.true_and]
        exact (derivesAll_iff _ children).2 hc
  | .terminal _, .node _ _ => by
    constructor
    · intro h; simp [derives] at h
    · intro h; cases h
  | .nonterminal _, .leaf _ => by
    constructor
    · intro h; simp [derives] at h
    · intro h; cases h

theorem derivesAll_iff : ∀ (xs : List Symbol) (l : List ParseTree),
    g.derivesAll xs l = true ↔ g.DerivesAll xs l
  | [], [] => by
    rw [derivesAll]
    exact ⟨fun _ => .nil, fun _ => rfl⟩
  | x :: xs, c :: rest => by
    rw [derivesAll, Bool.and_eq_true, derives_iff x c, derivesAll_iff xs rest]
    exact ⟨fun h => .cons h.1 h.2, fun h => by cases h with | cons hx hxs => exact ⟨hx, hxs⟩⟩
  | [], _ :: _ => by
    constructor
    · intro h; simp [derivesAll] at h
    · intro h; cases h
  | _ :: _, [] => by
    constructor
    · intro h; simp [derivesAll] at h
    · intro h; cases h

end

instance (x : Symbol) (c : ParseTree) : Decidable (g.Derives x c) :=
  decidable_of_iff _ (derives_iff x c)

end Grammar

end ParserGen
