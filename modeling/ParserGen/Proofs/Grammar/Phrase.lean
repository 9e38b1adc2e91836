import ParserGen.Proofs.Grammar.Numbering
import ParserGen.Proofs.Grammar.ParseTree

/-!
# Phrases and their values

The leaves of a parse tree are a phrase of the tree's symbol, and the callbacks of the rules give the
phrase its value. A phrase of a nonterminal is put together from phrases for the components of one of
its rules, and no phrase comes about in another way. So what the tokens of a phrase say about its value
is shown rule by rule. The rules can be taken as they were given, with names in the place of symbols.

* `Grammar.PhraseOf`: the phrases of a symbol, with their values.
* `phraseOf_token`, `phraseOf_rule`: how phrases are put together.
* `PhraseOf.least`: **what every rule keeps holds for all phrases.**
* `PhraseNamed`, `phraseNamed_rule`, `PhraseNamed.least`: the same by name.
-/

namespace ParserGen

variable {V W : Type}

/-- For one symbol after the other, some of the tokens and a value. -/
def Each {α : Type} (M : α → List Token → W → Prop) : List α → List Token → List W → Prop
  | [], ts, values => ts = [] ∧ values = []
  | x :: xs, ts, values => ∃ first rest v vs, ts = first ++ rest ∧ values = v :: vs ∧
      M x first v ∧ Each M xs rest vs

namespace Each

section Parts

variable {α : Type} {M : α → List Token → W → Prop} {x y z w : α} {xs : List α} {ts rest : List Token}
  {v : W} {vs : List W}

theorem nil : Each M [] [] [] :=
  ⟨rfl, rfl⟩

theorem cons (h : M x ts v) (hrest : Each M xs rest vs) : Each M (x :: xs) (ts ++ rest) (v :: vs) :=
  ⟨ts, rest, v, vs, rfl, rfl, h, hrest⟩

theorem last (h : M x ts v) : Each M [x] ts [v] := by
  simpa using cons h nil

theorem of_one (h : Each M [x] ts vs) : ∃ a, vs = [a] ∧ M x ts a := by
  obtain ⟨first, rest, v, vs, rfl, rfl, hx, rfl, rfl⟩ := h
  exact ⟨v, rfl, by simpa using hx⟩

theorem of_two (h : Each M [x, y] ts vs) : ∃ first second a b, ts = first ++ second ∧ vs = [a, b] ∧
    M x first a ∧ M y second b := by
  obtain ⟨first, rest, a, vs, rfl, rfl, hx, h⟩ := h
  obtain ⟨b, rfl, hy⟩ := of_one h
  exact ⟨first, rest, a, b, rfl, rfl, hx, hy⟩

theorem of_three (h : Each M [x, y, z] ts vs) : ∃ first second third a b c,
    ts = first ++ (second ++ third) ∧ vs = [a, b, c] ∧
      M x first a ∧ M y second b ∧ M z third c := by
  obtain ⟨first, rest, a, vs, rfl, rfl, hx, h⟩ := h
  obtain ⟨second, third, b, c, rfl, rfl, hy, hz⟩ := of_two h
  exact ⟨first, second, third, a, b, c, rfl, rfl, hx, hy, hz⟩

theorem of_four (h : Each M [x, y, z, w] ts vs) : ∃ first second third fourth a b c d,
    ts = first ++ (second ++ (third ++ fourth)) ∧ vs = [a, b, c, d] ∧
      M x first a ∧ M y second b ∧ M z third c ∧ M w fourth d := by
  obtain ⟨first, rest, a, vs, rfl, rfl, hx, h⟩ := h
  obtain ⟨second, third, fourth, b, c, d, rfl, rfl, hy, hz, hw⟩ := of_three h
  exact ⟨first, second, third, fourth, a, b, c, d, rfl, rfl, hx, hy, hz, hw⟩

/-- What holds where all tokens satisfy a condition holds for all parts if they all do. -/
theorem of_forall {P : Token → Prop} (h : Each (fun x ts v => (∀ t ∈ ts, P t) → M x ts v) xs ts vs)
    (hP : ∀ t ∈ ts, P t) : Each M xs ts vs := by
  induction xs generalizing ts vs with
  | nil => exact h
  | cons x xs ih =>
    obtain ⟨first, rest, v, vs, rfl, rfl, hx, hrest⟩ := h
    obtain ⟨hfirst, hP⟩ := List.forall_mem_append.1 hP
    exact cons (hx hfirst) (ih hrest hP)

end Parts

theorem imp {α β : Type} {M : α → List Token → W → Prop} {N : β → List Token → W → Prop}
    {R : α → β → Prop} (h : ∀ {x y ts v}, R x y → M x ts v → N y ts v) {xs : List α} {ys : List β}
    (hxs : List.Forall₂ R xs ys) {ts : List Token} {vs : List W} (heach : Each M xs ts vs) :
    Each N ys ts vs := by
  induction hxs generalizing ts vs with
  | nil => exact heach
  | cons hx _ ih =>
    obtain ⟨first, rest, v, vs, rfl, rfl, hfirst, hrest⟩ := heach
    exact cons (h hx hfirst) (ih hrest)

end Each

namespace Grammar

/-- The tokens are the leaves of a tree that derives the symbol, and the tree has the value. -/
def PhraseOf (g : Grammar V) (reduce : Nat → List W → W) (ofToken : Token → W) (x : Symbol)
    (ts : List Token) (v : W) : Prop :=
  ∃ c, g.Derives x c ∧ c.leaves = ts ∧ c.eval reduce ofToken = v

variable {g : Grammar V} {reduce : Nat → List W → W} {ofToken : Token → W}

theorem phraseOf_token {t : Nat} {token : Token} (h : token.kind = g.terminalName t) :
    g.PhraseOf reduce ofToken (.terminal t) [token] (ofToken token) :=
  ⟨.leaf token, .leaf h, rfl, rfl⟩

theorem exists_trees_of_each {xs : List Symbol} {ts : List Token} {vs : List W}
    (h : Each (g.PhraseOf reduce ofToken) xs ts vs) : ∃ cs, g.DerivesAll xs cs ∧
      ParseTree.leavesAll cs = ts ∧ ParseTree.evalAll reduce ofToken cs = vs := by
  induction xs generalizing ts vs with
  | nil =>
    obtain ⟨rfl, rfl⟩ := h
    exact ⟨[], .nil, rfl, rfl⟩
  | cons x xs ih =>
    obtain ⟨first, rest, v, vs, rfl, rfl, ⟨c, hc, rfl, rfl⟩, hrest⟩ := h
    obtain ⟨cs, hcs, rfl, rfl⟩ := ih hrest
    exact ⟨c :: cs, .cons hc hcs, rfl, rfl⟩

/-- Phrases for the components of a rule make up a phrase of its left side. -/
theorem phraseOf_rule {k : Nat} {r : Rule V} {ts : List Token} {vs : List W}
    (hr : g.rules[k]? = some r) (h : Each (g.PhraseOf reduce ofToken) r.symbols ts vs) :
    g.PhraseOf reduce ofToken (.nonterminal r.left) ts (reduce k vs) := by
  obtain ⟨cs, hcs, rfl, rfl⟩ := exists_trees_of_each h
  exact ⟨.node k cs, .node hr hcs, rfl, rfl⟩

variable {M : Symbol → List Token → W → Prop}

mutual

theorem meaning_of_derives
    (htoken : ∀ {t token}, token.kind = g.terminalName t → M (.terminal t) [token] (ofToken token))
    (hrule : ∀ {k r ts vs}, g.rules[k]? = some r → Each M r.symbols ts vs →
      M (.nonterminal r.left) ts (reduce k vs)) :
    ∀ {x : Symbol} {c : ParseTree}, g.Derives x c → M x c.leaves (c.eval reduce ofToken)
  | _, _, .leaf h => htoken h
  | _, _, .node hr hcs => hrule hr (each_of_derivesAll htoken hrule hcs)

theorem each_of_derivesAll
    (htoken : ∀ {t token}, token.kind = g.terminalName t → M (.terminal t) [token] (ofToken token))
    (hrule : ∀ {k r ts vs}, g.rules[k]? = some r → Each M r.symbols ts vs →
      M (.nonterminal r.left) ts (reduce k vs)) :
    ∀ {xs : List Symbol} {cs : List ParseTree}, g.DerivesAll xs cs →
      Each M xs (ParseTree.leavesAll cs) (ParseTree.evalAll reduce ofToken cs)
  | _, _, .nil => .nil
  | _, _, .cons hc hcs =>
    .cons (meaning_of_derives htoken hrule hc) (each_of_derivesAll htoken hrule hcs)

end

/-- **What holds for tokens and is kept by every rule holds for all phrases and their values.** -/
theorem PhraseOf.least
    (htoken : ∀ {t token}, token.kind = g.terminalName t → M (.terminal t) [token] (ofToken token))
    (hrule : ∀ {k r ts vs}, g.rules[k]? = some r → Each M r.symbols ts vs →
      M (.nonterminal r.left) ts (reduce k vs))
    {x : Symbol} {ts : List Token} {v : W} (h : g.PhraseOf reduce ofToken x ts v) : M x ts v := by
  obtain ⟨c, hc, rfl, rfl⟩ := h
  exact meaning_of_derives htoken hrule hc

/-! ## By name -/

/-- The phrases of the symbol with a name, with their values. -/
def PhraseNamed (g : Grammar V) (reduce : Nat → List W → W) (ofToken : Token → W) (name : String)
    (ts : List Token) (v : W) : Prop :=
  ∃ x, g.NameOf x name ∧ g.PhraseOf reduce ofToken x ts v

section Named

variable {start name : String} {given : List GivenRule} {ts : List Token} {v : W} {vs : List W}
  (hg : g.Numbered start given)

include hg

/-- Symbols of one name are the same. -/
theorem Numbered.nameOf_unique {x y : Symbol} (hx : g.NameOf x name) (hy : g.NameOf y name) :
    x = y := by
  cases x with
  | terminal t =>
    have ht : name ∈ g.terminals.toList := NameTable.mem_toList_iff.2 ⟨t, hx⟩
    cases y with
    | terminal u => rw [NameTable.name?_inj hx hy]
    | nonterminal n => exact absurd (NameTable.mem_toList_iff.2 ⟨n, hy⟩) (hg.disjoint name ht)
  | nonterminal n =>
    have hn : name ∈ g.nonterminals.toList := NameTable.mem_toList_iff.2 ⟨n, hx⟩
    cases y with
    | terminal t =>
      have ht : name ∈ g.terminals.toList := NameTable.mem_toList_iff.2 ⟨t, hy⟩
      exact absurd hn (hg.disjoint name ht)
    | nonterminal m => rw [NameTable.name?_inj hx hy]

omit hg in
theorem phraseNamed_token {token : Token} (h : token.kind ∈ g.terminals.toList) :
    g.PhraseNamed reduce ofToken token.kind [token] (ofToken token) := by
  obtain ⟨t, ht⟩ := NameTable.mem_toList_iff.1 h
  exact ⟨.terminal t, ht, phraseOf_token (NameTable.name_eq ht).symm⟩

/-- Phrases for the names of the components of a rule make up a phrase of the name on its left. -/
theorem phraseNamed_rule {k : Nat} {r : Rule V} (hr : g.rules[k]? = some r)
    (h : Each (g.PhraseNamed reduce ofToken) r.components ts vs) :
    g.PhraseNamed reduce ofToken r.name ts (reduce k vs) := by
  have hmem : r ∈ g.rules := Array.mem_of_getElem? hr
  refine ⟨.nonterminal r.left, hg.left r hmem, phraseOf_rule hr ?_⟩
  refine Each.imp ?_ (hg.symbols r hmem).flip h
  rintro name x ts v ⟨hname, -⟩ ⟨y, hy, hphrase⟩
  rwa [← hg.nameOf_unique hy hname]

/-- **What holds for tokens and is kept by every rule as it was given holds for all phrases.** -/
theorem PhraseNamed.least {M : String → List Token → W → Prop}
    (htoken : ∀ {token : Token}, token.kind ∈ g.terminals.toList → M token.kind [token] (ofToken token))
    (hrule : ∀ {k r ts vs}, g.rules[k]? = some r → Each M r.components ts vs →
      M r.name ts (reduce k vs))
    (h : g.PhraseNamed reduce ofToken name ts v) : M name ts v := by
  obtain ⟨x, hx, hphrase⟩ := h
  refine PhraseOf.least (M := fun x ts v => ∀ name, g.NameOf x name → M name ts v) ?_ ?_ hphrase name hx
  · intro t token hkind name hname
    have hname : g.terminals.name? t = some name := hname
    obtain rfl : token.kind = name := hkind.trans (NameTable.name_eq hname)
    exact htoken (NameTable.mem_toList_iff.2 ⟨t, hname⟩)
  · intro k r ts vs hr heach name hname
    have hmem : r ∈ g.rules := Array.mem_of_getElem? hr
    have hname : g.nonterminals.name? r.left = some name := hname
    obtain rfl : r.name = name := Option.some.inj ((hg.left r hmem).symm.trans hname)
    refine hrule hr (Each.imp ?_ (hg.symbols r hmem) heach)
    rintro x name ts v ⟨hname, -⟩ hx
    exact hx name hname

end Named

end Grammar

end ParserGen
