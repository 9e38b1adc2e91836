import ParserGen.Proofs.Engine.Completeness

/-!
# How many steps a run takes

The steps of a run are paid for by the tokens. A token that is shifted pays a price; what it pays is kept
with the stack, as a worth of each symbol on it and one more of the symbol on top. A reduction by a rule
takes from that: the left side is worth less than the components, and where a rule has no components,
less than the symbol on top was. If the symbols can be given such a worth, a run on any stream ends
after a number of steps in proportion to the tokens.

* `Worth.Pays`: the conditions on the worth of symbols, which can be checked for a given automaton.
* `step_pays`: **every step that goes on takes away from what is left.**
* `exists_run_of_pays`: **a run with enough fuel ends.**
-/

namespace ParserGen

variable {V W : Type} {g : Grammar V} {e : Engine W}

/-- What symbols on the stack are worth. -/
structure Worth where
  /-- What each symbol is worth. -/
  symbol : Symbol → Nat
  /-- What is added for the symbol on top, or for an empty stack. -/
  top : Option Symbol → Nat

namespace Worth

/-- What a stack of symbols is worth, the symbol on top first. -/
def stack (c : Worth) (w : List Symbol) : Nat :=
  (w.map c.symbol).sum + c.top w.head?

/-- What a machine can pay with: its stack, and the price of every token that is left. -/
def left (c : Worth) (price : Nat) (w : List Symbol) (m : Machine W) : Nat :=
  c.stack w + price * m.stream.rest.length

/-- A nonterminal on top of the stack is worth less than what a rule replaces by it. Where the rule has
no components, `under` is on top before. -/
def Replaces (c : Worth) (r : Rule V) (under : Option Symbol) : Prop :=
  c.symbol (.nonterminal r.left) + c.top (some (.nonterminal r.left)) <
    (r.symbols.map c.symbol).sum + c.top (r.symbols.getLast?.or under)

instance (c : Worth) (r : Rule V) (under : Option Symbol) : Decidable (c.Replaces r under) :=
  inferInstanceAs (Decidable (_ < _))

/-- In the state, each rule without components leaves a stack worth less, if `under` is on top. -/
def Covers (c : Worth) (g : Grammar V) (under : Option Symbol) (s : State) : Prop :=
  ∀ i ∈ s.core, ∀ r ∈ g.rules[i.rule]?, r.symbols = [] → c.Replaces r under

instance (c : Worth) (g : Grammar V) (under : Option Symbol) (s : State) :
    Decidable (c.Covers g under s) :=
  inferInstanceAs (Decidable (∀ i ∈ s.core, _))

/-- The price of a token pays for what its terminal is worth, and no rule leaves a stack worth as much
as before. -/
structure Pays (c : Worth) (g : Grammar V) (a : Automaton) (price : Nat) : Prop where
  start : c.top none < price
  terminal : ∀ t < g.terminals.size, c.symbol (.terminal t) + c.top (some (.terminal t)) < price
  rule : ∀ r ∈ g.rules.toList.tail, r.symbols ≠ [] → c.Replaces r none
  bottom : ∀ s ∈ a.states[0]?, c.Covers g none s
  entered : ∀ s ∈ a.states.toList, ∀ x ∈ s.edges, ∀ t ∈ a.states[x.2]?, c.Covers g (some x.1) t

instance (c : Worth) (g : Grammar V) (a : Automaton) (price : Nat) : Decidable (c.Pays g a price) :=
  decidable_of_iff (c.top none < price ∧
    (∀ t < g.terminals.size, c.symbol (.terminal t) + c.top (some (.terminal t)) < price) ∧
    (∀ r ∈ g.rules.toList.tail, r.symbols ≠ [] → c.Replaces r none) ∧
    (∀ s ∈ a.states[0]?, c.Covers g none s) ∧
    ∀ s ∈ a.states.toList, ∀ x ∈ s.edges, ∀ t ∈ a.states[x.2]?, c.Covers g (some x.1) t)
    ⟨fun ⟨start, terminal, rule, bottom, entered⟩ => { start, terminal, rule, bottom, entered },
      fun h => ⟨h.start, h.terminal, h.rule, h.bottom, h.entered⟩⟩

variable {c : Worth} {price : Nat}

/-- The rules without components of a state are paid for by what is on top when the state is entered. -/
theorem Pays.covers (h : c.Pays g g.automaton price) (he : e.RunsOn g) {stack : List (Frame W)}
    {w : List Symbol} {trees : List ParseTree} (hstack : Stacked g e stack w trees) {s : State}
    (hs : g.automaton.states[Machine.topState stack]? = some s) : c.Covers g w.head? s := by
  cases hstack with
  | nil => exact h.bottom s hs
  | @cons stack w trees x q tree _ hq _ =>
    obtain ⟨s', hs', -⟩ := he.canonical.transition_iff.1 ⟨q, hq⟩
    have hmem := (mem_edges_iff he.wf hs').2 hq
    have hin : s' ∈ g.automaton.states.toList := Array.mem_toList_iff.2 (Array.mem_of_getElem? hs')
    exact h.entered s' hin (x, q) hmem s hs

/-- A reduction leaves a stack worth less. -/
theorem Pays.reduce (h : c.Pays g g.automaton price) {k : Nat} {r : Rule V}
    (hr : g.rules[k]? = some r) (h0 : k ≠ 0) {w : List Symbol}
    (hword : (w.take r.length).reverse = r.symbols)
    (hempty : r.symbols = [] → c.Replaces r w.head?) :
    c.stack (.nonterminal r.left :: w.drop r.length) < c.stack w := by
  have hreplaces : c.Replaces r w.head? := by
    by_cases hnil : r.symbols = []
    · exact hempty hnil
    · have hmem : r ∈ g.rules.toList.tail := by
        rw [← Array.getElem?_toList] at hr
        refine List.mem_iff_getElem?.2 ⟨k - 1, ?_⟩
        rw [List.getElem?_tail, Nat.sub_add_cancel (by omega), hr]
      have hrule := h.rule r hmem hnil
      unfold Replaces at hrule ⊢
      rwa [List.getLast?_eq_some_getLast hnil, Option.some_or] at hrule ⊢
  -- the components are on top of the stack, the last one first
  have hsum : (w.map c.symbol).sum =
      (r.symbols.map c.symbol).sum + ((w.drop r.length).map c.symbol).sum := by
    conv_lhs => rw [← List.take_append_drop r.length w]
    rw [List.map_append, List.sum_append, ← hword, List.map_reverse, List.sum_reverse]
  have htop : r.symbols.getLast?.or w.head? = w.head? := by
    rw [← hword, List.getLast?_reverse, List.head?_take]
    cases hw : w.head? with
    | none => simp
    | some x => split <;> simp
  unfold Replaces at hreplaces
  rw [htop] at hreplaces
  unfold stack
  rw [hsum, List.map_cons, List.sum_cons, List.head?_cons]
  omega

end Worth

namespace Engine

variable {c : Worth} {price : Nat}

/-- **Every step that goes on leaves the machine with less to pay with.** -/
theorem step_pays (he : e.RunsOn g) (hpays : c.Pays g g.automaton price) {m n : Machine W}
    {w : List Symbol} {trees : List ParseTree} (hstack : Stacked g e m.stack w trees)
    (hstep : e.step m = .next n) :
    ∃ w' trees', Stacked g e n.stack w' trees' ∧ c.left price w' n < c.left price w m := by
  obtain ⟨y, hy, htable⟩ := he.table
  rcases step_next_cases hstep with ⟨p, stream, ha, hadvance, rfl⟩ | ⟨k, ha, hreduce⟩
  · rw [htable] at ha
    obtain ⟨s, t, hs, hk, hcand⟩ := action?_candidate he.wf he.fit hy ha
    cases hcand with
    | shift hmem =>
      have hp := (mem_edges_iff he.wf hs).1 hmem
      obtain ⟨k, r, hr, hm⟩ := mem_symbols_of_transition he.wf hp
      -- the terminal on the stack is worth less than the price of its token
      have hprice := hpays.terminal t (he.wf.terminal hr hm).2
      obtain ⟨htokens, hposition⟩ := TokenStream.advance_eq_ok_iff.1 hadvance
      have hrest : m.stream.rest.length = stream.rest.length + 1 := by
        have hlt := stream.position_lt
        rw [htokens, hposition] at hlt
        unfold TokenStream.rest
        rw [List.length_drop, List.length_drop, htokens, hposition, Array.length_toList]
        omega
      refine ⟨_, _, hstack.cons hp (.leaf hk), ?_⟩
      unfold Worth.left Worth.stack
      simp only [hrest, List.map_cons, List.sum_cons, List.head?_cons, Nat.mul_add, Nat.mul_one]
      omega
  · rw [htable] at ha
    obtain ⟨s, t, hs, hk, hcand⟩ := action?_candidate he.wf he.fit hy ha
    cases hcand with
    | @reduce i la hi h0 hc _ =>
      have hcore : i ∈ s.core := List.mem_map.2 ⟨_, hi, rfl⟩
      obtain ⟨r, frame, hr, hword, hnext, hstack'⟩ := hstack.reduce he hs hcore h0 hc
      rw [hreduce] at hnext
      cases hnext
      -- what a reduction puts on the stack is worth less than what it takes off
      have hless := hpays.reduce hr h0 hword fun hnil =>
        hpays.covers he hstack hs _ hcore r hr hnil
      exact ⟨_, _, hstack', Nat.add_lt_add_right hless _⟩

/-- **A run with more fuel than there is to pay with ends.** -/
theorem exists_run_of_pays (he : e.RunsOn g) (hpays : c.Pays g g.automaton price) {fuel : Nat}
    {m : Machine W} {w : List Symbol} {trees : List ParseTree} (hstack : Stacked g e m.stack w trees)
    (hfuel : c.left price w m < fuel) : ∃ result m', e.run fuel m = some (result, m') := by
  induction fuel generalizing m w trees with
  | zero => cases hfuel
  | succ fuel ih =>
    rw [run]
    cases hstep : e.step m with
    | done result m' => exact ⟨result, m', rfl⟩
    | next n =>
      obtain ⟨w', trees', hstack', hless⟩ := step_pays he hpays hstack hstep
      exact ih hstack' (by omega)

/-- The price of each token, and once more, is enough fuel for a stream. -/
theorem exists_run_of_size (he : e.RunsOn g) (hpays : c.Pays g g.automaton price)
    (stream : TokenStream) :
    ∃ result m, e.run (price * (stream.size + 1)) (.initial stream) = some (result, m) := by
  refine exists_run_of_pays he hpays (m := .initial stream) .nil ?_
  have hlen : stream.rest.length ≤ stream.size := by
    unfold TokenStream.rest TokenStream.size
    rw [List.length_drop, Array.length_toList]
    omega
  have hprice := Nat.mul_le_mul_left price hlen
  have hstart := hpays.start
  unfold Worth.left Worth.stack Machine.initial
  simp only [List.map_nil, List.sum_nil, List.head?_nil, Nat.mul_add, Nat.mul_one]
  omega

end Engine

end ParserGen
