import ParserGen.Proofs.Automaton.Saturation
import ParserGen.Proofs.Calculator.Notation
import ParserGen.Proofs.Engine.Reader

/-!
# The table of the calculator

The states of the calculator's table are those in which an operand is awaited, one for each context,
those in which it was read, and two in which a number or parentheses are complete. What the table holds
is what the contexts say: with an operand read, it shifts an operator that the context takes, and
reduces where the context ends.

* `exists_table`: **the calculator's table is laid out so.** It is evaluated, with lookaheads by
  saturation.
* `exists_reader`: the reader of expressions has this table.
* `step_accept`: the end of a run.
* `step_number`, `step_paren`, `step_sign`, `exists_step_operator`: the reductions.
-/

namespace ParserGen.Calculator

/-- The grammar of expressions. -/
def grammar : Grammar Node :=
  (Grammar.define calls).toOption.get (by decide +kernel)

theorem grammar_eq : Grammar.define calls = .ok grammar :=
  eq_ok_get _ _

/-- The left side, the length and the callback of each rule. -/
theorem grammar_rules : grammar.rules.toList.map (fun r => (r.name, r.length, r.callback)) =
    [("$start", 1, none), ("Expr", 3, some (binaryNode .add)), ("Expr", 3, some (binaryNode .sub)),
     ("Expr", 3, some (binaryNode .mul)), ("Expr", 3, some (binaryNode .div)),
     ("Expr", 3, some (binaryNode .pow)), ("Expr", 3, some parenNode), ("Expr", 2, some negNode),
     ("Expr", 1, some numNode)] := by
  rfl

/-! ## What the table holds -/

/-- The state that a number leads to. -/
def numberState : Nat := 4

/-- The state that a closing parenthesis leads to. -/
def closedState : Nat := 17

namespace Context

/-- All contexts. -/
def all : List Context := [start, paren, sign] ++ BinaryOp.all.map after

theorem mem_all (c : Context) : c ∈ all := by
  cases c with
  | after op => cases op <;> decide
  | start => decide
  | paren => decide
  | sign => decide

/-- The state in which the operand is awaited. -/
def awaiting : Context → Nat
  | start => 0
  | paren => 2
  | sign => 3
  | after .add => 5
  | after .sub => 6
  | after .mul => 7
  | after .div => 8
  | after .pow => 9

/-- The state with the operand read. -/
def holding : Context → Nat
  | start => 1
  | paren => 10
  | sign => 11
  | after .add => 12
  | after .sub => 13
  | after .mul => 14
  | after .div => 15
  | after .pow => 16

/-- The rule that the operand completes. -/
def rule? : Context → Option Nat
  | start => none
  | paren => none
  | sign => some 7
  | after .add => some 1
  | after .sub => some 2
  | after .mul => some 3
  | after .div => some 4
  | after .pow => some 5

/-- What to do with the operand read. -/
def onKind (c : Context) : Kind → Option Action
  | .operator op =>
    if c.takes op then some (.shift (after op).awaiting) else c.rule?.map .reduce
  | .closing => if c = paren then some (.shift closedState) else c.rule?.map .reduce
  | .eof => if c = start then some .accept else c.rule?.map .reduce
  | .opening => none
  | .number => none

end Context

namespace Kind

/-- All kinds. -/
def all : List Kind := [opening, closing, number, eof] ++ BinaryOp.all.map operator

theorem mem_all (k : Kind) : k ∈ all := by
  cases k with
  | operator op => cases op <;> decide
  | opening => decide
  | closing => decide
  | number => decide
  | eof => decide

/-- What to do where an operand is awaited. -/
def onOperand : Kind → Option Action
  | opening => some (.shift Context.paren.awaiting)
  | operator .sub => some (.shift Context.sign.awaiting)
  | number => some (.shift numberState)
  | _ => none

/-- What to do when a number or parentheses are complete. -/
def onComplete (rule : Nat) (k : Kind) : Option Action :=
  if Context.sign.endsBefore k then some (.reduce rule) else none

end Kind

/-- A table that does what the contexts say. -/
def LaidOut (t : ParseTable) : Prop :=
  (∀ c ∈ Context.all, t.goto? c.awaiting "Expr" = some c.holding ∧
    ∀ k ∈ Kind.all, t.action? c.awaiting k.name = k.onOperand ∧
      t.action? c.holding k.name = c.onKind k) ∧
  ∀ k ∈ Kind.all, t.action? numberState k.name = k.onComplete 8 ∧
    t.action? closedState k.name = k.onComplete 6

instance : DecidablePred LaidOut := fun _ =>
  inferInstanceAs (Decidable (_ ∧ _))

/-- **The calculator's table does what the contexts say.** -/
theorem exists_table : ∃ r, grammar.analyze.outcome = .ok r ∧ LaidOut r.table := by
  -- one evaluation gives both that there is a table and what is in it
  have hlaid : ((grammar.saturated? 8).bind fun a => (grammar.synthesize a).toOption).any
      (fun r => decide (LaidOut r.table)) = true := by
    decide +kernel
  obtain ⟨r, hr, hlaid⟩ := (Option.any_eq_true _ _).1 hlaid
  obtain ⟨a, ha, hr⟩ := Option.bind_eq_some_iff.1 hr
  refine ⟨r, ?_, of_decide_eq_true hlaid⟩
  rw [outcome_of_saturated ha]
  cases hs : grammar.synthesize a with
  | error c => rw [hs] at hr; cases hr
  | ok r' => rw [hs] at hr; cases hr; rfl

/-- The reader of expressions parses with a table that is laid out so. -/
theorem exists_reader :
    ∃ r : Reader Node, reader? = some r ∧ r.parser.grammar = grammar ∧ LaidOut r.parser.table := by
  obtain ⟨r, hr, hlaid⟩ := exists_table
  have hlexer : lexer.toOption.isSome = true := by decide +kernel
  exact ⟨_, Reader.ofParts?_eq (eq_ok_get _ hlexer) grammar_eq hr, rfl, hlaid⟩

/-! ## Reductions -/

/-- The engine of the calculator. -/
def engine (t : ParseTable) : Engine Node :=
  (Parser.mk grammar t).engine Node.token

theorem reductions_of_rule {k n : Nat} {callback : List Node → Node}
    (h : (grammar.rules.toList.map fun r => (r.name, r.length, r.callback))[k]? =
      some ("Expr", n, some callback)) :
    grammar.reductions.lhs k = some "Expr" ∧ grammar.reductions.arity k = some n ∧
      grammar.reductions.reduce k = callback := by
  rw [List.getElem?_map, Option.map_eq_some_iff] at h
  obtain ⟨r, hr, h⟩ := h
  rw [Array.getElem?_toList] at hr
  simp only [Prod.mk.injEq] at h
  obtain ⟨hname, hlen, hcallback⟩ := h
  refine ⟨by simp [Grammar.reductions, hr, hname], by simp [Grammar.reductions, hr, hlen], ?_⟩
  funext args
  simp [Grammar.reductions, Grammar.reduce, hr, hcallback]

theorem onKind_of_ends {c : Context} {k : Kind} {rule : Nat} (hr : c.rule? = some rule)
    (hk : c.endsBefore k = true) : c.onKind k = some (.reduce rule) := by
  cases k with
  | operator op =>
    have htakes : c.takes op = false := by simpa [Context.endsBefore] using hk
    simp [Context.onKind, htakes, hr]
  | closing =>
    have hne : c ≠ .paren := by rintro rfl; cases hr
    simp [Context.onKind, hne, hr]
  | eof =>
    have hne : c ≠ .start := by rintro rfl; cases hr
    simp [Context.onKind, hne, hr]
  | opening => cases hk
  | number => cases hk

section Reductions

variable {t : ParseTable} (ht : LaidOut t)

include ht

theorem action?_awaiting (c : Context) (k : Kind) :
    (engine t).table.action? c.awaiting k.name = k.onOperand :=
  ((ht.1 c c.mem_all).2 k k.mem_all).1

theorem action?_holding (c : Context) (k : Kind) :
    (engine t).table.action? c.holding k.name = c.onKind k :=
  ((ht.1 c c.mem_all).2 k k.mem_all).2

/-- At `$eof`, the expression behind which no context waits is the result. -/
theorem step_accept {m : Machine Node} {e : Expr} {base : List (Frame Node)}
    (hk : m.stream.current.kind = Token.eofKind)
    (hm : m.stack = ⟨Context.start.holding, .expr e⟩ :: base) :
    (engine t).step m = .done (.ok (.expr e)) m := by
  have ha : (engine t).table.action? (Machine.topState m.stack) m.stream.current.kind =
      some .accept := by
    rw [hm, hk]
    exact action?_holding ht .start .eof
  unfold Engine.step Engine.accept
  simp only [ha]
  rw [hm]

variable {m : Machine Node} {c : Context} {k : Kind} {base : List (Frame Node)}
  (hk : m.stream.current.kind = k.name) (hbase : Machine.topState base = c.awaiting)

include hk hbase

/-- A reduction puts an expression on the stack and goes to where the operand is read. -/
theorem step_rule {rule : Nat} {e : Expr} (frames : List (Frame Node)) (callback : List Node → Node)
    (hrule : (grammar.rules.toList.map fun r => (r.name, r.length, r.callback))[rule]? =
      some ("Expr", frames.length, some callback))
    (ha : t.action? (Machine.topState m.stack) k.name = some (.reduce rule))
    (hm : m.stack = frames ++ base) (he : callback (frames.map (·.value)).reverse = .expr e) :
    (engine t).step m = .next { m with
      stack := ⟨c.holding, .expr e⟩ :: base, reduced := rule :: m.reduced } := by
  obtain ⟨hleft, hlen, hreduce⟩ := reductions_of_rule hrule
  rw [← hk] at ha
  have hgoto : (engine t).table.goto? (Machine.topState base) "Expr" = some c.holding := by
    rw [hbase]
    exact (ht.1 c c.mem_all).1
  rw [Engine.step_reduce_of_goto ha hleft hlen hm hgoto, ← he, ← hreduce]
  rfl

/-- A number is an expression. -/
theorem step_number {token : Token} {d : Decimal} (hends : Context.sign.endsBefore k = true)
    (hd : Numeral token.value d) (hm : m.stack = ⟨numberState, .token token⟩ :: base) :
    (engine t).step m = .next { m with
      stack := ⟨c.holding, .expr (.num d.toFloat)⟩ :: base, reduced := 8 :: m.reduced } := by
  have ha : t.action? (Machine.topState m.stack) k.name = some (.reduce 8) := by
    rw [hm]
    exact (ht.2 k k.mem_all).1.trans (if_pos hends)
  refine step_rule ht hk hbase [⟨numberState, .token token⟩] numNode
    (by rw [grammar_rules]; rfl) ha hm ?_
  simp [numNode, hd.ofText?]

/-- Parentheses are an expression. -/
theorem step_paren {opening closing : Token} {e : Expr} (hends : Context.sign.endsBefore k = true)
    (hm : m.stack = ⟨closedState, .token closing⟩ :: ⟨Context.paren.holding, .expr e⟩ ::
      ⟨Context.paren.awaiting, .token opening⟩ :: base) :
    (engine t).step m = .next { m with
      stack := ⟨c.holding, .expr (.paren e)⟩ :: base, reduced := 6 :: m.reduced } := by
  have ha : t.action? (Machine.topState m.stack) k.name = some (.reduce 6) := by
    rw [hm]
    exact (ht.2 k k.mem_all).2.trans (if_pos hends)
  exact step_rule ht hk hbase [⟨closedState, .token closing⟩, ⟨Context.paren.holding, .expr e⟩,
    ⟨Context.paren.awaiting, .token opening⟩] parenNode (by rw [grammar_rules]; rfl) ha hm rfl

/-- A sign with its operand is an expression. -/
theorem step_sign {sign : Token} {e : Expr} (hends : Context.sign.endsBefore k = true)
    (hm : m.stack = ⟨Context.sign.holding, .expr e⟩ :: ⟨Context.sign.awaiting, .token sign⟩ :: base) :
    (engine t).step m = .next { m with
      stack := ⟨c.holding, .expr (.neg e)⟩ :: base, reduced := 7 :: m.reduced } := by
  have ha : t.action? (Machine.topState m.stack) k.name = some (.reduce 7) := by
    rw [hm]
    exact (action?_holding ht .sign k).trans (onKind_of_ends rfl hends)
  exact step_rule ht hk hbase [⟨Context.sign.holding, .expr e⟩,
    ⟨Context.sign.awaiting, .token sign⟩] negNode (by rw [grammar_rules]; rfl) ha hm rfl

/-- An operator between its operands is an expression. -/
theorem exists_step_operator {op : BinaryOp} {operator : Token} {left right : Expr}
    (hends : (Context.after op).endsBefore k = true)
    (hm : m.stack = ⟨(Context.after op).holding, .expr right⟩ ::
      ⟨(Context.after op).awaiting, .token operator⟩ :: ⟨c.holding, .expr left⟩ :: base) :
    ∃ rule, (engine t).step m = .next { m with
      stack := ⟨c.holding, .expr (.binary op left right)⟩ :: base, reduced := rule :: m.reduced } := by
  obtain ⟨rule, hr, hrule⟩ : ∃ rule, (Context.after op).rule? = some rule ∧
      (grammar.rules.toList.map fun r => (r.name, r.length, r.callback))[rule]? =
        some ("Expr", 3, some (binaryNode op)) := by
    rw [grammar_rules]
    cases op <;> exact ⟨_, rfl, rfl⟩
  have ha : t.action? (Machine.topState m.stack) k.name = some (.reduce rule) := by
    rw [hm]
    exact (action?_holding ht (.after op) k).trans (onKind_of_ends hr hends)
  exact ⟨rule, step_rule ht hk hbase [⟨(Context.after op).holding, .expr right⟩,
    ⟨(Context.after op).awaiting, .token operator⟩, ⟨c.holding, .expr left⟩] (binaryNode op) hrule ha
    hm rfl⟩

end Reductions

end ParserGen.Calculator
