import ParserGen.Calculator.Expr
import ParserGen.Reader

/-!
# Reading arithmetic expressions

The grammar of expressions has one nonterminal; operators tell how it is to be read. Addition and
subtraction, and multiplication and division, bind more and more strongly and group to the left,
powers bind still more strongly and group to the right, and a sign binds most strongly.
-/

namespace ParserGen.Calculator

/-- The value of a phrase. -/
inductive Node where
  | empty
  | token (t : Token)
  | expr (e : Expr)
  /-- The parts of the phrase do not have the values that its rule gives them. -/
  | broken

instance : Inhabited Node := ⟨.empty⟩

/-- The kind of numbers. -/
def numberKind : String := "NUM"

/-- The kind of blanks. -/
def blankKind : String := "WSP"

/-- How strongly a sign binds. -/
def negationLevel : Nat := 4

/-- The lexer of expressions. -/
def lexer : Except LexError SimpleLexer := do
  let l := ((BinaryOp.all.map BinaryOp.symbol) ++ ["(", ")"]).foldl SimpleLexer.token .empty
  let l ← l.pattern numberKind "[0-9]+(\\.[0-9]+)?"
  let l ← l.pattern blankKind "[ \\t\\n\\f]+"
  return l.skip [blankKind]

/-- Declares the operators of a level. -/
def declare (level : Nat) (assoc : Associativity) : Builder Node Unit := do
  Builder.operators ((BinaryOp.all.filter (·.level = level)).map BinaryOp.symbol)
  Builder.assoc assoc
  Builder.prec level

/-- The expression of an operator with its operands. -/
def binaryNode (op : BinaryOp) : List Node → Node
  | [.expr left, _, .expr right] => .expr (.binary op left right)
  | _ => .broken

/-- The expression between parentheses. -/
def parenNode : List Node → Node
  | [_, .expr e, _] => .expr (.paren e)
  | _ => .broken

/-- The expression after a sign. -/
def negNode : List Node → Node
  | [_, .expr e] => .expr (.neg e)
  | _ => .broken

/-- The number that a token holds. -/
def numNode : List Node → Node
  | [.token t] =>
    match Decimal.ofText? t.value with
    | some d => .expr (.num d.toFloat)
    | none => .broken
  | _ => .broken

/-- The definition of the grammar. -/
def calls : Builder Node Unit := do
  declare 1 .left
  declare 2 .left
  declare 3 .right
  BinaryOp.all.forM fun op => do
    let _ ← Builder.rule "Expr" ["Expr", op.symbol, "Expr"]
    Builder.call (binaryNode op)
  let _ ← Builder.rule "Expr" ["(", "Expr", ")"]
  Builder.call parenNode
  let _ ← Builder.rule "Expr" ["-", "Expr"]
  Builder.prec negationLevel
  Builder.call negNode
  let _ ← Builder.rule "Expr" [numberKind]
  Builder.call numNode
  Builder.start "Expr"

/-- The reader of expressions, which is set up once. -/
def reader? : Option (Reader Node) :=
  Reader.ofParts? lexer (Grammar.define calls)

/-- The steps that suffice for each token of an expression. -/
def stepsPerToken : Nat := 8

/-- The expression that the value of a whole text stands for. -/
def Node.expr? : Node → Option Expr
  | .expr e => some e
  | _ => none

/-- Reads an expression. -/
def parse (text : String) : Except SyntaxError Expr :=
  match reader? with
  | none => .error .internal
  | some r => r.read Node.token stepsPerToken Node.expr? text

end ParserGen.Calculator
