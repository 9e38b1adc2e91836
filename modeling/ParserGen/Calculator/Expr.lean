import ParserGen.Decimal.Shortest

/-!
# Arithmetic expressions

The expressions of the calculator, their values and how they are written. Parentheses are kept.
-/

namespace ParserGen.Calculator

/-- An operator between two operands. -/
inductive BinaryOp where
  | add
  | sub
  | mul
  | div
  | pow
deriving DecidableEq, Inhabited

namespace BinaryOp

/-- All operators. -/
def all : List BinaryOp := [add, sub, mul, div, pow]

/-- How the operator is written. -/
def symbol : BinaryOp → String
  | add => "+"
  | sub => "-"
  | mul => "*"
  | div => "/"
  | pow => "**"

/-- How strongly the operator binds. -/
def level : BinaryOp → Nat
  | add | sub => 1
  | mul | div => 2
  | pow => 3

/-- The value of the operator. -/
def apply : BinaryOp → Float → Float → Float
  | add => (· + ·)
  | sub => (· - ·)
  | mul => (· * ·)
  | div => (· / ·)
  | pow => Float.pow

end BinaryOp

/-- An expression. -/
inductive Expr where
  | binary (op : BinaryOp) (left right : Expr)
  | neg (operand : Expr)
  | paren (inner : Expr)
  | num (value : Float)
deriving Inhabited

namespace Expr

/-- The value of an expression. -/
def eval : Expr → Float
  | binary op left right => op.apply left.eval right.eval
  | neg e => -e.eval
  | paren e => e.eval
  | num x => x

/-- Writes an expression with every operator before its operands. -/
def display : Expr → String
  | binary op left right =>
    "(" ++ op.symbol ++ " " ++ left.display ++ " " ++ right.display ++ ")"
  | neg e => "(neg " ++ e.display ++ ")"
  | paren e => "(" ++ e.display ++ ")"
  | num x => (FloatValue.ofFloat x).display

end Expr

end ParserGen.Calculator
