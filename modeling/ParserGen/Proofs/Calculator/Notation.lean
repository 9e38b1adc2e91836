import Mathlib.Data.List.TakeWhile
import ParserGen.Calculator.Parser

/-!
# How expressions are written

An expression is written with operators between their operands. Written so, it does not show how it is
grouped; it is legal if it is grouped as the levels of its operators ask for, addition and subtraction,
and multiplication and division, to the left, powers to the right.

While a legal expression is read from left to right, the last operator before the next operand is all
that matters for how to go on. A `Context` tells which it is; with the operand read, the context
either takes the next operator or ends before it.

* `Legal`, `Rendering`: which expressions are legal, and the tokens that an expression is written with.
* `takes_trans`, `ends_trans`: how contexts and operators follow on one another.
* `endsBefore_of_allowsLeft`: **a legal expression ends before every operator that allows it to its
  left.**
-/

namespace ParserGen.Calculator

/-! ## Legal expressions -/

/-- The operator of an expression that stands between two operands. -/
def Expr.operator? : Expr → Option BinaryOp
  | .binary op _ _ => some op
  | _ => none

namespace BinaryOp

/-- The expression may be the left operand: its operator is not on a lower level, and for a power not
on the same level either. -/
def AllowsLeft (op : BinaryOp) (e : Expr) : Prop :=
  ∀ p ∈ e.operator?, op.level ≤ p.level ∧ (op = pow → p.level ≠ op.level)

/-- The expression may be the right operand: its operator is not on a lower level, and on the same
level only for a power. -/
def AllowsRight (op : BinaryOp) (e : Expr) : Prop :=
  ∀ p ∈ e.operator?, op.level ≤ p.level ∧ (op ≠ pow → p.level ≠ op.level)

end BinaryOp

/-- An expression is grouped as its operators ask for. A sign stands before a number, a sign or
parentheses. -/
def Expr.Legal : Expr → Prop
  | .binary op left right =>
    left.Legal ∧ right.Legal ∧ op.AllowsLeft left ∧ op.AllowsRight right
  | .neg e => e.Legal ∧ e.operator? = none
  | .paren e => e.Legal
  | .num _ => True

/-! ## Rendering -/

/-- Decimal digits, at least one. -/
def IsDigits (cs : List Char) : Prop :=
  cs ≠ [] ∧ ∀ c ∈ cs, c.isDigit = true

instance : DecidablePred IsDigits := fun cs =>
  decidable_of_iff ((!cs.isEmpty && cs.all Char.isDigit) = true) (by simp [IsDigits])

/-- The decimal number that a text denotes: digits, and after a point the digits of a fraction if
there is one. -/
inductive Numeral : String → Decimal → Prop where
  | whole {s : String} (h : IsDigits s.toList) : Numeral s ⟨Nat.ofDigitChars 10 s.toList 0, 0⟩
  | fraction {s : String} {whole fraction : List Char} (hs : s.toList = whole ++ '.' :: fraction)
      (hw : IsDigits whole) (hf : IsDigits fraction) :
      Numeral s ⟨Nat.ofDigitChars 10 (whole ++ fraction) 0, -fraction.length⟩

/-- The tokens that an expression is written with. -/
inductive Rendering : Expr → List Token → Prop where
  | num {t : Token} {d : Decimal} (hk : t.kind = numberKind) (hd : Numeral t.value d) :
      Rendering (.num d.toFloat) [t]
  | paren {inner : Expr} {opening closing : Token} {ts : List Token} (ho : opening.kind = "(")
      (hc : closing.kind = ")") (h : Rendering inner ts) :
      Rendering (.paren inner) (opening :: (ts ++ [closing]))
  | neg {operand : Expr} {sign : Token} {ts : List Token} (hs : sign.kind = BinaryOp.sub.symbol)
      (h : Rendering operand ts) : Rendering (.neg operand) (sign :: ts)
  | binary {op : BinaryOp} {left right : Expr} {operator : Token} {ls rs : List Token}
      (ho : operator.kind = op.symbol) (hl : Rendering left ls) (hr : Rendering right rs) :
      Rendering (.binary op left right) (ls ++ operator :: rs)

theorem ofDigits_eq (cs : List Char) : Text.ofDigits cs = Nat.ofDigitChars 10 cs 0 := by
  unfold Text.ofDigits Nat.ofDigitChars
  congr 1
  funext n c
  rw [Nat.mul_comm]

theorem numeral?_of_isDigits {cs : List Char} (h : IsDigits cs) :
    Text.numeral? cs = some (Nat.ofDigitChars 10 cs 0) := by
  unfold Text.numeral?
  rw [← ofDigits_eq, if_pos]
  simp only [Bool.and_eq_true, Bool.not_eq_true', List.isEmpty_eq_false_iff, List.all_eq_true]
  exact h

/-- What a numeral denotes is the value it is given. -/
theorem Numeral.ofText? {s : String} {d : Decimal} (h : Numeral s d) : Decimal.ofText? s = some d := by
  have hpoint : ∀ {cs : List Char}, IsDigits cs → ∀ c ∈ cs, (c != '.') = true := by
    intro cs h c hc
    rw [bne_iff_ne]
    rintro rfl
    exact absurd (h.2 _ hc) (by decide)
  cases h with
  | whole h =>
    have htake : s.toList.takeWhile (· != '.') = s.toList := List.takeWhile_eq_self_iff.2 (hpoint h)
    have hdrop : s.toList.dropWhile (· != '.') = [] := List.dropWhile_eq_nil_iff.2 (hpoint h)
    unfold Decimal.ofText?
    rw [htake, hdrop]
    simp [numeral?_of_isDigits h]
  | @fraction whole fraction hs hw hf =>
    have hdigits : Nat.ofDigitChars 10 (whole ++ fraction) 0 =
        Nat.ofDigitChars 10 whole 0 * 10 ^ fraction.length + Nat.ofDigitChars 10 fraction 0 := by
      rw [Nat.ofDigitChars_append, Nat.ofDigitChars_eq_ofDigitChars_zero, Nat.mul_comm]
    unfold Decimal.ofText?
    rw [hs, List.takeWhile_append_of_pos (hpoint hw), List.dropWhile_append_of_pos (hpoint hw)]
    simp [numeral?_of_isDigits hw, numeral?_of_isDigits hf, hdigits]

/-! ## Contexts -/

/-- What stands before the next operand. -/
inductive Context where
  | start
  | paren
  | sign
  | after (op : BinaryOp)
deriving DecidableEq

/-- The kinds of tokens. -/
inductive Kind where
  | operator (op : BinaryOp)
  | opening
  | closing
  | number
  | eof
deriving DecidableEq

/-- The name of a kind. -/
def Kind.name : Kind → String
  | .operator op => op.symbol
  | .opening => "("
  | .closing => ")"
  | .number => numberKind
  | .eof => Token.eofKind

namespace Context

/-- With an operand read, the operator makes it its left operand. -/
def takes : Context → BinaryOp → Bool
  | start, _ => true
  | paren, _ => true
  | sign, _ => false
  | after p, op => decide (p.level < op.level ∨ p.level = op.level ∧ op = .pow)

/-- With an operand read, the sign or the operator has all its operands if this kind of token
follows. -/
def endsBefore (c : Context) : Kind → Bool
  | .operator op => !c.takes op
  | .closing => true
  | .eof => true
  | .opening => false
  | .number => false

/-- The expression may be an operand. -/
def Fits (c : Context) (e : Expr) : Prop :=
  ∀ p ∈ e.operator?, c.takes p = true

end Context

open Context

theorem allowsRight_iff {op : BinaryOp} {e : Expr} : op.AllowsRight e ↔ (after op).Fits e := by
  have hall : ∀ p : BinaryOp, (op.level ≤ p.level ∧ (op ≠ .pow → p.level ≠ op.level)) ↔
      (after op).takes p = true := by
    intro p
    cases op <;> cases p <;> decide
  exact forall₂_congr fun p _ => hall p

theorem allowsLeft_iff {op : BinaryOp} {e : Expr} :
    op.AllowsLeft e ↔ ∀ p ∈ e.operator?, (after p).takes op = false := by
  have hall : ∀ p : BinaryOp, (op.level ≤ p.level ∧ (op = .pow → p.level ≠ op.level)) ↔
      (after p).takes op = false := by
    intro p
    cases op <;> cases p <;> decide
  exact forall₂_congr fun p _ => hall p

/-- A context that takes an operator takes the operators of its left operand. -/
theorem takes_trans {c : Context} {p op : BinaryOp} (hc : c.takes op = true)
    (hp : (after p).takes op = false) : c.takes p = true := by
  cases c with
  | start => rfl
  | paren => rfl
  | sign => cases hc
  | after q => revert hc hp; cases q <;> cases p <;> cases op <;> decide

/-- What ends before an operator has right operands that end before it. -/
theorem ends_trans {p q op : BinaryOp} (hp : (after p).takes op = false)
    (hq : (after p).takes q = true) : (after q).takes op = false := by
  revert hp hq
  cases p <;> cases q <;> cases op <;> decide

/-! ## Where an expression ends -/

/-- With the expression read, every sign and operator that waits for its right operand has it if this
kind of token follows. -/
def Expr.EndsBefore (k : Kind) : Expr → Prop
  | .binary op _ right => (after op).endsBefore k = true ∧ right.EndsBefore k
  | .neg e => sign.endsBefore k = true ∧ e.EndsBefore k
  | .paren _ => sign.endsBefore k = true
  | .num _ => sign.endsBefore k = true

/-- **A legal expression ends before every operator that allows it to its left.** -/
theorem endsBefore_of_allowsLeft {e : Expr} {op : BinaryOp} (hl : e.Legal) (h : op.AllowsLeft e) :
    e.EndsBefore (.operator op) := by
  rw [allowsLeft_iff] at h
  induction e with
  | binary p left right _ ih =>
    obtain ⟨-, hright, -, hallows⟩ := hl
    have hp := h p rfl
    have hfits := allowsRight_iff.1 hallows
    exact ⟨by simpa [endsBefore] using hp, ih hright fun q hq => ends_trans hp (hfits q hq)⟩
  | neg e ih =>
    obtain ⟨hlegal, hnone⟩ := hl
    exact ⟨rfl, ih hlegal (by simp [hnone])⟩
  | paren e _ => rfl
  | num x => rfl

theorem endsBefore_of_closed {e : Expr} {k : Kind} (h : k = .closing ∨ k = .eof) : e.EndsBefore k := by
  have hall : ∀ c : Context, c.endsBefore k = true := by
    intro c
    rcases h with rfl | rfl <;> rfl
  induction e with
  | binary op _ right _ ih => exact ⟨hall _, ih⟩
  | neg e ih => exact ⟨hall _, ih⟩
  | paren e _ => exact hall _
  | num x => exact hall _

end ParserGen.Calculator
