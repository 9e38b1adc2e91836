import ParserGen.Pattern.Expr

/-!
# Programs of patterns

A pattern is matched by a program whose threads run side by side over the text. A fork starts several
threads, the preferred one first; the order of the threads is the order of preference among matches.
-/

namespace ParserGen.Pattern

/-- One instruction. Instructions are known by their place in the program. -/
inductive Instr where
  /-- Read a character of a set. -/
  | char (s : CharSet) (next : Nat)
  /-- Go on at several places, the first one preferred. -/
  | fork (targets : List Nat)
  /-- Go on if an assertion holds. -/
  | assertion (a : Assertion) (next : Nat)
  /-- Note the place in the text. -/
  | mark (slot : Nat) (next : Nat)
  /-- The text so far matches. -/
  | accept
deriving DecidableEq, Inhabited

/-- A program under construction. Code is laid down from its end to its beginning, so that the place
of what follows is always known. -/
structure Code where
  instrs : Array Instr
  /-- The named groups; the group at position `k` is noted in the slots `2 k` and `2 k + 1`. -/
  groups : Array String
deriving Inhabited

namespace Code

/-- Adds an instruction and returns its place. -/
def push (code : Code) (i : Instr) : Nat × Code :=
  let place := code.instrs.size
  (place, { code with instrs := code.instrs.push i })

/-- Replaces an instruction. -/
def patch (code : Code) (place : Nat) (i : Instr) : Code :=
  { code with instrs := code.instrs.setIfInBounds place i }

/-- A fork between going on and leaving. -/
def choice (greedy : Bool) (body exit : Nat) : Instr :=
  .fork (if greedy then [body, exit] else [exit, body])

/-- Lays down code that goes on at a given place, and returns where it begins. -/
abbrev Layer := Nat → Code → Nat × Code

/-- The body, then another round or the exit. The fork comes first, since the body leads to it. -/
def plus (greedy : Bool) (body : Layer) : Layer := fun exit code =>
  let (fork, code) := code.push (.fork [])
  let (start, code) := body fork code
  (start, code.patch fork (choice greedy start exit))

/-- The body or the exit. -/
def option (greedy : Bool) (body : Layer) (next : Nat) : Layer := fun exit code =>
  let (start, code) := body next code
  code.push (choice greedy start exit)

/-- Any number of rounds. A body that may be empty is run at least once or left out altogether, so
that an empty round comes in its place among the preferences. -/
def star (greedy mayBeEmpty : Bool) (body : Layer) : Layer := fun exit code =>
  if mayBeEmpty then
    let (start, code) := plus greedy body exit code
    code.push (choice greedy start exit)
  else
    let (fork, code) := code.push (.fork [])
    let (start, code) := body fork code
    (fork, code.patch fork (choice greedy start exit))

/-- The body a fixed number of times. -/
def times (body : Layer) : Nat → Layer
  | 0, exit, code => (exit, code)
  | n + 1, exit, code =>
    let (start, code) := times body n exit code
    body start code

/-- The body at most a number of times; each round is a choice between it and the exit. -/
def upTo (greedy : Bool) (body : Layer) : Nat → Layer
  | 0, exit, code => (exit, code)
  | n + 1, exit, code =>
    let (next, code) := upTo greedy body n exit code
    option greedy body next exit code

end Code

/-- Lays down the code of an expression. -/
def Expr.compile : Expr → Code.Layer
  | .empty, next, code => (next, code)
  | .char s, next, code => code.push (.char s next)
  | .assertion a, next, code => code.push (.assertion a next)
  | .seq r s, next, code =>
    let (middle, code) := s.compile next code
    r.compile middle code
  | .alt r s, next, code =>
    let (first, code) := r.compile next code
    let (second, code) := s.compile next code
    code.push (.fork [first, second])
  | .repetition min max greedy r, next, code =>
    match max with
    | some max =>
      let (rest, code) := Code.upTo greedy r.compile (max - min) next code
      Code.times r.compile min rest code
    | none =>
      match min with
      | 0 => Code.star greedy r.mayBeEmpty r.compile next code
      | min + 1 =>
        let (rest, code) := Code.plus greedy r.compile next code
        Code.times r.compile min rest code
  | .group name r, next, code =>
    let slot := 2 * code.groups.size
    let code := { code with groups := code.groups.push name }
    let (stop, code) := code.push (.mark (slot + 1) next)
    let (start, code) := r.compile stop code
    code.push (.mark slot start)

/-- A program with the place where it begins. -/
structure Program where
  instrs : Array Instr
  groups : Array String
  start : Nat
deriving Inhabited

/-- The program of an expression. -/
def Expr.program (r : Expr) : Program :=
  let (accept, code) := Code.push { instrs := #[], groups := #[] } .accept
  let (start, code) := r.compile accept code
  { instrs := code.instrs, groups := code.groups, start }

end ParserGen.Pattern
