import ParserGen.OrderedMap

/-!
# Operators and policies

What decides the conflicts of a parse table. A symbol declared as an operator has a priority and an
associativity, by which a choice between shifting it and reducing by a rule can be made. Which conflicts
may be settled, and how, is the policy: a set of four strategies. The empty policy reports every conflict.
-/

namespace ParserGen

/-! ## Operators -/

/-- What happens between two operators of one priority. -/
inductive Associativity where
  | left
  | right
  | nonassoc
deriving DecidableEq, Inhabited

/-- The word for the associativity. -/
def Associativity.display : Associativity → String
  | .left => "left"
  | .right => "right"
  | .nonassoc => "nonassoc"

/-- How strongly an operator binds, and on which side. -/
structure Precedence where
  priority : Nat
  assoc : Associativity
deriving DecidableEq, Inhabited

/-- The declared operators in order of their first declaration. -/
abbrev OperatorTable := OrderedMap String Precedence

/-! ## Policies -/

/-- The strategies in use. -/
structure Policy where
  /-- A shift wins over a reduction. -/
  shift : Bool
  /-- Of two reductions the one by the longer rule wins. -/
  longer : Bool
  /-- Of two reductions the one by the rule defined first wins. -/
  earlier : Bool
  /-- Operator precedence decides between a shift and a reduction. -/
  operators : Bool
deriving DecidableEq

namespace Policy

/-- Every conflict is an error. -/
def none : Policy := ⟨false, false, false, false⟩

/-- All strategies. -/
def all : Policy := ⟨true, true, true, true⟩

/-- The policy of a grammar that chooses none: precedence, then the shift. -/
def standard : Policy := ⟨true, false, false, true⟩

instance : Inhabited Policy := ⟨standard⟩

/-- The strategies of both policies. -/
def union (p q : Policy) : Policy :=
  ⟨p.shift || q.shift, p.longer || q.longer, p.earlier || q.earlier, p.operators || q.operators⟩

/-- Whether `p` has every strategy of `q`. -/
def contains (p q : Policy) : Bool :=
  decide (p.union q = p)

/-- The strategies by name, in the order in which they are shown. -/
def named : List (String × Policy) :=
  [("shift", { none with shift := true }),
   ("longer", { none with longer := true }),
   ("earlier", { none with earlier := true }),
   ("operators", { none with operators := true })]

/-- The policy that a name stands for. -/
def ofName? (name : String) : Option Policy :=
  (("none", none) :: ("all", all) :: named).lookup name

/-- The policy of a list of names: all of them together, or nothing if one is unknown. -/
def ofNames? (names : List String) : Option Policy :=
  names.foldlM (fun p name => (ofName? name).map p.union) none

/-- The policy as a number of four bits. -/
def bits (p : Policy) : Nat :=
  p.shift.toNat + 2 * p.longer.toNat + 4 * p.earlier.toNat + 8 * p.operators.toNat

/-- The names of the strategies in use. -/
def display (p : Policy) : String :=
  match named.filter (fun entry => p.contains entry.2) with
  | [] => "none"
  | found => " | ".intercalate (found.map (·.1))

end Policy

end ParserGen
