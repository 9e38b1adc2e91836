import ParserGen.Automaton.Kernel

/-!
# The collection of states

The states of the automaton without lookaheads. A state is entered with a kernel; its closure adds
the items that its members open. Moving the dot over a symbol leads to the state whose kernel holds
the moved items. States are found breadth first from the start item and numbered as they are found.
-/

namespace ParserGen

/-- A state without lookaheads. -/
structure CoreState where
  /-- The items the state is entered with. -/
  kernel : List Item
  /-- All items, those of the kernel first. -/
  items : List Item
  /-- The state that each symbol after a dot leads to. -/
  edges : List (Symbol × Nat)
deriving DecidableEq, Inhabited

namespace Grammar

variable {V : Type} (g : Grammar V)

/-- Completes a list of items, of which `todo` still open rules. A rule in `opened` is not opened
again. -/
def closeItems : Nat → List Item → IndexSet → List Item
  | 0, _, _ => []
  | _ + 1, [], _ => []
  | fuel + 1, item :: todo, opened =>
    let fresh := (g.openedRules item).filter fun rule => !opened.contains rule
    item :: closeItems fuel (todo ++ fresh.map fun rule => ⟨rule, 0⟩)
      (fresh.foldl IndexSet.insert opened)

/-- The kernel with all items that it opens, directly or through others. Each rule is opened at most
once, which bounds the number of items. -/
def closure (kernel : List Item) : List Item :=
  g.closeItems (kernel.length + g.rules.size) kernel
    (IndexSet.ofList ((kernel.filter (·.dot == 0)).map (·.rule)))

/-- The symbols after the dots, in order of first occurrence, with the items moved over them. -/
def successorKernels (items : List Item) : List (Symbol × List Item) :=
  (items.filterMap g.symbolAfterDot).eraseDups.map fun x =>
    (x, (items.filter fun i => g.symbolAfterDot i == some x).map Item.advance)

end Grammar

/-- The states found so far, by their kernels. -/
structure Discovery where
  kernels : Array (List Item)
  index : KernelIndex

namespace Discovery

variable {V : Type} (g : Grammar V)

/-- Only the state that holds the start item is known. -/
def initial : Discovery :=
  { kernels := #[[Item.start]], index := ((∅ : KernelIndex).insert [Item.start]).2 }

/-- The number of the state with a kernel, which is added if it is new. -/
def register (d : Discovery) (kernel : List Item) : Nat × Discovery :=
  match d.index.insert kernel with
  | ((n, false), _) => (n, d)
  | ((n, true), index) => (n, { kernels := d.kernels.push kernel, index })

/-- Registers the targets of the edges of a state from left to right. -/
def registerAll : List (Symbol × List Item) → Discovery → List (Symbol × Nat) × Discovery
  | [], d => ([], d)
  | (x, kernel) :: rest, d =>
    let (n, d) := d.register kernel
    let (edges, d) := registerAll rest d
    ((x, n) :: edges, d)

/-- Works through the states from number `n` on, in the order in which they were found. -/
def explore : Nat → Nat → Discovery → List CoreState
  | 0, _, _ => []
  | fuel + 1, n, d =>
    match d.kernels[n]? with
    | none => []
    | some kernel =>
      let items := g.closure kernel
      let (edges, d) := registerAll (g.successorKernels items) d
      { kernel, items, edges } :: explore fuel (n + 1) d

end Discovery

/-- All states of a grammar. There are no more of them than sets of items. -/
def Grammar.collection {V : Type} (g : Grammar V) : List CoreState :=
  Discovery.explore g (Nat.pow 2 g.itemCount + 1) 0 Discovery.initial

end ParserGen
