import ParserGen.Automaton.Item

/-!
# Kernels

A state of the automaton is known by its kernel, the set of items it was entered with. A kernel's key
is the ascending list of its items' codes, so that the order of the items and their repetition do not
matter. Codes are words of 64 bits; they are distinct for distinct items as long as rule and dot
together stay below `2 ^ 32`.
-/

namespace ParserGen

/-- The number of an item in the enumeration of all pairs along the diagonals. -/
def Item.code (i : Item) : UInt64 :=
  let rule := i.rule.toUInt64
  let dot := i.dot.toUInt64
  (rule + dot) * (rule + dot + 1) / 2 + dot

namespace Kernel

/-- Adds a code to an ascending list without repetition. -/
def insertCode (c : UInt64) : List UInt64 → List UInt64
  | [] => [c]
  | d :: rest => if c < d then c :: d :: rest else if c = d then d :: rest else d :: insertCode c rest

/-- The ascending list of the codes of the items, each once. -/
def key (items : List Item) : List UInt64 :=
  items.foldr (fun i codes => insertCode i.code codes) []

end Kernel

/-- The kernels known so far, numbered in order of arrival. -/
structure KernelIndex where
  keys : Array (List UInt64)
deriving DecidableEq, Inhabited

namespace KernelIndex

instance : EmptyCollection KernelIndex := ⟨⟨#[]⟩⟩

/-- The number of kernels. -/
def size (x : KernelIndex) : Nat :=
  x.keys.size

/-- The number of a kernel. -/
def find? (x : KernelIndex) (kernel : List Item) : Option Nat :=
  x.keys.toList.idxOf? (Kernel.key kernel)

/-- The number of a kernel, which is added if it is new; the flag tells whether it was. -/
def insert (x : KernelIndex) (kernel : List Item) : (Nat × Bool) × KernelIndex :=
  match x.find? kernel with
  | some n => ((n, false), x)
  | none => ((x.size, true), ⟨x.keys.push (Kernel.key kernel)⟩)

end KernelIndex

end ParserGen
