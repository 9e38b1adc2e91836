/-!
# Finite sets of indices

An `IndexSet` keeps a finite set of natural numbers as a bit mask: `i` is a member exactly when
bit `i` of the mask is set. Equal sets have equal masks, so equality of sets is equality of values,
and the members are always listed in ascending order.

* `ext_contains`: a set is determined by its members.
* `contains_insert`, `contains_erase`, `contains_union`, `contains_diff`: each operation through
  membership.
* `mem_toList`: the list view holds exactly the members.
-/

namespace ParserGen

/-- A finite set of natural numbers, as a bit mask. -/
structure IndexSet where
  /-- Bit `i` is set exactly when `i` is a member. -/
  mask : Nat
deriving DecidableEq, Inhabited

namespace IndexSet

instance : EmptyCollection IndexSet := ⟨⟨0⟩⟩

/-- Whether `i` is a member. -/
def contains (s : IndexSet) (i : Nat) : Bool :=
  s.mask.testBit i

/-- The set whose only member is `i`. -/
def singleton (i : Nat) : IndexSet :=
  ⟨1 <<< i⟩

/-- Both sets together. -/
def union (s t : IndexSet) : IndexSet :=
  ⟨s.mask ||| t.mask⟩

/-- The set with `i` added. -/
def insert (s : IndexSet) (i : Nat) : IndexSet :=
  s.union (singleton i)

/-- The members of `s` that are not in `t`. -/
def diff (s t : IndexSet) : IndexSet :=
  ⟨s.mask ^^^ (s.mask &&& t.mask)⟩

/-- The set with `i` taken out. -/
def erase (s : IndexSet) (i : Nat) : IndexSet :=
  s.diff (singleton i)

/-- Whether every member of `s` is in `t`. -/
def isSubset (s t : IndexSet) : Bool :=
  s.mask &&& t.mask == s.mask

/-- Whether there is no member. -/
def isEmpty (s : IndexSet) : Bool :=
  s.mask == 0

/-- The members in ascending order. -/
def toList (s : IndexSet) : List Nat :=
  (List.range (s.mask.log2 + 1)).filter s.contains

/-- The number of members. -/
def size (s : IndexSet) : Nat :=
  s.toList.length

/-- The set of the numbers of a list. -/
def ofList (is : List Nat) : IndexSet :=
  is.foldl insert ∅

theorem ext_contains {s t : IndexSet} (h : ∀ i, s.contains i = t.contains i) : s = t := by
  cases s; cases t
  simp only [mk.injEq]
  exact Nat.eq_of_testBit_eq h

@[simp] theorem contains_empty (i : Nat) : (∅ : IndexSet).contains i = false :=
  Nat.zero_testBit i

@[simp] theorem contains_singleton (i j : Nat) :
    (singleton i).contains j = decide (i = j) := by
  simp only [contains, singleton, Nat.shiftLeft_eq, Nat.one_mul, Nat.testBit_two_pow]

@[simp] theorem contains_union (s t : IndexSet) (i : Nat) :
    (s.union t).contains i = (s.contains i || t.contains i) :=
  Nat.testBit_or ..

@[simp] theorem contains_insert (s : IndexSet) (i j : Nat) :
    (s.insert i).contains j = (s.contains j || decide (i = j)) := by
  simp [insert]

@[simp] theorem contains_diff (s t : IndexSet) (i : Nat) :
    (s.diff t).contains i = (s.contains i && !t.contains i) := by
  simp only [diff, contains, Nat.testBit_xor, Nat.testBit_and]
  cases s.mask.testBit i <;> cases t.mask.testBit i <;> rfl

@[simp] theorem contains_erase (s : IndexSet) (i j : Nat) :
    (s.erase i).contains j = (s.contains j && !decide (i = j)) := by
  simp [erase]

theorem contains_foldl_insert (is : List Nat) (s : IndexSet) (i : Nat) :
    (is.foldl insert s).contains i = true ↔ s.contains i = true ∨ i ∈ is := by
  induction is generalizing s with
  | nil => simp
  | cons j rest ih =>
    rw [List.foldl_cons, ih, contains_insert, Bool.or_eq_true, decide_eq_true_eq, List.mem_cons,
      or_assoc, @eq_comm _ i j]

theorem contains_ofList {is : List Nat} {i : Nat} : (ofList is).contains i = true ↔ i ∈ is := by
  unfold ofList
  rw [contains_foldl_insert]
  simp

theorem isEmpty_iff {s : IndexSet} : s.isEmpty = true ↔ ∀ i, s.contains i = false := by
  constructor
  · intro h i
    have hm : s.mask = 0 := by simpa [isEmpty] using h
    simp [contains, hm]
  · intro h
    have : s.mask = 0 := Nat.eq_of_testBit_eq fun i => (h i).trans (Nat.zero_testBit i).symm
    simp [isEmpty, this]

/-- A member lies within the length of the mask. -/
theorem lt_of_contains {s : IndexSet} {i : Nat} (h : s.contains i = true) :
    i < s.mask.log2 + 1 := by
  have hge : 2 ^ i ≤ s.mask := Nat.ge_two_pow_of_testBit h
  have hne : s.mask ≠ 0 := by
    have := Nat.two_pow_pos i
    omega
  have := (Nat.le_log2 hne).2 hge
  omega

@[simp] theorem mem_toList {s : IndexSet} {i : Nat} : i ∈ s.toList ↔ s.contains i = true := by
  simp only [toList, List.mem_filter, List.mem_range, and_iff_right_iff_imp]
  exact lt_of_contains

end IndexSet

end ParserGen
