import Mathlib.Data.Finset.Card
import ParserGen.Proofs.Automaton.Kernel

/-!
# The index of kernels

A kernel is a set of items that is given as a list, so the index has to take lists with the same items
for one kernel, and no others. Codes are words; where rule and dot stay below `2 ^ 32` together, no
step of their computation overflows, and the index numbers the sets of items in the order in which
they first come.

* `Item.checkedCode_eq`: **the code of an item is computed without overflow.**
* `KernelIndex.Registers`: what the index and its answers say about the kernels so far.
* `KernelIndex.registers_insertAll`: **kernels are numbered by their sets of items.**
* `kernels_kept_apart`: both, with the keys that tell kernels apart.
-/

namespace ParserGen

/-! ## Codes without overflow -/

namespace Item

/-- A number as a word, if it is one. -/
def checkedWord (n : Nat) : Option UInt64 :=
  if n < UInt64.size then some n.toUInt64 else none

/-- The sum of two words, if it is a word. -/
def checkedAdd (a b : UInt64) : Option UInt64 :=
  if a.toNat + b.toNat < UInt64.size then some (a + b) else none

/-- The product of two words, if it is a word. -/
def checkedMul (a b : UInt64) : Option UInt64 :=
  if a.toNat * b.toNat < UInt64.size then some (a * b) else none

/-- The code of an item, computed like `Item.code`. There is none if a number on the way is no word. -/
def checkedCode (i : Item) : Option UInt64 := do
  let rule ← checkedWord i.rule
  let dot ← checkedWord i.dot
  let sum ← checkedAdd rule dot
  let next ← checkedAdd sum 1
  let product ← checkedMul sum next
  checkedAdd (product / 2) dot

/-- **The code of an item is computed without overflow.** -/
theorem checkedCode_eq {i : Item} (h : i.Fits) : i.checkedCode = some i.code := by
  have hle := h.product_le
  have hfits : i.rule + i.dot < 2 ^ 32 := h
  -- `rule + dot` is below `2 ^ 32`, so no step comes to `2 ^ 64`
  have hrule : checkedWord i.rule = some i.rule.toUInt64 :=
    if_pos (by simp only [UInt64.size]; omega)
  have hdot : checkedWord i.dot = some i.dot.toUInt64 :=
    if_pos (by simp only [UInt64.size]; omega)
  have hsum : checkedAdd i.rule.toUInt64 i.dot.toUInt64 = some (i.rule.toUInt64 + i.dot.toUInt64) := by
    refine if_pos ?_
    rw [h.toNat_rule, h.toNat_dot]
    simp only [UInt64.size]
    omega
  have hsucc : checkedAdd (i.rule.toUInt64 + i.dot.toUInt64) 1 =
      some (i.rule.toUInt64 + i.dot.toUInt64 + 1) := by
    refine if_pos ?_
    rw [h.toNat_sum]
    simp only [UInt64.size, UInt64.toNat_one]
    omega
  have hproduct : checkedMul (i.rule.toUInt64 + i.dot.toUInt64)
      (i.rule.toUInt64 + i.dot.toUInt64 + 1) =
        some ((i.rule.toUInt64 + i.dot.toUInt64) * (i.rule.toUInt64 + i.dot.toUInt64 + 1)) := by
    refine if_pos ?_
    rw [h.toNat_sum, h.toNat_succ]
    simp only [UInt64.size]
    omega
  have hcode : checkedAdd ((i.rule.toUInt64 + i.dot.toUInt64) *
      (i.rule.toUInt64 + i.dot.toUInt64 + 1) / 2) i.dot.toUInt64 = some i.code := by
    refine if_pos ?_
    rw [UInt64.toNat_div, h.toNat_product, h.toNat_dot]
    show (i.rule + i.dot) * (i.rule + i.dot + 1) / 2 + i.dot < 2 ^ 64
    omega
  unfold checkedCode
  simp only [hrule, hdot, hsum, hsucc, hproduct, hcode, bind, Option.bind]

end Item

/-! ## Kernels as sets -/

namespace Kernel

/-- The kernels hold the same items, in whatever order and how often. -/
def Same (k k' : List Item) : Prop :=
  ∀ i, i ∈ k ↔ i ∈ k'

/-- How many different sets of items there are among some kernels. -/
def distinct (kernels : List (List Item)) : Nat :=
  (kernels.map List.toFinset).toFinset.card

theorem same_iff_toFinset {k k' : List Item} : Same k k' ↔ k.toFinset = k'.toFinset := by
  simp only [Same, Finset.ext_iff, List.mem_toFinset]

end Kernel

/-- Two functions that tell the same members of a list apart have the same number of values on it. -/
theorem card_map_congr {α β γ : Type} [DecidableEq β] [DecidableEq γ] {f : α → β} {g : α → γ}
    {l : List α} (h : ∀ a ∈ l, ∀ b ∈ l, f a = f b ↔ g a = g b) :
    (l.map f).toFinset.card = (l.map g).toFinset.card := by
  induction l with
  | nil => rfl
  | cons a rest ih =>
    have hrest := ih fun b hb c hc =>
      h b (List.mem_cons_of_mem a hb) c (List.mem_cons_of_mem a hc)
    have hmem : f a ∈ (rest.map f).toFinset ↔ g a ∈ (rest.map g).toFinset := by
      simp only [List.mem_toFinset, List.mem_map]
      exact exists_congr fun b => and_congr_right fun hb =>
        h b (List.mem_cons_of_mem a hb) a List.mem_cons_self
    rw [List.map_cons, List.map_cons, List.toFinset_cons, List.toFinset_cons]
    by_cases hf : f a ∈ (rest.map f).toFinset
    · rw [Finset.insert_eq_of_mem hf, Finset.insert_eq_of_mem (hmem.1 hf), hrest]
    · rw [Finset.card_insert_of_notMem hf, Finset.card_insert_of_notMem (mt hmem.2 hf), hrest]

theorem Kernel.distinct_eq_card_keys {kernels : List (List Item)}
    (hfit : ∀ k ∈ kernels, ∀ i ∈ k, i.Fits) :
    Kernel.distinct kernels = (kernels.map Kernel.key).toFinset.card := by
  refine card_map_congr fun k hk k' hk' => ?_
  rw [← Kernel.same_iff_toFinset, Kernel.key_eq_iff (hfit k hk) (hfit k' hk')]
  exact Iff.rfl

/-! ## Registering kernels -/

namespace KernelIndex

/-- Registers kernels from left to right, with the answer to each. -/
def insertAll : List (List Item) → KernelIndex → List (Nat × Bool) × KernelIndex
  | [], x => ([], x)
  | kernel :: rest, x =>
    let (answer, x) := x.insert kernel
    let (answers, x) := insertAll rest x
    (answer :: answers, x)

section Insert

variable {x : KernelIndex} {kernel : List Item}

theorem nodup_insert (h : x.keys.toList.Nodup) : (x.insert kernel).2.keys.toList.Nodup := by
  rcases x.insert_cases kernel with ⟨n, -, hinsert⟩ | ⟨hnew, hinsert⟩
  · rw [hinsert]
    exact h
  · rw [hinsert, Array.toList_push, List.nodup_append]
    refine ⟨h, List.nodup_singleton _, ?_⟩
    rintro a ha b hb rfl
    exact hnew (List.mem_singleton.1 hb ▸ ha)

theorem mem_insert {c : List UInt64} :
    c ∈ (x.insert kernel).2.keys.toList ↔ c ∈ x.keys.toList ∨ c = Kernel.key kernel := by
  rcases x.insert_cases kernel with ⟨n, hn, hinsert⟩ | ⟨-, hinsert⟩
  · rw [hinsert]
    refine ⟨Or.inl, ?_⟩
    rintro (h | rfl)
    · exact h
    · exact Array.mem_toList_iff.2 (Array.mem_of_getElem? hn)
  · rw [hinsert, Array.toList_push, List.mem_append, List.mem_singleton]

/-- A key keeps its place. -/
theorem getElem?_insert {n : Nat} {c : List UInt64} (h : x.keys[n]? = some c) :
    (x.insert kernel).2.keys[n]? = some c := by
  rcases x.insert_cases kernel with ⟨m, -, hinsert⟩ | ⟨-, hinsert⟩
  · rw [hinsert]
    exact h
  · rw [hinsert, Array.getElem?_push_lt (Array.getElem?_eq_some_iff.1 h).1]
    exact (Array.getElem?_eq_getElem _).symm.trans h

/-- The answer to a kernel is the place of its key. -/
theorem place_insert :
    (x.insert kernel).2.keys[(x.insert kernel).1.1]? = some (Kernel.key kernel) := by
  rcases x.insert_cases kernel with ⟨n, hn, hinsert⟩ | ⟨-, hinsert⟩
  · rw [hinsert]
    exact hn
  · rw [hinsert]
    exact Array.getElem?_push_size

/-- No two places hold one key. -/
theorem place_unique (h : x.keys.toList.Nodup) {n m : Nat} {c : List UInt64}
    (hn : x.keys[n]? = some c) (hm : x.keys[m]? = some c) : n = m := by
  rw [← Array.getElem?_toList] at hn hm
  exact (List.getElem?_inj (List.getElem?_eq_some_iff.1 hn).1 h).1 (hn.trans hm.symm)

theorem find?_eq_some_iff (h : x.keys.toList.Nodup) {n : Nat} :
    x.find? kernel = some n ↔ x.keys[n]? = some (Kernel.key kernel) := by
  have hplace : ∀ {m}, x.find? kernel = some m → x.keys[m]? = some (Kernel.key kernel) := by
    intro m hm
    obtain ⟨hlt, hkey, -⟩ := List.idxOf?_eq_some_iff.1 hm
    rw [← Array.getElem?_toList, List.getElem?_eq_getElem hlt, hkey]
  refine ⟨hplace, fun hn => ?_⟩
  cases hfind : x.find? kernel with
  | none =>
    refine absurd (Array.mem_toList_iff.2 (Array.mem_of_getElem? hn)) ?_
    exact List.idxOf?_eq_none_iff.1 hfind
  | some m => rw [place_unique h (hplace hfind) hn]

end Insert

theorem nodup_insertAll (kernels : List (List Item)) {x : KernelIndex} (h : x.keys.toList.Nodup) :
    (insertAll kernels x).2.keys.toList.Nodup := by
  induction kernels generalizing x with
  | nil => exact h
  | cons kernel rest ih => exact ih (nodup_insert h)

theorem mem_insertAll (kernels : List (List Item)) (x : KernelIndex) {c : List UInt64} :
    c ∈ (insertAll kernels x).2.keys.toList ↔ c ∈ x.keys.toList ∨ c ∈ kernels.map Kernel.key := by
  induction kernels generalizing x with
  | nil => simp [insertAll]
  | cons kernel rest ih =>
    rw [List.map_cons, List.mem_cons, ← or_assoc, ← mem_insert]
    exact ih _

theorem getElem?_insertAll (kernels : List (List Item)) {x : KernelIndex} {n : Nat}
    {c : List UInt64} (h : x.keys[n]? = some c) : (insertAll kernels x).2.keys[n]? = some c := by
  induction kernels generalizing x with
  | nil => exact h
  | cons kernel rest ih => exact ih (getElem?_insert h)

/-- A kernel is answered by the index of the kernels before it. -/
theorem answer_insertAll {kernels : List (List Item)} {x : KernelIndex} {n : Nat} {k : List Item}
    (h : kernels[n]? = some k) :
    (insertAll kernels x).1[n]? = some ((insertAll (kernels.take n) x).2.insert k).1 := by
  induction kernels generalizing n x with
  | nil => cases h
  | cons kernel rest ih =>
    cases n with
    | zero =>
      cases h
      rfl
    | succ n => exact ih (x := (x.insert kernel).2) h

/-- All along, the answer to a kernel is the place of its key. -/
theorem place_insertAll {kernels : List (List Item)} {x : KernelIndex} {n : Nat} {k : List Item}
    {answer : Nat × Bool} (h : kernels[n]? = some k)
    (ha : (insertAll kernels x).1[n]? = some answer) :
    (insertAll kernels x).2.keys[answer.1]? = some (Kernel.key k) := by
  induction kernels generalizing n x with
  | nil => cases h
  | cons kernel rest ih =>
    cases n with
    | zero =>
      cases h
      cases ha
      exact getElem?_insertAll rest place_insert
    | succ n => exact ih h ha

/-- What the answers to some kernels and the index of them say: a set of items that comes for the first
time gets the number of those before it, every other one the number it was given then, and no set is
found but those that came, each under its number. -/
structure Registers (kernels : List (List Item)) (answers : List (Nat × Bool)) (x : KernelIndex) :
    Prop where
  length : answers.length = kernels.length
  new : ∀ (n : Nat) (k : List Item), kernels[n]? = some k →
    (∀ k' ∈ kernels.take n, ¬ Kernel.Same k' k) →
      answers[n]? = some (Kernel.distinct (kernels.take n), true)
  known : ∀ (m n : Nat) (k' k : List Item), m < n → kernels[m]? = some k' → kernels[n]? = some k →
    Kernel.Same k' k →
      ∃ number flag, answers[m]? = some (number, flag) ∧ answers[n]? = some (number, false)
  find : ∀ (k : List Item) (number : Nat), (∀ i ∈ k, i.Fits) → (x.find? k = some number ↔
    ∃ (n : Nat) (k' : List Item) (flag : Bool),
      kernels[n]? = some k' ∧ Kernel.Same k' k ∧ answers[n]? = some (number, flag))
  size : x.size = Kernel.distinct kernels

section Registers

variable {kernels : List (List Item)}

theorem length_insertAll (kernels : List (List Item)) (x : KernelIndex) :
    (insertAll kernels x).1.length = kernels.length := by
  induction kernels generalizing x with
  | nil => rfl
  | cons kernel rest ih => exact congrArg (· + 1) (ih _)

theorem size_insertAll (hfit : ∀ k ∈ kernels, ∀ i ∈ k, i.Fits) :
    (insertAll kernels ∅).2.size = Kernel.distinct kernels := by
  have hnodup := nodup_insertAll kernels (x := ∅) List.nodup_nil
  have hkeys : (insertAll kernels ∅).2.keys.toList.toFinset =
      (kernels.map Kernel.key).toFinset := by
    ext c
    rw [List.mem_toFinset, List.mem_toFinset, mem_insertAll]
    simp [EmptyCollection.emptyCollection]
  rw [Kernel.distinct_eq_card_keys hfit, ← hkeys, List.toFinset_card_of_nodup hnodup]
  rfl

/-- The kernel at a place came before exactly if its key is in the index by then. -/
theorem mem_insertAll_take (hfit : ∀ k ∈ kernels, ∀ i ∈ k, i.Fits) {n : Nat} {k : List Item}
    (hk : ∀ i ∈ k, i.Fits) : Kernel.key k ∈ (insertAll (kernels.take n) ∅).2.keys.toList ↔
      ∃ k' ∈ kernels.take n, Kernel.Same k' k := by
  rw [mem_insertAll, List.mem_map]
  refine ⟨?_, ?_⟩
  · rintro (h | ⟨k', hk', hkey⟩)
    · cases h
    · exact ⟨k', hk', (Kernel.key_eq_iff (hfit k' (List.mem_of_mem_take hk')) hk).1 hkey⟩
  · rintro ⟨k', hk', hsame⟩
    exact Or.inr ⟨k', hk', Kernel.key_congr hsame⟩

/-- **Kernels are numbered by their sets of items**, in the order in which these first come. -/
theorem registers_insertAll (hfit : ∀ k ∈ kernels, ∀ i ∈ k, i.Fits) :
    Registers kernels (insertAll kernels ∅).1 (insertAll kernels ∅).2 where
  length := length_insertAll kernels ∅
  new n k hk hnew := by
    rw [answer_insertAll hk]
    have hfresh : Kernel.key k ∉ (insertAll (kernels.take n) ∅).2.keys.toList := by
      rw [mem_insertAll_take hfit (hfit k (List.mem_of_getElem? hk))]
      rintro ⟨k', hk', hsame⟩
      exact hnew k' hk' hsame
    rcases insert_cases (insertAll (kernels.take n) ∅).2 k with ⟨m, hm, -⟩ | ⟨-, hinsert⟩
    · exact absurd (Array.mem_toList_iff.2 (Array.mem_of_getElem? hm)) hfresh
    · have hsize : (insertAll (kernels.take n) ∅).2.size = Kernel.distinct (kernels.take n) :=
        size_insertAll fun k hk => hfit k (List.mem_of_mem_take hk)
      rw [hinsert, ← hsize]
      rfl
  known m n k' k hmn hk' hk hsame := by
    have hm := answer_insertAll (x := ∅) hk'
    -- the earlier kernel is among those before the later one, with the same answer
    have htake : (kernels.take n)[m]? = some k' := by rw [List.getElem?_take_of_lt hmn, hk']
    have hplace := place_insertAll (x := ∅) htake (by
      rw [answer_insertAll htake, List.take_take, Nat.min_eq_left hmn.le])
    rw [Kernel.key_congr hsame] at hplace
    refine ⟨_, _, hm, ?_⟩
    rw [answer_insertAll hk]
    rcases insert_cases (insertAll (kernels.take n) ∅).2 k with ⟨j, hj, hinsert⟩ | ⟨hnew, -⟩
    · rw [hinsert, place_unique (nodup_insertAll _ List.nodup_nil) hj hplace]
    · exact absurd (Array.mem_toList_iff.2 (Array.mem_of_getElem? hplace)) hnew
  find k number hk := by
    have hnodup := nodup_insertAll kernels (x := ∅) List.nodup_nil
    rw [find?_eq_some_iff hnodup]
    constructor
    · intro hplace
      have hmem : Kernel.key k ∈ (insertAll (kernels.take kernels.length) ∅).2.keys.toList := by
        rw [List.take_length]
        exact Array.mem_toList_iff.2 (Array.mem_of_getElem? hplace)
      obtain ⟨k', hk', hsame⟩ := (mem_insertAll_take hfit hk).1 hmem
      obtain ⟨n, hn⟩ := List.mem_iff_getElem?.1 (List.mem_of_mem_take hk')
      have ha := answer_insertAll (x := ∅) hn
      have hplace' := place_insertAll hn ha
      rw [Kernel.key_congr hsame] at hplace'
      obtain rfl := place_unique hnodup hplace hplace'
      exact ⟨n, k', _, hn, hsame, ha⟩
    · rintro ⟨n, k', flag, hn, hsame, ha⟩
      rw [← Kernel.key_congr hsame]
      exact place_insertAll hn ha
  size := size_insertAll hfit

end Registers

end KernelIndex

/-- **The index of kernels keeps apart what is different, and nothing else.** For items whose rule and
dot stay below `2 ^ 32` together, codes are computed without overflow, two kernels have the same key
exactly if they hold the same items, and kernels that are registered one after the other are numbered
by their sets of items, in the order in which these first come. -/
theorem kernels_kept_apart :
    (∀ i : Item, i.Fits → i.checkedCode = some i.code) ∧
      (∀ k k' : List Item, (∀ i ∈ k, i.Fits) → (∀ i ∈ k', i.Fits) →
        (Kernel.key k = Kernel.key k' ↔ Kernel.Same k k')) ∧
      ∀ kernels : List (List Item), (∀ k ∈ kernels, ∀ i ∈ k, i.Fits) →
        KernelIndex.Registers kernels (KernelIndex.insertAll kernels ∅).1
          (KernelIndex.insertAll kernels ∅).2 :=
  ⟨fun _ => Item.checkedCode_eq, fun _ _ => Kernel.key_eq_iff, fun _ => KernelIndex.registers_insertAll⟩

/-- Four kernels, the third of which has the items of the second. The item of the last one lies on the
last diagonal that fits. -/
def sampleKernels : List (List Item) :=
  [[⟨0, 0⟩], [⟨1, 1⟩, ⟨2, 1⟩], [⟨2, 1⟩, ⟨1, 1⟩, ⟨2, 1⟩], [⟨1, 4294967294⟩]]

theorem sampleKernels_apart : (∀ k ∈ sampleKernels, ∀ i ∈ k, i.Fits) ∧
    KernelIndex.Registers sampleKernels [(0, true), (1, true), (1, false), (2, true)]
      (KernelIndex.insertAll sampleKernels ∅).2 := by
  have hfit : ∀ k ∈ sampleKernels, ∀ i ∈ k, i.Fits := by
    unfold Item.Fits
    decide
  have hanswers : (KernelIndex.insertAll sampleKernels ∅).1 =
      [(0, true), (1, true), (1, false), (2, true)] := by
    decide +kernel
  exact ⟨hfit, hanswers ▸ kernels_kept_apart.2.2 sampleKernels hfit⟩

end ParserGen
