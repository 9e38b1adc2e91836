import Mathlib.Algebra.Group.Nat.Even
import Mathlib.Data.List.Sort
import Mathlib.Tactic.Ring
import ParserGen.Automaton.Kernel

/-!
# Kernel keys tell kernels apart

As long as rule and dot together stay below `2 ^ 32`, the code of an item is computed without
overflow, and distinct items have distinct codes. A kernel's key is the ascending list of its codes,
so it depends on the set of items alone and determines it.

* `Item.code_inj`: **distinct items have distinct codes.**
* `Item.code_ne_zero`: an item with a moved dot does not have the code of the start item.
* `Kernel.key_eq_iff`: **two kernels have the same key exactly when they hold the same items.**
-/

namespace ParserGen

/-- The code of the item is computed within 64 bits. -/
def Item.Fits (i : Item) : Prop :=
  i.rule + i.dot < 2 ^ 32

namespace Item

theorem Fits.toNat_rule {i : Item} (h : i.Fits) : i.rule.toUInt64.toNat = i.rule := by
  unfold Fits at h
  exact Nat.mod_eq_of_lt (by omega)

theorem Fits.toNat_dot {i : Item} (h : i.Fits) : i.dot.toUInt64.toNat = i.dot := by
  unfold Fits at h
  exact Nat.mod_eq_of_lt (by omega)

theorem Fits.toNat_sum {i : Item} (h : i.Fits) :
    (i.rule.toUInt64 + i.dot.toUInt64).toNat = i.rule + i.dot := by
  rw [UInt64.toNat_add, h.toNat_rule, h.toNat_dot]
  unfold Fits at h
  exact Nat.mod_eq_of_lt (by omega)

theorem Fits.toNat_succ {i : Item} (h : i.Fits) :
    (i.rule.toUInt64 + i.dot.toUInt64 + 1).toNat = i.rule + i.dot + 1 := by
  rw [UInt64.toNat_add, h.toNat_sum]
  unfold Fits at h
  exact Nat.mod_eq_of_lt (by show i.rule + i.dot + 1 < _; omega)

/-- The product is the largest number on the way to the code. -/
theorem Fits.product_le {i : Item} (h : i.Fits) :
    (i.rule + i.dot) * (i.rule + i.dot + 1) ≤ (2 ^ 32 - 1) * 2 ^ 32 := by
  unfold Fits at h
  exact Nat.mul_le_mul (by omega) (by omega)

theorem Fits.toNat_product {i : Item} (h : i.Fits) :
    ((i.rule.toUInt64 + i.dot.toUInt64) * (i.rule.toUInt64 + i.dot.toUInt64 + 1)).toNat =
      (i.rule + i.dot) * (i.rule + i.dot + 1) := by
  have hle := h.product_le
  rw [UInt64.toNat_mul, h.toNat_sum, h.toNat_succ]
  exact Nat.mod_eq_of_lt (by omega)

/-- The code without the limits of a word. -/
theorem toNat_code {i : Item} (h : i.Fits) :
    i.code.toNat = (i.rule + i.dot) * (i.rule + i.dot + 1) / 2 + i.dot := by
  have hle := h.product_le
  have hdot : i.dot < 2 ^ 32 := by
    unfold Fits at h
    omega
  unfold code
  simp only
  rw [UInt64.toNat_add, UInt64.toNat_div, h.toNat_product, h.toNat_dot]
  exact Nat.mod_eq_of_lt
    (by show (i.rule + i.dot) * (i.rule + i.dot + 1) / 2 + i.dot < 2 ^ 64; omega)

/-- Diagonals do not overlap: the last code of one lies below the first of the next. -/
theorem diagonal_lt {n m d e : Nat} (hd : d ≤ n) (hnm : n < m) :
    n * (n + 1) / 2 + d < m * (m + 1) / 2 + e := by
  have hn := Nat.div_mul_cancel (Nat.even_mul_succ_self n).two_dvd
  have hm := Nat.div_mul_cancel (Nat.even_mul_succ_self m).two_dvd
  have hle : (n + 1) * (n + 2) ≤ m * (m + 1) := Nat.mul_le_mul hnm (by omega)
  have hexp : (n + 1) * (n + 2) = n * (n + 1) + 2 * (n + 1) := by ring
  omega

/-- **Distinct items have distinct codes.** -/
theorem code_inj {i j : Item} (hi : i.Fits) (hj : j.Fits) (h : i.code = j.code) : i = j := by
  have hc := congrArg UInt64.toNat h
  rw [toNat_code hi, toNat_code hj] at hc
  have hi' : i.dot ≤ i.rule + i.dot := by omega
  have hj' : j.dot ≤ j.rule + j.dot := by omega
  rcases Nat.lt_trichotomy (i.rule + i.dot) (j.rule + j.dot) with hlt | heq | hgt
  · have := diagonal_lt (e := j.dot) hi' hlt; omega
  · -- on one diagonal the code counts the dots
    rw [heq] at hc
    obtain ⟨r, d⟩ := i
    obtain ⟨r', d'⟩ := j
    simp only at heq hc
    have hd : d = d' := by omega
    have hr : r = r' := by omega
    rw [hd, hr]
  · have := diagonal_lt (e := i.dot) hj' hgt; omega

/-- The code of an item with a moved dot is not that of the start item, also where it is computed with
overflow: half of a word and a dot of 63 bits are no more than a word together. -/
theorem code_ne_zero {i : Item} (h0 : 0 < i.dot) (h : i.dot < 2 ^ 63) : i.code ≠ 0 := by
  intro hc
  unfold code at hc
  simp only at hc
  generalize hp : (i.rule.toUInt64 + i.dot.toUInt64) *
    (i.rule.toUInt64 + i.dot.toUInt64 + 1) = p at hc
  have hn : (p.toNat / 2 + i.dot.toUInt64.toNat) % 2 ^ 64 = 0 := congrArg UInt64.toNat hc
  have hd : i.dot.toUInt64.toNat = i.dot := Nat.mod_eq_of_lt (by omega)
  have hlt := p.toNat_lt
  rw [hd] at hn
  omega

end Item

namespace Kernel

theorem mem_insertCode {c x : UInt64} {l : List UInt64} :
    x ∈ insertCode c l ↔ x = c ∨ x ∈ l := by
  induction l with
  | nil => simp [insertCode]
  | cons d rest ih =>
    unfold insertCode
    split
    · simp
    · split
      · rename_i hcd; subst hcd; simp
      · rw [List.mem_cons, ih, List.mem_cons]
        tauto

theorem sorted_insertCode {c : UInt64} {l : List UInt64} (h : l.Pairwise (· < ·)) :
    (insertCode c l).Pairwise (· < ·) := by
  induction l with
  | nil => simp [insertCode]
  | cons d rest ih =>
    obtain ⟨hd, hrest⟩ := List.pairwise_cons.1 h
    unfold insertCode
    split
    · rename_i hcd
      refine List.pairwise_cons.2 ⟨?_, h⟩
      intro x hx
      rcases List.mem_cons.1 hx with rfl | hx
      · exact hcd
      · exact UInt64.lt_trans hcd (hd x hx)
    · rename_i hcd
      split
      · exact h
      · rename_i hne
        refine List.pairwise_cons.2 ⟨?_, ih hrest⟩
        intro x hx
        rcases mem_insertCode.1 hx with rfl | hx
        · exact UInt64.lt_of_le_of_ne (UInt64.not_lt.1 hcd) (Ne.symm hne)
        · exact hd x hx

theorem sorted_key (k : List Item) : (key k).Pairwise (· < ·) := by
  unfold key
  induction k with
  | nil => exact List.Pairwise.nil
  | cons i rest ih => exact sorted_insertCode ih

theorem mem_key {k : List Item} {c : UInt64} : c ∈ key k ↔ ∃ i ∈ k, i.code = c := by
  unfold key
  induction k with
  | nil => simp
  | cons i rest ih =>
    rw [List.foldr_cons, mem_insertCode, ih]
    simp [eq_comm]

/-- The key depends on the set of items alone. -/
theorem key_congr {k k' : List Item} (h : ∀ i, i ∈ k ↔ i ∈ k') : key k = key k' := by
  refine (sorted_key k).eq_of_mem_iff (sorted_key k') fun c => ?_
  rw [mem_key, mem_key]
  simp only [h]

/-- **Two kernels have the same key exactly when they hold the same items.** -/
theorem key_eq_iff {k k' : List Item} (hk : ∀ i ∈ k, i.Fits) (hk' : ∀ i ∈ k', i.Fits) :
    key k = key k' ↔ ∀ i, i ∈ k ↔ i ∈ k' := by
  refine ⟨fun h => ?_, key_congr⟩
  -- both inclusions are one argument
  have sub : ∀ {k k' : List Item}, (∀ i ∈ k, i.Fits) → (∀ i ∈ k', i.Fits) → key k = key k' →
      ∀ i ∈ k, i ∈ k' := by
    intro k k' hk hk' h i hi
    have hc : i.code ∈ key k' := h ▸ mem_key.2 ⟨i, hi, rfl⟩
    obtain ⟨j, hj, he⟩ := mem_key.1 hc
    rw [← Item.code_inj (hk' j hj) (hk i hi) he]
    exact hj
  exact fun i => ⟨sub hk hk' h i, sub hk' hk h.symm i⟩

end Kernel

theorem KernelIndex.insert_cases (x : KernelIndex) (kernel : List Item) :
    (∃ n, x.keys[n]? = some (Kernel.key kernel) ∧ x.insert kernel = ((n, false), x)) ∨
      Kernel.key kernel ∉ x.keys.toList ∧
        x.insert kernel = ((x.keys.size, true), ⟨x.keys.push (Kernel.key kernel)⟩) := by
  unfold KernelIndex.insert KernelIndex.find?
  split
  · rename_i n hn
    obtain ⟨hlt, he, -⟩ := List.idxOf?_eq_some_iff.1 hn
    exact Or.inl ⟨n, by simpa [Array.getElem?_eq_some_iff] using ⟨hlt, he⟩, rfl⟩
  · rename_i hn
    exact Or.inr ⟨List.idxOf?_eq_none_iff.1 hn, rfl⟩

end ParserGen
