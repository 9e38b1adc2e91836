import Mathlib.Algebra.BigOperators.Group.Finset.Basic
import Mathlib.Algebra.Order.BigOperators.Group.Finset
import ParserGen.IndexSet

/-!
# Counting what is missing

FIRST sets and lookaheads are found by letting the sets of an array grow until nothing changes. What
the sets still lack of a bound on them goes down with every change, so the number of changes is
limited by what they lack at the beginning.

* `deficit_lt`: growing sets lack less.
-/

namespace ParserGen

namespace IndexSet

theorem nodup_toList (s : IndexSet) : s.toList.Nodup :=
  List.nodup_range.filter _

theorem size_le_of_subset {s t : IndexSet} (h : ∀ i, s.contains i = true → t.contains i = true) :
    s.size ≤ t.size :=
  (s.nodup_toList.subperm fun i hi => mem_toList.2 (h i (mem_toList.1 hi))).length_le

theorem size_lt_of_subset {s t : IndexSet} (h : ∀ i, s.contains i = true → t.contains i = true)
    {i : Nat} (ht : t.contains i = true) (hs : s.contains i = false) : s.size < t.size := by
  have hnd : (i :: s.toList).Nodup := by
    rw [List.nodup_cons, mem_toList, hs]
    exact ⟨by simp, s.nodup_toList⟩
  have hsub : i :: s.toList ⊆ t.toList := by
    intro j hj
    rcases List.mem_cons.1 hj with rfl | hj
    · exact mem_toList.2 ht
    · exact mem_toList.2 (h j (mem_toList.1 hj))
  exact (hnd.subperm hsub).length_le

/-- The members of the set at an index of an array. -/
def At (sets : Array IndexSet) (v i : Nat) : Prop :=
  (sets.getD v ∅).contains i = true

/-- What the sets of an array lack of a common bound. -/
def deficit (all : IndexSet) (sets : Array IndexSet) : Nat :=
  ∑ v ∈ Finset.range sets.size, (all.diff (sets.getD v ∅)).size

theorem contains_diff_anti {all s t : IndexSet}
    (h : ∀ i, s.contains i = true → t.contains i = true) (i : Nat)
    (hi : (all.diff t).contains i = true) : (all.diff s).contains i = true := by
  simp only [contains_diff, Bool.and_eq_true, Bool.not_eq_true'] at hi ⊢
  refine ⟨hi.1, ?_⟩
  cases hs : s.contains i with
  | false => rfl
  | true => rw [h i hs] at hi; exact hi.2

/-- **Sets that gain a member of the bound lack less.** -/
theorem deficit_lt {all : IndexSet} {s t : Array IndexSet} (hsize : s.size = t.size)
    (h : ∀ v i, At s v i → At t v i) {v i : Nat} (hv : v < s.size) (hi : all.contains i = true)
    (ht : At t v i) (hs : ¬ At s v i) : deficit all t < deficit all s := by
  unfold deficit
  rw [← hsize]
  refine Finset.sum_lt_sum (fun v _ => size_le_of_subset (contains_diff_anti (h v)))
    ⟨v, Finset.mem_range.2 hv, size_lt_of_subset (contains_diff_anti (h v)) (i := i) ?_ ?_⟩
  · have hs : (s.getD v ∅).contains i = false := by simpa [At] using hs
    rw [contains_diff, hi, hs]; rfl
  · have ht : (t.getD v ∅).contains i = true := ht
    rw [contains_diff, ht]; simp

theorem deficit_le_mul (all : IndexSet) (s : Array IndexSet) : deficit all s ≤ s.size * all.size := by
  unfold deficit
  have h := Finset.sum_le_card_nsmul (Finset.range s.size)
    (fun v => (all.diff (s.getD v ∅)).size) all.size fun v _ =>
      size_le_of_subset fun i hi => by
        simp only [contains_diff, Bool.and_eq_true] at hi
        exact hi.1
  simpa using h

end IndexSet

end ParserGen
