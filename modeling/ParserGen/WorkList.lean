import ParserGen.IndexSet

/-!
# Work lists

A first-in, first-out list of indices still to be looked at, in which an index waits at most once:
pushing one that is already waiting changes nothing.
-/

namespace ParserGen

/-- Indices waiting for their turn. The first to leave is the head of `front`; the last to have come
is the head of `back`. -/
structure WorkList where
  front : List Nat
  back : List Nat
  /-- The indices that wait. -/
  pending : IndexSet
deriving DecidableEq, Inhabited

namespace WorkList

instance : EmptyCollection WorkList := ⟨⟨[], [], ∅⟩⟩

/-- The waiting indices, the next one first. -/
def toList (w : WorkList) : List Nat :=
  w.front ++ w.back.reverse

/-- The number of waiting indices. -/
def size (w : WorkList) : Nat :=
  w.front.length + w.back.length

/-- Whether nothing waits. -/
def isEmpty (w : WorkList) : Bool :=
  w.front.isEmpty && w.back.isEmpty

/-- Lets `i` wait at the end, unless it waits already. The flag tells whether it was added. -/
def push (w : WorkList) (i : Nat) : Bool × WorkList :=
  if w.pending.contains i then (false, w)
  else (true, { w with back := i :: w.back, pending := w.pending.insert i })

/-- Lets several indices wait, in order. -/
def pushAll (w : WorkList) (is : List Nat) : WorkList :=
  is.foldl (fun w i => (w.push i).2) w

/-- Takes the next index. -/
def pop (w : WorkList) : Option (Nat × WorkList) :=
  match w.front with
  | i :: rest => some (i, { w with front := rest, pending := w.pending.erase i })
  | [] =>
    match w.back.reverse with
    | [] => none
    | i :: rest => some (i, { front := rest, back := [], pending := w.pending.erase i })

theorem toList_push (w : WorkList) (i : Nat) :
    (w.push i).2.toList = if w.pending.contains i then w.toList else w.toList ++ [i] := by
  unfold push
  split <;> simp [toList]

theorem toList_pop {w v : WorkList} {i : Nat} (h : w.pop = some (i, v)) :
    w.toList = i :: v.toList := by
  unfold pop at h
  split at h
  · rename_i j rest hf
    simp only [Option.some.injEq, Prod.mk.injEq] at h
    obtain ⟨rfl, rfl⟩ := h
    simp [toList, hf]
  · rename_i hf
    split at h
    · simp at h
    · rename_i j rest hb
      simp only [Option.some.injEq, Prod.mk.injEq] at h
      obtain ⟨rfl, rfl⟩ := h
      simp [toList, hf, hb]

/-- The pending set holds exactly the waiting indices. -/
def Valid (w : WorkList) : Prop :=
  w.toList.Nodup ∧ ∀ i, w.pending.contains i = true ↔ i ∈ w.toList

theorem valid_empty : (∅ : WorkList).Valid :=
  ⟨List.nodup_nil, fun i => by
    show (∅ : IndexSet).contains i = true ↔ i ∈ []
    simp⟩

theorem mem_push {w : WorkList} (h : w.Valid) (i j : Nat) :
    j ∈ (w.push i).2.toList ↔ j ∈ w.toList ∨ j = i := by
  rw [toList_push]
  split
  · rename_i hc
    have hm := (h.2 i).1 hc
    exact ⟨Or.inl, fun hj => hj.elim id fun e => e ▸ hm⟩
  · simp

theorem valid_push {w : WorkList} (h : w.Valid) (i : Nat) : (w.push i).2.Valid := by
  refine ⟨?_, fun j => ?_⟩
  · rw [toList_push]
    split
    · exact h.1
    · rename_i hc
      rw [List.nodup_append]
      refine ⟨h.1, by simp, ?_⟩
      intro a ha b hb hab
      rw [List.mem_singleton] at hb
      exact hc ((h.2 i).2 (hb ▸ hab ▸ ha))
  · rw [mem_push h, ← h.2]
    unfold push
    split
    · rename_i hc
      exact ⟨Or.inl, fun hj => hj.elim id fun e => e ▸ hc⟩
    · simp only [IndexSet.contains_insert, Bool.or_eq_true, decide_eq_true_eq]
      rw [@eq_comm _ i j]

theorem pending_pop {w v : WorkList} {i : Nat} (h : w.pop = some (i, v)) :
    v.pending = w.pending.erase i := by
  unfold pop at h
  split at h
  · cases h; rfl
  · split at h
    · cases h
    · cases h; rfl

theorem valid_pop {w v : WorkList} {i : Nat} (hw : w.Valid) (h : w.pop = some (i, v)) : v.Valid := by
  have hl := toList_pop h
  have hnd := hw.1
  rw [hl, List.nodup_cons] at hnd
  refine ⟨hnd.2, fun j => ?_⟩
  rw [pending_pop h, IndexSet.contains_erase, Bool.and_eq_true, hw.2, hl, List.mem_cons]
  constructor
  · rintro ⟨hj | hj, hne⟩
    · simp [hj] at hne
    · exact hj
  · intro hj
    refine ⟨Or.inr hj, ?_⟩
    have : i ≠ j := fun e => hnd.1 (e ▸ hj)
    simp [this]

theorem toList_eq_nil_of_pop {w : WorkList} (h : w.pop = none) : w.toList = [] := by
  unfold pop at h
  split at h
  · cases h
  · rename_i hf
    split at h
    · rename_i hb
      simp [toList, hf, hb]
    · cases h

end WorkList

end ParserGen
