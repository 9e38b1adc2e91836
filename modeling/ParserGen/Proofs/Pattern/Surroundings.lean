import ParserGen.Proofs.Pattern.Alternatives

/-!
# What stands around a pattern

A pattern is read in the same way alone and between parentheses, with other patterns around: reading it
never looks behind the parenthesis that closes it. The one exception is a comment, which goes on to the
end of the line and may take the parenthesis with it.

Two readings are compared. What is left to read is the same in both up to the end of the pattern; there
the first text ends, or ends with a parenthesis, and the second goes on with a parenthesis and more.

* `Aligned`, `Spent`: both readings are at the same place of the pattern, or have gone past its end.
* `Agrees`: steps of reading that come to the same from the same place.
-/

namespace ParserGen.Pattern

/-- What ends the first of two texts. -/
def closing : Bool → List Char
  | true => [')']
  | false => []

/-- The same is left to read of a pattern that is closed in the first text or not, and that is followed by
`tail` in the second. -/
structure Aligned (closed : Bool) (tail : List Char) (i j : Input) : Prop where
  flags : i.flags = j.flags
  rest : ∃ left, i.rest = left ++ closing closed ∧ j.rest = left ++ ')' :: tail

/-- The end of the pattern has been passed. -/
structure Spent (closed : Bool) (tail : List Char) (i j : Input) : Prop where
  rest : i.rest = []
  length : closed = false → j.rest.length ≤ tail.length

/-- Steps of reading that never go back, and that come to the same wherever they begin at the same place
of a pattern, unless its end is passed. -/
structure Agrees {α : Type} (closed : Bool) (tail : List Char) (f g : Read α) : Prop where
  shrinks : ∀ {i : Input} {v : α} {i' : Input}, f i = some (v, i') → i'.rest.length ≤ i.rest.length
  shrinks' : ∀ {j : Input} {w : α} {j' : Input}, g j = some (w, j') → j'.rest.length ≤ j.rest.length
  agrees : ∀ {i j i' j' : Input} {v w : α}, Aligned closed tail i j → f i = some (v, i') →
    g j = some (w, j') → Spent closed tail i' j' ∨ v = w ∧ Aligned closed tail i' j'

variable {α β : Type} {closed : Bool} {tail : List Char} {i j i' j' : Input} {f g : Read α}
  {k k' : α → Read β}

/-! ## Places in the text -/

namespace Aligned

/-- The pattern goes on with the same character, or ends here. -/
theorem cases_rest (h : Aligned closed tail i j) :
    (∃ c left, i.rest = c :: (left ++ closing closed) ∧ j.rest = c :: (left ++ ')' :: tail)) ∨
      i.rest = closing closed ∧ j.rest = ')' :: tail := by
  obtain ⟨left, hi, hj⟩ := h.rest
  cases left with
  | nil => exact Or.inr ⟨hi, hj⟩
  | cons c left => exact Or.inl ⟨c, left, hi, hj⟩

/-- A text without a parenthesis that comes next in one of the readings is part of the pattern. -/
theorem left_ahead {word rest left after : List Char} (hword : ')' ∉ word)
    (h : left ++ after = word ++ rest) (hafter : after = [] ∨ ∃ more, after = ')' :: more) :
    ∃ left', left = word ++ left' := by
  rcases List.append_eq_append_iff.1 h with ⟨as, hw, hrest⟩ | ⟨cs, hl, -⟩
  · cases as with
    | nil => exact ⟨[], by simpa using hw.symm⟩
    | cons a as =>
      rcases hafter with rfl | ⟨more, rfl⟩
      · cases hrest
      · obtain ⟨rfl, -⟩ := List.cons.inj hrest
        exact absurd (hw ▸ List.mem_append_right left (List.mem_cons_self ..)) hword
  · exact ⟨cs, hl⟩

theorem closing_eq (closed : Bool) : closing closed = [] ∨ ∃ more, closing closed = ')' :: more := by
  cases closed
  · exact Or.inl rfl
  · exact Or.inr ⟨[], rfl⟩

/-- A text without a parenthesis comes next in both readings or in none. -/
theorem rest_iff (h : Aligned closed tail i j) {word : List Char} (hword : ')' ∉ word) :
    (∃ left, i.rest = word ++ (left ++ closing closed) ∧ j.rest = word ++ (left ++ ')' :: tail)) ∨
      ¬ word <+: i.rest ∧ ¬ word <+: j.rest := by
  obtain ⟨left, hi, hj⟩ := h.rest
  by_cases hl : word <+: left
  · obtain ⟨left', rfl⟩ := hl
    exact Or.inl ⟨left', by rw [hi, List.append_assoc], by rw [hj, List.append_assoc]⟩
  · refine Or.inr ⟨?_, ?_⟩
    · rintro ⟨rest, hrest⟩
      obtain ⟨left', rfl⟩ := left_ahead hword (hi.symm.trans hrest.symm) (closing_eq closed)
      exact hl ⟨left', rfl⟩
    · rintro ⟨rest, hrest⟩
      obtain ⟨left', rfl⟩ := left_ahead hword (hj.symm.trans hrest.symm) (Or.inr ⟨tail, rfl⟩)
      exact hl ⟨left', rfl⟩

end Aligned

/-- Where there is more to read in the first text, it is the same in the second. -/
theorem Aligned.head?_eq (h : Aligned closed tail i j) {c : Char} (hc : i.rest.head? = some c) :
    j.rest.head? = some c := by
  rcases h.cases_rest with ⟨c', left, hi, hj⟩ | ⟨hi, hj⟩
  · rw [hi] at hc
    rw [hj]
    exact hc
  · rw [hi] at hc
    rw [hj]
    cases closed with
    | false => cases hc
    | true => exact hc

theorem Spent.head?_eq (h : Spent closed tail i j) : i.rest.head? = none := by
  rw [h.rest]
  rfl

theorem Spent.of_shrinks (h : Spent closed tail i j) (hi : i'.rest.length ≤ i.rest.length)
    (hj : j'.rest.length ≤ j.rest.length) : Spent closed tail i' j' where
  rest := by
    rw [h.rest] at hi
    exact List.length_eq_zero_iff.1 (Nat.le_zero.1 hi)
  length hc := Nat.le_trans hj (h.length hc)

/-! ## Steps one after the other -/

theorem bind_eq_some {v : β} :
    (f >>= k) i = some (v, i') ↔ ∃ a mid, f i = some (a, mid) ∧ k a mid = some (v, i') := by
  change (f i).bind (fun x => k x.1 x.2) = some (v, i') ↔ _
  simp [Option.bind_eq_some_iff]

theorem get_bind_run (k : Input → Read β) (i : Input) : (get >>= k) i = k i i :=
  rfl

theorem peek?_bind_run (k : Option Char → Read β) (i : Input) : (peek? >>= k) i = k i.rest.head? i :=
  rfl

namespace Agrees

theorem pure (a : α) : Agrees closed tail (Pure.pure a) (Pure.pure a) where
  shrinks h := by cases h; exact Nat.le_refl _
  shrinks' h := by cases h; exact Nat.le_refl _
  agrees hij h h' := by
    cases h
    cases h'
    exact Or.inr ⟨rfl, hij⟩

theorem failure : Agrees closed tail (failure : Read α) failure where
  shrinks h := by cases h
  shrinks' h := by cases h
  agrees _ h := by cases h

theorem lift (o : Option α) : Agrees closed tail (liftM o : Read α) (liftM o) := by
  cases o with
  | none => exact failure
  | some a => exact pure a

/-- **Steps that come to the same, one after the other.** -/
theorem bind (h : Agrees closed tail f g) (hk : ∀ a, Agrees closed tail (k a) (k' a)) :
    Agrees closed tail (f >>= k) (g >>= k') where
  shrinks hrun := by
    obtain ⟨a, mid, hf, hrest⟩ := bind_eq_some.1 hrun
    exact Nat.le_trans ((hk a).shrinks hrest) (h.shrinks hf)
  shrinks' hrun := by
    obtain ⟨a, mid, hg, hrest⟩ := bind_eq_some.1 hrun
    exact Nat.le_trans ((hk a).shrinks' hrest) (h.shrinks' hg)
  agrees hij hrun hrun' := by
    obtain ⟨a, mid, hf, hrest⟩ := bind_eq_some.1 hrun
    obtain ⟨a', mid', hg, hrest'⟩ := bind_eq_some.1 hrun'
    rcases h.agrees hij hf hg with hspent | ⟨rfl, hmid⟩
    · exact Or.inl (hspent.of_shrinks ((hk a).shrinks hrest) ((hk a').shrinks' hrest'))
    · exact (hk a).agrees hmid hrest hrest'

theorem ite {c : Prop} [Decidable c] {f' g' : Read α} (h : Agrees closed tail f g)
    (h' : Agrees closed tail f' g') : Agrees closed tail (if c then f else f') (if c then g else g') := by
  by_cases hc : c
  · rwa [if_pos hc, if_pos hc]
  · rwa [if_neg hc, if_neg hc]

/-- A step behind a test that ends the reading if it fails. The tests need not be the same. -/
theorem guard {c c' : Prop} [Decidable c] [Decidable c'] {m m' : β → Read α} (h : Agrees closed tail f g) :
    Agrees closed tail (if c then Alternative.failure >>= m else f)
      (if c' then Alternative.failure >>= m' else g) where
  shrinks hrun := by
    by_cases hc : c
    · rw [if_pos hc] at hrun
      cases hrun
    · rw [if_neg hc] at hrun
      exact h.shrinks hrun
  shrinks' hrun := by
    by_cases hc : c'
    · rw [if_pos hc] at hrun
      cases hrun
    · rw [if_neg hc] at hrun
      exact h.shrinks' hrun
  agrees hij hrun hrun' := by
    by_cases hc : c
    · rw [if_pos hc] at hrun
      cases hrun
    · by_cases hc' : c'
      · rw [if_pos hc'] at hrun'
        cases hrun'
      · rw [if_neg hc] at hrun
        rw [if_neg hc'] at hrun'
        exact h.agrees hij hrun hrun'

/-- Steps that depend on the flags. -/
theorem get_bind {k k' : Input → Read β}
    (h : ∀ i j, i.flags = j.flags → Agrees closed tail (k i) (k' j)) :
    Agrees closed tail (get >>= k) (get >>= k') where
  shrinks {i} _ _ hrun := (h i i rfl).shrinks hrun
  shrinks' {j} _ _ hrun := (h j j rfl).shrinks' hrun
  agrees hij hrun hrun' := (h _ _ hij.flags).agrees hij hrun hrun'

/-- Steps that depend on a look at what is left. -/
theorem look {test : Input → α} (h : ∀ a, Agrees closed tail (k a) (k' a))
    (hlook : ∀ i j, Aligned closed tail i j → test i = test j ∨ k (test i) i = none) :
    Agrees closed tail (get >>= fun i => k (test i)) (get >>= fun j => k' (test j)) where
  shrinks {i} _ _ hrun := (h (test i)).shrinks hrun
  shrinks' {j} _ _ hrun := (h (test j)).shrinks' hrun
  agrees {i j} _ _ _ _ hij hrun hrun' := by
    have hrun : k (test i) i = some _ := hrun
    rcases hlook i j hij with heq | hnone
    · rw [heq] at hrun
      exact (h (test j)).agrees hij hrun hrun'
    · rw [hnone] at hrun
      cases hrun

/-- Steps that change the flags. -/
theorem setFlags (flags : Flags) :
    Agrees closed tail (modify fun i => { i with flags }) (modify fun i => { i with flags }) where
  shrinks h := by cases h; exact Nat.le_refl _
  shrinks' h := by cases h; exact Nat.le_refl _
  agrees hij h h' := by
    cases h
    cases h'
    exact Or.inr ⟨rfl, rfl, hij.rest⟩

theorem failure_left (h : Agrees closed tail f g) : Agrees closed tail Alternative.failure g where
  shrinks h := by cases h
  shrinks' := h.shrinks'
  agrees _ h := by cases h

theorem failure_right (h : Agrees closed tail f g) : Agrees closed tail f Alternative.failure where
  shrinks := h.shrinks
  shrinks' h := by cases h
  agrees _ _ h := by cases h

end Agrees

/-- Steps that fail without fuel agree for any fuel, if a unit of it on both sides keeps them so. -/
theorem forall_fuel {P : Nat → Nat → Prop} (hzero : P 0 0) (hleft : ∀ m, P m m → P 0 m)
    (hright : ∀ n, P n n → P n 0) (hstep : ∀ n m, P n m → P (n + 1) (m + 1)) (n m : Nat) : P n m := by
  have hsame : ∀ n, P n n := by
    intro n
    induction n with
    | zero => exact hzero
    | succ n ih => exact hstep n n ih
  induction n generalizing m with
  | zero => exact hleft m (hsame m)
  | succ n ih =>
    cases m with
    | zero => exact hright (n + 1) (hsame (n + 1))
    | succ m => exact hstep n m (ih m)

/-! ## White space and comments -/

theorem length_dropWhile_le (test : Char → Bool) (cs : List Char) :
    (cs.dropWhile test).length ≤ cs.length :=
  (List.dropWhile_sublist test).length_le

theorem dropSpace_cons {c : Char} (h : c ≠ '#') (fuel : Nat) (cs : List Char) :
    dropSpace (fuel + 1) (c :: cs) = if Text.isBlank c then dropSpace fuel cs else c :: cs := by
  rw [dropSpace]
  exact h

theorem length_dropSpace_le (fuel : Nat) (cs : List Char) : (dropSpace fuel cs).length ≤ cs.length := by
  induction fuel generalizing cs with
  | zero => exact Nat.le_refl _
  | succ fuel ih =>
    cases cs with
    | nil => exact Nat.le_refl _
    | cons c cs =>
      by_cases hc : c = '#'
      · subst hc
        have := ih (cs.dropWhile (· != '\n'))
        have := length_dropWhile_le (· != '\n') cs
        rw [dropSpace, List.length_cons]
        omega
      · rw [dropSpace_cons hc]
        by_cases hb : Text.isBlank c = true
        · have := ih cs
          rw [if_pos hb, List.length_cons]
          omega
        · rw [if_neg hb]

/-- Fuel for every character suffices. -/
theorem dropSpace_fuel {n m : Nat} {cs : List Char} (hn : cs.length ≤ n) (hm : cs.length ≤ m) :
    dropSpace n cs = dropSpace m cs := by
  induction n generalizing m cs with
  | zero =>
    obtain rfl := List.length_eq_zero_iff.1 (Nat.le_zero.1 hn)
    cases m <;> rfl
  | succ n ih =>
    cases cs with
    | nil => cases m <;> rfl
    | cons c cs =>
      rw [List.length_cons] at hn hm
      obtain ⟨m, rfl⟩ : ∃ m', m = m' + 1 := ⟨m - 1, by omega⟩
      by_cases hc : c = '#'
      · subst hc
        have := length_dropWhile_le (· != '\n') cs
        exact ih (by omega) (by omega)
      · have hrest : dropSpace n cs = dropSpace m cs := ih (by omega) (by omega)
        rw [dropSpace_cons hc, dropSpace_cons hc, hrest]

/-- White space and comments end at the same place in both readings, unless a comment goes on past the end
of the pattern. -/
theorem dropSpace_aligned {n m : Nat} {left : List Char} (hn : (left ++ closing closed).length ≤ n)
    (hm : (left ++ ')' :: tail).length ≤ m) :
    (∃ left', dropSpace n (left ++ closing closed) = left' ++ closing closed ∧
        dropSpace m (left ++ ')' :: tail) = left' ++ ')' :: tail) ∨
      dropSpace n (left ++ closing closed) = [] ∧
        (dropSpace m (left ++ ')' :: tail)).length ≤ tail.length := by
  induction n generalizing m left with
  | zero =>
    obtain ⟨rfl, hclosing⟩ := List.append_eq_nil_iff.1 (List.length_eq_zero_iff.1 (Nat.le_zero.1 hn))
    obtain ⟨m, rfl⟩ : ∃ m', m = m' + 1 := ⟨m - 1, by simp at hm; omega⟩
    exact Or.inl ⟨[], rfl, dropSpace_cons (by decide) m tail⟩
  | succ n ih =>
    obtain ⟨m, rfl⟩ : ∃ m', m = m' + 1 := ⟨m - 1, by simp at hm; omega⟩
    cases left with
    | nil =>
      refine Or.inl ⟨[], ?_, dropSpace_cons (by decide) m tail⟩
      cases closed
      · rfl
      · exact dropSpace_cons (by decide) n []
    | cons c left =>
      simp only [List.cons_append, List.length_cons, Nat.add_le_add_iff_right] at hn hm
      by_cases hc : c = '#'
      · subst hc
        rw [List.cons_append, List.cons_append, dropSpace, dropSpace, List.dropWhile_append,
          List.dropWhile_append]
        by_cases hline : (left.dropWhile (· != '\n')).isEmpty = true
        · -- the comment goes on past the end of the pattern
          rw [if_pos hline, if_pos hline]
          refine Or.inr ⟨?_, ?_⟩
          · have hnil : (closing closed).dropWhile (· != '\n') = [] := by cases closed <;> rfl
            rw [hnil]
            cases n <;> rfl
          · rw [List.dropWhile_cons_of_pos (by decide)]
            exact Nat.le_trans (length_dropSpace_le _ _) (length_dropWhile_le _ _)
        · rw [if_neg hline, if_neg hline]
          have := length_dropWhile_le (· != '\n') left
          rw [List.length_append] at hn hm
          exact ih (by rw [List.length_append]; omega) (by rw [List.length_append]; omega)
      · rw [List.cons_append, List.cons_append, dropSpace_cons hc, dropSpace_cons hc]
        by_cases hb : Text.isBlank c = true
        · rw [if_pos hb, if_pos hb]
          exact ih hn hm
        · rw [if_neg hb, if_neg hb]
          exact Or.inl ⟨c :: left, rfl, rfl⟩

/-! ## Characters -/

theorem skipSpace_run (i : Input) : skipSpace i =
    some ((), if i.flags.spaced then { i with rest := dropSpace i.rest.length i.rest } else i) :=
  rfl

theorem agrees_skipSpace : Agrees closed tail skipSpace skipSpace := by
  have hshrinks : ∀ {i : Input} {v : Unit} {i' : Input}, skipSpace i = some (v, i') →
      i'.rest.length ≤ i.rest.length := by
    intro i v i' h
    rw [skipSpace_run] at h
    cases h
    by_cases hs : i.flags.spaced = true
    · rw [if_pos hs]
      exact length_dropSpace_le _ _
    · rw [if_neg hs]
  refine ⟨hshrinks, hshrinks, fun {i j} _ _ _ _ hij h h' => ?_⟩
  rw [skipSpace_run] at h h'
  cases h
  cases h'
  obtain ⟨left, hi, hj⟩ := hij.rest
  by_cases hs : i.flags.spaced = true
  · rw [if_pos hs, if_pos (hij.flags ▸ hs), hi, hj]
    rcases dropSpace_aligned (Nat.le_refl (left ++ closing closed).length)
      (Nat.le_refl (left ++ ')' :: tail).length) with haligned | ⟨hnil, hlength⟩
    · exact Or.inr ⟨rfl, hij.flags, haligned⟩
    · exact Or.inl ⟨hnil, fun _ => hlength⟩
  · rw [if_neg hs, if_neg (hij.flags ▸ hs)]
    exact Or.inr ⟨rfl, hij⟩

theorem agrees_bump : Agrees closed tail bump bump where
  shrinks h := by cases h; exact (List.tail_sublist _).length_le
  shrinks' h := by cases h; exact (List.tail_sublist _).length_le
  agrees {i j} _ _ _ _ hij h h' := by
    cases h
    cases h'
    rcases hij.cases_rest with ⟨c, left, hi, hj⟩ | ⟨hi, hj⟩
    · exact Or.inr ⟨rfl, hij.flags, left, congrArg List.tail hi, congrArg List.tail hj⟩
    · refine Or.inl ⟨(congrArg List.tail hi).trans ?_, fun _ => ?_⟩
      · cases closed <;> rfl
      · exact Nat.le_of_eq (congrArg (List.length ∘ List.tail) hj)

theorem agrees_bumpSpace : Agrees closed tail bumpSpace bumpSpace :=
  agrees_bump.bind fun _ => agrees_skipSpace

/-- What is left behind the next character. -/
def Input.onward (i : Input) : Input :=
  { i with rest := if i.flags.spaced then dropSpace i.rest.length i.rest.tail else i.rest.tail }

theorem bumpSpace_eq (i : Input) : bumpSpace i = some ((), i.onward) := by
  have hfuel : dropSpace i.rest.length i.rest.tail = dropSpace i.rest.tail.length i.rest.tail :=
    dropSpace_fuel (List.tail_sublist _).length_le (Nat.le_refl _)
  unfold Input.onward
  rw [hfuel]
  change some ((), if i.flags.spaced then _ else _) = _
  by_cases hs : i.flags.spaced = true
  · rw [if_pos hs, if_pos hs]
  · rw [if_neg hs, if_neg hs]

theorem length_onward_le (i : Input) : i.onward.rest.length ≤ i.rest.tail.length := by
  unfold Input.onward
  by_cases hs : i.flags.spaced = true
  · simp only [if_pos hs]
    exact length_dropSpace_le ..
  · simp only [if_neg hs]
    exact Nat.le_refl _

/-- Steps that depend on the next character, or on that there is none. -/
theorem Agrees.peek?_bind {k k' : Option Char → Read β} (h : ∀ c, Agrees closed tail (k c) (k' c))
    (hend : Agrees closed tail (k none) (k' (some ')'))) :
    Agrees closed tail (peek? >>= k) (peek? >>= k') where
  shrinks {i} _ _ hrun := (h i.rest.head?).shrinks hrun
  shrinks' {j} _ _ hrun := (h j.rest.head?).shrinks' hrun
  agrees {i j} i' _ v _ hij hrun hrun' := by
    have hrun : k i.rest.head? i = some (v, i') := hrun
    have hrun' : k' j.rest.head? j = some _ := hrun'
    rcases hij.cases_rest with ⟨c, left, hi, hj⟩ | ⟨hi, hj⟩
    · rw [hi] at hrun
      rw [hj] at hrun'
      exact (h (some c)).agrees hij hrun hrun'
    · rw [hi] at hrun
      rw [hj] at hrun'
      cases closed with
      | false => exact hend.agrees hij hrun hrun'
      | true => exact (h (some ')')).agrees hij hrun hrun'

theorem agrees_peek : Agrees closed tail peek peek := by
  refine Agrees.peek?_bind (fun c => ?_) ?_
  · cases c with
    | none => exact .failure
    | some c => exact .pure c
  · have hparenthesis : Agrees closed tail (Pure.pure ')') (Pure.pure ')') := .pure ')'
    exact hparenthesis.failure_left

theorem peek_eq_some {c : Char} : peek i = some (c, i') ↔ i.rest.head? = some c ∧ i' = i := by
  unfold peek
  rw [peek?_bind_run]
  cases i.rest.head? with
  | none =>
    constructor
    · exact fun h => by cases h
    · exact fun h => by cases h.1
  | some c' =>
    constructor
    · intro h
      cases h
      exact ⟨rfl, rfl⟩
    · rintro ⟨h, rfl⟩
      cases h
      rfl

theorem agrees_bumpMore : Agrees closed tail bumpMore bumpMore :=
  agrees_bumpSpace.bind fun _ => agrees_peek.bind fun _ => .pure _

theorem bumpMore_eq_some : bumpMore i = some ((), i') ↔ i.onward.rest ≠ [] ∧ i' = i.onward := by
  change (bumpSpace i).bind (fun x => (peek x.2).bind fun y => some ((), y.2)) = _ ↔ _
  rw [bumpSpace_eq]
  change ((peek i.onward).bind fun y => some ((), y.2)) = _ ↔ _
  cases hrest : i.onward.rest with
  | nil =>
    have hpeek : peek i.onward = none := by
      rw [Option.eq_none_iff_forall_ne_some]
      rintro ⟨c, mid⟩ h
      have hhead := (peek_eq_some.1 h).1
      rw [hrest] at hhead
      cases hhead
    rw [hpeek]
    constructor
    · exact fun h => by cases h
    · exact fun h => absurd rfl h.1
  | cons c cs =>
    rw [peek_eq_some.2 ⟨congrArg List.head? hrest, rfl⟩]
    constructor
    · intro h
      cases h
      exact ⟨List.cons_ne_nil c cs, rfl⟩
    · rintro ⟨-, rfl⟩
      rfl

/-! ## Given texts -/

theorem bumpIf_ahead {text : String} {rest : List Char} (h : i.rest = text.toList ++ rest) :
    bumpIf text i = some (true, { i with rest }) := by
  have htest : text.toList.isPrefixOf i.rest = true :=
    List.isPrefixOf_iff_prefix.2 ⟨rest, h.symm⟩
  have hdrop : i.rest.drop text.length = rest := by
    rw [h, ← String.length_toList, List.drop_left]
  change (if text.toList.isPrefixOf i.rest then _ else _ : Read Bool) i = _
  rw [if_pos htest]
  change some (true, { i with rest := i.rest.drop text.length }) = _
  rw [hdrop]

theorem bumpIf_absent {text : String} (h : ¬ text.toList <+: i.rest) :
    bumpIf text i = some (false, i) := by
  change (if text.toList.isPrefixOf i.rest then _ else _ : Read Bool) i = _
  rw [if_neg fun htest => h (List.isPrefixOf_iff_prefix.1 htest)]
  rfl

theorem bumpIf_shrinks {text : String} {b : Bool} (h : bumpIf text i = some (b, i')) :
    i'.rest.length ≤ i.rest.length := by
  by_cases hp : text.toList <+: i.rest
  · obtain ⟨rest, hrest⟩ := hp
    rw [bumpIf_ahead hrest.symm] at h
    cases h
    rw [← hrest, List.length_append]
    exact Nat.le_add_left ..
  · rw [bumpIf_absent hp] at h
    cases h
    exact Nat.le_refl _

theorem agrees_bumpIf {text : String} (htext : ')' ∉ text.toList) :
    Agrees closed tail (bumpIf text) (bumpIf text) := by
  refine ⟨bumpIf_shrinks, bumpIf_shrinks, fun hij h h' => Or.inr ?_⟩
  rcases hij.rest_iff htext with ⟨left, hi, hj⟩ | ⟨hi, hj⟩
  · rw [bumpIf_ahead hi] at h
    rw [bumpIf_ahead hj] at h'
    cases h
    cases h'
    exact ⟨rfl, hij.flags, left, rfl, rfl⟩
  · rw [bumpIf_absent hi] at h
    rw [bumpIf_absent hj] at h'
    cases h
    cases h'
    exact ⟨rfl, hij⟩

theorem close_eq_some {m : Unit → Read α} {v : α} :
    (bumpIf ")" >>= fun b => if ¬b = true then failure >>= m else f) i = some (v, i') ↔
      ∃ rest, i.rest = ')' :: rest ∧ f { i with rest } = some (v, i') := by
  by_cases hp : (")".toList) <+: i.rest
  · obtain ⟨rest, hrest⟩ := hp
    have hrun : (bumpIf ")" >>= fun b => if ¬b = true then failure >>= m else f) i =
        f { i with rest } := by
      change (bumpIf ")" i).bind _ = _
      rw [bumpIf_ahead hrest.symm]
      rfl
    rw [hrun, ← hrest]
    constructor
    · exact fun h => ⟨rest, rfl, h⟩
    · rintro ⟨rest', heq, h⟩
      obtain rfl : rest = rest' := (List.cons.inj heq).2
      exact h
  · have hrun : (bumpIf ")" >>= fun b => if ¬b = true then failure >>= m else f) i = none := by
      change (bumpIf ")" i).bind _ = _
      rw [bumpIf_absent hp]
      rfl
    rw [hrun]
    constructor
    · exact fun h => by cases h
    · rintro ⟨rest, hrest, -⟩
      exact absurd ⟨rest, hrest.symm⟩ hp

/-- The parenthesis that closes a group inside the pattern, which must be there. -/
theorem Agrees.close_bind {m m' : Unit → Read α} (h : Agrees closed tail f g) :
    Agrees closed tail (bumpIf ")" >>= fun b => if ¬b = true then Alternative.failure >>= m else f)
      (bumpIf ")" >>= fun b => if ¬b = true then Alternative.failure >>= m' else g) where
  shrinks hrun := by
    obtain ⟨rest, hrest, hf⟩ := close_eq_some.1 hrun
    rw [hrest]
    exact Nat.le_succ_of_le (h.shrinks hf)
  shrinks' hrun := by
    obtain ⟨rest, hrest, hg⟩ := close_eq_some.1 hrun
    rw [hrest]
    exact Nat.le_succ_of_le (h.shrinks' hg)
  agrees {i j} _ _ _ _ hij hrun hrun' := by
    obtain ⟨rest, hrest, hf⟩ := close_eq_some.1 hrun
    obtain ⟨rest', hrest', hg⟩ := close_eq_some.1 hrun'
    rcases hij.cases_rest with ⟨c, left, hi, hj⟩ | ⟨hi, hj⟩
    · obtain ⟨-, rfl⟩ := List.cons.inj (hrest.symm.trans hi)
      obtain ⟨-, rfl⟩ := List.cons.inj (hrest'.symm.trans hj)
      have hinside : Aligned closed tail { i with rest := left ++ closing closed }
          { j with rest := left ++ ')' :: tail } := ⟨hij.flags, left, rfl, rfl⟩
      exact h.agrees hinside hf hg
    · -- the parenthesis is the one that closes the pattern
      obtain ⟨-, rfl⟩ := List.cons.inj (hrest'.symm.trans hj)
      have hnil : rest = [] := by
        cases closed with
        | false => cases hrest.symm.trans hi
        | true => exact (List.cons.inj (hrest.symm.trans hi)).2
      have hspent : Spent closed rest' { i with rest } { j with rest := rest' } :=
        ⟨hnil, fun _ => Nat.le_refl _⟩
      exact Or.inl (hspent.of_shrinks (h.shrinks hf) (h.shrinks' hg))

/-! ## Numbers -/

/-- Steps that have fuel for every character that is left. -/
theorem Agrees.sized {f : Nat → Read α} (h : ∀ n, Agrees closed tail (f n) (f n))
    (hfuel : ∀ n m i, i.rest.length ≤ n → i.rest.length ≤ m → f n i = f m i) :
    Agrees closed tail (get >>= fun i => f i.rest.length) (get >>= fun j => f j.rest.length) where
  shrinks {i} _ _ hrun := (h i.rest.length).shrinks hrun
  shrinks' {j} _ _ hrun := (h j.rest.length).shrinks' hrun
  agrees {i j} i' j' v w hij hrun hrun' := by
    have hrun : f i.rest.length i = some (v, i') := hrun
    have hrun' : f j.rest.length j = some (w, j') := hrun'
    rw [hfuel _ (max i.rest.length j.rest.length) i (Nat.le_refl _) (Nat.le_max_left ..)] at hrun
    rw [hfuel _ (max i.rest.length j.rest.length) j (Nat.le_refl _) (Nat.le_max_right ..)] at hrun'
    exact (h _).agrees hij hrun hrun'

theorem Agrees.sized_bind {f g : Nat → Read α}
    (h : Agrees closed tail (get >>= fun i => f i.rest.length) (get >>= fun j => g j.rest.length))
    (hk : ∀ a, Agrees closed tail (k a) (k' a)) :
    Agrees closed tail (get >>= fun i => f i.rest.length >>= k)
      (get >>= fun j => g j.rest.length >>= k') := by
  have hassoc : ∀ (f : Nat → Read α) (k : α → Read β),
      (get >>= fun i => f i.rest.length >>= k) = (get >>= fun i => f i.rest.length) >>= k :=
    fun f k => (bind_assoc ..).symm
  rw [hassoc, hassoc]
  exact h.bind hk

theorem bind_congr_run {k k' : α → Read β} (h : ∀ a mid, f i = some (a, mid) → k a mid = k' a mid) :
    (f >>= k) i = (f >>= k') i := by
  change (f i).bind (fun x => k x.1 x.2) = (f i).bind (fun x => k' x.1 x.2)
  cases hf : f i with
  | none => rfl
  | some x => exact h x.1 x.2 hf

theorem takeWhileSpaced_nil (test : Char → Bool) (n : Nat) (h : i.rest = []) :
    takeWhileSpaced test n i = some ([], i) := by
  cases n with
  | zero => rfl
  | succ n =>
    rw [takeWhileSpaced, peek?_bind_run, h]
    rfl

theorem takeWhileSpaced_cons (test : Char → Bool) (n : Nat) {c : Char} {cs : List Char}
    (h : i.rest = c :: cs) : takeWhileSpaced test (n + 1) i = (if test c then do
        bumpSpace
        return c :: (← takeWhileSpaced test n)
      else return [] : Read (List Char)) i := by
  rw [takeWhileSpaced, peek?_bind_run, h]
  rfl

theorem takeWhileSpaced_fuel (test : Char → Bool) (n m : Nat) (i : Input) (hn : i.rest.length ≤ n)
    (hm : i.rest.length ≤ m) : takeWhileSpaced test n i = takeWhileSpaced test m i := by
  induction n generalizing m i with
  | zero =>
    have hnil : i.rest = [] := List.length_eq_zero_iff.1 (Nat.le_zero.1 hn)
    rw [takeWhileSpaced_nil test 0 hnil, takeWhileSpaced_nil test m hnil]
  | succ n ih =>
    cases hi : i.rest with
    | nil => rw [takeWhileSpaced_nil test _ hi, takeWhileSpaced_nil test _ hi]
    | cons c cs =>
      rw [hi, List.length_cons] at hn hm
      obtain ⟨m, rfl⟩ : ∃ m', m = m' + 1 := ⟨m - 1, by omega⟩
      rw [takeWhileSpaced_cons test n hi, takeWhileSpaced_cons test m hi]
      by_cases hc : test c = true
      · rw [if_pos hc, if_pos hc]
        refine bind_congr_run fun _ mid hmid => ?_
        rw [bumpSpace_eq] at hmid
        cases hmid
        have hlength := length_onward_le i
        rw [hi, List.tail_cons] at hlength
        change (takeWhileSpaced test n i.onward).bind _ = (takeWhileSpaced test m i.onward).bind _
        rw [ih m i.onward (by omega) (by omega)]
      · rw [if_neg hc, if_neg hc]

/-- The characters that satisfy a test are the same in both readings, if a parenthesis does not. -/
theorem agrees_takeWhileSpaced {test : Char → Bool} (htest : test ')' = false) :
    Agrees closed tail (get >>= fun i => takeWhileSpaced test i.rest.length)
      (get >>= fun j => takeWhileSpaced test j.rest.length) := by
  refine Agrees.sized (fun n => ?_) (takeWhileSpaced_fuel test)
  induction n with
  | zero => exact .pure []
  | succ n ih =>
    refine Agrees.peek?_bind (fun c => ?_) ?_
    · cases c with
      | none => exact .pure []
      | some c => exact .ite (agrees_bumpSpace.bind fun _ => ih.bind fun _ => .pure _) (.pure [])
    · change Agrees closed tail _ (if test ')' = true then _ else _)
      rw [htest]
      exact .pure []

theorem dropWhile_append_parenthesis {test : Char → Bool} (htest : test ')' = false) (left : List Char)
    {after : List Char} (hafter : after = [] ∨ ∃ more, after = ')' :: more) :
    (left ++ after).dropWhile test = left.dropWhile test ++ after := by
  have hstop : after.dropWhile test = after := by
    rcases hafter with rfl | ⟨more, rfl⟩
    · rfl
    · exact List.dropWhile_cons_of_neg (by rw [htest]; exact Bool.false_ne_true)
  rw [List.dropWhile_append]
  by_cases hempty : (left.dropWhile test).isEmpty = true
  · rw [if_pos hempty, hstop, List.isEmpty_iff.1 hempty, List.nil_append]
  · rw [if_neg hempty]

theorem agrees_skipBlanks : Agrees closed tail skipBlanks skipBlanks where
  shrinks h := by cases h; exact (List.dropWhile_sublist _).length_le
  shrinks' h := by cases h; exact (List.dropWhile_sublist _).length_le
  agrees {i j} _ _ _ _ hij h h' := by
    cases h
    cases h'
    obtain ⟨left, hi, hj⟩ := hij.rest
    refine Or.inr ⟨rfl, hij.flags, left.dropWhile Text.isBlank, ?_, ?_⟩
    · change i.rest.dropWhile Text.isBlank = _
      rw [hi, dropWhile_append_parenthesis rfl left (Aligned.closing_eq closed)]
    · change j.rest.dropWhile Text.isBlank = _
      rw [hj, dropWhile_append_parenthesis rfl left (Or.inr ⟨tail, rfl⟩)]

theorem agrees_readDecimal : Agrees closed tail readDecimal readDecimal := by
  refine agrees_skipBlanks.bind fun _ => ?_
  refine Agrees.sized_bind (agrees_takeWhileSpaced rfl) fun digits => ?_
  exact agrees_skipBlanks.bind fun _ => agrees_skipSpace.bind fun _ => (Agrees.pure _).guard

theorem agrees_readHexDigits (count : Nat) :
    Agrees closed tail (readHexDigits count) (readHexDigits count) := by
  induction count with
  | zero => exact .pure []
  | succ count ih =>
    exact agrees_peek.bind fun c =>
      .ite (agrees_bumpSpace.bind fun _ => ih.bind fun _ => .pure _) .failure

theorem agrees_readHex (count : Nat) : Agrees closed tail (readHex count) (readHex count) := by
  refine agrees_bumpMore.bind fun _ => agrees_peek.bind fun c => .ite ?_ ?_
  · refine agrees_bumpSpace.bind fun _ => ?_
    refine Agrees.sized_bind (agrees_takeWhileSpaced rfl) fun digits => ?_
    exact agrees_peek.bind fun c => (agrees_bumpSpace.bind fun _ => .lift _).guard
  · exact (agrees_readHexDigits count).bind fun digits => .lift _

end ParserGen.Pattern
