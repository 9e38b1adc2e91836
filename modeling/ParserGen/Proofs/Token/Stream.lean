import ParserGen.Token.Stream

/-!
# Asking and moving a token stream

A stream is asked and moved by index or by distance. The two agree: to look at a token is to move
there and take the current one, and a distance leads where the index does that it adds up to.

* `moveTo_eq_ok_iff`, `seek_eq_ok_iff`, `advance_eq_ok_iff`: where a call leads, if it does not fail.
* `get_iff_moveTo`, `lookAhead_iff_seek`: **to look at a token is to move there.**
* `seek_iff_moveTo`, `advance_iff_seek`: **moves by distance are moves to an index.**
-/

namespace ParserGen

namespace TokenStream

variable {s s' : TokenStream} {t : Token}

theorem eq_of_position (ht : s'.tokens = s.tokens) (hp : s'.position = s.position) : s' = s := by
  cases s
  cases s'
  cases ht
  cases hp
  rfl

theorem getElem?_position (s : TokenStream) : s.tokens[s.position]? = some s.current :=
  Array.getElem?_eq_getElem s.position_lt

/-- A move to an index leads to that index. -/
theorem moveTo_eq_ok_iff {i : Nat} :
    s.moveTo i = .ok s' ↔ s'.tokens = s.tokens ∧ s'.position = i := by
  unfold moveTo
  constructor
  · intro h
    split at h
    · cases h
      exact ⟨rfl, rfl⟩
    · cases h
  · rintro ⟨ht, rfl⟩
    rw [dif_pos (ht ▸ s'.position_lt)]
    exact congrArg Except.ok (eq_of_position ht.symm rfl)

theorem relative?_eq_some_iff {n : Int} {i : Fin s.tokens.size} :
    s.relative? n = some i ↔ (i.val : Int) = s.position + n := by
  unfold relative?
  dsimp only
  have hi := i.isLt
  split
  · rw [Option.some.injEq, Fin.ext_iff]
    dsimp only
    omega
  · simp only [reduceCtorEq, false_iff]
    omega

/-- A move by a distance leads to the index that position and distance add up to. -/
theorem seek_eq_ok_iff {n : Int} :
    s.seek n = .ok s' ↔ s'.tokens = s.tokens ∧ (s'.position : Int) = s.position + n := by
  unfold seek
  constructor
  · intro h
    split at h
    · rename_i i hi
      cases h
      exact ⟨rfl, relative?_eq_some_iff.1 hi⟩
    · cases h
  · rintro ⟨ht, hp⟩
    have hi : s.relative? n = some ⟨s'.position, ht ▸ s'.position_lt⟩ := relative?_eq_some_iff.2 hp
    rw [hi]
    exact congrArg Except.ok (eq_of_position ht.symm rfl)

theorem advance_eq_ok_iff :
    s.advance = .ok s' ↔ s'.tokens = s.tokens ∧ s'.position = s.position + 1 := by
  unfold advance
  constructor
  · intro h
    split at h
    · cases h
      exact ⟨rfl, rfl⟩
    · cases h
  · rintro ⟨ht, hp⟩
    have hlt : s'.position < s.tokens.size := ht ▸ s'.position_lt
    rw [dif_pos (hp ▸ hlt)]
    exact congrArg Except.ok (eq_of_position ht.symm hp.symm)

theorem advance_cases (s : TokenStream) :
    (∃ s', s.advance = .ok s' ∧ s'.tokens = s.tokens ∧ s'.position = s.position + 1) ∨
      s.advance = .error .endOfStream ∧ s.position + 1 = s.tokens.size := by
  unfold advance
  split
  · exact Or.inl ⟨_, rfl, rfl, rfl⟩
  · have := s.position_lt
    exact Or.inr ⟨rfl, by omega⟩

theorem get_eq_ok_iff {i : Nat} : s.get i = .ok t ↔ s.tokens[i]? = some t := by
  unfold get
  split
  · rename_i h
    rw [Array.getElem?_eq_getElem h, Except.ok.injEq, Option.some.injEq]
  · rename_i h
    rw [Array.getElem?_eq_none (by omega)]
    simp

theorem lookAhead_eq_ok_iff {n : Int} :
    s.lookAhead n = .ok t ↔ ∃ i : Nat, (i : Int) = s.position + n ∧ s.tokens[i]? = some t := by
  unfold lookAhead
  constructor
  · intro h
    split at h
    · rename_i i hi
      cases h
      exact ⟨i, relative?_eq_some_iff.1 hi, Array.getElem?_eq_getElem i.isLt⟩
    · cases h
  · rintro ⟨i, hi, ht⟩
    obtain ⟨hlt, rfl⟩ := Array.getElem?_eq_some_iff.1 ht
    have hrel : s.relative? n = some ⟨i, hlt⟩ := relative?_eq_some_iff.2 hi
    rw [hrel]
    rfl

/-- Some stream has the cursor on an index of the tokens. -/
theorem exists_at (s : TokenStream) {i : Nat} (ht : s.tokens[i]? = some t) :
    ∃ s' : TokenStream, s'.tokens = s.tokens ∧ s'.position = i ∧ s'.current = t := by
  obtain ⟨hlt, rfl⟩ := Array.getElem?_eq_some_iff.1 ht
  exact ⟨⟨s.tokens, i, hlt⟩, rfl, rfl, rfl⟩

/-- **To look at an index is to move there.** -/
theorem get_iff_moveTo {i : Nat} :
    s.get i = .ok t ↔ ∃ s', s.moveTo i = .ok s' ∧ s'.current = t := by
  simp only [get_eq_ok_iff, moveTo_eq_ok_iff]
  constructor
  · intro ht
    obtain ⟨s', htokens, hp, hcurrent⟩ := s.exists_at ht
    exact ⟨s', ⟨htokens, hp⟩, hcurrent⟩
  · rintro ⟨s', ⟨htokens, rfl⟩, rfl⟩
    rw [← htokens, getElem?_position]

/-- **To look at a distance is to move by it.** -/
theorem lookAhead_iff_seek {n : Int} :
    s.lookAhead n = .ok t ↔ ∃ s', s.seek n = .ok s' ∧ s'.current = t := by
  simp only [lookAhead_eq_ok_iff, seek_eq_ok_iff]
  constructor
  · rintro ⟨i, hi, ht⟩
    obtain ⟨s', htokens, rfl, hcurrent⟩ := s.exists_at ht
    exact ⟨s', ⟨htokens, hi⟩, hcurrent⟩
  · rintro ⟨s', ⟨htokens, hp⟩, rfl⟩
    exact ⟨s'.position, hp, by rw [← htokens, getElem?_position]⟩

/-- **To move by a distance is to move to the index that it adds up to.** -/
theorem seek_iff_moveTo {n : Int} :
    s.seek n = .ok s' ↔ ∃ i : Nat, (i : Int) = s.position + n ∧ s.moveTo i = .ok s' := by
  simp only [seek_eq_ok_iff, moveTo_eq_ok_iff]
  constructor
  · rintro ⟨ht, hp⟩
    exact ⟨s'.position, hp, ht, rfl⟩
  · rintro ⟨i, hi, ht, rfl⟩
    exact ⟨ht, hi⟩

theorem exists_seek_iff {n : Int} : (∃ s', s.seek n = .ok s') ↔
    0 ≤ (s.position : Int) + n ∧ (s.position : Int) + n < s.tokens.size := by
  simp only [seek_eq_ok_iff]
  constructor
  · rintro ⟨s', ht, hp⟩
    have hlt : s'.position < s.tokens.size := ht ▸ s'.position_lt
    omega
  · rintro ⟨hle, hlt⟩
    refine ⟨⟨s.tokens, ((s.position : Int) + n).toNat, by omega⟩, rfl, ?_⟩
    exact Int.toNat_of_nonneg hle

theorem advance_iff_seek : s.advance = .ok s' ↔ s.seek 1 = .ok s' := by
  rw [advance_eq_ok_iff, seek_eq_ok_iff]
  refine and_congr_right fun _ => ?_
  omega

end TokenStream

end ParserGen
