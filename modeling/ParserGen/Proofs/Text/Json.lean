import ParserGen.Text.Json

/-!
# What is written as JSON is read back

Writing puts nothing between the parts of a value, so reading has no white space to skip. A string
ends with its quote and an object with its brace; only a number does not tell where it ends, and what
follows it must not be a digit. Then each reader takes what was written for a value off the front of
the text, and leaves the rest.

* `Takes`: a reader takes a value off the front of every text that begins with its written form.
* `takes_string`: **strings of any characters are read back.**
* `takes_word`, `takes_int`: so are numbers that fit into 64 bits.
* `takes_object`: **and so are objects of such keys and values.**
-/

namespace ParserGen.Json

/-- Whether a value can begin with the character. -/
def opens (c : Char) : Bool :=
  !isSpace c && c != '\x7d'

/-- The reader takes the value off the front of every text that begins with its written form, if no
digit follows. -/
structure Takes {α : Type} (read : Reader α) (written : List Char) (v : α) : Prop where
  opens : ∃ c cs, written = c :: cs ∧ opens c = true
  takes : ∀ (c : Char) (rest : List Char), c.isDigit = false →
    read (written ++ c :: rest) = some (v, c :: rest)

theorem skipSpace_cons {c : Char} {cs : List Char} (h : isSpace c = false) :
    skipSpace (c :: cs) = c :: cs := by
  unfold skipSpace
  rw [List.dropWhile_cons_of_neg (by simp [h])]

theorem Takes.skipSpace {α : Type} {read : Reader α} {written : List Char} {v : α}
    (h : Takes read written v) (rest : List Char) :
    Json.skipSpace (written ++ rest) = written ++ rest := by
  obtain ⟨c, cs, rfl, hc⟩ := h.opens
  refine skipSpace_cons ?_
  simp only [Json.opens, Bool.and_eq_true, Bool.not_eq_true'] at hc
  exact hc.1

/-! ## Strings -/

theorem hexValue?_digitChar {d : Nat} (h : d < 16) : hexValue? (Nat.digitChar d) = some d := by
  have hall : ∀ d < 16, hexValue? (Nat.digitChar d) = some d := by decide
  exact hall d h

/-- A control character is written by number, and numbers so small are no halves of characters. -/
theorem readNumbered_control {c : Char} (h : c.toNat < 0x20) (rest : List Char) :
    readNumbered ('0' :: '0' :: Nat.digitChar (c.toNat / 16) :: Nat.digitChar (c.toNat % 16) :: rest) =
      some (c, rest) := by
  have hhigh := hexValue?_digitChar (d := c.toNat / 16) (by omega)
  have hlow := hexValue?_digitChar (d := c.toNat % 16) (by omega)
  have hvalue : ((0 * 16 + 0) * 16 + c.toNat / 16) * 16 + c.toNat % 16 = c.toNat := by omega
  have hread : readHex4 ('0' :: '0' :: Nat.digitChar (c.toNat / 16) :: Nat.digitChar (c.toNat % 16) ::
      rest) = some (c.toNat, rest) := by
    have hzero : hexValue? '0' = some 0 := by decide
    simp only [readHex4, hzero, hhigh, hlow, hvalue, bind, Option.bind, pure]
  unfold readNumbered
  simp only [hread, bind, Option.bind]
  rw [if_neg (by simp [isLowSurrogate]; omega), if_neg (by simp [isHighSurrogate]; omega)]
  simp

theorem readChar_writeChar (c : Char) (rest : List Char) :
    readChar (writeChar c ++ rest) = some (c, rest) := by
  unfold writeChar
  split
  case h_8 =>
    rename_i hquote hback _ _ _ _ _
    split
    · rename_i hcontrol
      exact readNumbered_control hcontrol rest
    · rename_i hcontrol
      -- any other character stands for itself: it is no quote, no backslash and no control character
      show readChar (c :: rest) = some (c, rest)
      unfold readChar
      split
      · simp_all
      · simp_all
      · simp_all
      · simp_all
  all_goals rfl

/-- Only a quote is written with a quote in front of it, and it has a backslash before. -/
theorem writeChar_cases (c : Char) : ∃ d ds, writeChar c = d :: ds ∧ d ≠ '"' := by
  unfold writeChar
  split
  case h_8 =>
    rename_i hquote _ _ _ _ _ _
    split
    · exact ⟨_, _, rfl, by decide⟩
    · exact ⟨_, _, rfl, hquote⟩
  all_goals exact ⟨_, _, rfl, by decide⟩

theorem readChars_written (fuel : Nat) (cs rest : List Char) (hfuel : cs.length < fuel) :
    readChars fuel (cs.flatMap writeChar ++ '"' :: rest) = some (cs, rest) := by
  induction cs generalizing fuel with
  | nil =>
    obtain ⟨fuel, rfl⟩ := Nat.exists_eq_succ_of_ne_zero (Nat.ne_of_gt hfuel)
    rfl
  | cons c cs ih =>
    obtain ⟨fuel, rfl⟩ := Nat.exists_eq_succ_of_ne_zero (Nat.ne_of_gt (Nat.zero_lt_of_lt hfuel))
    have hread := readChar_writeChar c (cs.flatMap writeChar ++ '"' :: rest)
    have hmore := ih fuel (Nat.lt_of_succ_lt_succ hfuel)
    rw [List.flatMap_cons, List.append_assoc]
    obtain ⟨d, ds, hd, hne⟩ := writeChar_cases c
    rw [hd] at hread ⊢
    rw [List.cons_append] at hread ⊢
    rw [readChars.eq_3 _ _ (by simp [hne])]
    simp [hread, hmore]

theorem length_le_flatMap_writeChar (cs : List Char) : cs.length ≤ (cs.flatMap writeChar).length := by
  induction cs with
  | nil => exact Nat.zero_le _
  | cons c cs ih =>
    obtain ⟨d, ds, hd, -⟩ := writeChar_cases c
    rw [List.flatMap_cons, hd, List.length_append, List.length_cons, List.length_cons]
    omega

/-- **Strings of any characters are read back.** -/
theorem takes_string (s : String) : Takes readString (writeString s).toList s where
  opens := ⟨'"', s.toList.flatMap writeChar ++ ['"'], by simp [writeString], by decide⟩
  takes c rest _ := by
    have hlen := length_le_flatMap_writeChar s.toList
    have hread := readChars_written ((s.toList.flatMap writeChar ++ '"' :: c :: rest).length + 1)
      s.toList (c :: rest) (by rw [List.length_append]; omega)
    have htext : (writeString s).toList ++ c :: rest =
        '"' :: (s.toList.flatMap writeChar ++ '"' :: c :: rest) := by
      simp [writeString]
    rw [htext]
    unfold readString
    simp only [hread, bind, Option.bind, pure, String.ofList_toList]

/-! ## Numbers -/

theorem digitsValue_toDigits (n : Nat) : digitsValue (Nat.toDigits 10 n) = n := by
  have hsame : digitsValue (Nat.toDigits 10 n) = Nat.ofDigitChars 10 (Nat.toDigits 10 n) 0 := by
    unfold digitsValue Nat.ofDigitChars
    congr 1
    funext n c
    rw [Nat.mul_comm]
  rw [hsame, Nat.ofDigitChars_ten_toDigits]

/-- Only zero is written with a zero in front. -/
theorem toDigits_cases {n : Nat} (h : 0 < n) :
    ∃ d ds, Nat.toDigits 10 n = d :: ds ∧ d ≠ '0' := by
  induction n using Nat.strongRecOn with
  | ind n ih =>
    rcases Nat.lt_or_ge n 10 with hlt | hge
    · refine ⟨Nat.digitChar n, [], Nat.toDigits_of_lt_base hlt, ?_⟩
      have hall : ∀ n < 10, 0 < n → Nat.digitChar n ≠ '0' := by decide
      exact hall n hlt h
    · obtain ⟨d, ds, hd, hne⟩ := ih (n / 10) (by omega) (by omega)
      exact ⟨d, ds ++ [Nat.digitChar (n % 10)], by
        rw [Nat.toDigits_of_base_le (by decide) hge, hd]; rfl, hne⟩

theorem readNat_written (n : Nat) {c : Char} (hc : c.isDigit = false) (rest : List Char) :
    readNat (Nat.toDigits 10 n ++ c :: rest) = some (n, c :: rest) := by
  have hdigits : ∀ d ∈ Nat.toDigits 10 n, d.isDigit = true := fun d hd =>
    Nat.isDigit_of_mem_toDigits (by decide) (Nat.le_refl 10) hd
  have htake : (Nat.toDigits 10 n ++ c :: rest).takeWhile Char.isDigit = Nat.toDigits 10 n := by
    rw [List.takeWhile_append_of_pos hdigits, List.takeWhile_cons_of_neg (by simp [hc]),
      List.append_nil]
  have hdrop : (Nat.toDigits 10 n ++ c :: rest).dropWhile Char.isDigit = c :: rest := by
    rw [List.dropWhile_append_of_pos hdigits, List.dropWhile_cons_of_neg (by simp [hc])]
  have hvalue := digitsValue_toDigits n
  unfold readNat
  simp only [htake, hdrop]
  rcases Nat.eq_zero_or_pos n with rfl | hpos
  · rfl
  · obtain ⟨d, ds, hd, hne⟩ := toDigits_cases hpos
    rw [hd] at hvalue ⊢
    split
    · simp_all
    · simp_all
    · simp_all
    · simp_all

theorem toDigits_opens (n : Nat) : ∃ c cs, Nat.toDigits 10 n = c :: cs ∧ c.isDigit = true := by
  cases h : Nat.toDigits 10 n with
  | nil => exact absurd h Nat.toDigits_ne_nil
  | cons c cs =>
    have hm : c ∈ Nat.toDigits 10 n := by simp [h]
    exact ⟨c, cs, rfl, Nat.isDigit_of_mem_toDigits (by decide) (Nat.le_refl 10) hm⟩

theorem opens_of_isDigit {c : Char} (h : c.isDigit = true) : opens c = true := by
  have hne : ∀ d : Char, d.isDigit = false → c ≠ d := by
    rintro d hd rfl
    rw [h] at hd
    cases hd
  simp [opens, isSpace, hne]

/-- Naturals below `2 ^ 64` are read back. -/
theorem takes_word {n : Nat} (h : n < UInt64.size) : Takes readWord (toString n).toList n where
  opens := by
    obtain ⟨c, cs, hcs, hc⟩ := toDigits_opens n
    exact ⟨c, cs, by rw [Nat.toString_eq_ofList_toDigits, String.toList_ofList, hcs],
      opens_of_isDigit hc⟩
  takes c rest hc := by
    rw [Nat.toString_eq_ofList_toDigits, String.toList_ofList]
    unfold readWord
    simp only [readNat_written n hc, bind, Option.bind, if_pos h]

/-- Integers of 64 bits are read back. -/
theorem takes_int {n : Int} (hlow : -(UInt64.size / 2 : Nat) ≤ n)
    (hhigh : n < (UInt64.size / 2 : Nat)) : Takes readInt (toString n).toList n := by
  cases n with
  | ofNat n =>
    have htext : (toString (Int.ofNat n)).toList = Nat.toDigits 10 n := by
      show (Nat.repr n).toList = _
      simp [Nat.repr]
    obtain ⟨d, ds, hds, hd⟩ := toDigits_opens n
    refine ⟨⟨d, ds, htext.trans hds, opens_of_isDigit hd⟩, fun c rest hc => ?_⟩
    have hread := readNat_written n hc rest
    rw [htext]
    rw [hds, List.cons_append] at hread ⊢
    rw [readInt.eq_2 _ (by rintro cs h; cases h; cases hd), hread]
    exact if_pos (Int.ofNat_lt.1 hhigh)
  | negSucc n =>
    have htext : (toString (Int.negSucc n)).toList = '-' :: Nat.toDigits 10 (n + 1) := by
      show ("-" ++ Nat.repr (n + 1)).toList = _
      simp [Nat.repr]
    refine ⟨⟨'-', _, htext, by decide⟩, fun c rest hc => ?_⟩
    have hread := readNat_written (n + 1) hc rest
    rw [htext, List.cons_append]
    unfold readInt
    simp only [hread, bind, Option.bind]
    rw [if_pos ⟨Nat.succ_pos n, by omega⟩]
    rfl

/-! ## Objects -/

section Objects

variable {κ ν : Type} {readKey : Reader κ} {readValue : Reader ν} {writeKey : κ → List Char}
  {writeValue : ν → List Char}

/-- A member of an object. -/
def writeMember (writeKey : κ → List Char) (writeValue : ν → List Char) (e : κ × ν) : List Char :=
  writeKey e.1 ++ ':' :: writeValue e.2

theorem readMembers_member {e : κ × ν} (hk : Takes readKey (writeKey e.1) e.1)
    (hv : Takes readValue (writeValue e.2) e.2) (fuel : Nat) (c : Char) (rest : List Char)
    (hc : c.isDigit = false) :
    readMembers readKey readValue (fuel + 1) (writeMember writeKey writeValue e ++ c :: rest) =
      match skipSpace (c :: rest) with
      | ',' :: cs => (readMembers readKey readValue fuel cs).map fun p => (e :: p.1, p.2)
      | '\x7d' :: cs => some ([e], cs)
      | _ => none := by
  have hkey := hk.takes ':' (writeValue e.2 ++ c :: rest) (by decide)
  have hvalue := hv.takes c rest hc
  have htext : writeMember writeKey writeValue e ++ c :: rest =
      writeKey e.1 ++ ':' :: (writeValue e.2 ++ c :: rest) := by
    simp [writeMember]
  rw [htext, readMembers]
  simp only [hk.skipSpace, hkey, bind, Option.bind, skipSpace_cons (c := ':') (by decide), expect,
    if_true, hv.skipSpace, hvalue]
  -- the first character behind the member tells whether another one follows
  generalize skipSpace (c :: rest) = next
  cases next with
  | nil => rfl
  | cons d ds =>
    by_cases hcomma : d = ','
    · subst hcomma
      show _ = (readMembers readKey readValue fuel ds).map _
      cases hmore : readMembers readKey readValue fuel ds <;> simp [hmore, pure]
    · by_cases hbrace : d = '\x7d'
      · subst hbrace
        rfl
      · simp [hcomma, hbrace]

/-- Members with commas between them are read back. -/
theorem readMembers_written (fuel : Nat) {es : List (κ × ν)} (hne : es ≠ [])
    (hkey : ∀ e ∈ es, Takes readKey (writeKey e.1) e.1)
    (hvalue : ∀ e ∈ es, Takes readValue (writeValue e.2) e.2) (hfuel : es.length ≤ fuel)
    (rest : List Char) :
    readMembers readKey readValue fuel
      ([','].intercalate (es.map (writeMember writeKey writeValue)) ++ '\x7d' :: rest) =
      some (es, rest) := by
  induction es generalizing fuel with
  | nil => exact absurd rfl hne
  | cons e es ih =>
    obtain ⟨fuel, rfl⟩ := Nat.exists_eq_succ_of_ne_zero (Nat.ne_of_gt (Nat.zero_lt_of_lt hfuel))
    have hmember := readMembers_member (hkey e List.mem_cons_self) (hvalue e List.mem_cons_self) fuel
    cases es with
    | nil =>
      rw [List.map_singleton, List.intercalate_singleton, hmember _ _ (by decide),
        skipSpace_cons (by decide)]
      rfl
    | cons e' es =>
      have hmore := ih fuel (by simp) (fun x hx => hkey x (List.mem_cons_of_mem e hx))
        (fun x hx => hvalue x (List.mem_cons_of_mem e hx)) (Nat.le_of_succ_le_succ hfuel)
      rw [List.map_cons, List.map_cons, List.intercalate_cons_cons, List.append_assoc,
        List.append_assoc, List.singleton_append, hmember _ _ (by decide), skipSpace_cons (by decide)]
      rw [List.map_cons] at hmore
      simp only [hmore, Option.map_some]

/-- An object with its members in order. -/
def writeObject (writeKey : κ → List Char) (writeValue : ν → List Char) (es : List (κ × ν)) :
    List Char :=
  '\x7b' :: ([','].intercalate (es.map (writeMember writeKey writeValue)) ++ ['\x7d'])

theorem length_le_intercalate (writeKey : κ → List Char) (writeValue : ν → List Char)
    (es : List (κ × ν)) :
    es.length ≤ ([','].intercalate (es.map (writeMember writeKey writeValue))).length := by
  induction es with
  | nil => exact Nat.zero_le _
  | cons e es ih =>
    cases es with
    | nil => simp [writeMember]; omega
    | cons e' es =>
      rw [List.map_cons] at ih
      rw [List.map_cons, List.map_cons, List.intercalate_cons_cons]
      simp only [List.length_append, List.length_cons] at ih ⊢
      omega

/-- Members begin with the first key. -/
theorem intercalate_opens (writeValue : ν → List Char) {e : κ × ν} (es : List (κ × ν))
    (hkey : Takes readKey (writeKey e.1) e.1) :
    ∃ c cs, [','].intercalate ((e :: es).map (writeMember writeKey writeValue)) = c :: cs ∧
      opens c = true := by
  obtain ⟨c, cs, hcs, hc⟩ := hkey.opens
  cases es with
  | nil =>
    exact ⟨c, _, by
      rw [List.map_singleton, List.intercalate_singleton, writeMember, hcs]; rfl, hc⟩
  | cons e' es =>
    exact ⟨c, _, by
      rw [List.map_cons, List.map_cons, List.intercalate_cons_cons, writeMember, hcs]; rfl, hc⟩

theorem readObject_of_opens {c : Char} (h : opens c = true) (cs : List Char) :
    readObject readKey readValue ('\x7b' :: c :: cs) =
      readMembers readKey readValue ((c :: cs).length + 1) (c :: cs) := by
  simp only [opens, Bool.and_eq_true, Bool.not_eq_true', bne_iff_ne] at h
  unfold readObject
  simp only [skipSpace_cons h.1]
  split
  · rename_i heq
    exact absurd (List.cons.inj heq).1 h.2
  · rfl

/-- **Objects are read back, if their keys and values are.** -/
theorem takes_object {es : List (κ × ν)} (hkey : ∀ e ∈ es, Takes readKey (writeKey e.1) e.1)
    (hvalue : ∀ e ∈ es, Takes readValue (writeValue e.2) e.2) :
    Takes (readObject readKey readValue) (writeObject writeKey writeValue es) es where
  opens := ⟨'\x7b', _, rfl, by decide⟩
  takes c rest _ := by
    cases es with
    | nil => rfl
    | cons e es =>
      have hlen := length_le_intercalate writeKey writeValue (e :: es)
      obtain ⟨d, ds, hd, hopens⟩ := intercalate_opens writeValue es
        (hkey e List.mem_cons_self)
      have htext : writeObject writeKey writeValue (e :: es) ++ c :: rest =
          '\x7b' :: d :: (ds ++ '\x7d' :: c :: rest) := by
        rw [writeObject, hd]
        simp
      have hread := readMembers_written ((d :: (ds ++ '\x7d' :: c :: rest)).length + 1)
        (by simp) hkey hvalue (by rw [hd] at hlen; simp at hlen ⊢; omega) (c :: rest)
      rw [hd] at hread
      rw [htext, readObject_of_opens hopens]
      exact hread

end Objects

end ParserGen.Json
