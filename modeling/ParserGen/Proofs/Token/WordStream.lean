import ParserGen.Proofs.Token.Stream

/-!
# Streams on words

The position of a stream is kept within the tokens by its type. Here it is a word, a distance is a
signed word, and a call leaves a stream behind whether it fails or not. So the sum of position and
distance has to be checked at the limits of both, and nothing but the checks of the calls keeps the
position within the tokens. The calls come to the same as those of a stream, after any sequence of
them.

* `addSigned?_eq_some_iff`: **the sum of a word and a signed word is checked exactly.**
* `TokenStream.perform_onWords`: **a call on words is a call of the stream.**
* `WordStream.mirrors_after`: so it is after any sequence of calls.
* `cursor_coherent`: with this, that the calls of a stream agree with each other.
-/

namespace ParserGen

/-! ## Words -/

/-- The sum of a word and a signed word, if it is a word. Both are added as words: a carry is wrong if
the second is not negative, and the lack of one if it is. -/
def addSigned? (a : UInt64) (n : Int64) : Option UInt64 :=
  let sum := a + n.toUInt64
  if decide (sum < a) != decide (n < 0) then none else some sum

/-- **The sum of a word and a signed word is checked exactly.** -/
theorem addSigned?_eq_some_iff {a b : UInt64} {n : Int64} :
    addSigned? a n = some b ↔ (b.toNat : Int) = a.toNat + n.toInt := by
  have ha := a.toNat_lt
  have hb := b.toNat_lt
  have hw := n.toUInt64.toNat_lt
  have hn : n.toInt = if 2 * n.toUInt64.toNat < 2 ^ 64 then (n.toUInt64.toNat : Int)
      else n.toUInt64.toNat - (2 ^ 64 : Nat) := BitVec.toInt_eq_toNat_cond n.toBitVec
  have hneg : n < 0 ↔ n.toInt < 0 := Int64.lt_iff_toInt_lt
  have hsum : (a + n.toUInt64).toNat = (a.toNat + n.toUInt64.toNat) % 2 ^ 64 :=
    UInt64.toNat_add a n.toUInt64
  have hcarry : a + n.toUInt64 < a ↔ (a + n.toUInt64).toNat < a.toNat := UInt64.lt_iff_toNat_lt
  -- a negative word stands for `2 ^ 64` more than it is, which the carry takes away again
  unfold addSigned?
  simp only [bne_iff_ne, ne_eq, decide_eq_decide, hcarry, hneg, ite_not]
  split
  · rename_i hflags
    rw [Option.some.injEq, ← UInt64.toNat_inj]
    split at hn <;> omega
  · rename_i hflags
    refine iff_of_false (by simp) fun heq => hflags ?_
    split at hn <;> omega

/-! ## Calls one after the other -/

namespace TokenStream

/-- A call that moves the cursor. -/
inductive Move where
  | moveTo (index : UInt64)
  | seek (distance : Int64)
  | advance

variable {s s' : TokenStream}

/-- The stream after a call, unless the call fails. -/
def perform (s : TokenStream) : Move → Except StreamError TokenStream
  | .moveTo i => s.moveTo i.toNat
  | .seek n => s.seek n.toInt
  | .advance => s.advance

/-- The stream after a call, which is the one before if the call fails. -/
def next (s : TokenStream) (m : Move) : TokenStream :=
  (s.perform m).toOption.getD s

/-- The stream after some calls. -/
def after (s : TokenStream) (moves : List Move) : TokenStream :=
  moves.foldl next s

theorem tokens_next (s : TokenStream) (m : Move) : (s.next m).tokens = s.tokens := by
  unfold next
  cases h : s.perform m with
  | error e => rfl
  | ok s' =>
    show s'.tokens = s.tokens
    cases m with
    | moveTo i => exact (moveTo_eq_ok_iff.1 h).1
    | seek n => exact (seek_eq_ok_iff.1 h).1
    | advance => exact (advance_eq_ok_iff.1 h).1

theorem tokens_after (s : TokenStream) (moves : List Move) : (s.after moves).tokens = s.tokens := by
  induction moves generalizing s with
  | nil => rfl
  | cons m rest ih => exact (ih (s.next m)).trans (tokens_next s m)

/-- What holds of a stream that was made of `tokens`, whatever was done to it since then. -/
structure Coherent (tokens : Array Token) (s : TokenStream) : Prop where
  unchanged : s.tokens = (ofTokens tokens).tokens
  ends : ∃ t, s.tokens.back? = some t ∧ t.isEof = true
  lookAhead : ∀ n t, s.lookAhead n = .ok t ↔ ∃ s', s.seek n = .ok s' ∧ s'.current = t
  seek : ∀ n, (∃ s', s.seek n = .ok s') ↔
    0 ≤ (s.position : Int) + n ∧ (s.position : Int) + n < s.tokens.size
  seek_moveTo : ∀ n s', s.seek n = .ok s' ↔
    ∃ i : Nat, (i : Int) = s.position + n ∧ s.moveTo i = .ok s'
  advance : ∀ s', s.advance = .ok s' ↔ s.seek 1 = .ok s'
  get : ∀ i t, s.get i = .ok t ↔ ∃ s', s.moveTo i = .ok s' ∧ s'.current = t

theorem coherent_after (tokens : Array Token) (moves : List Move) :
    ((ofTokens tokens).after moves).Coherent tokens where
  unchanged := tokens_after _ moves
  ends := by
    rw [tokens_after]
    exact ofTokens_ends tokens
  lookAhead _ _ := lookAhead_iff_seek
  seek _ := exists_seek_iff
  seek_moveTo _ _ := seek_iff_moveTo
  advance _ := advance_iff_seek
  get _ _ := get_iff_moveTo

end TokenStream

/-! ## Calls on words -/

/-- Tokens and a position, on which there need not be a token. -/
structure WordStream where
  tokens : Array Token
  position : UInt64

namespace WordStream

/-- The stream of the tokens, with `$eof` at the end and the cursor on the first. -/
def ofTokens (tokens : Array Token) : WordStream where
  tokens := TokenStream.terminate tokens
  position := 0

/-- The number of tokens. -/
def size (w : WordStream) : UInt64 :=
  w.tokens.size.toUInt64

/-- The token under the cursor, if it is on one. -/
def current (w : WordStream) : Option Token :=
  w.tokens[w.position.toNat]?

/-- The token at an index. -/
def get (w : WordStream) (i : UInt64) : Except StreamError Token :=
  match w.tokens[i.toNat]? with
  | some t => .ok t
  | none => .error (.index i.toNat)

/-- The index at a distance from the cursor, if it is below the number of tokens. -/
def relative? (w : WordStream) (n : Int64) : Option UInt64 :=
  (addSigned? w.position n).filter fun i => i < w.size

/-- The token at a distance from the cursor, or nothing at all if a token is looked for outside. -/
def lookAhead (w : WordStream) (n : Int64) : Option (Except StreamError Token) :=
  match w.relative? n with
  | some i => w.tokens[i.toNat]?.map .ok
  | none => some (.error (.lookAhead n.toInt))

/-- Puts the cursor on an index. -/
def moveTo (w : WordStream) (i : UInt64) : Except StreamError Unit × WordStream :=
  if i ≥ w.size then (.error (.index i.toNat), w)
  else (.ok (), { w with position := i })

/-- Moves the cursor by a distance. -/
def seek (w : WordStream) (n : Int64) : Except StreamError Unit × WordStream :=
  match w.relative? n with
  | some i => (.ok (), { w with position := i })
  | none => (.error (.lookAhead n.toInt), w)

/-- Moves the cursor to the next token. -/
def advance (w : WordStream) : Except StreamError Unit × WordStream :=
  if w.position + 1 ≥ w.size then (.error .endOfStream, w)
  else (.ok (), { w with position := w.position + 1 })

/-- The answer to a call, and the stream that it leaves behind. -/
def perform (w : WordStream) : TokenStream.Move → Except StreamError Unit × WordStream
  | .moveTo i => w.moveTo i
  | .seek n => w.seek n
  | .advance => w.advance

/-- The stream that some calls leave behind. -/
def after (w : WordStream) (moves : List TokenStream.Move) : WordStream :=
  moves.foldl (fun w m => (w.perform m).2) w

end WordStream

namespace TokenStream

variable {s : TokenStream}

/-- The stream with its position as a word. -/
def onWords (s : TokenStream) : WordStream where
  tokens := s.tokens
  position := s.position.toUInt64

/-- What a call of the stream comes to on words. -/
def answer (s : TokenStream) : Except StreamError TokenStream → Except StreamError Unit × WordStream
  | .ok s' => (.ok (), s'.onWords)
  | .error e => (.error e, s.onWords)

theorem get_onWords (i : UInt64) : s.onWords.get i = s.get i.toNat := by
  unfold WordStream.get get
  show (match s.tokens[i.toNat]? with | some t => _ | none => _) = _
  split
  · rename_i t ht
    obtain ⟨hlt, rfl⟩ := Array.getElem?_eq_some_iff.1 ht
    rw [dif_pos hlt]
  · rename_i hnone
    rw [dif_neg (by simpa using hnone)]

section Words

variable (hfit : s.tokens.size < UInt64.size)

include hfit

theorem toNat_index (i : Fin s.tokens.size) : i.val.toUInt64.toNat = i :=
  UInt64.toNat_ofNat_of_lt' (Nat.lt_trans i.isLt hfit)

theorem toNat_position : s.onWords.position.toNat = s.position :=
  toNat_index hfit ⟨s.position, s.position_lt⟩

theorem toNat_size : s.onWords.size.toNat = s.tokens.size :=
  UInt64.toNat_ofNat_of_lt' hfit

theorem size_le_iff {i : UInt64} : i ≥ s.onWords.size ↔ s.tokens.size ≤ i.toNat := by
  rw [ge_iff_le, UInt64.le_iff_toNat_le, toNat_size hfit]

theorem current_onWords : s.onWords.current = some s.current := by
  unfold WordStream.current
  rw [toNat_position hfit]
  exact s.getElem?_position

theorem relative?_onWords (n : Int64) :
    s.onWords.relative? n = (s.relative? n.toInt).map fun i => i.val.toUInt64 := by
  ext b
  unfold WordStream.relative?
  rw [Option.filter_eq_some_iff, addSigned?_eq_some_iff, Option.map_eq_some_iff, decide_eq_true_eq,
    UInt64.lt_iff_toNat_lt, toNat_size hfit, toNat_position hfit]
  constructor
  · rintro ⟨hsum, hlt⟩
    exact ⟨⟨b.toNat, hlt⟩, relative?_eq_some_iff.2 hsum, UInt64.ofNat_toNat⟩
  · rintro ⟨i, hi, rfl⟩
    rw [toNat_index hfit]
    exact ⟨relative?_eq_some_iff.1 hi, i.isLt⟩

theorem lookAhead_onWords (n : Int64) :
    s.onWords.lookAhead n = some (s.lookAhead n.toInt) := by
  unfold WordStream.lookAhead lookAhead
  rw [relative?_onWords hfit]
  cases s.relative? n.toInt with
  | none => rfl
  | some i =>
    have hi : s.onWords.tokens[i.val.toUInt64.toNat]? = some s.tokens[i] := by
      rw [toNat_index hfit]
      exact Array.getElem?_eq_getElem i.isLt
    exact congrArg (Option.map Except.ok) hi

theorem moveTo_onWords (i : UInt64) : s.onWords.moveTo i = s.answer (s.moveTo i.toNat) := by
  have hsize := size_le_iff hfit (i := i)
  unfold WordStream.moveTo moveTo
  by_cases hlt : i.toNat < s.tokens.size
  · rw [if_neg (mt hsize.1 (by omega)), dif_pos hlt]
    simp only [answer, onWords, Nat.toUInt64, UInt64.ofNat_toNat]
  · rw [if_pos (hsize.2 (by omega)), dif_neg hlt]
    rfl

theorem seek_onWords (n : Int64) : s.onWords.seek n = s.answer (s.seek n.toInt) := by
  unfold WordStream.seek seek
  rw [relative?_onWords hfit]
  cases s.relative? n.toInt <;> rfl

/-- The index behind the position is a word, as there are at least as many tokens. -/
theorem toNat_succ_position : (s.onWords.position + 1).toNat = s.position + 1 := by
  have hlt := s.position_lt
  have hword : s.position + 1 < UInt64.size := by omega
  rw [UInt64.toNat_add, toNat_position hfit, UInt64.toNat_one]
  exact Nat.mod_eq_of_lt hword

theorem advance_onWords : s.onWords.advance = s.answer s.advance := by
  have hsize := size_le_iff hfit (i := s.onWords.position + 1)
  rw [toNat_succ_position hfit] at hsize
  unfold WordStream.advance advance
  by_cases hlt : s.position + 1 < s.tokens.size
  · rw [if_neg (mt hsize.1 (by omega)), dif_pos hlt]
    have hnext : s.onWords.position + 1 = (s.position + 1).toUInt64 := by
      rw [← UInt64.toNat_inj, toNat_succ_position hfit]
      exact (toNat_index hfit ⟨s.position + 1, hlt⟩).symm
    rw [hnext]
    rfl
  · rw [if_pos (hsize.2 (by omega)), dif_neg hlt]
    rfl

/-- **A call on words is a call of the stream.** -/
theorem perform_onWords (m : Move) : s.onWords.perform m = s.answer (s.perform m) := by
  cases m with
  | moveTo i => exact moveTo_onWords hfit i
  | seek n => exact seek_onWords hfit n
  | advance => exact advance_onWords hfit

theorem perform_onWords_snd (m : Move) : (s.onWords.perform m).2 = (s.next m).onWords := by
  rw [perform_onWords hfit]
  unfold next
  cases s.perform m <;> rfl

theorem after_onWords (moves : List Move) : s.onWords.after moves = (s.after moves).onWords := by
  induction moves generalizing s with
  | nil => rfl
  | cons m rest ih =>
    have hnext : (s.next m).tokens.size < UInt64.size := by rwa [tokens_next]
    show ((s.onWords.perform m).2).after rest = ((s.next m).after rest).onWords
    rw [perform_onWords_snd hfit, ih hnext]

end Words

end TokenStream

namespace WordStream

/-- A stream on words has its cursor where a stream has it and answers every call like it. Nothing is
looked for outside of the tokens, and a call that fails changes nothing. -/
structure Mirrors (w : WordStream) (s : TokenStream) : Prop where
  tokens : w.tokens = s.tokens
  position : w.position.toNat = s.position
  inside : w.position.toNat < w.tokens.size
  noCarry : (w.position + 1).toNat = w.position.toNat + 1
  current : w.current = some s.current
  get : ∀ i, w.get i = s.get i.toNat
  lookAhead : ∀ n, w.lookAhead n = some (s.lookAhead n.toInt)
  perform : ∀ m, w.perform m = s.answer (s.perform m)
  failed : ∀ m e, (w.perform m).1 = .error e → (w.perform m).2 = w

theorem mirrors_onWords {s : TokenStream} (hfit : s.tokens.size < UInt64.size) : s.onWords.Mirrors s where
  tokens := rfl
  position := TokenStream.toNat_position hfit
  inside := by
    rw [TokenStream.toNat_position hfit]
    exact s.position_lt
  noCarry := by
    rw [TokenStream.toNat_succ_position hfit, TokenStream.toNat_position hfit]
  current := TokenStream.current_onWords hfit
  get := TokenStream.get_onWords
  lookAhead := TokenStream.lookAhead_onWords hfit
  perform := TokenStream.perform_onWords hfit
  failed m e he := by
    rw [TokenStream.perform_onWords hfit] at he ⊢
    cases h : s.perform m with
    | error e' => rfl
    | ok s' =>
      rw [h] at he
      cases he

/-- **After any calls, a stream on words still answers like the stream.** -/
theorem mirrors_after {tokens : Array Token} (hfit : (TokenStream.ofTokens tokens).size < UInt64.size)
    (moves : List TokenStream.Move) :
    ((ofTokens tokens).after moves).Mirrors ((TokenStream.ofTokens tokens).after moves) := by
  have hstart : ofTokens tokens = (TokenStream.ofTokens tokens).onWords := rfl
  rw [hstart, TokenStream.after_onWords hfit]
  refine mirrors_onWords ?_
  rw [TokenStream.tokens_after]
  exact hfit

end WordStream

/-- **The cursor is always on a token, and all its calls agree.** After any sequence of moves, of which
some may have failed, a stream has the tokens it was made of, with `$eof` at the end; to look at a
token is to move there; a distance leads where the index does that it adds up to as an integer, and
nowhere if there is none. If the number of tokens is a word, the same comes out on words, for every
index and every distance that is one. -/
theorem cursor_coherent (tokens : Array Token) (moves : List TokenStream.Move) :
    ((TokenStream.ofTokens tokens).after moves).Coherent tokens ∧
      ((TokenStream.ofTokens tokens).size < UInt64.size →
        ((WordStream.ofTokens tokens).after moves).Mirrors
          ((TokenStream.ofTokens tokens).after moves)) :=
  ⟨TokenStream.coherent_after tokens moves, fun hfit => WordStream.mirrors_after hfit moves⟩

/-- A sum of three tokens, to which `$eof` is added. -/
def sumTokens : Array Token :=
  #[⟨"INT", "6", 1, 1⟩, ⟨"+", "+", 1, 3⟩, ⟨"INT", "5", 1, 5⟩]

/-- Moves to the limits of words and beyond the end, which fail, among others. -/
def roughMoves : List TokenStream.Move :=
  [.seek 2, .seek Int64.minValue, .moveTo 18446744073709551615, .advance, .advance,
    .seek Int64.maxValue, .seek (-1)]

theorem sumTokens_coherent : (TokenStream.ofTokens sumTokens).size < UInt64.size ∧
    ((WordStream.ofTokens sumTokens).after roughMoves).position = 2 ∧
    ((TokenStream.ofTokens sumTokens).after roughMoves).Coherent sumTokens ∧
    ((WordStream.ofTokens sumTokens).after roughMoves).Mirrors
      ((TokenStream.ofTokens sumTokens).after roughMoves) := by
  have hfit : (TokenStream.ofTokens sumTokens).size < UInt64.size := by decide +kernel
  have hposition : ((WordStream.ofTokens sumTokens).after roughMoves).position = 2 := by
    decide +kernel
  obtain ⟨hcoherent, hmirrors⟩ := cursor_coherent sumTokens roughMoves
  exact ⟨hfit, hposition, hcoherent, hmirrors hfit⟩

end ParserGen
