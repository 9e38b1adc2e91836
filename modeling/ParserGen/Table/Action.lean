/-!
# Actions

What a parser does in a state on a token. In a table an action is one integer: positive for a shift,
negative for a reduction, zero to accept.

* `decode_encode`: shifts to states other than `0` and reductions by rules other than `0` are read
  back as they were written.
-/

namespace ParserGen

/-- What to do next. -/
inductive Action where
  /-- Take the token and go to a state. -/
  | shift (state : Nat)
  /-- Replace the components of a rule by its left side. -/
  | reduce (rule : Nat)
  /-- The input is a sentence. -/
  | accept
deriving DecidableEq, Inhabited

namespace Action

/-- The action that an integer stands for. -/
def decode (raw : Int) : Action :=
  if raw = 0 then .accept
  else if 0 < raw then .shift raw.natAbs
  else .reduce raw.natAbs

/-- The integer that stands for an action. -/
def encode : Action → Int
  | .shift state => state
  | .reduce rule => -rule
  | .accept => 0

theorem encode_decode (raw : Int) : (decode raw).encode = raw := by
  unfold decode
  split
  · simp_all [encode]
  · split
    · simp only [encode]; omega
    · simp only [encode]; omega

theorem decode_encode {a : Action} (hs : a ≠ .shift 0) (hr : a ≠ .reduce 0) :
    decode a.encode = a := by
  cases a with
  | shift state =>
    have : state ≠ 0 := fun h => hs (h ▸ rfl)
    simp only [encode]
    unfold decode
    rw [if_neg (by omega), if_pos (by omega)]
    simp
  | reduce rule =>
    have : rule ≠ 0 := fun h => hr (h ▸ rfl)
    simp only [encode]
    unfold decode
    rw [if_neg (by omega), if_neg (by omega)]
    simp
  | accept => rfl

end Action

end ParserGen
