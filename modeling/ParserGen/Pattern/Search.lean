import ParserGen.IndexSet
import ParserGen.Pattern.Parser
import ParserGen.Pattern.Program

/-!
# Searching

The threads of a program run over the text side by side, one character at a time. At each place of
the text at most one thread stands at an instruction: the preferred one. When a thread accepts, the
threads that are less preferred are dropped; those that are more preferred go on and may accept a
longer text. A thread that begins earlier is preferred to one that begins later, so the first match
from the left is found.

* `search_stop_le`: a match lies within the text.
-/

namespace ParserGen

/-- A compiled pattern. -/
structure Pattern where
  program : Pattern.Program
  /-- Whether a match may begin elsewhere than at the start of the text. -/
  floating : Bool

namespace Pattern

/-- A thread of a program. -/
structure Thread where
  /-- The instruction at which it stands. -/
  place : Nat
  /-- Where in the text it began. -/
  start : Nat
  /-- The places in the text noted so far, by slot. -/
  marks : Array (Option Nat)
deriving Inhabited

/-- The threads that wait for the next character. -/
structure Frontier where
  /-- The threads, the least preferred one first. -/
  threads : List Thread
  /-- The instructions that were reached at this place of the text. -/
  seen : IndexSet

/-- No thread waits. -/
def Frontier.empty : Frontier :=
  { threads := [], seen := ∅ }

/-- A part of the text that matches. -/
structure Match where
  start : Nat
  /-- The place after the last character. -/
  stop : Nat
  marks : Array (Option Nat)
deriving Inhabited

namespace Program

variable (p : Program)

/-- Lets threads run, the first one preferred, until each waits for a character or accepts. An
instruction that was reached before is not run again. -/
def follow (holds : Assertion → Bool) (pos : Nat) : Nat → List Thread → Frontier → Frontier
  | 0, _, f => f
  | _ + 1, [], f => f
  | fuel + 1, t :: todo, f =>
    if f.seen.contains t.place then follow holds pos fuel todo f
    else
      let f := { f with seen := f.seen.insert t.place }
      match p.instrs[t.place]? with
      | some (.fork targets) =>
        follow holds pos fuel (targets.map (fun place => { t with place }) ++ todo) f
      | some (.assertion a next) =>
        if holds a then follow holds pos fuel ({ t with place := next } :: todo) f
        else follow holds pos fuel todo f
      | some (.mark slot next) =>
        let t := { t with place := next, marks := t.marks.setIfInBounds slot (some pos) }
        follow holds pos fuel (t :: todo) f
      | some _ => follow holds pos fuel todo { f with threads := t :: f.threads }
      | none => follow holds pos fuel todo f

/-- Adds a thread. Every instruction is run at most once and starts at most two threads. -/
def spawn (holds : Assertion → Bool) (pos : Nat) (t : Thread) (f : Frontier) : Frontier :=
  p.follow holds pos (2 * p.instrs.size + 2) [t] f

/-- A thread at the beginning of the program. -/
def fresh (pos : Nat) : Thread :=
  { place := p.start, start := pos, marks := Array.replicate (2 * p.groups.size) none }

/-- Lets the threads read a character, in order of preference, up to the first one that accepts.
`after` is the character that follows. -/
def advance (c : Char) (after : Option Char) (pos : Nat) :
    List Thread → Frontier → Option Thread × Frontier
  | [], f => (none, f)
  | t :: rest, f =>
    match p.instrs[t.place]? with
    | some .accept => (some t, f)
    | some (.char s next) =>
      if s.contains c then
        advance c after pos rest
          (p.spawn (Assertion.holds (some c) after) pos { t with place := next } f)
      else advance c after pos rest f
    | _ => advance c after pos rest f

/-- The most preferred thread that accepts. -/
def accepting? (threads : List Thread) : Option Thread :=
  threads.find? fun t => p.instrs[t.place]? == some .accept

/-- Whether the program can go on from its beginning at a place other than the start of the text. -/
def isFloating : Bool :=
  !(p.spawn (· != .textStart) 0 (p.fresh 0) .empty).threads.isEmpty

end Program

/-- The pattern that a text stands for. -/
def compile? (text : String) : Option Pattern :=
  (parse? text).map fun r =>
    let program := r.program
    { program, floating := program.isFloating }

/-- The match of a thread that accepts at a place. -/
def matchOf (pos : Nat) (t : Thread) : Match :=
  { start := t.start, stop := pos, marks := t.marks }

/-- The frontier with a thread that begins here, less preferred than all others, if a match may begin
here. -/
def enter (p : Pattern) (before after : Option Char) (pos : Nat) (begins : Bool) (f : Frontier) :
    Frontier :=
  if begins then p.program.spawn (Assertion.holds before after) pos (p.program.fresh pos) f else f

/-- Runs the program from a place of the text on. `before` is the character before that place, `f`
holds the threads that reached it, `begins` tells whether a match may begin there, and `best` is the
match found so far. -/
def searchFrom (p : Pattern) :
    List Char → Option Char → Nat → Bool → Frontier → Option Match → Option Match
  | text, before, pos, begins, f, best =>
    let f := p.enter before text.head? pos (begins && best.isNone) f
    match text with
    | [] => ((p.program.accepting? f.threads.reverse).map (matchOf pos)).or best
    | c :: rest =>
      let (accepted, next) :=
        p.program.advance c rest.head? (pos + 1) f.threads.reverse .empty
      let best := (accepted.map (matchOf pos)).or best
      if next.threads.isEmpty && (best.isSome || !p.floating) then best
      else searchFrom p rest (some c) (pos + 1) p.floating next best

/-- The first match in a text that begins at place `pos`, after the character `before`. -/
def search (p : Pattern) (before : Option Char) (text : List Char) (pos : Nat) : Option Match :=
  p.searchFrom text before pos true .empty none

theorem searchFrom_stop_le (p : Pattern) (text : List Char) (before : Option Char) (pos : Nat)
    (begins : Bool) (f : Frontier) (best : Option Match) {m : Match}
    (hbest : ∀ b, best = some b → b.stop ≤ pos + text.length)
    (h : p.searchFrom text before pos begins f best = some m) : m.stop ≤ pos + text.length := by
  induction text generalizing before pos begins f best with
  | nil =>
    simp only [searchFrom] at h
    rcases Option.or_eq_some_iff.1 h with h | ⟨_, h⟩
    · obtain ⟨t, _, rfl⟩ := Option.map_eq_some_iff.1 h
      simp [matchOf]
    · exact hbest m h
  | cons c rest ih =>
    simp only [searchFrom] at h
    have hbest' : ∀ (accepted : Option Thread) b, (accepted.map (matchOf pos)).or best = some b →
        b.stop ≤ pos + (c :: rest).length := by
      intro accepted b hb
      rcases Option.or_eq_some_iff.1 hb with hb | ⟨_, hb⟩
      · obtain ⟨t, _, rfl⟩ := Option.map_eq_some_iff.1 hb
        simp [matchOf]
      · exact hbest b hb
    split at h
    · exact hbest' _ m h
    · have := ih (some c) (pos + 1) p.floating _ _ (fun b hb => by
        have := hbest' _ b hb
        simp only [List.length_cons] at this
        omega) h
      simp only [List.length_cons]
      omega

/-- A match lies within the text. -/
theorem search_stop_le {p : Pattern} {before : Option Char} {text : List Char} {pos : Nat}
    {m : Match} (h : p.search before text pos = some m) : m.stop ≤ pos + text.length :=
  p.searchFrom_stop_le text before pos true .empty none (by simp) h

/-- The part of a match that a named group matched, if the group took part. -/
def group? (p : Pattern) (name : String) (m : Match) : Option (Nat × Nat) := do
  let k ← p.program.groups.idxOf? name
  let start ← (m.marks[2 * k]?).join
  let stop ← (m.marks[2 * k + 1]?).join
  return (start, stop)

/-- The matches in a text from left to right, from place `pos` on. A match is not reported if it is
empty and stands where the last one ended; the search then goes on one character later. -/
def findAllFrom (p : Pattern) : Nat → Option Char → List Char → Nat → Option Nat → List Match
  | 0, _, _, _, _ => []
  | fuel + 1, before, text, pos, lastStop =>
    match p.search before text pos with
    | none => []
    | some m =>
      if m.start = m.stop ∧ lastStop = some m.stop then
        match text with
        | [] => []
        | c :: rest => findAllFrom p fuel (some c) rest (pos + 1) lastStop
      else
        let skipped := text.take (m.stop - pos)
        m :: findAllFrom p fuel (skipped.getLast?.or before) (text.drop (m.stop - pos)) m.stop
          (some m.stop)

/-- The matches in a text from left to right. Every second step at least moves on by a character. -/
def findAll (p : Pattern) (text : List Char) : List Match :=
  p.findAllFrom (2 * text.length + 2) none text 0 none

end Pattern

end ParserGen
