import ParserGen.Lexer.Basic

/-!
# What a search finds

A thread of a program has read the text between the place where it began and the place where it stands.
The instructions it has passed on the way read that text. So what a search finds is a part of the text
that the program reads from its start to where it accepts.

* `Program.Reached`: the instructions that are reached from the start by reading a text.
* `follow_threads`, `advance_threads`: the threads stand where the text read so far has brought them.
* `search_accepts`: **a search finds a part of the text that the program accepts.**
-/

namespace ParserGen.Pattern

/-- Reading a text, an instruction leads to another one. -/
inductive Instr.Leads : Instr → List Char → Nat → Prop where
  | char {s : CharSet} {c : Char} {j : Nat} (hc : s.contains c = true) : Leads (.char s j) [c] j
  | fork {targets : List Nat} {j : Nat} (hj : j ∈ targets) : Leads (.fork targets) [] j
  | assertion {a : Assertion} {j : Nat} : Leads (.assertion a j) [] j
  | mark {slot j : Nat} : Leads (.mark slot j) [] j

/-- From the start of the program, reading a text leads to an instruction. -/
inductive Program.Reached (p : Program) : List Char → Nat → Prop where
  | start : Reached p [] p.start
  | step {value read : List Char} {i j : Nat} {instr : Instr} (h : Reached p value i)
      (hi : p.instrs[i]? = some instr) (hl : instr.Leads read j) : Reached p (value ++ read) j

/-- An instruction that reads nothing leads on from where it is reached. -/
theorem Program.Reached.pass {p : Program} {value : List Char} {i j : Nat} {instr : Instr}
    (h : p.Reached value i) (hi : p.instrs[i]? = some instr) (hl : instr.Leads [] j) :
    p.Reached value j := by
  simpa using h.step hi hl

/-- Reading the text leads to where the program accepts. -/
def Program.Accepts (p : Program) (value : List Char) : Prop :=
  ∃ i, p.Reached value i ∧ p.instrs[i]? = some .accept

/-- A thread that began in the text `read`, whose first character is at `origin`, has read the rest of
it. Unless the program may begin anywhere, it began with the text. -/
def Stands (p : Pattern) (origin : Nat) (read : List Char) (t : Thread) : Prop :=
  ∃ skipped value, read = skipped ++ value ∧ t.start = origin + skipped.length ∧
    p.program.Reached value t.place ∧ (p.floating = false → skipped = [])

/-- The match is a part of the text, whose first character is at `origin`, that the program accepts.
Unless the program may begin anywhere, the text begins with it. -/
def Finds (p : Pattern) (origin : Nat) (text : List Char) (m : Match) : Prop :=
  ∃ skipped value rest, text = skipped ++ value ++ rest ∧ m.start = origin + skipped.length ∧
    m.stop = m.start + value.length ∧ p.program.Accepts value ∧
    (p.floating = false → skipped = [])

variable {p : Pattern} {origin pos : Nat} {read : List Char}

/-- Where a thread stands depends on its place and its start. -/
theorem Stands.moved {t t' : Thread} (h : p.Stands origin read t) (hstart : t'.start = t.start)
    (hplace : ∀ value, p.program.Reached value t.place → p.program.Reached value t'.place) :
    p.Stands origin read t' := by
  obtain ⟨skipped, value, hread, ht, hreached, hfloat⟩ := h
  exact ⟨skipped, value, hread, hstart.trans ht, hplace value hreached, hfloat⟩

/-- **Threads that follow the program without reading stay where the text has brought them.** -/
theorem follow_threads (holds : Assertion → Bool) {fuel : Nat} {todo : List Thread} {f : Frontier}
    (htodo : ∀ t ∈ todo, p.Stands origin read t) (hf : ∀ t ∈ f.threads, p.Stands origin read t) :
    ∀ t ∈ (p.program.follow holds pos fuel todo f).threads, p.Stands origin read t := by
  induction fuel generalizing todo f with
  | zero => exact hf
  | succ fuel ih =>
    cases todo with
    | nil => exact hf
    | cons t todo =>
      have ht : p.Stands origin read t := htodo t List.mem_cons_self
      have hrest : ∀ u ∈ todo, p.Stands origin read u := fun u hu =>
        htodo u (List.mem_cons_of_mem t hu)
      rw [Program.follow]
      by_cases hseen : f.seen.contains t.place = true
      · rw [if_pos hseen]
        exact ih hrest hf
      rw [if_neg hseen]
      simp only
      cases hi : p.program.instrs[t.place]? with
      | none => exact ih hrest hf
      | some instr =>
        -- moving on reads nothing, and a thread that has to read or to accept waits
        cases instr with
        | fork targets =>
          refine ih (fun u hu => ?_) hf
          rcases List.mem_append.1 hu with hu | hu
          · obtain ⟨j, hj, rfl⟩ := List.mem_map.1 hu
            exact ht.moved rfl fun value h => h.pass hi (.fork hj)
          · exact hrest u hu
        | assertion a next =>
          simp only
          by_cases ha : holds a = true
          · rw [if_pos ha]
            refine ih (List.forall_mem_cons.2 ⟨?_, hrest⟩) hf
            exact ht.moved rfl fun value h => h.pass hi .assertion
          · rw [if_neg ha]
            exact ih hrest hf
        | mark slot next =>
          refine ih (List.forall_mem_cons.2 ⟨?_, hrest⟩) hf
          exact ht.moved rfl fun value h => h.pass hi .mark
        | char s next => exact ih hrest (List.forall_mem_cons.2 ⟨ht, hf⟩)
        | accept => exact ih hrest (List.forall_mem_cons.2 ⟨ht, hf⟩)

theorem spawn_threads (holds : Assertion → Bool) {t : Thread} {f : Frontier}
    (ht : p.Stands origin read t) (hf : ∀ u ∈ f.threads, p.Stands origin read u) :
    ∀ u ∈ (p.program.spawn holds pos t f).threads, p.Stands origin read u :=
  follow_threads holds (by simpa using ht) hf

/-- **Threads that read a character have read one more**, and the one that accepts has read what was
read before. -/
theorem advance_threads (c : Char) (after : Option Char) (pos : Nat) {threads : List Thread}
    {f : Frontier}
    (ht : ∀ t ∈ threads, p.Stands origin read t)
    (hf : ∀ t ∈ f.threads, p.Stands origin (read ++ [c]) t) :
    (∀ t ∈ (p.program.advance c after pos threads f).1, p.Stands origin read t ∧
      p.program.instrs[t.place]? = some .accept) ∧
    ∀ t ∈ (p.program.advance c after pos threads f).2.threads, p.Stands origin (read ++ [c]) t := by
  induction threads generalizing f with
  | nil => exact ⟨by simp [Program.advance], hf⟩
  | cons t rest ih =>
    obtain ⟨ht, hrest⟩ := List.forall_mem_cons.1 ht
    rw [Program.advance]
    cases hi : p.program.instrs[t.place]? with
    | none => exact ih hrest hf
    | some instr =>
      cases instr with
      | accept =>
        -- the threads behind one that accepts do not count
        refine ⟨fun u hu => ?_, hf⟩
        obtain rfl : t = u := Option.some.inj hu
        exact ⟨ht, hi⟩
      | char s next =>
        simp only
        by_cases hc : s.contains c = true
        · rw [if_pos hc]
          refine ih hrest (spawn_threads _ ?_ hf)
          obtain ⟨skipped, value, hread, hstart, hreached, hfloat⟩ := ht
          exact ⟨skipped, value ++ [c], by rw [hread, List.append_assoc], hstart,
            hreached.step hi (.char hc), hfloat⟩
        · rw [if_neg hc]
          exact ih hrest hf
      | fork targets => exact ih hrest hf
      | assertion a next => exact ih hrest hf
      | mark slot next => exact ih hrest hf

/-- A thread that begins here has read nothing. -/
theorem enter_threads (before after : Option Char) (begins : Bool) {f : Frontier}
    (hpos : pos = origin + read.length) (hbegins : begins = true → p.floating = false → read = [])
    (hf : ∀ t ∈ f.threads, p.Stands origin read t) :
    ∀ t ∈ (p.enter before after pos begins f).threads, p.Stands origin read t := by
  unfold enter
  by_cases h : begins = true
  · rw [if_pos h]
    refine spawn_threads _ ⟨read, [], by simp, hpos, .start, hbegins h⟩ hf
  · rw [if_neg h]
    exact hf

/-- A thread that accepts has found what it has read. -/
theorem Stands.finds {t : Thread} {rest : List Char} (h : p.Stands origin read t)
    (hi : p.program.instrs[t.place]? = some .accept) (hpos : pos = origin + read.length) :
    p.Finds origin (read ++ rest) (matchOf pos t) := by
  obtain ⟨skipped, value, hread, hstart, hreached, hfloat⟩ := h
  refine ⟨skipped, value, rest, by rw [hread], hstart, ?_, ⟨t.place, hreached, hi⟩, hfloat⟩
  unfold matchOf
  simp only [hpos, hread, hstart, List.length_append]
  omega

theorem searchFrom_finds (read : List Char) {text : List Char} {before : Option Char} {begins : Bool}
    {f : Frontier} {best : Option Match} {m : Match} (hpos : pos = origin + read.length)
    (hbegins : begins = true → p.floating = false → read = [])
    (hf : ∀ t ∈ f.threads, p.Stands origin read t)
    (hbest : ∀ b, best = some b → p.Finds origin (read ++ text) b)
    (h : p.searchFrom text before pos begins f best = some m) : p.Finds origin (read ++ text) m := by
  induction text generalizing read before pos begins f best with
  | nil =>
    rw [searchFrom] at h
    rcases Option.or_eq_some_iff.1 h with h | ⟨-, h⟩
    · obtain ⟨t, ht, rfl⟩ := Option.map_eq_some_iff.1 h
      have hi := List.find?_some ht
      have hstands := enter_threads before none (begins && best.isNone) hpos
        (fun hb => hbegins (Bool.and_eq_true_iff.1 hb).1) hf t
        (List.mem_reverse.1 (List.mem_of_find?_eq_some ht))
      exact hstands.finds (by simpa using hi) hpos
    · exact hbest m h
  | cons c text ih =>
    rw [searchFrom] at h
    have hthreads := enter_threads before (c :: text).head? (begins && best.isNone) hpos
      (fun hb => hbegins (Bool.and_eq_true_iff.1 hb).1) hf
    generalize p.enter before (c :: text).head? pos (begins && best.isNone) f = f' at h hthreads
    have hempty : ∀ t ∈ Frontier.empty.threads, p.Stands origin (read ++ [c]) t := by
      simp [Frontier.empty]
    have hadvance := advance_threads c text.head? (pos + 1)
      (fun t ht => hthreads t (List.mem_reverse.1 ht)) hempty
    simp only at h
    generalize p.program.advance c text.head? (pos + 1) f'.threads.reverse .empty = step at h hadvance
    obtain ⟨accepted, next⟩ := step
    -- a thread that accepts has read what is in front of it
    have hbest' : ∀ b, (accepted.map (matchOf pos)).or best = some b →
        p.Finds origin (read ++ c :: text) b := by
      intro b hb
      rcases Option.or_eq_some_iff.1 hb with hb | ⟨-, hb⟩
      · obtain ⟨t, ht, rfl⟩ := Option.map_eq_some_iff.1 hb
        obtain ⟨hstands, hi⟩ := hadvance.1 t ht
        exact hstands.finds hi hpos
      · exact hbest b hb
    have hsplit : read ++ c :: text = read ++ [c] ++ text := by simp
    simp only at h
    split at h
    · -- the search ends with the best match so far
      exact hbest' m h
    · rw [hsplit] at hbest' ⊢
      refine ih (read ++ [c]) ?_ ?_ hadvance.2 hbest' h
      · simp only [List.length_append, List.length_singleton, hpos]
        omega
      · intro hb hfloat
        rw [hfloat] at hb
        cases hb

/-- **A search finds a part of the text that the program accepts.** -/
theorem search_accepts {before : Option Char} {text : List Char} {m : Match}
    (h : p.search before text pos = some m) : p.Finds pos text m :=
  searchFrom_finds [] rfl (fun _ _ => rfl) (by simp [Frontier.empty]) (by simp) h

/-- A token that a pattern recognizes is one that the program accepts, if a match can begin at the start
of the text only. -/
theorem accepts_of_matchLength? {text : List Char} {n : Nat} (hfloat : p.floating = false)
    (h : (Recognizer.ofPattern p).matchLength? text = some n) : p.program.Accepts (text.take n) := by
  obtain ⟨m, hm, rfl⟩ := Option.map_eq_some_iff.1 h
  obtain ⟨skipped, value, rest, htext, hstart, hstop, haccepts, hskipped⟩ := search_accepts hm
  obtain rfl : skipped = [] := hskipped hfloat
  have hlen : m.stop = value.length := by
    rw [hstop, hstart]
    simp
  rwa [htext, hlen, List.nil_append, List.take_left]

end ParserGen.Pattern
