import Mathlib.Data.Nat.Init
import ParserGen.Proofs.Pattern.Search

/-!
# What the program of an expression accepts

The program of an expression is laid down from its end to its beginning: the code of each part goes on
at a place that is known already. A run that begins where a part begins therefore reads a text of that
part first, and then goes on where the part goes on. By induction on the expression it follows that what
the whole program accepts is a text of the expression.

* `Expr.Matches`: the texts of an expression.
* `Runs`: the runs of a program up to where it accepts.
* `Lays`: what a part of the code does to runs that begin with it.
* `lays_compile`: **the code of an expression reads its texts.**
* `matches_of_recognized`: a pattern recognizes texts of its expression.
-/

namespace ParserGen.Pattern

/-- Texts of a language one after the other, so many that their number satisfies a condition. -/
def Rounds (L : List Char → Prop) (count : Nat → Prop) (value : List Char) : Prop :=
  ∃ rounds : List (List Char), value = rounds.flatten ∧ (∀ round ∈ rounds, L round) ∧
    count rounds.length

/-- The texts of an expression. Conditions on the place take no text. -/
def Expr.Matches : Expr → List Char → Prop
  | .empty, value => value = []
  | .char s, value => ∃ c, s.contains c = true ∧ value = [c]
  | .assertion _, value => value = []
  | .seq r s, value => ∃ first second, value = first ++ second ∧ r.Matches first ∧ s.Matches second
  | .alt r s, value => r.Matches value ∨ s.Matches value
  | .repetition least most _ r, value =>
    Rounds r.Matches (fun k => least ≤ k ∧ ∀ m ∈ most, k ≤ max least m) value
  | .group _ r, value => r.Matches value

theorem CharSet.eq_of_single {c d : Char} (h : (single c).contains d = true) : d = c := by
  simp only [single, contains, Bool.and_eq_true, decide_eq_true_eq] at h
  exact Char.le_antisymm h.2 h.1

/-- A run of a number of steps from an instruction to one that accepts, with the text that is read. -/
inductive Runs (instrs : Array Instr) : Nat → Nat → List Char → Prop where
  | accept {i : Nat} (hi : instrs[i]? = some .accept) : Runs instrs 0 i []
  | step {n i j : Nat} {read value : List Char} {instr : Instr} (hi : instrs[i]? = some instr)
      (hl : instr.Leads read j) (h : Runs instrs n j value) : Runs instrs (n + 1) i (read ++ value)

/-- What is reached and then run was run from the start. -/
theorem Program.Reached.runs {p : Program} {value rest : List Char} {i n : Nat}
    (h : p.Reached value i) (hrun : Runs p.instrs n i rest) :
    ∃ m, Runs p.instrs m p.start (value ++ rest) := by
  induction h generalizing n rest with
  | start => exact ⟨n, hrun⟩
  | step _ hi hl ih =>
    rw [List.append_assoc]
    exact ih (.step hi hl hrun)

theorem Program.Accepts.exists_runs {p : Program} {value : List Char} (h : p.Accepts value) :
    ∃ n, Runs p.instrs n p.start value := by
  obtain ⟨i, hreached, hi⟩ := h
  simpa using hreached.runs (.accept hi)

/-- The steps of a run after some of its first ones. -/
def RunsOn (instrs : Array Instr) (n next : Nat) (L : List Char → Prop) (value : List Char) : Prop :=
  ∃ first rest m, value = first ++ rest ∧ L first ∧ m ≤ n ∧ Runs instrs m next rest

variable {instrs : Array Instr} {n i next : Nat} {value : List Char} {L L' : List Char → Prop}

theorem RunsOn.le {n' : Nat} (h : RunsOn instrs n next L value) (hle : n ≤ n') :
    RunsOn instrs n' next L value := by
  obtain ⟨first, rest, m, hvalue, hfirst, hm, hrun⟩ := h
  exact ⟨first, rest, m, hvalue, hfirst, by omega, hrun⟩

theorem RunsOn.mono (h : RunsOn instrs n next L value) (hL : ∀ first, L first → L' first) :
    RunsOn instrs n next L' value := by
  obtain ⟨first, rest, m, hvalue, hfirst, hm, hrun⟩ := h
  exact ⟨first, rest, m, hvalue, hL first hfirst, hm, hrun⟩

/-- A text of one language and then a text of another. -/
def Then (L L' : List Char → Prop) (value : List Char) : Prop :=
  ∃ first second, value = first ++ second ∧ L first ∧ L' second

theorem rounds_nil {count : Nat → Prop} (h : count 0) : Rounds L count [] :=
  ⟨[], rfl, by simp, h⟩

theorem Rounds.mono {count count' : Nat → Prop} (h : Rounds L count value)
    (hcount : ∀ k, count k → count' k) : Rounds L count' value := by
  obtain ⟨rounds, hvalue, hrounds, hk⟩ := h
  exact ⟨rounds, hvalue, hrounds, hcount _ hk⟩

theorem Rounds.cons {count count' : Nat → Prop} {first : List Char} (hfirst : L first)
    (h : Rounds L count value) (hcount : ∀ k, count k → count' (k + 1)) :
    Rounds L count' (first ++ value) := by
  obtain ⟨rounds, rfl, hrounds, hk⟩ := h
  exact ⟨first :: rounds, rfl, List.forall_mem_cons.2 ⟨hfirst, hrounds⟩, hcount _ hk⟩

theorem Rounds.append {count count' count'' : Nat → Prop} {value' : List Char}
    (h : Rounds L count value) (h' : Rounds L count' value')
    (hcount : ∀ k l, count k → count' l → count'' (k + l)) : Rounds L count'' (value ++ value') := by
  obtain ⟨rounds, rfl, hrounds, hk⟩ := h
  obtain ⟨rounds', rfl, hrounds', hl⟩ := h'
  refine ⟨rounds ++ rounds', by simp, fun round hround => ?_, ?_⟩
  · rcases List.mem_append.1 hround with hround | hround
    · exact hrounds round hround
    · exact hrounds' round hround
  · rw [List.length_append]
    exact hcount _ _ hk hl

/-- After a text of the one language, a text of the other. -/
theorem RunsOn.then (h : RunsOn instrs n i L value)
    (hnext : ∀ m rest, m ≤ n → Runs instrs m i rest → RunsOn instrs m next L' rest) :
    RunsOn instrs n next (Then L L') value := by
  obtain ⟨first, rest, m, hvalue, hfirst, hm, hrun⟩ := h
  obtain ⟨second, rest', m', hrest, hsecond, hm', hrun'⟩ := hnext m rest hm hrun
  refine ⟨first ++ second, rest', m', ?_, ⟨first, second, rfl, hfirst, hsecond⟩, by omega, hrun'⟩
  rw [hvalue, hrest, List.append_assoc]

/-- A run is over where the program accepts. -/
theorem Runs.of_accept (h : Runs instrs n i value) (hi : instrs[i]? = some .accept) : value = [] := by
  cases h with
  | accept _ => rfl
  | step hi' hl _ =>
    rw [hi] at hi'
    cases hi'
    cases hl

/-- From any other instruction, a run goes on where that leads to. -/
theorem Runs.of_step {instr : Instr} (h : Runs instrs n i value) (hi : instrs[i]? = some instr)
    (hne : instr ≠ .accept) : ∃ m j read rest, n = m + 1 ∧ value = read ++ rest ∧
      instr.Leads read j ∧ Runs instrs m j rest := by
  cases h with
  | accept hi' =>
    rw [hi] at hi'
    exact absurd (Option.some.inj hi') hne
  | step hi' hl h =>
    rw [hi] at hi'
    cases hi'
    exact ⟨_, _, _, _, rfl, rfl, hl, h⟩

/-- A run from a choice goes to the one place or to the other. -/
theorem Runs.of_choice {greedy : Bool} {body exit : Nat} (h : Runs instrs n i value)
    (hi : instrs[i]? = some (Code.choice greedy body exit)) :
    ∃ m j, n = m + 1 ∧ (j = body ∨ j = exit) ∧ Runs instrs m j value := by
  obtain ⟨m, j, read, rest, rfl, rfl, hl, hgo⟩ := h.of_step hi (by simp [Code.choice])
  cases hl with
  | fork hj =>
    refine ⟨m, j, rfl, ?_, hgo⟩
    cases greedy with
    | true => simpa using hj
    | false => exact (by simpa using hj : j = exit ∨ j = body).symm

section Code

variable {code : Code} {instr : Instr} {place : Nat}

theorem size_push : (code.push instr).2.instrs.size = code.instrs.size + 1 :=
  Array.size_push ..

theorem getElem?_push_of_lt (hi : i < code.instrs.size) :
    (code.push instr).2.instrs[i]? = code.instrs[i]? := by
  unfold Code.push
  simp only
  rw [Array.getElem?_push, if_neg (Nat.ne_of_lt hi)]

theorem getElem?_push_last : (code.push instr).2.instrs[code.instrs.size]? = some instr :=
  Array.getElem?_push_size ..

theorem size_patch : (code.patch place instr).instrs.size = code.instrs.size :=
  Array.size_setIfInBounds ..

theorem getElem?_patch_of_ne (h : place ≠ i) :
    (code.patch place instr).instrs[i]? = code.instrs[i]? :=
  Array.getElem?_setIfInBounds_ne h

theorem getElem?_patch_self (h : place < code.instrs.size) :
    (code.patch place instr).instrs[place]? = some instr :=
  Array.getElem?_setIfInBounds_self_of_lt h

end Code

/-- From its place on, the code stands in the program. -/
def Within (code : Code) (place : Nat) (instrs : Array Instr) : Prop :=
  ∀ i, place ≤ i → i < code.instrs.size → instrs[i]? = code.instrs[i]?

/-- Wherever it goes on, a part of the code leaves what was laid down before as it is, and a run that
begins with the part, whatever is laid down later, reads a text of the language first. -/
structure Lays (layer : Code.Layer) (L : List Char → Prop) : Prop where
  grows : ∀ next code, code.instrs.size ≤ (layer next code).2.instrs.size
  keeps : ∀ next code i, i < code.instrs.size → (layer next code).2.instrs[i]? = code.instrs[i]?
  reads : ∀ next code instrs, Within (layer next code).2 code.instrs.size instrs →
    ∀ n value, Runs instrs n (layer next code).1 value → RunsOn instrs n next L value

namespace Lays

variable {layer layer' : Code.Layer}

theorem mono (h : Lays layer L) (hL : ∀ value, L value → L' value) : Lays layer L' :=
  ⟨h.grows, h.keeps, fun next code instrs hin n value hrun =>
    (h.reads next code instrs hin n value hrun).mono hL⟩

/-- No code. -/
theorem nil (h : L []) : Lays (fun next code => (next, code)) L :=
  ⟨fun _ _ => Nat.le_refl _, fun _ _ _ _ => rfl, fun _ _ _ _ n value hrun =>
    ⟨[], value, n, rfl, h, Nat.le_refl n, hrun⟩⟩

/-- One instruction. -/
theorem push {instr : Nat → Instr} (hne : ∀ next, instr next ≠ .accept)
    (h : ∀ next read j, (instr next).Leads read j → L read ∧ j = next) :
    Lays (fun next code => code.push (instr next)) L where
  grows next code := by
    rw [size_push]
    omega
  keeps next code i hi := getElem?_push_of_lt hi
  reads next code instrs hin n value hrun := by
    have hlast : instrs[code.instrs.size]? = some (instr next) := by
      rw [hin _ (Nat.le_refl _) (by rw [size_push]; omega), getElem?_push_last]
    obtain ⟨m, j, read, rest, rfl, rfl, hl, hgo⟩ := Runs.of_step hrun hlast (hne next)
    obtain ⟨hread, rfl⟩ := h next read j hl
    exact ⟨read, rest, m, rfl, hread, by omega, hgo⟩

/-- Code for one part that goes on at code for another. -/
theorem seq (h : Lays layer L) (h' : Lays layer' L') :
    Lays (fun next code => layer (layer' next code).1 (layer' next code).2) (Then L L') where
  grows next code := Nat.le_trans (h'.grows next code) (h.grows _ _)
  keeps next code i hi := by
    have hle := h'.grows next code
    rw [h.keeps _ _ i (by omega), h'.keeps next code i hi]
  reads next code instrs hin n value hrun := by
    have hle := h'.grows next code
    refine (h.reads _ _ instrs (fun i hi => hin i (by omega)) n value hrun).then ?_
    intro m rest _ hrun'
    refine h'.reads next code instrs (fun i hi hlt => ?_) m rest hrun'
    have hle' := h.grows (layer' next code).1 (layer' next code).2
    rw [hin i hi (by omega), h.keeps _ _ i hlt]

/-- A fork behind code for a part: to the code, or past it. -/
theorem orNone (h : Lays layer L) (greedy : Bool) :
    Lays (fun next code => (layer next code).2.push (Code.choice greedy (layer next code).1 next))
      fun value => L value ∨ value = [] where
  grows next code := by
    have hle := h.grows next code
    rw [size_push]
    omega
  keeps next code i hi := by
    have hle := h.grows next code
    rw [getElem?_push_of_lt (by omega), h.keeps next code i hi]
  reads next code instrs hin n value hrun := by
    have hle := h.grows next code
    have hfork : instrs[(layer next code).2.instrs.size]? =
        some (Code.choice greedy (layer next code).1 next) := by
      rw [hin _ hle (by rw [size_push]; omega), getElem?_push_last]
    have hbelow : Within (layer next code).2 code.instrs.size instrs := fun i hi hlt => by
      rw [hin i hi (by rw [size_push]; omega), getElem?_push_of_lt hlt]
    obtain ⟨m, j, rfl, rfl | rfl, hgo⟩ := Runs.of_choice hrun hfork
    · have hreads := h.reads next code instrs hbelow m value hgo
      exact (hreads.le (by omega)).mono fun first => Or.inl
    · exact ⟨[], value, m, rfl, Or.inr rfl, by omega, hgo⟩

/-- A fork behind code for two parts. -/
theorem alt (h : Lays layer L) (h' : Lays layer' L') :
    Lays (fun next code => (layer' next (layer next code).2).2.push
      (.fork [(layer next code).1, (layer' next (layer next code).2).1]))
      fun value => L value ∨ L' value where
  grows next code := by
    have hle := h.grows next code
    have hle' := h'.grows next (layer next code).2
    rw [size_push]
    omega
  keeps next code i hi := by
    have hle := h.grows next code
    have hle' := h'.grows next (layer next code).2
    rw [getElem?_push_of_lt (by omega), h'.keeps _ _ i (by omega), h.keeps _ _ i hi]
  reads next code instrs hin n value hrun := by
    have hle := h.grows next code
    have hle' := h'.grows next (layer next code).2
    have hfork : instrs[(layer' next (layer next code).2).2.instrs.size]? =
        some (.fork [(layer next code).1, (layer' next (layer next code).2).1]) := by
      rw [hin _ (by omega) (by rw [size_push]; omega), getElem?_push_last]
    have hsecond : Within (layer' next (layer next code).2).2 code.instrs.size instrs :=
      fun i hi hlt => by rw [hin i hi (by rw [size_push]; omega), getElem?_push_of_lt hlt]
    have hfirst : Within (layer next code).2 code.instrs.size instrs := fun i hi hlt => by
      rw [hsecond i hi (by omega), h'.keeps _ _ i hlt]
    -- the fork reads nothing, and the run goes on in one of the two parts
    obtain ⟨m, j, read, rest, rfl, rfl, hl, hgo⟩ := Runs.of_step hrun hfork (by simp)
    obtain ⟨rfl, hj⟩ : read = [] ∧ (j = (layer next code).1 ∨
        j = (layer' next (layer next code).2).1) := by
      cases hl with
      | fork hj => exact ⟨rfl, by simpa using hj⟩
    rcases hj with rfl | rfl
    · have hreads := h.reads next code instrs hfirst m rest hgo
      exact (hreads.le (by omega)).mono fun first => Or.inl
    · have hreads := h'.reads next (layer next code).2 instrs
        (fun i hi => hsecond i (by omega)) m rest hgo
      exact (hreads.le (by omega)).mono fun first => Or.inr

/-- A run from a fork between a part that comes back to it and the exit reads any number of rounds. -/
theorem loop {fork start exit : Nat} {greedy : Bool} {instrs : Array Instr}
    (hfork : instrs[fork]? = some (Code.choice greedy start exit))
    (hbody : ∀ n value, Runs instrs n start value → RunsOn instrs n fork L value) (n : Nat)
    (value : List Char) (hrun : Runs instrs n fork value) :
    RunsOn instrs n exit (Rounds L fun _ => True) value := by
  induction n using Nat.strong_induction_on generalizing value with
  | _ n ih =>
    obtain ⟨m, j, rfl, rfl | rfl, hgo⟩ := Runs.of_choice hrun hfork
    · have hthen := (hbody m value hgo).then fun k rest hk hrest => ih k (by omega) rest hrest
      refine (hthen.le (by omega)).mono ?_
      rintro value ⟨first, second, rfl, hfirst, hsecond⟩
      exact hsecond.cons hfirst fun _ _ => trivial
    · exact ⟨[], value, m, rfl, rounds_nil trivial, by omega, hgo⟩

/-- A fork in front of code for a part that comes back to it. -/
theorem cycle (h : Lays layer L) (greedy : Bool) (first : Nat → Nat → Nat) {L' : List Char → Prop}
    (hfirst : ∀ instrs n fork start exit value,
      (∀ n value, Runs instrs n start value → RunsOn instrs n fork L value) →
      (∀ n value, Runs instrs n fork value → RunsOn instrs n exit (Rounds L fun _ => True) value) →
      Runs instrs n (first fork start) value → RunsOn instrs n exit L' value) :
    Lays (fun next code =>
      let forked := (code.push (.fork [])).2
      let body := layer code.instrs.size forked
      (first code.instrs.size body.1,
        body.2.patch code.instrs.size (Code.choice greedy body.1 next))) L' where
  grows next code := by
    have hle := h.grows code.instrs.size (code.push (.fork [])).2
    rw [size_push] at hle
    rw [size_patch]
    omega
  keeps next code i hi := by
    rw [getElem?_patch_of_ne (by omega), h.keeps _ _ i (by rw [size_push]; omega),
      getElem?_push_of_lt hi]
  reads next code instrs hin n value hrun := by
    have hle := h.grows code.instrs.size (code.push (.fork [])).2
    rw [size_push] at hle
    have hfork : instrs[code.instrs.size]? = some (Code.choice greedy
        (layer code.instrs.size (code.push (.fork [])).2).1 next) := by
      rw [hin _ (Nat.le_refl _) (by rw [size_patch]; omega), getElem?_patch_self (by omega)]
    -- the fork is patched, the code for the part is not
    have hbelow : Within (layer code.instrs.size (code.push (.fork [])).2).2
        (code.push (.fork [])).2.instrs.size instrs := by
      intro i hi hlt
      rw [size_push] at hi
      rw [hin i (by omega) (by rw [size_patch]; exact hlt), getElem?_patch_of_ne (by omega)]
    have hbody := h.reads code.instrs.size (code.push (.fork [])).2 instrs hbelow
    exact hfirst instrs n _ _ next value hbody (loop hfork hbody) hrun

theorem plus (h : Lays layer L) (greedy : Bool) :
    Lays (Code.plus greedy layer) (Rounds L fun k => 1 ≤ k) := by
  refine cycle h greedy (fun _ start => start) ?_
  intro instrs n fork start exit value hbody hloop hrun
  refine ((hbody n value hrun).then fun m rest _ => hloop m rest).mono ?_
  rintro value ⟨first, second, rfl, hfirst, hsecond⟩
  exact hsecond.cons hfirst fun _ _ => by omega

theorem star (h : Lays layer L) (greedy mayBeEmpty : Bool) :
    Lays (Code.star greedy mayBeEmpty layer) (Rounds L fun _ => True) := by
  cases mayBeEmpty with
  | true =>
    refine ((h.plus greedy).orNone greedy).mono ?_
    rintro value (hrounds | rfl)
    · exact hrounds.mono fun _ _ => trivial
    · exact rounds_nil trivial
  | false =>
    refine cycle h greedy (fun fork _ => fork) ?_
    intro instrs n fork start exit value _ hloop hrun
    exact hloop n value hrun

theorem times (h : Lays layer L) (n : Nat) : Lays (Code.times layer n) (Rounds L (· = n)) := by
  induction n with
  | zero => exact nil (rounds_nil rfl)
  | succ n ih =>
    refine (h.seq ih).mono ?_
    rintro value ⟨first, second, rfl, hfirst, hsecond⟩
    exact hsecond.cons hfirst fun _ hk => by omega

theorem upTo (h : Lays layer L) (greedy : Bool) (n : Nat) :
    Lays (Code.upTo greedy layer n) (Rounds L (· ≤ n)) := by
  induction n with
  | zero => exact nil (rounds_nil (Nat.le_refl 0))
  | succ n ih =>
    refine ((h.seq ih).orNone greedy).mono ?_
    rintro value (⟨first, second, rfl, hfirst, hsecond⟩ | rfl)
    · exact hsecond.cons hfirst fun _ hk => by omega
    · exact rounds_nil (Nat.zero_le _)

/-- Code that depends on the groups so far, and adds to these. -/
theorem withGroups {layers : Code → Code.Layer} (h : ∀ code, Lays (layers code) L)
    (groups : Code → Array String) :
    Lays (fun next code => layers code next { code with groups := groups code }) L :=
  ⟨fun next code => (h code).grows next { code with groups := groups code },
    fun next code => (h code).keeps next { code with groups := groups code },
    fun next code => (h code).reads next { code with groups := groups code }⟩

end Lays

/-- **The code of an expression reads its texts.** -/
theorem lays_compile (r : Expr) : Lays r.compile r.Matches := by
  have hmark : ∀ slot, Lays (fun next code => code.push (.mark slot next)) (· = []) := fun slot =>
    Lays.push (by simp) fun next read j hl => by
      cases hl with
      | mark => exact ⟨rfl, rfl⟩
  induction r with
  | empty => exact Lays.nil rfl
  | char s =>
    refine Lays.push (by simp) fun next read j hl => ?_
    cases hl with
    | @char _ c _ hc => exact ⟨⟨c, hc, rfl⟩, rfl⟩
  | assertion a =>
    refine Lays.push (by simp) fun next read j hl => ?_
    cases hl with
    | assertion => exact ⟨rfl, rfl⟩
  | seq r s ihr ihs => exact ihr.seq ihs
  | alt r s ihr ihs => exact ihr.alt ihs
  | repetition least most greedy r ih =>
    -- the rounds that must be, and behind them those that may be
    cases most with
    | some most =>
      refine ((ih.times least).seq (ih.upTo greedy (most - least))).mono ?_
      rintro value ⟨first, second, rfl, hfirst, hsecond⟩
      refine hfirst.append hsecond fun k l hk hl => ⟨by omega, ?_⟩
      rintro m ⟨⟩
      omega
    | none =>
      cases least with
      | zero =>
        exact (ih.star greedy r.mayBeEmpty).mono fun value h =>
          h.mono fun k _ => ⟨Nat.zero_le k, by simp⟩
      | succ least =>
        refine ((ih.times least).seq (ih.plus greedy)).mono ?_
        rintro value ⟨first, second, rfl, hfirst, hsecond⟩
        exact hfirst.append hsecond fun k l hk hl => ⟨by omega, by simp⟩
  | group name r ih =>
    refine (Lays.withGroups (fun code => ((hmark (2 * code.groups.size)).seq
      (ih.seq (hmark (2 * code.groups.size + 1))))) fun code => code.groups.push name).mono ?_
    rintro value ⟨_, _, rfl, rfl, _, _, rfl, hr, rfl⟩
    simpa [Expr.Matches] using hr

/-- **The program of an expression accepts its texts.** -/
theorem matches_of_accepts {r : Expr} {value : List Char} (h : r.program.Accepts value) :
    r.Matches value := by
  obtain ⟨n, hrun⟩ := h.exists_runs
  have hlays := lays_compile r
  obtain ⟨first, rest, m, rfl, hfirst, -, hrest⟩ := hlays.reads 0
    (Code.push { instrs := #[], groups := #[] } .accept).2 r.program.instrs (fun i _ _ => rfl) n _ hrun
  -- the run goes on at the instruction laid down first, which accepts
  have haccept : r.program.instrs[0]? = some .accept :=
    hlays.keeps 0 (Code.push { instrs := #[], groups := #[] } .accept).2 0
      (by rw [size_push]; exact Nat.succ_pos _)
  obtain rfl := hrest.of_accept haccept
  simpa using hfirst

/-- A token that a pattern recognizes is a text of its expression, if a match can begin at the start of
the text only. -/
theorem matches_of_recognized {source : String} {r : Expr} {p : Pattern} (hr : parse? source = some r)
    (hp : compile? source = some p) (hfloat : r.program.isFloating = false) {text : List Char} {n : Nat}
    (h : (Recognizer.ofPattern p).matchLength? text = some n) : r.Matches (text.take n) := by
  unfold compile? at hp
  rw [hr] at hp
  obtain rfl := Option.some.inj hp
  exact matches_of_accepts (accepts_of_matchLength? hfloat h)

end ParserGen.Pattern
