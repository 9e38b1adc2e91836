import ParserGen.Proofs.Pattern.Exploration

/-!
# Searching finds the preferred match

All threads of a program run side by side, and at each place of the text an instruction is run for one
thread only, the preferred one. The match that is found is still the one that the most preferred thread
comes to on its own, if it comes to one at all: a thread that is not run again at an instruction could
have come to a match only where a more preferred one comes to a match too. A search that may begin
anywhere therefore finds the match that begins first.

* `Live`: the instructions from which the program can read on to where it accepts.
* `best`: the match that a single thread comes to.
* `findSome?_yields`: **threads side by side come to what the first of them comes to on its own.**
* `best_of_moves`: a thread comes to what those come to that it becomes.
* `search_eq_leftmost`: **a search finds the match that begins first.**
-/

namespace ParserGen.Pattern

theorem findSome?_cons_or {α β : Type} (f : α → Option β) (a : α) (l : List α) :
    (a :: l).findSome? f = (f a).or (l.findSome? f) := by
  rw [List.findSome?_cons]
  cases f a <;> rfl

namespace Program

/-- From an instruction, the program can read on to where it accepts. -/
inductive Live (p : Program) : List Char → Option Char → Nat → Prop
  | accept {text : List Char} {before : Option Char} {i : Nat} (h : p.instrs[i]? = some .accept) :
      Live p text before i
  | char {s : CharSet} {next i : Nat} {c : Char} {rest : List Char} {before : Option Char}
      (h : p.instrs[i]? = some (.char s next)) (hc : s.contains c = true)
      (hl : Live p rest (some c) next) : Live p (c :: rest) before i
  | pass {text : List Char} {before : Option Char} {i j : Nat} {js : List Nat}
      (h : p.exits? (Assertion.holds before text.head?) i = some js) (hj : j ∈ js)
      (hl : Live p text before j) : Live p text before i

/-- What comes of a thread that waits, given the next character and what comes of threads behind it. -/
def resume (p : Program) (pos : Nat) (onward : Option (Char × (Thread → Option Match))) (t : Thread) :
    Option Match :=
  match p.instrs[t.place]? with
  | some .accept => some (matchOf pos t)
  | some (.char s next) =>
    match onward with
    | some (c, go) => if s.contains c then go { t with place := next } else none
    | none => none
  | _ => none

/-- The match that a thread comes to on its own. Of the threads it becomes, the first one that comes to a
match decides. -/
def best (p : Program) : List Char → Option Char → Nat → Thread → Option Match
  | [], before, pos, t =>
    (p.spawn (Assertion.holds before none) pos t .empty).threads.reverse.findSome? (p.resume pos none)
  | c :: rest, before, pos, t =>
    (p.spawn (Assertion.holds before (some c)) pos t .empty).threads.reverse.findSome?
      (p.resume pos (some (c, p.best rest (some c) (pos + 1))))

/-- The match that a thread comes to that waits at a place of the text. -/
def yields (p : Program) : List Char → Nat → Thread → Option Match
  | [], pos => p.resume pos none
  | c :: rest, pos => p.resume pos (some (c, p.best rest (some c) (pos + 1)))

variable {p : Program} {text rest : List Char} {before : Option Char} {pos : Nat} {t u : Thread} {c : Char}

theorem best_eq (p : Program) (text : List Char) (before : Option Char) (pos : Nat) (t : Thread) :
    p.best text before pos t =
      (p.spawn (Assertion.holds before text.head?) pos t .empty).threads.reverse.findSome?
        (p.yields text pos) := by
  cases text <;> rfl

theorem yields_accept (h : p.instrs[t.place]? = some .accept) :
    p.yields text pos t = some (matchOf pos t) := by
  cases text <;> simp [yields, resume, h]

theorem yields_nil_char {s : CharSet} {next : Nat} (h : p.instrs[t.place]? = some (.char s next)) :
    p.yields [] pos t = none := by
  simp [yields, resume, h]

theorem yields_cons_char {s : CharSet} {next : Nat} (h : p.instrs[t.place]? = some (.char s next)) :
    p.yields (c :: rest) pos t =
      if s.contains c then p.best rest (some c) (pos + 1) { t with place := next } else none := by
  simp [yields, resume, h]

/-- Nothing comes of a thread that does not wait. -/
theorem yields_of_exits? {holds : Assertion → Bool} {js : List Nat}
    (h : p.exits? holds t.place = some js) : p.yields text pos t = none := by
  have hresume : ∀ onward, p.resume pos onward t = none := by
    intro onward
    unfold exits? at h
    unfold resume
    split at h <;> simp_all
  cases text with
  | nil => exact hresume none
  | cons c rest => exact hresume (some (c, p.best rest (some c) (pos + 1)))

/-! ## Threads that come to a match -/

/-- If a thread that waits in the end is live, so is one of those that were run. -/
theorem Explores.live_of_waiting {within seen seen' : Set Nat} {todo waiting : List Thread}
    (h : p.Explores (Assertion.holds before text.head?) pos within todo seen waiting seen')
    (hu : u ∈ waiting) (hlive : p.Live text before u.place) : ∃ t ∈ todo, p.Live text before t.place := by
  induction h with
  | done => cases hu
  | skip _ _ ih =>
    obtain ⟨t, ht, hlive⟩ := ih hu
    exact ⟨t, List.mem_cons_of_mem _ ht, hlive⟩
  | wait _ _ _ _ ih =>
    rcases List.mem_cons.1 hu with rfl | hu
    · exact ⟨u, List.mem_cons_self, hlive⟩
    · obtain ⟨t, ht, hlive⟩ := ih hu
      exact ⟨t, List.mem_cons_of_mem _ ht, hlive⟩
  | @move t _ _ _ _ _ _ _ hmoves _ ih =>
    obtain ⟨v, hv, hlive⟩ := ih hu
    rcases List.mem_append.1 hv with hv | hv
    · exact ⟨t, List.mem_cons_self, .pass (exits?_of_moves? hmoves) (List.mem_map_of_mem hv) hlive⟩
    · exact ⟨v, List.mem_cons_of_mem _ hv, hlive⟩

/-- A live instruction that has been run has led to one that waits and is live. -/
theorem Live.exists_waiting {region seen waiting : Set Nat} {i : Nat} (h : p.Live text before i)
    (hregion : p.Encloses (Assertion.holds before text.head?) region)
    (hs : p.Saturated (Assertion.holds before text.head?) region seen waiting ∅)
    (hi : i ∈ seen) (hr : i ∈ region) : ∃ j ∈ waiting, p.Live text before j := by
  induction h with
  | accept h => exact ⟨_, hs.waits _ hi hr (by simp [exits?, h]), .accept h⟩
  | char h hc hl _ => exact ⟨_, hs.waits _ hi hr (by simp [exits?, h]), .char h hc hl⟩
  | pass h hj hl ih =>
    have hseen := (hs.leads _ hi hr _ h _ hj).resolve_right (Set.notMem_empty _)
    exact ih hregion hs hseen (hregion _ hr _ h _ hj)

theorem places_empty : places Frontier.empty.seen = ∅ :=
  Set.eq_empty_of_forall_notMem fun i hi => absurd (IndexSet.contains_empty i) (by
    rw [show (∅ : IndexSet).contains i = true from hi]
    decide)

/-- An instruction that is not left without reading reads a character or accepts. -/
theorem waits_cases {holds : Assertion → Bool} {i : Nat} (h : p.exits? holds i = none) :
    p.instrs[i]? = some .accept ∨ ∃ s next, p.instrs[i]? = some (.char s next) := by
  unfold exits? at h
  cases hi : p.instrs[i]? with
  | none => simp [hi] at h
  | some instr =>
    cases instr with
    | accept => exact Or.inl rfl
    | char s next => exact Or.inr ⟨s, next, rfl⟩
    | _ => simp [hi] at h

theorem Live.of_wait {holds : Assertion → Bool} {i : Nat} (h : p.Live text before i)
    (hwaits : p.exits? holds i = none) :
    p.instrs[i]? = some .accept ∨ ∃ s next c rest, p.instrs[i]? = some (.char s next) ∧
      text = c :: rest ∧ s.contains c = true ∧ p.Live rest (some c) next := by
  cases h with
  | accept h => exact Or.inl h
  | char h hc hl => exact Or.inr ⟨_, _, _, _, h, rfl, hc, hl⟩
  | pass h _ _ =>
    rcases waits_cases hwaits with hi | ⟨s, next, hi⟩ <;> simp [exits?, hi] at h

/-- A thread that waits and comes to a match is live, if that is so of the threads behind the next
character; and conversely. -/
theorem yields_isSome_iff (hbest : ∀ c rest, text = c :: rest → ∀ t,
      (p.best rest (some c) (pos + 1) t).isSome ↔ p.Live rest (some c) t.place)
    {holds : Assertion → Bool} (hu : p.exits? holds u.place = none) :
    (p.yields text pos u).isSome ↔ p.Live text before u.place := by
  constructor
  · intro h
    rcases waits_cases hu with hi | ⟨s, next, hi⟩
    · exact .accept hi
    · cases text with
      | nil =>
        rw [yields_nil_char hi] at h
        cases h
      | cons c rest =>
        rw [yields_cons_char hi] at h
        by_cases hc : s.contains c = true
        · rw [if_pos hc] at h
          exact .char hi hc ((hbest c rest rfl _).1 h)
        · rw [if_neg hc] at h
          cases h
  · intro h
    rcases h.of_wait hu with hi | ⟨s, next, c, rest, hi, rfl, hc, hl⟩
    · rw [yields_accept hi]
      rfl
    · rw [yields_cons_char hi, if_pos hc]
      exact (hbest c rest rfl _).2 hl

/-- A thread becomes threads that wait; the first of them that comes to a match decides. -/
theorem best_explores (hb : p.Binary) (text : List Char) (before : Option Char) (pos : Nat) (t : Thread) :
    ∃ waiting seen, p.Explores (Assertion.holds before text.head?) pos Set.univ [t] ∅ waiting seen ∧
      p.best text before pos t = waiting.findSome? (p.yields text pos) := by
  obtain ⟨waiting, hexplores, hthreads⟩ :=
    spawn_explores hb (Assertion.holds before text.head?) pos t .empty
  rw [places_empty] at hexplores
  refine ⟨waiting, _, hexplores, ?_⟩
  rw [best_eq, hthreads]
  rfl

theorem saturated_empty {holds : Assertion → Bool} {region todo : Set Nat} :
    p.Saturated holds region ∅ ∅ todo :=
  ⟨fun _ hi => absurd hi (Set.notMem_empty _), fun _ hi => absurd hi (Set.notMem_empty _)⟩

theorem best_isSome_iff_of (hb : p.Binary) (hbest : ∀ c rest, text = c :: rest → ∀ t,
      (p.best rest (some c) (pos + 1) t).isSome ↔ p.Live rest (some c) t.place) :
    (p.best text before pos t).isSome ↔ p.Live text before t.place := by
  obtain ⟨waiting, seen, hexplores, hbest'⟩ := best_explores hb text before pos t
  have hwaits : ∀ u ∈ waiting, (p.yields text pos u).isSome ↔ p.Live text before u.place :=
    fun u hu => yields_isSome_iff hbest (exits?_of_waits
      (hexplores.waiting_mem encloses_univ (fun _ _ => Set.mem_univ _) u hu).2)
  rw [hbest', List.findSome?_isSome_iff]
  constructor
  · rintro ⟨u, hu, hsome⟩
    obtain ⟨v, hv, hlive⟩ := hexplores.live_of_waiting hu ((hwaits u hu).1 hsome)
    rwa [List.mem_singleton.1 hv] at hlive
  · intro hlive
    have hs : p.Saturated (Assertion.holds before text.head?) Set.univ seen (∅ ∪ stands waiting) ∅ :=
      hexplores.saturated saturated_empty
    have hseen := hexplores.subset.2 t (List.mem_singleton_self t)
    obtain ⟨j, hj, hlive⟩ := hlive.exists_waiting encloses_univ hs hseen (Set.mem_univ _)
    obtain ⟨u, hu, rfl⟩ := hj.resolve_left (Set.notMem_empty j)
    exact ⟨u, hu, (hwaits u hu).2 hlive⟩

/-- **A thread comes to a match exactly if its instruction is live.** -/
theorem best_isSome_iff (hb : p.Binary) (text : List Char) (before : Option Char) (pos : Nat)
    (t : Thread) : (p.best text before pos t).isSome ↔ p.Live text before t.place := by
  induction text generalizing before pos t with
  | nil =>
    exact best_isSome_iff_of hb fun c rest h => by cases h
  | cons c rest ih =>
    refine best_isSome_iff_of hb fun c' rest' h t => ?_
    cases h
    exact ih (some c) (pos + 1) t

/-- Something comes of a thread that waits exactly if its instruction is live. -/
theorem yields_iff (hb : p.Binary) {holds : Assertion → Bool} (hu : p.exits? holds u.place = none) :
    (p.yields text pos u).isSome ↔ p.Live text before u.place :=
  yields_isSome_iff (fun _ rest _ t => best_isSome_iff hb rest _ _ t) hu

theorem not_live_of_yields (hb : p.Binary) {holds : Assertion → Bool}
    (hu : p.exits? holds u.place = none) (h : p.yields text pos u = none) :
    ¬ p.Live text before u.place := by
  intro hlive
  have hsome : (p.yields text pos u).isSome := (yields_iff hb hu).2 hlive
  rw [h] at hsome
  exact Bool.false_ne_true hsome

/-! ## Threads side by side -/

/-- The live instructions at a place of a text. -/
def alive (p : Program) (text : List Char) (before : Option Char) : Set Nat :=
  {i | p.Live text before i}

theorem absorbs_alive {region : Set Nat} :
    p.Absorbs (Assertion.holds before text.head?) region (p.alive text before) :=
  fun _ _ hi _ hjs _ hj hlive => hi (.pass hjs hj hlive)

theorem yields_of_not_alive (hb : p.Binary) (hu : u.place ∉ p.alive text before) :
    p.yields text pos u = none := by
  cases he : p.exits? (Assertion.holds before text.head?) u.place with
  | some js => exact yields_of_exits? he
  | none =>
    rw [← Option.not_isSome_iff_eq_none, yields_iff hb he]
    exact hu

section SideBySide

variable {region seen seen' stood : Set Nat} {todo waiting : List Thread}

/-- **Threads that run one after the other come to what the first of them comes to on its own**, if
nothing comes of what has been run before. By induction on the threads: where nothing comes of the first
one, nothing comes of the instructions it has run. -/
theorem Explores.findSome?_yields (hb : p.Binary)
    (h : p.Explores (Assertion.holds before text.head?) pos Set.univ todo seen waiting seen')
    (hregion : p.Encloses (Assertion.holds before text.head?) region)
    (htodo : ∀ t ∈ todo, t.place ∈ region)
    (hs : p.Saturated (Assertion.holds before text.head?) region seen stood ∅)
    (hdead : ∀ i ∈ stood, ¬ p.Live text before i) :
    waiting.findSome? (p.yields text pos) = todo.findSome? (p.best text before pos) := by
  induction todo generalizing seen stood waiting with
  | nil =>
    cases h
    rfl
  | cons t todo ih =>
    obtain ⟨ht, htodo⟩ := List.forall_mem_cons.1 htodo
    have happend : p.Explores (Assertion.holds before text.head?) pos Set.univ ([t] ++ todo) seen waiting
      seen' := h
    obtain ⟨waiting₁, between, waiting₂, h₁, h₂, rfl⟩ := happend.split
    obtain ⟨alone, seenAlone, halone, hbest⟩ := best_explores hb text before pos t
    have hsame : ∀ i ∈ region, i ∈ p.alive text before → (i ∈ seen ↔ i ∈ (∅ : Set Nat)) := by
      intro i hi hlive
      refine iff_of_false (fun hseen => ?_) (Set.notMem_empty i)
      obtain ⟨j, hj, hj'⟩ := Live.exists_waiting hlive hregion hs hseen hi
      exact hdead j hj hj'
    -- what has been run before and is not live makes no difference to what comes of the first thread
    have hfirst : waiting₁.findSome? (p.yields text pos) = p.best text before pos t := by
      rw [hbest]
      exact h₁.findSome?_eq halone hregion absorbs_alive (by simpa using ht)
        (fun u _ hu => yields_of_not_alive hb hu) hsame
    rw [List.findSome?_append, findSome?_cons_or, hfirst]
    cases hnone : p.best text before pos t with
    | some m => rfl
    | none =>
      rw [Option.none_or, Option.none_or]
      refine ih h₂ htodo (h₁.saturated (hs.pending _)) ?_
      rintro i (hi | ⟨u, hu, rfl⟩)
      · exact hdead i hi
      · have hwaits := (h₁.waiting_mem encloses_univ (fun _ _ => Set.mem_univ _) u hu).2
        rw [hnone] at hfirst
        exact not_live_of_yields hb (exits?_of_waits hwaits) (List.findSome?_eq_none_iff.1 hfirst u hu)

/-- **A thread comes to what those come to that it becomes**, if these do not come back to where it
stands. -/
theorem best_of_moves (hb : p.Binary) {ts : List Thread}
    (hmoves : p.moves? (Assertion.holds before text.head?) pos t = some ts)
    (hregion : p.Encloses (Assertion.holds before text.head?) region)
    (hts : ∀ u ∈ ts, u.place ∈ region) (hout : t.place ∉ region) :
    p.best text before pos t = ts.findSome? (p.best text before pos) := by
  obtain ⟨waiting, seen, hexplores, hbest⟩ := best_explores hb text before pos t
  rw [hbest]
  cases hexplores with
  | skip h _ => exact absurd h (by simp)
  | wait _ _ hwaits _ =>
    rw [hmoves] at hwaits
    cases hwaits
  | move _ _ hmoves' hrest =>
    rw [hmoves] at hmoves'
    cases hmoves'
    rw [List.append_nil] at hrest
    have hplace : ∀ i ∈ insert t.place (∅ : Set Nat), i ∉ region := by
      rintro i (rfl | hi)
      · exact hout
      · exact absurd hi (Set.notMem_empty i)
    have hs : p.Saturated (Assertion.holds before text.head?) region (insert t.place ∅) ∅ ∅ :=
      ⟨fun i hi hr => absurd hr (hplace i hi), fun i hi hr => absurd hr (hplace i hi)⟩
    exact hrest.findSome?_yields hb hregion hts hs fun i hi => absurd hi (Set.notMem_empty i)

/-- In a frontier, all that can be reached has been run, and the threads wait. -/
structure Complete (p : Program) (holds : Assertion → Bool) (f : Frontier) : Prop where
  saturated : p.Saturated holds Set.univ (places f.seen) (stands f.threads.reverse) ∅
  waits : ∀ u ∈ f.threads.reverse, p.exits? holds u.place = none

theorem complete_empty {holds : Assertion → Bool} : p.Complete holds .empty where
  saturated := by
    have hstands : stands Frontier.empty.threads.reverse = ∅ := stands_nil
    rw [places_empty, hstands]
    exact saturated_empty
  waits u hu := by cases hu

/-- A thread that joins others counts only where nothing comes of these. -/
theorem findSome?_spawn (hb : p.Binary) {f : Frontier}
    (hf : p.Complete (Assertion.holds before text.head?) f) (pos : Nat) (t : Thread) :
    p.Complete (Assertion.holds before text.head?)
        (p.spawn (Assertion.holds before text.head?) pos t f) ∧
      (p.spawn (Assertion.holds before text.head?) pos t f).threads.reverse.findSome?
          (p.yields text pos) =
        (f.threads.reverse.findSome? (p.yields text pos)).or (p.best text before pos t) := by
  obtain ⟨waiting, hexplores, hthreads⟩ :=
    spawn_explores hb (Assertion.holds before text.head?) pos t f
  have hwaits : ∀ u ∈ waiting, p.exits? (Assertion.holds before text.head?) u.place = none :=
    fun u hu => exits?_of_waits (hexplores.waiting_mem encloses_univ (fun _ _ => Set.mem_univ _) u hu).2
  constructor
  · constructor
    · rw [hthreads, stands_append]
      exact hexplores.saturated (hf.saturated.pending _)
    · rw [hthreads]
      exact List.forall_mem_append.2 ⟨hf.waits, hwaits⟩
  · rw [hthreads, List.findSome?_append]
    cases hfirst : f.threads.reverse.findSome? (p.yields text pos) with
    | some m => rfl
    | none =>
      rw [Option.none_or, Option.none_or,
        hexplores.findSome?_yields hb encloses_univ (fun _ _ => Set.mem_univ _) hf.saturated ?_]
      · rw [findSome?_cons_or]
        exact Option.or_none
      · rintro _ ⟨u, hu, rfl⟩
        exact not_live_of_yields hb (hf.waits u hu) (List.findSome?_eq_none_iff.1 hfirst u hu)

end SideBySide

/-! ## Reading a character -/

/-- Threads that read a character come to what they come to behind it, up to the first one that
accepts. -/
theorem findSome?_advance (hb : p.Binary) {f : Frontier}
    (hf : p.Complete (Assertion.holds (some c) rest.head?) f) (pos : Nat) (threads : List Thread) :
    p.Complete (Assertion.holds (some c) rest.head?)
        (p.advance c rest.head? (pos + 1) threads f).2 ∧
      ((p.advance c rest.head? (pos + 1) threads f).2.threads.reverse.findSome?
          (p.yields rest (pos + 1))).or
        ((p.advance c rest.head? (pos + 1) threads f).1.map (matchOf pos)) =
      (f.threads.reverse.findSome? (p.yields rest (pos + 1))).or
        (threads.findSome? (p.yields (c :: rest) pos)) := by
  induction threads generalizing f with
  | nil => exact ⟨hf, rfl⟩
  | cons t threads ih =>
    rw [findSome?_cons_or, advance]
    cases hi : p.instrs[t.place]? with
    | none =>
      have hexits : p.exits? (fun _ => true) t.place = some [] := by simp [exits?, hi]
      rw [yields_of_exits? hexits, Option.none_or]
      exact ih hf
    | some instr =>
      cases instr with
      | accept =>
        rw [yields_accept hi]
        exact ⟨hf, rfl⟩
      | char s next =>
        rw [yields_cons_char hi]
        by_cases hc : s.contains c = true
        · obtain ⟨hcomplete, hspawn⟩ := findSome?_spawn hb hf (pos + 1) { t with place := next }
          obtain ⟨hdone, heq⟩ := ih hcomplete
          simp only [hc, if_true]
          refine ⟨hdone, heq.trans ?_⟩
          rw [hspawn, Option.or_assoc]
        · simp only [hc, Bool.false_eq_true, if_false, Option.none_or]
          exact ih hf
      | fork | assertion | mark =>
        -- no thread of a frontier stands here, and nothing would come of it
        have hexits : ∃ js, p.exits? (fun _ => true) t.place = some js := by simp [exits?, hi]
        rw [yields_of_exits? hexits.choose_spec, Option.none_or]
        exact ih hf

theorem map_accepting? (p : Program) (pos : Nat) (threads : List Thread) :
    (p.accepting? threads).map (matchOf pos) = threads.findSome? (p.yields [] pos) := by
  induction threads with
  | nil => rfl
  | cons t threads ih =>
    unfold accepting? at ih ⊢
    rw [findSome?_cons_or, List.find?_cons]
    by_cases hi : p.instrs[t.place]? = some .accept
    · simp [hi, yields_accept hi]
    · have hnone : p.yields [] pos t = none := by
        change p.resume pos none t = none
        unfold resume
        simp only
        split <;> simp_all
      have hfalse : (p.instrs[t.place]? == some .accept) = false := by simpa using hi
      rw [hfalse, hnone, Option.none_or]
      exact ih

/-! ## Programs that begin at the start of a text -/

/-- Where fewer assertions hold, no more can be reached. -/
theorem Saturated.imp {holds holds' : Assertion → Bool} {region seen waiting todo : Set Nat}
    (hs : p.Saturated holds' region seen waiting todo) (h : ∀ a, holds a = true → holds' a = true) :
    p.Saturated holds region seen waiting todo := by
  constructor
  · intro i hi hr he
    refine hs.waits i hi hr ?_
    unfold exits? at he ⊢
    split at he <;> simp_all
  · intro i hi hr js he j hj
    have hexits : ∃ js', p.exits? holds' i = some js' ∧ j ∈ js' := by
      unfold exits? at he ⊢
      cases hi : p.instrs[i]? with
      | none => exact ⟨js, by simpa [hi] using he, hj⟩
      | some instr =>
        rw [hi] at he
        cases instr with
        | assertion a next =>
          cases he
          by_cases ha : holds a = true
          · exact ⟨[next], by simp [h a ha], by simpa [ha] using hj⟩
          · simp [ha] at hj
        | fork targets => exact ⟨js, he, hj⟩
        | mark slot next => exact ⟨js, he, hj⟩
        | char s next => cases he
        | accept => cases he
    obtain ⟨js', he', hj'⟩ := hexits
    exact hs.leads i hi hr js' he' j hj'

/-- **A program that does not go on behind the start of a text matches nowhere else.** -/
theorem best_of_not_isFloating (hb : p.Binary) (hfloat : p.isFloating = false) (text : List Char)
    (c : Char) (pos : Nat) : p.best text (some c) pos (p.fresh pos) = none := by
  obtain ⟨waiting, hexplores, hthreads⟩ := spawn_explores hb (· != .textStart) 0 (p.fresh 0) .empty
  rw [places_empty] at hexplores
  have hnone : (p.spawn (· != .textStart) 0 (p.fresh 0) .empty).threads = [] := by
    simpa [isFloating] using hfloat
  obtain rfl : waiting = [] := by
    rw [hnone] at hthreads
    exact (List.append_eq_nil_iff.1 hthreads.symm).2
  have hs : p.Saturated (· != .textStart) Set.univ _ (∅ ∪ stands []) ∅ :=
    hexplores.saturated saturated_empty
  have hstart := hexplores.subset.2 (p.fresh 0) (List.mem_singleton_self _)
  rw [← Option.not_isSome_iff_eq_none, best_isSome_iff hb]
  intro hlive
  have hholds : ∀ a, Assertion.holds (some c) text.head? a = true → (a != .textStart) = true := by
    rintro a ha
    cases a <;> first | rfl | cases ha
  obtain ⟨j, hj, -⟩ := hlive.exists_waiting encloses_univ (hs.imp hholds) hstart (Set.mem_univ _)
  rw [stands_nil, Set.union_empty] at hj
  exact hj

end Program

/-! ## Searching -/

/-- The match of a thread that begins at the first place from which a thread comes to a match. -/
def leftmost (p : Pattern) : Bool → List Char → Option Char → Nat → Option Match
  | begins, [], before, pos =>
    if begins then p.program.best [] before pos (p.program.fresh pos) else none
  | begins, c :: rest, before, pos =>
    (if begins then p.program.best (c :: rest) before pos (p.program.fresh pos) else none).or
      (leftmost p p.floating rest (some c) (pos + 1))

variable {p : Pattern}

theorem leftmost_false (hfloat : p.floating = false) (text : List Char) (before : Option Char)
    (pos : Nat) : p.leftmost false text before pos = none := by
  induction text generalizing before pos with
  | nil => rfl
  | cons c rest ih =>
    rw [leftmost, hfloat]
    exact ih (some c) (pos + 1)

/-- A thread that begins here joins the others. -/
theorem findSome?_enter (hb : p.program.Binary) {text : List Char} {before : Option Char} {f : Frontier}
    (hf : p.program.Complete (Assertion.holds before text.head?) f) (pos : Nat) (begins : Bool) :
    p.program.Complete (Assertion.holds before text.head?) (p.enter before text.head? pos begins f) ∧
      (p.enter before text.head? pos begins f).threads.reverse.findSome? (p.program.yields text pos) =
        (f.threads.reverse.findSome? (p.program.yields text pos)).or
          (if begins then p.program.best text before pos (p.program.fresh pos) else none) := by
  unfold enter
  cases begins with
  | true => exact Program.findSome?_spawn hb hf pos (p.program.fresh pos)
  | false => exact ⟨hf, Option.or_none.symm⟩

/-- What a search finds from a place on: what the threads under way come to, or else the match found so
far, or else the match of a thread that is still to begin. -/
theorem searchFrom_eq (hb : p.program.Binary) {text : List Char} {before : Option Char} {pos : Nat}
    {begins : Bool} {f : Frontier} {found : Option Match}
    (hf : p.program.Complete (Assertion.holds before text.head?) f) :
    p.searchFrom text before pos begins f found =
      (f.threads.reverse.findSome? (p.program.yields text pos)).or
        (found.or (p.leftmost begins text before pos)) := by
  induction text generalizing before pos begins f found with
  | nil =>
    obtain ⟨-, henter⟩ := findSome?_enter hb hf pos (begins && found.isNone)
    rw [searchFrom, Program.map_accepting?]
    simp only [List.head?_nil] at henter ⊢
    rw [henter, Option.or_assoc]
    cases found <;> cases begins <;> simp [leftmost]
  | cons c rest ih =>
    obtain ⟨-, henter⟩ := findSome?_enter hb hf pos (begins && found.isNone)
    obtain ⟨hadvanced, hadvance⟩ := Program.findSome?_advance hb Program.complete_empty pos
      (p.enter before (c :: rest).head? pos (begins && found.isNone) f).threads.reverse
    rw [henter] at hadvance
    rw [searchFrom]
    simp only
    generalize p.program.advance c rest.head? (pos + 1)
      (p.enter before (c :: rest).head? pos (begins && found.isNone) f).threads.reverse .empty = step
      at hadvanced hadvance ⊢
    obtain ⟨accepted, next⟩ := step
    simp only at hadvanced hadvance ⊢
    generalize f.threads.reverse.findSome? (p.program.yields (c :: rest) pos) = ahead at hadvance ⊢
    generalize accepted.map (matchOf pos) = here at hadvance ⊢
    have hempty : Frontier.empty.threads.reverse.findSome? (p.program.yields rest (pos + 1)) = none := rfl
    -- a thread that begins here counts only where no match has been found
    have hsplit : ahead.or (found.or (p.leftmost begins (c :: rest) before pos)) =
        (next.threads.reverse.findSome? (p.program.yields rest (pos + 1))).or
          ((here.or found).or (p.leftmost p.floating rest (some c) (pos + 1))) := by
      rw [hempty, Option.none_or] at hadvance
      have hregroup : ∀ onward later : Option Match,
          onward.or ((here.or found).or later) = (onward.or here).or (found.or later) := by
        intro onward later
        rw [Option.or_assoc, ← Option.or_assoc]
      rw [hregroup, hadvance, leftmost]
      cases found <;> cases begins <;> simp [Option.or_assoc]
    rw [hsplit]
    by_cases hstop : (next.threads.isEmpty && ((here.or found).isSome || !p.floating)) = true
    · rw [if_pos hstop]
      obtain ⟨hnext, hdone⟩ := Bool.and_eq_true_iff.1 hstop
      rw [List.isEmpty_iff.1 hnext, List.reverse_nil, List.findSome?_nil, Option.none_or]
      rcases Bool.or_eq_true_iff.1 hdone with hsome | hfloat
      · rw [Option.or_of_isSome hsome]
      · have hfloat : p.floating = false := by simpa using hfloat
        rw [hfloat, leftmost_false hfloat, Option.or_none]
    · rw [if_neg hstop]
      exact ih hadvanced

/-- **A search finds the match that begins first**, and of those that begin there the preferred one. -/
theorem search_eq_leftmost (hb : p.program.Binary) (before : Option Char) (text : List Char)
    (pos : Nat) : p.search before text pos = p.leftmost true text before pos := by
  unfold search
  rw [searchFrom_eq hb Program.complete_empty, Option.none_or]
  rfl

end ParserGen.Pattern
