import Mathlib.Data.List.Forall2
import ParserGen.Proofs.Lexer.Partition

/-!
# Modal lexers are pushdown machines

A lexer with several states runs over a stack of names. The state named on top decides alone on the
next piece and on whether it is kept; then its transition for the kind of the piece changes the stack.
The run described here knows only the names and the states behind them. It is the one the lexer makes,
and it ends where the lexer ends, with the same tokens or the same error.

* `Steps`, `Lexes`: what a kind of token does to a stack of names, and a whole run.
* `scanFrom_cuts`: the scan follows every run, piece by piece.
* `lexes_lex`: **what the lexer returns is the outcome of a run.**
* `Cuts.wellStacked`: a run never empties the stack and enters defined states only.
* `pushdown_refinement`: runs and results are the same, and a lexer that never changes its state is a
  lexer with one set of rules.
-/

namespace ParserGen

open Text

/-! ## The match that wins is unique -/

section Unique

variable {rules : List (String × Recognizer)} {text : List Char} {i j n m : Nat} {kind kind' : String}

theorem Wins.unique (h : Wins rules text i kind n) (h' : Wins rules text j kind' m) :
    kind = kind' ∧ n = m := by
  obtain ⟨r, hget, hlen⟩ := h.found
  obtain ⟨r', hget', hlen'⟩ := h'.found
  have hle := h.longest _ (List.mem_of_getElem? hget') m hlen'
  have hge := h'.longest _ (List.mem_of_getElem? hget) n hlen
  obtain rfl : n = m := by omega
  rcases Nat.lt_trichotomy i j with hlt | rfl | hlt
  · exact absurd hlen (h'.earliest i hlt _ hget)
  · rw [hget] at hget'
    cases hget'
    exact ⟨rfl, rfl⟩
  · exact absurd hlen' (h.earliest j hlt _ hget')

theorem Wins.not_matchesNothing (h : Wins rules text i kind n) : ¬ MatchesNothing rules text := by
  obtain ⟨r, hmem, hlen⟩ := h.mem
  intro hnothing
  have := hnothing _ hmem n hlen
  have := h.pos
  omega

theorem LexerRules.longest?_of_wins {r : LexerRules} (h : Wins r.recognizers.toList text i kind n) :
    r.longest? text = some ⟨kind, n, r.skipped.contains kind⟩ := by
  rcases r.longest?_cases text with ⟨-, hnothing⟩ | ⟨j, kind', m, hsome, hwins⟩
  · exact absurd hnothing h.not_matchesNothing
  · obtain ⟨rfl, rfl⟩ := h.unique hwins
    exact hsome

theorem LexerRules.longest?_of_matchesNothing {r : LexerRules}
    (h : MatchesNothing r.recognizers.toList text) : r.longest? text = none := by
  rcases r.longest?_cases text with ⟨hnone, -⟩ | ⟨j, kind', m, -, hwins⟩
  · exact hnone
  · exact absurd h hwins.not_matchesNothing

end Unique

theorem Cut.joined_cons (c : Cut) (cuts : List Cut) :
    Cut.joined (c :: cuts) = c.value ++ Cut.joined cuts :=
  rfl

namespace ModalLexer

/-! ## Runs over a stack of names -/

/-- The state named on top of a stack. -/
def top? (l : ModalLexer) : List String → Option LexerMode
  | [] => none
  | name :: _ => l.modes.find? name

/-- The rules that count: those of the state on top. -/
def topRules (l : ModalLexer) (names : List String) : LexerRules :=
  ((l.top? names).map (·.rules)).getD .empty

/-- What the state on top does at a kind of token. -/
def transition? (l : ModalLexer) (names : List String) (kind : String) : Option LexerTransition :=
  (l.top? names).bind (·.transitions.find? kind)

/-- There is a state with the name. -/
def Defines (l : ModalLexer) (name : String) : Prop :=
  ∃ m, l.modes.find? name = some m

/-- A kind of token leads from one stack of names to another: it enters a state that there is, or it
leaves the one on top, though not the last one, or it changes nothing. -/
inductive Steps (l : ModalLexer) (names : List String) (kind : String) : List String → Prop
  | push {target : String} (h : l.transition? names kind = some (.push target))
      (hdef : l.Defines target) : Steps l names kind (target :: names)
  | pop (h : l.transition? names kind = some .pop) (hlen : 1 < names.length) :
      Steps l names kind names.tail
  | stay (h : l.transition? names kind = none) : Steps l names kind names

/-- A run over a text from the stack that holds the starting state alone, with its outcome. -/
inductive Lexes (l : ModalLexer) (start : String) (text : List Char) :
    Except LexError TokenStream → Prop
  /-- The pieces make up the text. -/
  | complete {cuts : List Cut} {names : List String} {stream : TokenStream}
      (h : Cuts l.topRules l.Steps [start] [] text cuts names []) (hpos : stream.position = 0)
      (htokens : stream.tokens.toList = Cut.tokens cuts ++ [.endOf text]) :
      Lexes l start text (.ok stream)
  /-- The state on top matches no more than the empty text. -/
  | unrecognized {cuts : List Cut} {names : List String} {rest : List Char}
      (h : Cuts l.topRules l.Steps [start] [] text cuts names rest) (hne : rest ≠ [])
      (hnone : MatchesNothing (l.topRules names).recognizers.toList rest) :
      Lexes l start text
        (.error (.unrecognized (.behind (Cut.joined cuts)) (String.ofList (rest.take 16))))
  /-- The next piece would leave the only state on the stack. -/
  | underflow {cuts : List Cut} {names : List String} {value rest : List Char} {i : Nat}
      {kind : String} (h : Cuts l.topRules l.Steps [start] [] text cuts names (value ++ rest))
      (hw : Wins (l.topRules names).recognizers.toList (value ++ rest) i kind value.length)
      (hpop : l.transition? names kind = some .pop) (hlen : names.length = 1) :
      Lexes l start text (.error (.stateUnderflow (.behind (Cut.joined cuts))))
  /-- The next piece would enter a state that there is not. -/
  | unknown {cuts : List Cut} {names : List String} {value rest : List Char} {i : Nat}
      {kind target : String} (h : Cuts l.topRules l.Steps [start] [] text cuts names (value ++ rest))
      (hw : Wins (l.topRules names).recognizers.toList (value ++ rest) i kind value.length)
      (hpush : l.transition? names kind = some (.push target)) (hundef : ¬ l.Defines target) :
      Lexes l start text (.error (.unknownState target))

variable {l : ModalLexer} {start name kind : String} {names names' : List String} {s s' : ModeStack}

theorem not_defines_iff : ¬ l.Defines name ↔ l.modes.find? name = none := by
  unfold Defines
  rw [← Option.ne_none_iff_exists', not_not]

/-! ## Stacks of states and of names -/

/-- The stack of states that a stack of names stands for. -/
def Represents (l : ModalLexer) (s : ModeStack) (names : List String) : Prop :=
  List.Forall₂ (fun m name => l.modes.find? name = some m) (s.top :: s.below) names

theorem represents_start {m : LexerMode} (h : l.modes.find? start = some m) :
    l.Represents ⟨m, []⟩ [start] :=
  .cons h .nil

namespace Represents

theorem top?_eq (h : l.Represents s names) : l.top? names = some s.top := by
  cases h with
  | cons hm _ => exact hm

theorem topRules_eq (h : l.Represents s names) : l.topRules names = s.top.rules := by
  unfold topRules
  rw [h.top?_eq]
  rfl

theorem transition?_eq (h : l.Represents s names) (kind : String) :
    l.transition? names kind = s.top.transitions.find? kind := by
  unfold transition?
  rw [h.top?_eq]
  rfl

theorem length_eq (h : l.Represents s names) : names.length = s.below.length + 1 :=
  (List.Forall₂.length_eq h).symm

/-- A step of the lexer is a step over the names. -/
theorem exists_steps (h : l.Represents s names) (hm : l.Moves s kind s') :
    ∃ names', l.Steps names kind names' ∧ l.Represents s' names' := by
  cases hm with
  | push ht hfind =>
    exact ⟨_, .push ((h.transition?_eq kind).trans ht) ⟨_, hfind⟩, .cons hfind h⟩
  | pop ht hbelow =>
    refine ⟨names.tail, .pop ((h.transition?_eq kind).trans ht) ?_, ?_⟩
    · rw [h.length_eq, hbelow, List.length_cons]
      omega
    · cases h with
      | cons _ htail => rwa [hbelow] at htail
  | stay ht => exact ⟨names, .stay ((h.transition?_eq kind).trans ht), h⟩

/-- A step over the names is a step of the lexer, which then does not fail. -/
theorem transit_of_steps (h : l.Represents s names) (hs : l.Steps names kind names') (pos : Position) :
    ∃ s', l.transit s pos kind = .ok s' ∧ l.Represents s' names' := by
  unfold transit mode
  cases hs with
  | push ht hdef =>
    obtain ⟨m, hm⟩ := hdef
    rw [h.transition?_eq] at ht
    exact ⟨⟨m, s.top :: s.below⟩, by simp only [ht, hm]; rfl, .cons hm h⟩
  | pop ht hlen =>
    rw [h.transition?_eq] at ht
    rw [h.length_eq] at hlen
    obtain ⟨m, below, hbelow⟩ := List.exists_cons_of_length_pos (l := s.below) (by omega)
    refine ⟨⟨m, below⟩, by simp only [ht, hbelow], ?_⟩
    cases h with
    | cons _ htail => rwa [hbelow] at htail
  | stay ht =>
    rw [h.transition?_eq] at ht
    exact ⟨s, by simp only [ht], h⟩

end Represents

section Scan

variable {before text rest value : List Char} {cuts : List Cut} {last : List String} {i : Nat}

/-- What decides on the next piece takes the match that wins, and then makes the transition. -/
theorem Represents.extract_of_wins (h : l.Represents s names) (pos : Position) {n : Nat}
    (hw : Wins (l.topRules names).recognizers.toList text i kind n) :
    l.extract s pos text =
      (l.transit s pos kind).map fun s' =>
        some (⟨kind, n, (l.topRules names).skipped.contains kind⟩, s') := by
  rw [h.topRules_eq] at hw ⊢
  unfold extract
  rw [LexerRules.longest?_of_wins hw]

/-- **The scan follows a run**: it goes over to the rest of the text, on a stack that stands for
the names the run came to, and what it finds there comes behind the tokens of the run. -/
theorem scanFrom_cuts (h : l.Represents s names)
    (hc : Cuts l.topRules l.Steps names before text cuts last rest) :
    ∃ s', l.Represents s' last ∧
      scanFrom l.extract s (.behind before) 0 text =
        (scanFrom l.extract s' (.behind (before ++ Cut.joined cuts)) 0 rest).map
          (Cut.tokens cuts ++ ·) := by
  induction hc generalizing s with
  | done names before rest =>
    refine ⟨s, h, ?_⟩
    rw [show before ++ Cut.joined [] = before from List.append_nil before]
    cases scanFrom l.extract s (.behind before) 0 rest <;> rfl
  | @piece names names' last before value text rest i kind cuts hw hm hc ih =>
    obtain ⟨s₁, htransit, h₁⟩ := h.transit_of_steps hm (.behind before)
    obtain ⟨s', h', hscan⟩ := ih h₁
    have hextract := h.extract_of_wins (.behind before) hw
    rw [htransit] at hextract
    refine ⟨s', h', ?_⟩
    rw [scanFrom_piece hw.pos hextract, hscan, Cut.joined_cons, List.append_assoc, Cut.map_tokens_cons]

/-- Where the decision on the next piece fails, the scan fails. -/
theorem scanFrom_of_error {pos : Position} {e : LexError} (hne : rest ≠ [])
    (h : l.extract s pos rest = .error e) : scanFrom l.extract s pos 0 rest = .error e := by
  obtain ⟨c, tail, rfl⟩ := List.exists_cons_of_ne_nil hne
  rw [scanFrom, h]
  rfl

/-- Where the rules on top match nothing, the scan recognizes nothing. -/
theorem Represents.scanFrom_of_matchesNothing (h : l.Represents s names) (hne : rest ≠ []) {pos : Position}
    (hnone : MatchesNothing (l.topRules names).recognizers.toList rest) :
    scanFrom l.extract s pos 0 rest = .error (.unrecognized pos (snippet rest)) := by
  obtain ⟨c, tail, rfl⟩ := List.exists_cons_of_ne_nil hne
  rw [h.topRules_eq] at hnone
  have hextract : l.extract s pos (c :: tail) = .ok none := by
    unfold extract
    rw [LexerRules.longest?_of_matchesNothing hnone]
  rw [scanFrom, hextract]
  rfl

theorem Wins.rest_ne_nil {rules : List (String × Recognizer)}
    (hw : Wins rules (value ++ rest) i kind value.length) : value ++ rest ≠ [] := by
  have := hw.pos
  rw [← List.length_pos_iff, List.length_append]
  omega

end Scan

/-! ## Runs and results -/

section Runs

variable {result : Except LexError TokenStream} {input : String} {m : LexerMode}

/-- The lexer scans from the stack that holds its starting state alone. -/
theorem lex_eq_scan (hs : l.start = some start) (hm : l.modes.find? start = some m) (input : String) :
    l.lex input = scan l.extract ⟨m, []⟩ input := by
  unfold lex mode
  simp only [hs, hm]
  rfl

/-- **The outcome of a run is what the lexer returns.** -/
theorem lex_of_lexes (hs : l.start = some start) (hm : l.modes.find? start = some m)
    (h : l.Lexes start (normalizeLines input.toList) result) : l.lex input = result := by
  rw [lex_eq_scan hs hm]
  unfold scan
  rw [show Position.start = .behind [] from rfl]
  cases h with
  | @complete cuts names stream h hpos htokens =>
    obtain ⟨s', -, hscan⟩ := scanFrom_cuts (represents_start hm) h
    have htext := h.joined
    rw [List.append_nil] at htext
    rw [hscan, TokenStream.eq_ofTokens rfl hpos htokens, htext]
    rfl
  | unrecognized h hne hnone =>
    obtain ⟨s', hrep, hscan⟩ := scanFrom_cuts (represents_start hm) h
    rw [hscan, hrep.scanFrom_of_matchesNothing hne hnone]
    rfl
  | @underflow cuts names value rest i kind h hw hpop hlen =>
    obtain ⟨s', hrep, hscan⟩ := scanFrom_cuts (represents_start hm) h
    -- one name on the stack means that nothing is below the state of the scan
    have hbelow : s'.below = [] := List.length_eq_zero_iff.1 (by have := hrep.length_eq; omega)
    have hextract := hrep.extract_of_wins (.behind (Cut.joined cuts)) hw
    rw [hrep.transition?_eq] at hpop
    unfold transit at hextract
    simp only [hpop, hbelow] at hextract
    rw [hscan, List.nil_append, scanFrom_of_error (Wins.rest_ne_nil hw) hextract]
    rfl
  | @unknown cuts names value rest i kind target h hw hpush hundef =>
    obtain ⟨s', hrep, hscan⟩ := scanFrom_cuts (represents_start hm) h
    have hextract := hrep.extract_of_wins (.behind (Cut.joined cuts)) hw
    rw [hrep.transition?_eq] at hpush
    rw [not_defines_iff] at hundef
    unfold transit mode at hextract
    simp only [hpush, hundef] at hextract
    rw [hscan, List.nil_append, scanFrom_of_error (Wins.rest_ne_nil hw) hextract]
    rfl

/-- Pieces cut off on a stack of states are cut off on the stack of their names. -/
theorem Represents.exists_cuts {before text rest : List Char} {cuts : List Cut} {last : ModeStack}
    (h : l.Represents s names)
    (hc : Cuts (fun s : ModeStack => s.top.rules) l.Moves s before text cuts last rest) :
    ∃ names', Cuts l.topRules l.Steps names before text cuts names' rest ∧ l.Represents last names' := by
  induction hc generalizing names with
  | done s before rest => exact ⟨names, .done .., h⟩
  | piece hw hm hc ih =>
    obtain ⟨names₁, hstep, h₁⟩ := h.exists_steps hm
    obtain ⟨names', hcuts, h'⟩ := ih h₁
    rw [← h.topRules_eq] at hw ⊢
    exact ⟨names', .piece hw hstep hcuts, h'⟩

/-- A decision that fails does so at a transition that cannot be made. -/
theorem extract_error_cases {pos : Position} {text : List Char} {e : LexError}
    (h : l.extract s pos text = .error e) :
    ∃ i kind n, Wins s.top.rules.recognizers.toList text i kind n ∧
      ((∃ target, s.top.transitions.find? kind = some (.push target) ∧
          l.modes.find? target = none ∧ e = .unknownState target) ∨
        s.top.transitions.find? kind = some .pop ∧ s.below = [] ∧ e = .stateUnderflow pos) := by
  unfold extract at h
  rcases s.top.rules.longest?_cases text with ⟨hnone, -⟩ | ⟨i, kind, n, hsome, hwins⟩
  · rw [hnone] at h
    cases h
  · refine ⟨i, kind, n, hwins, ?_⟩
    rw [hsome] at h
    rcases l.transit_cases s pos kind with
      ⟨s', hok, -⟩ | ⟨target, hpush, hundef, herr⟩ | ⟨hpop, hbelow, herr⟩
    · simp only [hok] at h
      cases h
    · simp only [herr] at h
      cases h
      exact Or.inl ⟨target, hpush, hundef, rfl⟩
    · simp only [herr] at h
      cases h
      exact Or.inr ⟨hpop, hbelow, rfl⟩

/-- **What the lexer returns is the outcome of a run.** -/
theorem lexes_lex (hs : l.start = some start) (hm : l.modes.find? start = some m) (input : String) :
    l.Lexes start (normalizeLines input.toList) (l.lex input) := by
  obtain ⟨cuts, last, rest, result, hcuts, hending, hscan⟩ :=
    scanFrom_cases l.follows ⟨m, []⟩ [] (normalizeLines input.toList)
  obtain ⟨names, hrun, hrep⟩ := (represents_start hm).exists_cuts hcuts
  have htext := hrun.joined
  rw [lex_eq_scan hs hm]
  unfold scan
  rw [show Position.start = .behind [] from rfl, hscan]
  cases hending with
  | complete =>
    rw [List.append_nil] at htext
    refine .complete hrun rfl ?_
    rw [htext]
    exact TokenStream.tokens_ofTokens _ rfl
  | unrecognized hne hnothing =>
    rw [← hrep.topRules_eq] at hnothing
    exact .unrecognized hrun hne hnothing
  | failed hne hextract _ =>
    obtain ⟨i, kind, n, hwins, hcase⟩ := extract_error_cases hextract
    obtain ⟨value, after, rfl, rfl⟩ := hwins.exists_value
    rw [← hrep.topRules_eq] at hwins
    rcases hcase with ⟨target, hpush, hundef, rfl⟩ | ⟨hpop, hbelow, rfl⟩
    · exact .unknown hrun hwins ((hrep.transition?_eq kind).trans hpush) (not_defines_iff.2 hundef)
    · refine .underflow hrun hwins ((hrep.transition?_eq kind).trans hpop) ?_
      rw [hrep.length_eq, hbelow]
      rfl

end Runs

/-! ## The stack of a run -/

/-- A stack of defined states with the starting state at its bottom. -/
structure WellStacked (l : ModalLexer) (start : String) (names : List String) : Prop where
  bottom : names.getLast? = some start
  defined : ∀ name ∈ names, l.Defines name

theorem WellStacked.ne_nil (h : l.WellStacked start names) : names ≠ [] := by
  rintro rfl
  cases h.bottom

theorem wellStacked_start (h : l.Defines start) : l.WellStacked start [start] :=
  ⟨rfl, fun name hname => by rwa [List.mem_singleton.1 hname]⟩

/-- A step keeps the starting state at the bottom and enters a defined state. -/
theorem WellStacked.step (h : l.WellStacked start names) (hs : l.Steps names kind names') :
    l.WellStacked start names' := by
  cases hs with
  | push _ hdef =>
    refine ⟨?_, List.forall_mem_cons.2 ⟨hdef, h.defined⟩⟩
    rw [List.getLast?_cons_of_ne_nil h.ne_nil, h.bottom]
  | pop _ hlen =>
    obtain ⟨top, below, rfl⟩ := List.exists_cons_of_ne_nil h.ne_nil
    have hbelow : below ≠ [] := by
      rintro rfl
      exact absurd hlen (Nat.lt_irrefl 1)
    refine ⟨?_, fun name hname => h.defined name (List.mem_cons_of_mem _ hname)⟩
    rw [List.tail_cons, ← h.bottom, List.getLast?_cons_of_ne_nil hbelow]
  | stay _ => exact h

/-- **A run never empties the stack and enters defined states only.** -/
theorem Cuts.wellStacked {before text rest : List Char} {cuts : List Cut}
    (hc : Cuts l.topRules l.Steps names before text cuts names' rest)
    (h : l.WellStacked start names) : l.WellStacked start names' := by
  induction hc with
  | done => exact h
  | piece _ hm _ ih => exact ih (h.step hm)

/-! ## Lexers put together by their operations -/

/-- What the operations of a lexer make of the one without states. Rules and transitions are given
to states that there are. -/
inductive Built : ModalLexer → Prop
  | empty : Built .empty
  | addMode {l l' : ModalLexer} (h : Built l) (name : String) (ha : l.addMode name = .ok l') : Built l'
  | setMode {l : ModalLexer} (h : Built l) (name : String) (hdef : l.Defines name) (m : LexerMode) :
      Built (l.setMode name m)
  | startIn {l l' : ModalLexer} (h : Built l) (name : String) (hs : l.startIn name = .ok l') : Built l'

theorem defines_insert {m : LexerMode} (h : l.Defines name) (key : String) :
    ∃ m', (l.modes.insert key m).find? name = some m' := by
  obtain ⟨m', hm'⟩ := h
  rw [OrderedMap.find?_insert]
  split
  · exact ⟨m, rfl⟩
  · exact ⟨m', hm'⟩

/-- The starting state of a lexer is defined, as no operation takes a state away. -/
theorem Built.defines_start (h : Built l) (hs : l.start = some start) : l.Defines start := by
  induction h with
  | empty => cases hs
  | @addMode l l' h name ha ih =>
    unfold ModalLexer.addMode at ha
    cases hfind : l.modes.find? name with
    | some m =>
      rw [hfind] at ha
      cases ha
    | none =>
      rw [hfind] at ha
      cases ha
      exact defines_insert (ih hs) name
  | setMode h name hdef m ih => exact defines_insert (ih hs) name
  | @startIn l l' h name hstart ih =>
    unfold ModalLexer.startIn mode at hstart
    cases hfind : l.modes.find? name with
    | none =>
      rw [hfind] at hstart
      cases hstart
    | some m =>
      rw [hfind] at hstart
      cases hstart
      cases hs
      exact ⟨m, hfind⟩

/-! ## Lexers that never change their state -/

/-- Pieces of kinds without transitions are cut off in one state as by its rules alone. -/
theorem cuts_stay {m : LexerMode} (hm : l.modes.find? start = some m) {u last : Unit}
    {before text rest : List Char} {cuts : List Cut}
    (hc : Cuts (fun _ : Unit => m.rules) (fun _ _ _ => True) u before text cuts last rest)
    (hkinds : ∀ c ∈ cuts, m.transitions.find? c.kind = none) :
    Cuts l.topRules l.Steps [start] before text cuts [start] rest := by
  have hrep := represents_start hm
  induction hc with
  | done => exact .done ..
  | piece hw _ _ ih =>
    rw [List.forall_mem_cons] at hkinds
    have hstay := (hrep.transition?_eq _).trans hkinds.1
    rw [← show l.topRules [start] = m.rules from hrep.topRules_eq] at hw ⊢
    exact .piece hw (.stay hstay) (ih hkinds.2)

theorem lex_eq_simple {m : LexerMode} (hs : l.start = some start) (hm : l.modes.find? start = some m)
    (input : String)
    (hkinds : ∀ cuts rest,
      Cuts (fun _ : Unit => m.rules) (fun _ _ _ => True) () [] (normalizeLines input.toList) cuts () rest →
      ∀ c ∈ cuts, m.transitions.find? c.kind = none) :
    l.lex input = (SimpleLexer.mk m.rules).lex input := by
  obtain ⟨cuts, last, rest, result, hcuts, hending, hscan⟩ :=
    scanFrom_cases (SimpleLexer.mk m.rules).follows () [] (normalizeLines input.toList)
  have hrun := cuts_stay hm hcuts (hkinds cuts rest hcuts)
  have hrules : l.topRules [start] = m.rules := (represents_start hm).topRules_eq
  have htext := hrun.joined
  refine lex_of_lexes hs hm ?_
  unfold SimpleLexer.lex scan
  rw [show Position.start = .behind [] from rfl, hscan]
  cases hending with
  | complete =>
    rw [List.append_nil] at htext
    refine .complete hrun rfl ?_
    rw [htext]
    exact TokenStream.tokens_ofTokens _ rfl
  | unrecognized hne hnothing => exact .unrecognized hrun hne (hrules ▸ hnothing)
  | failed _ hextract _ =>
    -- the longest match is never an error
    cases hextract

/-- **A lexer with several states is a pushdown machine.** It returns what the runs over stacks of names
end with; every stack that a run comes to has the starting state at its bottom and holds defined states
only. Where no piece that the rules of the starting state recognize has a transition, the lexer is that
with these rules alone. -/
theorem pushdown_refinement (hl : Built l) (hs : l.start = some start) (input : String) :
    (∀ result, l.lex input = result ↔ l.Lexes start (normalizeLines input.toList) result) ∧
      (∀ cuts names rest,
        Cuts l.topRules l.Steps [start] [] (normalizeLines input.toList) cuts names rest →
        names ≠ [] ∧ names.getLast? = some start ∧ ∀ name ∈ names, l.Defines name) ∧
      ∀ m, l.modes.find? start = some m →
        (∀ cuts rest,
          Cuts (fun _ : Unit => m.rules) (fun _ _ _ => True) () [] (normalizeLines input.toList)
            cuts () rest →
          ∀ c ∈ cuts, m.transitions.find? c.kind = none) →
        l.lex input = (SimpleLexer.mk m.rules).lex input := by
  obtain ⟨mode, hmode⟩ := hl.defines_start hs
  refine ⟨fun result => ⟨?_, lex_of_lexes hs hmode⟩, fun cuts names rest hcuts => ?_,
    fun m hm hkinds => lex_eq_simple hs hm input hkinds⟩
  · rintro rfl
    exact lexes_lex hs hmode input
  · have hstack := Cuts.wellStacked hcuts (wellStacked_start ⟨mode, hmode⟩)
    exact ⟨hstack.ne_nil, hstack.bottom, hstack.defined⟩

/-- A lexer in which brackets nest: each one that opens enters a state, and each one that closes leaves
it. The state `flat` has a transition for a kind that it does not recognize. -/
def nesting (start : String) : ModalLexer where
  modes := .ofList [
    ("outer", ((LexerMode.empty.token "a").token "(" |>.token ")").push "(" "inner" |>.pop ")"),
    ("inner", ((LexerMode.empty.token "b").token "(" |>.token ")").push "(" "inner" |>.pop ")"),
    ("flat", (LexerMode.empty.token "a").push "(" "inner")]
  start := some start

theorem built_nesting (h : start = "outer" ∨ start = "flat") : Built (nesting start) := by
  have houter := (Built.empty.addMode "outer" rfl).setMode "outer" ⟨_, rfl⟩
    (((LexerMode.empty.token "a").token "(" |>.token ")").push "(" "inner" |>.pop ")")
  have hinner := (houter.addMode "inner" rfl).setMode "inner" ⟨_, rfl⟩
    (((LexerMode.empty.token "b").token "(" |>.token ")").push "(" "inner" |>.pop ")")
  have hflat := (hinner.addMode "flat" rfl).setMode "flat" ⟨_, rfl⟩
    ((LexerMode.empty.token "a").push "(" "inner")
  rcases h with rfl | rfl
  · exact hflat.startIn "outer" rfl
  · exact hflat.startIn "flat" rfl

/-- The bracket that closes too much leaves the starting state. In a state that recognizes no kind it has
a transition for, the lexer is that with one set of rules. -/
theorem nesting_runs :
    (Built (nesting "outer") ∧ (nesting "outer").start = some "outer" ∧
      (nesting "outer").Lexes "outer" ['a', '(', '(', 'b', ')', ')', ')']
        (.error (.stateUnderflow ⟨1, 7⟩))) ∧
      Built (nesting "flat") ∧ (nesting "flat").start = some "flat" ∧
        (nesting "flat").lex "aa(" = (SimpleLexer.mk (LexerMode.empty.token "a").rules).lex "aa(" := by
  have houter := built_nesting (Or.inl rfl)
  have hflat := built_nesting (Or.inr rfl)
  refine ⟨⟨houter, rfl, ?_⟩, hflat, rfl, ?_⟩
  · exact ((pushdown_refinement houter rfl "a((b)))").1 _).1 rfl
  · refine (pushdown_refinement hflat rfl "aa(").2.2
      ((LexerMode.empty.token "a").push "(" "inner") rfl fun cuts rest hcuts c hc => ?_
    obtain ⟨-, i, after, hwins, -⟩ := hcuts.exists_wins hc
    obtain ⟨recognizer, hmem, -⟩ := hwins.mem
    have hkind : c.kind = "a" := congrArg Prod.fst (List.mem_singleton.1 hmem)
    rw [hkind]
    rfl

end ModalLexer

end ParserGen
