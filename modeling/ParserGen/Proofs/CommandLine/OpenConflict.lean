import ParserGen.CommandLine.FileTree
import ParserGen.CommandLine.Generator
import ParserGen.Proofs.Automaton.Drawing
import ParserGen.Proofs.GrammarFile.Literals

/-!
# Open conflicts on the command line

If the policy leaves a conflict open, there is no table. The command then writes the drawing that it was
asked for, and fails with the conflict. But a drawing of a state that does not exist cannot be made: the
command fails with that, and says nothing of the conflict.

The file system may be any. What is written to it is seen by running the same command on a file system
that keeps a list of the files written.

* `openResults_of_conflict`: the results for a grammar with an open conflict.
* `process_of_loads`: the command on a file that loads.
* `conflict_reported_iff`: **when an open conflict is reported**, and that no table is written.
* `missing_state_hides_conflict`: a conflict that is not reported.
-/

namespace ParserGen

/-! ## What the message says -/

/-- A text that is part of another. -/
def OccursIn (part text : String) : Prop :=
  ∃ before after, text = before ++ part ++ after

namespace OccursIn

variable {part text : String}

theorem refl (text : String) : OccursIn text text :=
  ⟨"", "", by rw [String.empty_append, String.append_empty]⟩

theorem append_left (h : OccursIn part text) (before : String) : OccursIn part (before ++ text) := by
  obtain ⟨b, a, rfl⟩ := h
  exact ⟨before ++ b, a, by simp only [String.append_assoc]⟩

theorem append_right (h : OccursIn part text) (after : String) : OccursIn part (text ++ after) := by
  obtain ⟨b, a, rfl⟩ := h
  exact ⟨b, a ++ after, by simp only [String.append_assoc]⟩

end OccursIn

section Message

variable {V : Type}

/-- The text names the rules, the terminal and the state of a conflict. -/
structure UnresolvedConflict.NamedIn (c : UnresolvedConflict) (g : Grammar V) (text : String) :
    Prop where
  rule : ∀ rule ∈ c.rules, OccursIn (g.displayNumbered rule) text
  place : OccursIn ("on lookahead \"" ++ g.terminalName c.lookahead ++ "\" in state " ++
    toString c.state) text

theorem UnresolvedConflict.namedIn_message (c : UnresolvedConflict) (g : Grammar V) :
    c.NamedIn g (c.message g) := by
  have hplace : OccursIn ("on lookahead \"" ++ g.terminalName c.lookahead ++ "\" in state " ++
      toString c.state) ("\n\n(on lookahead \"" ++ g.terminalName c.lookahead ++ "\" in state " ++
        toString c.state ++ "). Restructure your grammar or choose a conflict resolution mode.") := by
    refine OccursIn.append_right ?_ _
    have hopen : "\n\n(on lookahead \"" = "\n\n(" ++ "on lookahead \"" := rfl
    have hsplit : ∀ name state : String, "\n\n(on lookahead \"" ++ name ++ "\" in state " ++ state =
        "\n\n(" ++ ("on lookahead \"" ++ name ++ "\" in state " ++ state) := by
      intro name state
      rw [hopen]
      simp only [String.append_assoc]
    rw [hsplit]
    exact (OccursIn.refl _).append_left _
  cases c with
  | shiftReduce state lookahead rule =>
    refine ⟨fun rule' hrule => ?_, hplace.append_left _⟩
    rw [List.mem_singleton.1 hrule]
    exact ((OccursIn.refl _).append_left _).append_right _
  | reduceReduce state lookahead first second =>
    refine ⟨fun rule hrule => ?_, hplace.append_left _⟩
    rcases List.mem_pair.1 hrule with rfl | rfl
    · exact ((((OccursIn.refl _).append_left _).append_right _).append_right _).append_right _
    · exact ((OccursIn.refl _).append_left _).append_right _

end Message

/-! ## The results -/

/-- The drawing is to show a state that does not exist. -/
def Arguments.MissesState (a : Arguments) (automaton : Automaton) : Prop :=
  a.dfa = true ∧ ∃ n, a.state = some n ∧ automaton.size ≤ n

/-- The failure for a state that does not exist. -/
def Failure.ofMissing (n : Nat) : Failure :=
  .ofMessage ("the automaton has no state " ++ toString n)

section Generation

variable {V : Type} {g : Grammar V} {a : Arguments} {c : UnresolvedConflict}

theorem head?_append {first rest : String} {x : Char} (h : first.toList.head? = some x) :
    (first ++ rest).toList.head? = some x := by
  rw [String.toList_append, List.head?_append, h]
  rfl

/-- The two messages begin with different letters. -/
theorem ofMissing_ne_message (n : Nat) (c : UnresolvedConflict) :
    Failure.ofMissing n ≠ .ofMessage (c.message g) := by
  have hmissing : ("the automaton has no state " ++ toString n).toList.head? = some 't' :=
    head?_append (by decide +kernel)
  have hmessage : (c.message g).toList.head? = some 'T' := by
    cases c with
    | shiftReduce state lookahead rule => exact head?_append (head?_append (by decide +kernel))
    | reduceReduce state lookahead first second =>
      exact head?_append (head?_append (head?_append (head?_append (by decide +kernel))))
  intro h
  have htext : "the automaton has no state " ++ toString n = c.message g := congrArg (·.message) h
  rw [htext, hmessage] at hmissing
  exact absurd hmissing (by decide)

/-- A drawing is not written to the file of a table. -/
theorem name_of_drawing {automaton : Automaton} {file : String × String}
    (h : Generation.drawing a g automaton = .ok file) :
    file.1 ≠ "parse_table.json" ∧ file.1 ≠ "parse_table.txt" := by
  -- the names begin with other letters
  have hname : file.1.toList.head? ≠ some 'p' := by
    unfold Generation.drawing at h
    split at h
    · cases h
      show "automaton.dot".toList.head? ≠ some 'p'
      decide
    · split at h
      · cases h
        simp
      · cases h
  refine ⟨fun hfile => hname ?_, fun hfile => hname ?_⟩
  · rw [hfile]
    decide
  · rw [hfile]
    decide

/-- The results for a grammar with an open conflict: the drawing, if it was asked for and can be made,
and the failure. -/
theorem generate_of_conflict (h : g.analyze.outcome = .error c) :
    (∃ n, a.dfa = true ∧ a.state = some n ∧ g.automaton.size ≤ n ∧
      g.generate a = ⟨[], [], some (.ofMissing n)⟩) ∨
    ¬ a.MissesState g.automaton ∧ ∃ files, (∀ file ∈ files,
      Generation.drawing a g g.automaton = .ok file) ∧
      g.generate a = ⟨[], files, some (.ofMessage (c.message g))⟩ := by
  unfold Grammar.generate Generation.addDrawing
  simp only [h]
  have hautomaton : g.analyze.automaton = g.automaton := rfl
  rw [hautomaton]
  by_cases hdfa : a.dfa = true
  · rw [if_pos hdfa]
    -- only the drawing of a state that is not there fails
    cases hd : Generation.drawing a g g.automaton with
    | ok file =>
      right
      refine ⟨?_, [file], ?_, rfl⟩
      · rintro ⟨-, n, hn, hsize⟩
        unfold Generation.drawing at hd
        simp only [hn, Dot.state?_eq_none_iff.2 hsize] at hd
        cases hd
      · intro f hf
        rw [List.mem_singleton.1 hf]
    | error failure =>
      left
      unfold Generation.drawing at hd
      split at hd
      · cases hd
      · rename_i n hn
        split at hd
        · cases hd
        · rename_i hnone
          cases hd
          exact ⟨n, hdfa, hn, Dot.state?_eq_none_iff.1 hnone, rfl⟩
  · rw [if_neg hdfa]
    exact Or.inr ⟨fun hmiss => hdfa hmiss.1, [], by simp, rfl⟩

/-- What the results for a grammar with an open conflict are: files, none of them with a table, and a
failure. It is the conflict, unless a state cannot be drawn. -/
structure OpenResults (a : Arguments) (g : Grammar V) (c : UnresolvedConflict)
    (files : List (String × String)) (failure : Failure) : Prop where
  results : g.generate a = ⟨[], files, some failure⟩
  noTable : ∀ file ∈ files, file.1 ≠ "parse_table.json" ∧ file.1 ≠ "parse_table.txt"
  reported : failure = .ofMessage (c.message g) ↔ ¬ a.MissesState g.automaton
  hidden : ∀ n, a.state = some n → a.MissesState g.automaton → failure = .ofMissing n

/-- **The results for a grammar with an open conflict.** -/
theorem openResults_of_conflict (a : Arguments) (h : g.analyze.outcome = .error c) :
    ∃ failure, OpenResults a g c (g.generate a).files failure := by
  rcases generate_of_conflict (a := a) h with
    ⟨n, hdfa, hn, hsize, hresults⟩ | ⟨hmiss, files, hfiles, hresults⟩
  · have hmisses : a.MissesState g.automaton := ⟨hdfa, n, hn, hsize⟩
    refine ⟨.ofMissing n, ?_⟩
    rw [hresults]
    refine ⟨hresults, by simp, ?_, ?_⟩
    · exact iff_of_false (ofMissing_ne_message n c) (not_not_intro hmisses)
    · intro m hm _
      rw [Option.some.inj (hn.symm.trans hm)]
  · refine ⟨.ofMessage (c.message g), ?_⟩
    rw [hresults]
    refine ⟨hresults, fun file hfile => name_of_drawing (hfiles file hfile), iff_of_true rfl hmiss, ?_⟩
    exact fun _ _ hmisses => absurd hmisses hmiss

end Generation

/-! ## The command on a file system -/

namespace Generator

/-- The bytes of a text are read as this text. -/
theorem ofBytes_toUTF8 {V : Type} (source : String) :
    (Grammar.ofBytes (.ok source.toUTF8) : Except GrammarFile.Error (Grammar V)) =
      Grammar.ofSource source := by
  have hsource : String.fromUTF8? source.toUTF8 = some source := dif_pos source.isValidUTF8
  simp only [Grammar.ofBytes, Except.mapError, bind, Except.bind, hsource]

section Run

variable {σ : Type} {s s' : σ}

theorem run_bind_ok {α β : Type} {x : ExceptT Failure (StateM σ) α}
    {f : α → ExceptT Failure (StateM σ) β} {v : α} (h : x.run.run s = (.ok v, s')) :
    (x >>= f).run.run s = (f v).run.run s' := by
  rw [ExceptT.run_bind, StateT.run_bind, h]
  rfl

theorem run_attempt {α : Type} {failure : FileError → Failure} {x : StateM σ (Except FileError α)}
    {v : α} (h : x.run s = (.ok v, s')) : (attempt failure x).run.run s = (.ok v, s') := by
  unfold attempt
  rw [ExceptT.run_mk, StateT.run_bind, h]
  rfl

theorem run_lift {α : Type} {x : StateM σ α} {v : α} (h : x.run s = (v, s')) :
    (ExceptT.lift x : ExceptT Failure (StateM σ) α).run.run s = (.ok v, s') := by
  rw [ExceptT.run_lift, StateT.run_map, h]
  rfl

end Run

variable {σ : Type} [FileSystem (StateM σ)]

/-- What the command does to a file system in the state `s`. -/
def runOn (a : Arguments) (s : σ) : Except Failure Unit × σ :=
  (process a : ExceptT Failure (StateM σ) Unit).run.run s

/-- The grammar file is found and describes a grammar, and there is the directory for the results. -/
inductive Loads (a : Arguments) (s : σ) : String → Grammar Unit → σ → Prop
  | intro {input directory : String} {contents : Except FileError ByteArray} {g : Grammar Unit}
      {s₁ s₂ s₃ : σ}
      (hinput : (FileSystem.canonicalize a.input : StateM σ _).run s = (.ok input, s₁))
      (hdirectory : directory = a.outputDir.getD ((Path.parent? input).getD ""))
      (hcreate : (FileSystem.createDirectories directory : StateM σ _).run s₁ = (.ok (), s₂))
      (hread : (FileSystem.readFile input : StateM σ _).run s₂ = (contents, s₃))
      (hgrammar : Grammar.ofBytes contents = .ok g) : Loads a s directory g s₃

/-- All files can be written to the directory, one after the other. -/
inductive Writes (directory : String) : σ → List (String × String) → σ → Prop
  | nil {s : σ} : Writes directory s [] s
  | cons {s s' s'' : σ} {name contents : String} {files : List (String × String)}
      (hwrite : (FileSystem.writeFile (Path.join directory name) contents : StateM σ _).run s =
        (.ok (), s'))
      (hrest : Writes directory s' files s'') : Writes directory s ((name, contents) :: files) s''

variable {a : Arguments} {s s' : σ} {directory : String} {g : Grammar Unit}

/-- **The command on a file that loads** delivers the results for its grammar. -/
theorem process_of_loads (h : Loads a s directory g s') :
    runOn a s = (deliver directory (g.generate a) : ExceptT Failure (StateM σ) Unit).run.run s' := by
  cases h with
  | intro hinput hdirectory hcreate hread hgrammar =>
    subst hdirectory
    unfold runOn process
    rw [run_bind_ok (run_attempt hinput)]
    dsimp only
    rw [run_bind_ok (run_attempt hcreate), run_bind_ok (run_lift hread), hgrammar]

theorem run_writeFiles {files : List (String × String)} (h : Writes directory s files s') :
    (writeFiles directory files : ExceptT Failure (StateM σ) Unit).run.run s = (.ok (), s') := by
  induction h with
  | nil => rfl
  | cons hwrite _ ih =>
    rw [writeFiles, run_bind_ok (run_attempt hwrite), ih]

/-- Results with a failure are delivered up to the files, and then the command fails. -/
theorem run_deliver {files : List (String × String)} {failure : Failure} {s₁ : σ}
    (hprint : (FileSystem.print "" : StateM σ Unit).run s = ((), s₁))
    (h : Writes directory s₁ files s') :
    (deliver directory ⟨[], files, some failure⟩ : ExceptT Failure (StateM σ) Unit).run.run s =
      (.error failure, s') := by
  have hlines : String.join (([] : List String).map fun line => line ++ "\n") = "" := rfl
  unfold deliver
  dsimp only
  rw [hlines, run_bind_ok (run_lift hprint), run_bind_ok (run_writeFiles h)]
  rfl

/-! ## What is written -/

/-- A file system with the list of the files written to it, by path and contents. -/
structure Recorded (σ : Type) where
  world : σ
  written : List (String × String)

namespace Recorded

/-- A computation that writes no files. -/
def silent {τ α : Type} (x : StateM τ α) : StateM (Recorded τ) α := fun r =>
  let (v, s) := x.run r.world
  (v, { r with world := s })

theorem run_silent {τ α : Type} {x : StateM τ α} {s s' : τ} {v : α} (h : x.run s = (v, s'))
    (written : List (String × String)) : (silent x).run ⟨s, written⟩ = (v, ⟨s', written⟩) := by
  show (let (v, s) := x.run s; (v, (⟨s, written⟩ : Recorded τ))) = _
  rw [h]

instance : FileSystem (StateM (Recorded σ)) where
  canonicalize path := silent (FileSystem.canonicalize path)
  isDirectory path := silent (FileSystem.isDirectory path)
  makeDirectory path := silent (FileSystem.makeDirectory path)
  readFile path := silent (FileSystem.readFile path)
  writeFile path contents := fun r =>
    let (v, s) := (FileSystem.writeFile path contents : StateM σ _).run r.world
    (v, ⟨s, r.written ++ [(path, contents)]⟩)
  print text := silent (FileSystem.print text)

theorem silent_bind {τ α β : Type} (x : StateM τ α) (f : α → StateM τ β) :
    silent (x >>= f) = silent x >>= fun v => silent (f v) :=
  rfl

theorem ensureDirectory_silent (path : String) :
    (FileSystem.ensureDirectory path : StateM (Recorded σ) _) =
      silent (FileSystem.ensureDirectory path) := by
  unfold FileSystem.ensureDirectory
  rw [silent_bind]
  refine bind_congr fun result => ?_
  cases result with
  | ok _ => rfl
  | error e => rfl

theorem makeNested_silent (paths : List String) :
    (FileSystem.makeNested paths : StateM (Recorded σ) _) = silent (FileSystem.makeNested paths) := by
  induction paths with
  | nil => rfl
  | cons path above ih =>
    rw [FileSystem.makeNested, FileSystem.makeNested, silent_bind, ensureDirectory_silent, ih]
    refine bind_congr fun result => ?_
    split
    · rw [silent_bind]
      refine bind_congr fun nested => ?_
      cases nested with
      | ok _ => rfl
      | error e => rfl
    · rfl

/-- Making directories writes no files. -/
theorem createDirectories_silent (path : String) :
    (FileSystem.createDirectories path : StateM (Recorded σ) _) =
      silent (FileSystem.createDirectories path) := by
  unfold FileSystem.createDirectories
  split
  · rfl
  · exact makeNested_silent _

/-- What can be loaded can be loaded where the files written are listed, and none is written. -/
theorem loads (h : Loads a s directory g s') (written : List (String × String)) :
    Loads a (⟨s, written⟩ : Recorded σ) directory g ⟨s', written⟩ := by
  cases h with
  | intro hinput hdirectory hcreate hread hgrammar =>
    refine .intro (run_silent hinput written) hdirectory ?_ (run_silent hread written) hgrammar
    rw [createDirectories_silent]
    exact run_silent hcreate written

theorem writes {files : List (String × String)} (h : Writes directory s files s')
    (written : List (String × String)) :
    Writes directory (⟨s, written⟩ : Recorded σ) files
      ⟨s', written ++ files.map fun f => (Path.join directory f.1, f.2)⟩ := by
  induction h generalizing written with
  | nil =>
    rw [List.map_nil, List.append_nil]
    exact .nil
  | @cons s₁ s₂ s₃ name contents files hwrite hrest ih =>
    have hnext := ih (written ++ [(Path.join directory name, contents)])
    rw [List.append_assoc] at hnext
    refine .cons ?_ hnext
    show (let (v, s) := (FileSystem.writeFile (Path.join directory name) contents : StateM σ _).run s₁
      (v, (⟨s, written ++ [(Path.join directory name, contents)]⟩ : Recorded σ))) = _
    rw [hwrite]

end Recorded

/-! ## The end of the command -/

theorem join_inj {directory name name' : String}
    (h : Path.join directory name = Path.join directory name') : name = name' := by
  unfold Path.join at h
  split at h
  · exact (String.append_right_inj _).1 h
  · exact (String.append_right_inj _).1 h

/-- How the command ends on a grammar with an open conflict: the failure and the final state, the files
written to the directory, and which failure it is. -/
structure EndsOpen (a : Arguments) (s s' : σ) (directory : String) (g : Grammar Unit)
    (c : UnresolvedConflict) (failure : Failure) : Prop where
  run : runOn a s = (.error failure, s')
  written : ∀ before, runOn a (⟨s, before⟩ : Recorded σ) =
    (.error failure, ⟨s', before ++
      (g.generate a).files.map fun f => (Path.join directory f.1, f.2)⟩)
  noTable : ∀ name ∈ ["parse_table.json", "parse_table.txt"], ∀ f ∈ (g.generate a).files,
    Path.join directory f.1 ≠ Path.join directory name
  reported : failure = .ofMessage (c.message g) ↔ ¬ a.MissesState g.automaton
  hidden : ∀ n, a.state = some n → a.MissesState g.automaton → failure = .ofMissing n
  named : c.NamedIn g (c.message g)

/-- The state after the report of the settled conflicts, of which there are none. -/
def printed (s : σ) : σ :=
  ((FileSystem.print "" : StateM σ Unit).run s).2

variable {c : UnresolvedConflict} {s₁ : σ}

theorem runOn_of_conflict {files : List (String × String)} {failure : Failure}
    (hload : Loads a s directory g s₁) (hresults : g.generate a = ⟨[], files, some failure⟩)
    (hwrites : Writes directory (printed s₁) files s') : runOn a s = (.error failure, s') := by
  rw [process_of_loads hload, hresults]
  exact run_deliver rfl hwrites

/-- **When an open conflict is reported.** Let the file load, let a conflict of its grammar be left open,
and let the drawing be written if there is one. Then the command fails with the message of the conflict,
which names its rules, terminal and state, exactly if it is not asked to draw a state that does not
exist; in that case it fails with this. Either way no table is written. -/
theorem conflict_reported_iff (hload : Loads a s directory g s₁)
    (hconflict : g.analyze.outcome = .error c)
    (hwrites : Writes directory (printed s₁) (g.generate a).files s') :
    ∃ failure, EndsOpen a s s' directory g c failure := by
  obtain ⟨failure, hopen⟩ := openResults_of_conflict a hconflict
  have hrecorded : ∀ before, Writes directory (printed (⟨s₁, before⟩ : Recorded σ))
      (g.generate a).files _ := fun before => Recorded.writes hwrites before
  refine ⟨failure, runOn_of_conflict hload hopen.results hwrites, fun before =>
    runOn_of_conflict (Recorded.loads hload before) hopen.results (hrecorded before), ?_,
    hopen.reported, hopen.hidden, c.namedIn_message g⟩
  intro name hname f hf hjoin
  have hdrawing := hopen.noTable f hf
  rw [join_inj hjoin] at hdrawing
  rcases List.mem_pair.1 hname with rfl | rfl
  · exact hdrawing.1 rfl
  · exact hdrawing.2 rfl

/-! ## A conflict that is not reported -/

/-- A rule with two empty alternatives, between which nothing decides. -/
def openSource : String :=
  "%start S;\nS : | ;"

/-- Its tokens, up to the one that ends it. -/
def openTokens : List Token :=
  [⟨"%start", "%start", 1, 1⟩, ⟨"IDENT", "S", 1, 8⟩, ⟨";", ";", 1, 9⟩,
   ⟨"IDENT", "S", 2, 1⟩, ⟨":", ":", 2, 3⟩, ⟨"|", "|", 2, 5⟩, ⟨";", ";", 2, 7⟩]

/-- The declarations that these spell. -/
def openDeclarations : List GrammarFile.Declaration :=
  [.start "S", .rule "S" [⟨[], none⟩, ⟨[], none⟩]]

theorem open_spells : GrammarFile.Spells openTokens openDeclarations := by
  have hempty : GrammarFile.SpellsAlternative [] ⟨[], none⟩ := .symbols .nil .none
  have hstart : GrammarFile.SpellsDeclaration (openTokens.take 3) (.start "S") := .start rfl rfl rfl
  have hrule : GrammarFile.SpellsDeclaration (openTokens.drop 3) (.rule "S" [⟨[], none⟩, ⟨[], none⟩]) :=
    .rule rfl rfl (.more (.first hempty) rfl hempty) rfl
  exact (GrammarFile.Spells.nil.more hstart).more hrule

/-- The grammar of the source. -/
def openGrammar : Grammar Unit :=
  ((GrammarFile.mk openDeclarations).lower).toOption.get (by decide +kernel)

theorem open_source : Grammar.ofSource openSource = .ok openGrammar := by
  obtain ⟨-, -, -, -, -, hsource⟩ : ∃ l stream, GrammarFile.lexer = .ok l ∧
      l.lex openSource = .ok stream ∧ stream.tokens.toList = openTokens ++ [Token.eof 2 8] ∧
      Grammar.ofSource openSource = .ok openGrammar :=
    GrammarFile.ofSource_of_spells (by decide +kernel) open_spells (eq_ok_get _ _)
  exact hsource

/-- The two alternatives compete for `$eof` in the first state. -/
def openRivals : UnresolvedConflict :=
  .reduceReduce 0 Terminal.eof 1 2

theorem open_conflict : openGrammar.analyze.outcome = .error openRivals := by
  have hconflict : (match openGrammar.analyze.outcome with
      | .error c => some c
      | .ok _ => none) = some openRivals := by
    decide +kernel
  split at hconflict
  · rename_i c hc
    rw [hc, Option.some.inj hconflict]
  · cases hconflict

/-- The call of the command that asks for a drawing of a state. -/
def openArguments (state : Nat) : Arguments :=
  { input := "g.grammar", debug := false, dfa := true, state := some state, outputDir := none }

/-- A workspace with the source as its only file. -/
def openWorkspace : Workspace where
  tree := FileTree.empty.put ["g.grammar"] (.file openSource)
  current := []
  printed := ""

theorem open_loads (state : Nat) :
    Loads (openArguments state) openWorkspace "/" openGrammar openWorkspace := by
  have hinput : openWorkspace.canonicalize "g.grammar" = .ok "/g.grammar" := rfl
  have hdirectory : Path.parent? "/g.grammar" = some "/" := rfl
  have hcreate : (FileSystem.createDirectories "/" : StateM Workspace _).run openWorkspace =
    (.ok (), openWorkspace) := rfl
  have hread : openWorkspace.readFile "/g.grammar" = .ok openSource.toUTF8 := rfl
  have hgrammar := (ofBytes_toUTF8 openSource).trans open_source
  refine .intro (congrArg (·, openWorkspace) hinput) ?_ hcreate
    (congrArg (·, openWorkspace) hread) hgrammar
  rw [hdirectory]
  rfl

theorem open_size : openGrammar.automaton.size = 2 := by
  decide +kernel

/-- The drawing of a state that exists is written next to the source. -/
theorem open_writes : ∃ s', Writes "/" (printed openWorkspace)
    (openGrammar.generate (openArguments 1)).files s' := by
  have hnames : (openGrammar.generate (openArguments 1)).files.map (·.1) = ["state_1.dot"] := by
    decide +kernel
  obtain ⟨⟨name, contents⟩, hfiles, rfl⟩ := List.map_eq_singleton_iff.1 hnames
  rw [hfiles]
  exact ⟨_, .cons rfl .nil⟩

theorem open_conflict_reported : ∃ s', runOn (openArguments 1) openWorkspace =
    (.error (.ofMessage (openRivals.message openGrammar)), s') := by
  obtain ⟨s', hwrites⟩ := open_writes
  obtain ⟨failure, hends⟩ := conflict_reported_iff (open_loads 1) open_conflict hwrites
  have hexists : ¬ (openArguments 1).MissesState openGrammar.automaton := by
    rintro ⟨-, n, hn, hsize⟩
    cases hn
    rw [open_size] at hsize
    exact absurd hsize (by decide)
  have hrun := hends.run
  rw [hends.reported.2 hexists] at hrun
  exact ⟨s', hrun⟩

/-- **A conflict that is not reported.** The file loads and a conflict of its grammar is left open, but
the command fails with the state that it cannot draw. -/
theorem missing_state_hides_conflict :
    Arguments.parse ["g.grammar", "--dfa", "--state", "9"] = .ok (openArguments 9) ∧
      Grammar.ofSource openSource = .ok openGrammar ∧
      openGrammar.analyze.outcome = .error openRivals ∧
      runOn (openArguments 9) openWorkspace = (.error (.ofMissing 9), openWorkspace) ∧
      Failure.ofMissing 9 ≠ .ofMessage (openRivals.message openGrammar) := by
  refine ⟨rfl, open_source, open_conflict, ?_, ofMissing_ne_message 9 openRivals⟩
  have hmisses : (openArguments 9).MissesState openGrammar.automaton :=
    ⟨rfl, 9, rfl, by rw [open_size]; decide⟩
  rcases generate_of_conflict (a := openArguments 9) open_conflict with ⟨n, -, hn, -, h⟩ | ⟨hmiss, -⟩
  · cases hn
    exact runOn_of_conflict (open_loads 9) h .nil
  · exact absurd hmisses hmiss

end Generator

end ParserGen
