import Mathlib.Data.List.Forall2
import ParserGen.Automaton.Dot

/-!
# A reader for drawings

Drawings are read from left to right, one character after the other. A quote opens a label and the next
quote closes it, unless a backslash stands before it: a backslash takes the character behind it into the
label, where `n` stands for the end of a line. Outside of labels there are words and marks. The reader
knows the statements of which drawings are made: settings, nodes and edges.

The reader takes each part of a drawing as what it was written for, whatever has been read before.

* `Drawing.read`: the drawing that a text is read as.
* `standsFor_escape`: **an escaped name of any characters stands for the name.**
* `read_graph`: **a drawing is read as what its parts spell.**
-/

namespace ParserGen.Dot

/-! ## The reader -/

/-- A piece of a text. -/
inductive Piece where
  | word (letters : String)
  | quoted (label : String)
  | mark (c : Char)
deriving DecidableEq

/-- Where the reader stands: behind some letters of a word, in a label, or behind a backslash in a
label. -/
inductive Mode where
  | word (letters : List Char)
  | label (text : List Char)
  | escaped (text : List Char)

/-- The pieces read so far and where the reader stands. -/
structure Scanner where
  pieces : List Piece
  mode : Mode

namespace Scanner

/-- Nothing has been read. -/
def start : Scanner :=
  ⟨[], .word []⟩

/-- Whether a character separates words. -/
def isBlank (c : Char) : Bool :=
  c == ' ' || c == '\n'

/-- Whether a character is a piece by itself. -/
def isMark (c : Char) : Bool :=
  ['\x7b', '\x7d', '[', ']', '=', ';'].contains c

/-- The word that has come to its end, if there is one. -/
def endWord : List Char → List Piece
  | [] => []
  | letters => [.word (String.ofList letters)]

/-- Reads one character. -/
def step (s : Scanner) (c : Char) : Scanner :=
  match s.mode with
  | .word letters =>
    if c = '"' then ⟨s.pieces ++ endWord letters, .label []⟩
    else if isBlank c then ⟨s.pieces ++ endWord letters, .word []⟩
    else if isMark c then ⟨s.pieces ++ endWord letters ++ [.mark c], .word []⟩
    else ⟨s.pieces, .word (letters ++ [c])⟩
  | .label text =>
    if c = '"' then ⟨s.pieces ++ [.quoted (String.ofList text)], .word []⟩
    else if c = '\\' then ⟨s.pieces, .escaped text⟩
    else ⟨s.pieces, .label (text ++ [c])⟩
  | .escaped text => ⟨s.pieces, .label (text ++ [if c = 'n' then '\n' else c])⟩

/-- Reads a text. -/
def run (s : Scanner) (text : String) : Scanner :=
  text.toList.foldl step s

theorem run_append (s : Scanner) (first second : String) :
    s.run (first ++ second) = (s.run first).run second := by
  unfold run
  rw [String.toList_append, List.foldl_append]

/-- The same place in a text with other pieces before it. -/
def behind (before : List Piece) (s : Scanner) : Scanner :=
  { s with pieces := before ++ s.pieces }

theorem step_behind (before : List Piece) (s : Scanner) (c : Char) :
    (s.behind before).step c = (s.step c).behind before := by
  obtain ⟨pieces, mode⟩ := s
  cases mode with
  | word letters =>
    simp only [step, behind]
    split_ifs
    · rw [List.append_assoc]
    · rw [List.append_assoc]
    · simp only [List.append_assoc]
    · rfl
  | label text =>
    simp only [step, behind]
    split_ifs
    · rw [List.append_assoc]
    · rfl
    · rfl
  | escaped text => rfl

/-- What was read before makes no difference. -/
theorem run_behind (before : List Piece) (s : Scanner) (text : String) :
    (s.behind before).run text = (s.run text).behind before := by
  unfold run
  induction text.toList generalizing s with
  | nil => rfl
  | cons c cs ih => rw [List.foldl_cons, List.foldl_cons, step_behind, ih]

end Scanner

/-- A statement of a drawing. -/
inductive Statement where
  | setting (name value : String)
  | node (n : Nat) (label : String)
  | edge (source target : Nat) (label : String)
deriving DecidableEq

namespace Statement

/-- The text between the quotes. -/
def label : Statement → String
  | .setting _ value => value
  | .node _ label => label
  | .edge _ _ label => label

/-- The number and the label of a node. -/
def node? : Statement → Option (Nat × String)
  | .node n label => some (n, label)
  | _ => none

/-- Where an edge begins and ends, and its label. -/
def edge? : Statement → Option (Nat × Nat × String)
  | .edge source target label => some (source, target, label)
  | _ => none

/-- The node with a number and a label. -/
def ofNode (e : Nat × String) : Statement :=
  .node e.1 e.2

/-- The edge with its two ends and a label. -/
def ofEdge (e : Nat × Nat × String) : Statement :=
  .edge e.1 e.2.1 e.2.2

end Statement

/-- The number that a word of digits is for. -/
def number? (word : String) : Option Nat :=
  if !word.isEmpty && word.toList.all Char.isDigit then some (Nat.ofDigitChars 10 word.toList 0)
  else none

/-- The statements up to the brace that ends a drawing. -/
def readStatements : List Piece → Option (List Statement)
  | [.mark '\x7d'] => some []
  | .word name :: .mark '=' :: .quoted value :: .mark ';' :: rest => do
    let statements ← readStatements rest
    return .setting name value :: statements
  | .word n :: .mark '[' :: .word "label" :: .mark '=' :: .quoted label :: .mark ']' :: .mark ';' ::
      rest => do
    let n ← number? n
    let statements ← readStatements rest
    return .node n label :: statements
  | .word source :: .word "->" :: .word target :: .mark '[' :: .word "label" :: .mark '=' ::
      .quoted label :: .mark ']' :: .mark ';' :: rest => do
    let source ← number? source
    let target ← number? target
    let statements ← readStatements rest
    return .edge source target label :: statements
  | _ => none

/-- A drawing with its name. -/
structure Drawing where
  name : String
  statements : List Statement
deriving DecidableEq

namespace Drawing

/-- All labels in order. -/
def labels (d : Drawing) : List String :=
  d.statements.map Statement.label

/-- The nodes with their labels. -/
def nodes (d : Drawing) : List (Nat × String) :=
  d.statements.filterMap Statement.node?

/-- The edges, from where to where, with their labels. -/
def edges (d : Drawing) : List (Nat × Nat × String) :=
  d.statements.filterMap Statement.edge?

/-- The drawing from left to right with the given nodes and edges. -/
def ofParts (name : String) (nodes : List (Nat × String)) (edges : List (Nat × Nat × String)) :
    Drawing :=
  ⟨name, .setting "rankdir" "LR" :: (nodes.map Statement.ofNode ++ edges.map Statement.ofEdge)⟩

section Parts

variable (name : String) (parts : List (Nat × String)) (links : List (Nat × Nat × String))

theorem labels_ofParts : (ofParts name parts links).labels =
    "LR" :: (parts.map (·.2) ++ links.map (·.2.2)) := by
  unfold labels ofParts
  rw [List.map_cons, List.map_append, List.map_map, List.map_map]
  rfl

theorem nodes_ofParts : (ofParts name parts links).nodes = parts := by
  have hnode : Statement.node? ∘ Statement.ofNode = some := rfl
  have hedge : Statement.node? ∘ Statement.ofEdge = fun _ => none := rfl
  unfold nodes ofParts
  rw [List.filterMap_cons_none rfl, List.filterMap_append, List.filterMap_map, List.filterMap_map, hnode,
    hedge, List.filterMap_some, List.filterMap_none, List.append_nil]

theorem edges_ofParts : (ofParts name parts links).edges = links := by
  have hnode : Statement.edge? ∘ Statement.ofNode = fun _ => none := rfl
  have hedge : Statement.edge? ∘ Statement.ofEdge = some := rfl
  unfold edges ofParts
  rw [List.filterMap_cons_none rfl, List.filterMap_append, List.filterMap_map, List.filterMap_map, hnode,
    hedge, List.filterMap_some, List.filterMap_none, List.nil_append]

end Parts

/-- The drawing that a text is read as. Its last label must be closed. -/
def read (text : String) : Option Drawing :=
  match Scanner.start.run text with
  | ⟨.word "digraph" :: .word name :: .mark '\x7b' :: pieces, .word []⟩ => do
    let statements ← readStatements pieces
    return ⟨name, statements⟩
  | _ => none

end Drawing

theorem toString_ne_empty (n : Nat) : toString n ≠ "" := by
  rw [Nat.toString_eq_ofList_toDigits]
  intro h
  exact Nat.toDigits_ne_nil (String.ofList_eq_empty_iff.1 h)

theorem isDigit_toString (n : Nat) : ∀ c ∈ (toString n).toList, c.isDigit = true := by
  intro c hc
  rw [Nat.toString_eq_ofList_toDigits, String.toList_ofList] at hc
  exact Nat.isDigit_of_mem_toDigits (by decide) (Nat.le_refl 10) hc

theorem number?_toString (n : Nat) : number? (toString n) = some n := by
  have hdigits : (!(toString n).isEmpty && (toString n).toList.all Char.isDigit) = true := by
    rw [Bool.and_eq_true, Bool.not_eq_true', List.all_eq_true]
    exact ⟨Bool.eq_false_iff.2 fun h => toString_ne_empty n (String.isEmpty_iff.1 h), isDigit_toString n⟩
  unfold number?
  rw [if_pos hdigits, Nat.toString_eq_ofList_toDigits, String.toList_ofList,
    Nat.ofDigitChars_ten_toDigits]

/-- The pieces that the label of a node or an edge is written in. -/
def labelPieces (label : String) : List Piece :=
  [.mark '[', .word "label", .mark '=', .quoted label, .mark ']', .mark ';']

/-- The pieces that a statement is written in. -/
def Statement.pieces : Statement → List Piece
  | .setting name value => [.word name, .mark '=', .quoted value, .mark ';']
  | .node n label => .word (toString n) :: labelPieces label
  | .edge source target label =>
    .word (toString source) :: .word "->" :: .word (toString target) :: labelPieces label

/-- What a statement is written in is read as the statement. -/
theorem readStatements_pieces (s : Statement) (rest : List Piece) :
    readStatements (s.pieces ++ rest) = (readStatements rest).map (s :: ·) := by
  rw [Option.map_eq_bind]
  cases s with
  | setting name value => rfl
  | node n label =>
    show ((number? (toString n)).bind fun n => _) = _
    rw [number?_toString]
    rfl
  | edge source target label =>
    show ((number? (toString source)).bind fun source =>
      (number? (toString target)).bind fun target => _) = _
    rw [number?_toString, number?_toString]
    rfl

/-! ## Labels -/

/-- Inside a label the text is read as the given characters. -/
def StandsFor (text label : String) : Prop :=
  ∀ (pieces : List Piece) (before : List Char),
    Scanner.run ⟨pieces, .label before⟩ text = ⟨pieces, .label (before ++ label.toList)⟩

section Labels

variable {text text' label label' : String}

theorem StandsFor.append (h : StandsFor text label) (h' : StandsFor text' label') :
    StandsFor (text ++ text') (label ++ label') := by
  intro pieces before
  rw [Scanner.run_append, h, h', String.toList_append, List.append_assoc]

theorem StandsFor.empty : StandsFor "" "" := by
  intro pieces before
  rw [String.toList_empty, List.append_nil]
  rfl

/-- A backslash and the letter n stand for the end of a line. -/
theorem StandsFor.newline : StandsFor "\\n" "\n" :=
  fun _ _ => rfl

/-- Whether a character stands for itself in a label. -/
def isPlain (c : Char) : Bool :=
  c != '"' && c != '\\'

/-- Characters other than quotes and backslashes stand for themselves. -/
theorem StandsFor.plain (h : text.toList.all isPlain = true) : StandsFor text text := by
  intro pieces before
  unfold Scanner.run
  generalize text.toList = cs at h
  induction cs generalizing before with
  | nil => simp
  | cons c cs ih =>
    rw [List.all_cons, Bool.and_eq_true] at h
    have hstep : Scanner.step ⟨pieces, .label before⟩ c = ⟨pieces, .label (before ++ [c])⟩ := by
      obtain ⟨hquote, hback⟩ : c ≠ '"' ∧ c ≠ '\\' := by simpa [isPlain] using h.1
      simp [Scanner.step, hquote, hback]
    rw [List.foldl_cons, hstep, ih _ h.2, List.append_assoc]
    rfl

/-- The two passes together: the backslashes of the first one are left alone by the second. -/
theorem escape_eq_flatMap (name : String) : escape name =
    String.ofList (name.toList.flatMap fun c => if c = '\\' ∨ c = '"' then ['\\', c] else [c]) := by
  unfold escape shield
  rw [List.flatMap_assoc]
  congr 2
  funext c
  by_cases hback : c = '\\'
  · subst hback
    rfl
  · by_cases hquote : c = '"'
    · subst hquote
      rfl
    · simp [hback, hquote]

/-- **An escaped name of any characters stands for the name.** -/
theorem standsFor_escape (name : String) : StandsFor (escape name) name := by
  intro pieces before
  unfold Scanner.run
  rw [escape_eq_flatMap, String.toList_ofList]
  induction name.toList generalizing before with
  | nil => simp
  | cons c cs ih =>
    -- one character is read as itself, with or without a backslash before it
    have hchar : List.foldl Scanner.step ⟨pieces, .label before⟩
        (if c = '\\' ∨ c = '"' then ['\\', c] else [c]) = ⟨pieces, .label (before ++ [c])⟩ := by
      split
      · rename_i hc
        have hn : c ≠ 'n' := by rcases hc with rfl | rfl <;> decide
        simp [Scanner.step, hn]
      · rename_i hc
        obtain ⟨hback, hquote⟩ := not_or.1 hc
        simp [Scanner.step, hback, hquote]
    rw [List.flatMap_cons, List.foldl_append, hchar, ih, List.append_assoc]
    rfl

/-- Texts with something between them stand for their labels with the same between them. -/
theorem StandsFor.intercalate {between between' : String} (hbetween : StandsFor between between')
    {texts labels : List String} (h : List.Forall₂ StandsFor texts labels) :
    StandsFor (between.intercalate texts) (between'.intercalate labels) := by
  induction h with
  | nil => exact .empty
  | @cons text label texts labels hfirst hrest ih =>
    cases hrest with
    | nil => rwa [String.intercalate_singleton, String.intercalate_singleton]
    | cons hsecond hrest =>
      rw [String.intercalate_cons_cons, String.intercalate_cons_cons]
      exact (hfirst.append hbetween).append ih

end Labels

/-! ## Statements -/

/-- The text is read as the pieces, the last of which has come to its end. -/
def Spells (text : String) (pieces : List Piece) : Prop :=
  Scanner.start.run text = ⟨pieces, .word []⟩

section Statements

variable {text text' label : String} {pieces pieces' : List Piece}

theorem Spells.append (h : Spells text pieces) (h' : Spells text' pieces') :
    Spells (text ++ text') (pieces ++ pieces') := by
  have hbehind : (⟨pieces, .word []⟩ : Scanner) = Scanner.start.behind pieces := by
    simp [Scanner.behind, Scanner.start]
  unfold Spells at h h' ⊢
  rw [Scanner.run_append, h, hbehind, Scanner.run_behind, h']
  rfl

/-- Texts in a row are read as what each of them is read as. -/
theorem Spells.join {α : Type} {f : α → List Piece} {texts : List String} {l : List α}
    (h : List.Forall₂ (fun text a => Spells text (f a)) texts l) :
    Spells (String.join texts) (l.flatMap f) := by
  induction h with
  | nil => rfl
  | cons hfirst _ ih =>
    rw [String.join_cons, List.flatMap_cons]
    exact hfirst.append ih

/-- Whether a character can be part of a word. -/
def isLetter (c : Char) : Bool :=
  c != '"' && !Scanner.isBlank c && !Scanner.isMark c

theorem isLetter_of_isDigit {c : Char} (h : c.isDigit = true) : isLetter c = true := by
  have hne : ∀ d : Char, d.isDigit = false → c ≠ d := by
    rintro d hd rfl
    rw [h] at hd
    cases hd
  simp [isLetter, Scanner.isBlank, Scanner.isMark, hne]

theorem run_letters {word : String} (h : word.toList.all isLetter = true) :
    Scanner.start.run word = ⟨[], .word word.toList⟩ := by
  have hletters : ∀ cs letters : List Char, cs.all isLetter = true →
      cs.foldl Scanner.step ⟨[], .word letters⟩ = ⟨[], .word (letters ++ cs)⟩ := by
    intro cs
    induction cs with
    | nil => simp
    | cons c cs ih =>
      intro letters h
      rw [List.all_cons, Bool.and_eq_true] at h
      have hstep : Scanner.step ⟨[], .word letters⟩ c = ⟨[], .word (letters ++ [c])⟩ := by
        obtain ⟨⟨hquote, hblank⟩, hmark⟩ :
            (c ≠ '"' ∧ Scanner.isBlank c = false) ∧ Scanner.isMark c = false := by
          simpa [isLetter] using h.1
        simp [Scanner.step, hquote, hblank, hmark]
      rw [List.foldl_cons, hstep, ih _ h.2, List.append_assoc]
      rfl
  exact hletters word.toList [] h

/-- A word ends with a blank. -/
theorem spells_word {word : String} (hne : word ≠ "") (h : word.toList.all isLetter = true) :
    Spells (word ++ " ") [.word word] := by
  have hend : Scanner.endWord word.toList = [.word word] := by
    cases hword : word.toList with
    | nil => exact absurd (String.toList_eq_nil_iff.1 hword) hne
    | cons c cs =>
      show [Piece.word (String.ofList (c :: cs))] = _
      rw [← hword, String.ofList_toList]
  unfold Spells
  rw [Scanner.run_append, run_letters h]
  show (⟨Scanner.endWord word.toList, .word []⟩ : Scanner) = _
  rw [hend]

theorem all_isLetter_toString (n : Nat) : (toString n).toList.all isLetter = true :=
  List.all_eq_true.2 fun c hc => isLetter_of_isDigit (isDigit_toString n c hc)

theorem spells_number (n : Nat) : Spells (toString n ++ " ") [.word (toString n)] :=
  spells_word (toString_ne_empty n) (all_isLetter_toString n)

/-- A label with what stands around it. -/
theorem spells_label (h : StandsFor text label) :
    Spells ("[label=\"" ++ text ++ "\"];\n") (labelPieces label) := by
  have hopen : Scanner.start.run "[label=\"" =
    ⟨[.mark '[', .word "label", .mark '='], .label []⟩ := rfl
  unfold Spells
  rw [Scanner.run_append, Scanner.run_append, hopen, h, List.nil_append]
  show (⟨[.mark '[', .word "label", .mark '=', .quoted (String.ofList label.toList), .mark ']',
    .mark ';'], .word []⟩ : Scanner) = _
  rw [String.ofList_toList]
  rfl

/-- The blank before a label ends the number before it. -/
theorem label_opens : " [label=\"" = " " ++ "[label=\"" :=
  rfl

theorem spells_node (n : Nat) (h : StandsFor text label) :
    Spells (node n text) (Statement.node n label).pieces := by
  have hindent : Spells "    " [] := rfl
  have htext : node n text =
      "    " ++ (toString n ++ " ") ++ ("[label=\"" ++ text ++ "\"];\n") := by
    unfold node
    rw [label_opens]
    simp only [String.append_assoc]
  rw [htext]
  exact (hindent.append (spells_number n)).append (spells_label h)

theorem spells_edge {V : Type} (g : Grammar V) (source target : Nat) (x : Symbol) :
    Spells (edge g source x target) (Statement.edge source target (g.symbolName x)).pieces := by
  have hindent : Spells "    " [] := rfl
  have harrow : Spells "-> " [.word "->"] := rfl
  have htext : edge g source x target = "    " ++ (toString source ++ " ") ++ "-> " ++
      (toString target ++ " ") ++ ("[label=\"" ++ escape (g.symbolName x) ++ "\"];\n") := by
    have hblank : " -> " = " " ++ "-> " := rfl
    unfold edge
    rw [label_opens, hblank]
    simp only [String.append_assoc]
  rw [htext]
  exact (((hindent.append (spells_number source)).append harrow).append
    (spells_number target)).append (spells_label (standsFor_escape (g.symbolName x)))

theorem readStatements_flatMap (statements : List Statement) :
    readStatements (statements.flatMap Statement.pieces ++ [.mark '\x7d']) = some statements := by
  induction statements with
  | nil => rfl
  | cons s statements ih =>
    rw [List.flatMap_cons, List.append_assoc, readStatements_pieces, ih]
    rfl

/-- **A drawing is read as what its parts spell.** -/
theorem read_graph {name : String} (hne : name ≠ "") (hname : name.toList.all isLetter = true)
    {nodeTexts edgeTexts : List String} {nodes : List (Nat × String)}
    {edges : List (Nat × Nat × String)}
    (hnodes : List.Forall₂ (fun text e => Spells text (Statement.ofNode e).pieces) nodeTexts nodes)
    (hedges : List.Forall₂ (fun text e => Spells text (Statement.ofEdge e).pieces) edgeTexts edges) :
    Drawing.read (graph name nodeTexts edgeTexts) = some (.ofParts name nodes edges) := by
  have hopen : Spells "digraph " [.word "digraph"] := rfl
  have hsetting : Spells "\x7b\n    rankdir=\"LR\";\n\n"
    (.mark '\x7b' :: (Statement.setting "rankdir" "LR").pieces) := rfl
  have hline : Spells "\n" [] := rfl
  have hclose : Spells "\x7d\n" [.mark '\x7d'] := rfl
  have htext : graph name nodeTexts edgeTexts = "digraph " ++ (name ++ " ") ++
      "\x7b\n    rankdir=\"LR\";\n\n" ++ String.join nodeTexts ++ "\n" ++ String.join edgeTexts ++
      "\x7d\n" := by
    have hblank : " \x7b\n    rankdir=\"LR\";\n\n" = " " ++ "\x7b\n    rankdir=\"LR\";\n\n" := rfl
    unfold graph
    rw [hblank]
    simp only [String.append_assoc]
  have hspells := (((((hopen.append (spells_word hne hname)).append hsetting).append
    (.join hnodes)).append hline).append (.join hedges)).append hclose
  have hrun : Scanner.start.run (graph name nodeTexts edgeTexts) =
      ⟨.word "digraph" :: .word name :: .mark '\x7b' ::
        ((Drawing.ofParts name nodes edges).statements.flatMap Statement.pieces ++
          [.mark '\x7d']), .word []⟩ := by
    rw [htext, hspells]
    simp [Drawing.ofParts, List.flatMap_map]
  unfold Drawing.read
  rw [hrun]
  show (readStatements _).bind (fun statements => some (Drawing.mk name statements)) = _
  rw [readStatements_flatMap]
  rfl

end Statements

end ParserGen.Dot
