import ParserGen.Grammar.Policy

/-!
# Grammar files

A grammar file is a list of declarations, in the order in which they are written. Numbers are kept as
they are written until the file is turned into a grammar. A file that cannot be read at all has an error of
its own.
-/

namespace ParserGen

namespace GrammarFile

/-- A number as it is written, and its line. -/
structure Number where
  digits : String
  line : Nat
deriving DecidableEq, Inhabited

/-- One alternative of a rule: its components, and a precedence if one is given. -/
structure Alternative where
  components : List String
  precedence : Option Number
deriving DecidableEq, Inhabited

/-- A declaration. -/
inductive Declaration where
  /-- The start symbol. -/
  | start (name : String)
  /-- The modes of conflict resolution, and the line of the declaration. -/
  | resolve (modes : List String) (line : Nat)
  /-- A group of operators. -/
  | operators (assoc : Associativity) (precedence : Number) (symbols : List String)
  /-- The alternatives of a nonterminal. -/
  | rule (name : String) (alternatives : List Alternative)
deriving DecidableEq, Inhabited

end GrammarFile

/-- The declarations of a grammar file. -/
structure GrammarFile where
  declarations : List GrammarFile.Declaration
deriving DecidableEq, Inhabited

/-- Why a file or directory cannot be used. -/
inductive FileError where
  | notFound
  | exists
  | notDirectory
  | isDirectory
  /-- The contents are not text. -/
  | invalidText
  /-- Anything else, in the words of the system. -/
  | other (text : String)
deriving DecidableEq, Inhabited

/-- The wording of the error. -/
def FileError.message : FileError → String
  | .notFound => "No such file or directory (os error 2)"
  | .exists => "File exists (os error 17)"
  | .notDirectory => "Not a directory (os error 20)"
  | .isDirectory => "Is a directory (os error 21)"
  | .invalidText => "stream did not contain valid UTF-8"
  | .other text => text

end ParserGen
