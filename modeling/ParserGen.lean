import ParserGen.Automaton.Dot
import ParserGen.Calculator.Command
import ParserGen.CommandLine.FileTree
import ParserGen.CommandLine.Generator
import ParserGen.GrammarFile.Lowering
import ParserGen.Lexer.Modal
import ParserGen.Lexer.Splitter
import ParserGen.Main
import ParserGen.Proofs.Automaton.Collection
import ParserGen.Proofs.Grammar.FirstSets
import ParserGen.Table.Json
import ParserGen.Table.Listing
import ParserGen.Proofs.Automaton.Flood
import ParserGen.Proofs.Automaton.Layout
import ParserGen.Proofs.Automaton.Canonical
import ParserGen.Proofs.Table.Rows
import ParserGen.Proofs.Table.Cells
import ParserGen.Proofs.Engine.Stack
import ParserGen.Proofs.Engine.Soundness
import ParserGen.Proofs.Automaton.Lookahead
import ParserGen.Proofs.Engine.Completeness
import ParserGen.Proofs.Grammar.Derivation
import ParserGen.Proofs.Grammar.FirstExact
import ParserGen.Proofs.Automaton.PathLookahead
import ParserGen.Proofs.Automaton.Reduction
import ParserGen.Proofs.Engine.Termination
import ParserGen.Proofs.Automaton.ViablePrefix
import ParserGen.Proofs.Engine.ErrorPosition
import ParserGen.Proofs.Table.ConflictReport
import ParserGen.Proofs.Table.ConflictFreedom
import ParserGen.Proofs.Text.Json
import ParserGen.Proofs.Table.Reload
import ParserGen.Proofs.Automaton.Saturation
import ParserGen.Proofs.Calculator.Notation
import ParserGen.Proofs.Calculator.Table
import ParserGen.Proofs.Calculator.Reading
import ParserGen.Proofs.Grammar.Numbering
import ParserGen.Proofs.Lexer.Partition
import ParserGen.Proofs.Pattern.Search
import ParserGen.Proofs.Pattern.Matching
import ParserGen.Proofs.Lexer.Tokens
import ParserGen.Proofs.Grammar.Phrase
import ParserGen.Proofs.Engine.Fuel
import ParserGen.Proofs.Engine.Reader
import ParserGen.Proofs.GrammarFile.Notation
import ParserGen.Proofs.GrammarFile.Table
import ParserGen.Proofs.GrammarFile.Phrases
import ParserGen.Proofs.GrammarFile.Reading
import ParserGen.Proofs.Calculator.Words
import ParserGen.Proofs.Callbacks
import ParserGen.Proofs.Grammar.Failure
import ParserGen.Proofs.Grammar.Operators
import ParserGen.Proofs.Table.Encoding
import ParserGen.Proofs.Table.Winner
import ParserGen.Proofs.GrammarFile.Order
import ParserGen.Proofs.GrammarFile.Literals
import ParserGen.Proofs.Lexer.Pushdown
import ParserGen.Proofs.Lexer.Splitting
import ParserGen.Proofs.Lexer.Choice
import ParserGen.Proofs.Automaton.KernelIndex
import ParserGen.Proofs.Engine.TwoStacks
import ParserGen.Proofs.Text.Dot
import ParserGen.Proofs.Automaton.Drawing
import ParserGen.Proofs.CommandLine.OpenConflict
import ParserGen.Proofs.Automaton.Reachability
import ParserGen.Proofs.Token.WordStream
