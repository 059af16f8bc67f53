import Surface.Diagnostic.Report
import Surface.Layout.Syntax
import Surface.Parsed
import Surface.Proofs.Parsing.Applications
import Surface.Proofs.Parsing.Braces
import Surface.Proofs.Parsing.Clear
import Surface.Proofs.Parsing.Dialects
import Surface.Proofs.Parsing.Forest
import Surface.Proofs.Parsing.Lookahead
import Surface.Proofs.Parsing.Leaves
import Surface.Proofs.Parsing.Stratified
import Surface.Proofs.Parallel.Parts
import Surface.Proofs.Names.Spelled
import Surface.Proofs.Lexing.Tiling
import Surface.Proofs.Parsing.Accounting
import Surface.Proofs.Folding.Runs
import Surface.Proofs.Folding.Readers
import Surface.Proofs.Folding.Files
import Surface.Proofs.Folding.Layout
import Surface.Proofs.Lexing.Legible
import Surface.Proofs.Lexing.Numerals
import Surface.Proofs.Lexing.Spelled
import Surface.Proofs.Lexing.Places
import Surface.Proofs.Lexing.Gaps
import Surface.Proofs.Printing.Leaves
import Surface.Proofs.Tree.Marks
import Surface.Proofs.Parsing.Accepted
import Surface.Proofs.Canonical.Faithful
import Surface.Proofs.Lexing.CommentLines
import Surface.Proofs.Lexing.NumberTexts
import Surface.Proofs.Lexing.SymbolNames
import Surface.Proofs.Lexing.Alone
import Surface.Proofs.Parsing.Members
import Surface.Proofs.Parsing.OperatorChains
import Surface.Proofs.Parsing.PatternGrammar
import Surface.Proofs.Parsing.Conditionals
import Surface.Proofs.Grammar.Failures
import Surface.Proofs.Parallel.Moved
import Surface.Proofs.Grammar.Candid
import Surface.Proofs.Grammar.Counting
import Surface.Proofs.Parsing.ItemSpans
import Surface.Proofs.Parsing.Attachment
import Surface.Proofs.Parsing.Founded
import Surface.Proofs.Grammar.Candor
import Surface.Proofs.Diagnostic.Lines
import Surface.Proofs.Diagnostic.Underlines
import Surface.Proofs.Tree.Quotations
import Surface.Proofs.Tree.Shapes
import Surface.Proofs.Parsing.Worded
import Surface.Proofs.Printing.Indentation
import Surface.Proofs.Lexing.CommentRanges
import Surface.Proofs.Parsing.Numbering
import Surface.Proofs.Parsing.Modes
import Surface.Proofs.Progress.Termination
