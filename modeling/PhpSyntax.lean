import PhpSyntax.Main
import PhpSyntax.Token.Session
import PhpSyntax.Tree.Lookup
import PhpSyntax.Tree.Offset
import PhpSyntax.Tree.Summary
import PhpSyntax.Proofs.Making
import PhpSyntax.Proofs.Recording
import PhpSyntax.Proofs.Forecast
import PhpSyntax.Proofs.Stages
import PhpSyntax.Proofs.Foresight
import PhpSyntax.Proofs.Outlook
import PhpSyntax.Proofs.Lexemes
import PhpSyntax.Proofs.Tokens
import PhpSyntax.Proofs.Invariant
import PhpSyntax.Proofs.Growth
import PhpSyntax.Proofs.Completion
import PhpSyntax.Proofs.Building
import PhpSyntax.Proofs.Visiting
import PhpSyntax.Proofs.Parsed
import PhpSyntax.Proofs.Leaves
import PhpSyntax.Proofs.Reports
import PhpSyntax.Proofs.Gist
import PhpSyntax.Proofs.Shape
import PhpSyntax.Proofs.Framing
import PhpSyntax.Proofs.Operand
import PhpSyntax.Proofs.Precedence
import PhpSyntax.Proofs.Breaks
import PhpSyntax.Proofs.Words
import PhpSyntax.Proofs.Writing
import PhpSyntax.Proofs.Leading
import PhpSyntax.Proofs.Clean
import PhpSyntax.Proofs.Expr
import PhpSyntax.Proofs.Expressions
import PhpSyntax.Proofs.Stmt
import PhpSyntax.Proofs.Statements
import PhpSyntax.Proofs.Seams
import PhpSyntax.Proofs.Joining
import PhpSyntax.Proofs.Endings
import PhpSyntax.Proofs.Composition
import PhpSyntax.Proofs.Tiling
import PhpSyntax.Proofs.Ordering
import PhpSyntax.Proofs.Charges
import PhpSyntax.Proofs.Prices
import PhpSyntax.Proofs.Counting
import PhpSyntax.Proofs.Capacity
import PhpSyntax.Proofs.Sessions
import PhpSyntax.Proofs.Shifting
import PhpSyntax.Proofs.Plans
import PhpSyntax.Proofs.Layout
import PhpSyntax.Tree.Table
import PhpSyntax.Proofs.Entries
import PhpSyntax.Proofs.Tabling
import PhpSyntax.Proofs.Touring
import PhpSyntax.Proofs.Kinship
import PhpSyntax.Proofs.Regions
import PhpSyntax.Proofs.Complaints
import PhpSyntax.Proofs.Arguments
import PhpSyntax.Proofs.Placing
import PhpSyntax.Proofs.Offsets
import PhpSyntax.Proofs.Lookups
import PhpSyntax.Proofs.Covering
import PhpSyntax.Proofs.Walking
import PhpSyntax.Proofs.Printing
import PhpSyntax.Proofs.Numerals
import PhpSyntax.Proofs.Pieces
import PhpSyntax.Proofs.Strings
import PhpSyntax.Proofs.Operators
import PhpSyntax.Proofs.Gaps
import PhpSyntax.Proofs.Keywords
import PhpSyntax.Proofs.Faults
import PhpSyntax.Proofs.Recovery
import PhpSyntax.Proofs.Arrays
import PhpSyntax.Proofs.Packing
import PhpSyntax.Proofs.Meeting
import PhpSyntax.Proofs.Peeking
import PhpSyntax.Proofs.Progress
import PhpSyntax.Proofs.Moves
import PhpSyntax.Proofs.Levels
import PhpSyntax.Proofs.Marking
