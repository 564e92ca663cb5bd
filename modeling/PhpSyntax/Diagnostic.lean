import PhpSyntax.Spelling
import PhpSyntax.Text.Range

/-!
Diagnostics: what is wrong, how bad it is, and where. They stand beside a tree and change nothing
in it.
-/
namespace PhpSyntax

inductive Severity where
  | warning | error
  deriving DecidableEq

namespace Severity

/-- A warning is less than an error. -/
instance : LT Severity := ⟨fun a b => a.ctorIdx < b.ctorIdx⟩

instance (a b : Severity) : Decidable (a < b) := inferInstanceAs (Decidable (a.ctorIdx < b.ctorIdx))

def label : Severity → String
  | warning => "warning"
  | error => "error"

end Severity

/-- What can be wrong with a text. -/
inductive Problem where
  /-- Something that a rule requires is absent. -/
  | expected (what : String)
  /-- A token that no rule takes. -/
  | unexpected (kind : Kind)
  | unrecognizedInput
  | unterminatedString
  | unterminatedHeredoc
  | unterminatedComment
  deriving DecidableEq

namespace Problem

/-- The token of a given kind is absent. -/
def expectedKind (k : Kind) : Problem := expected k.display

def message : Problem → String
  | expected what => "expected " ++ what
  | unexpected kind => "unexpected " ++ kind.display
  | unrecognizedInput => "unrecognized input"
  | unterminatedString => "unterminated string literal"
  | unterminatedHeredoc => "unterminated heredoc"
  | unterminatedComment => "unterminated comment"

/-- A comment without an end is only warned of. -/
def severity : Problem → Severity
  | unterminatedComment => .warning
  | _ => .error

end Problem

/-- A message about a range of a text. -/
structure Diagnostic where
  severity : Severity
  message : String
  range : Range
  deriving DecidableEq

namespace Diagnostic

/-- The report of a problem at a range. -/
def of (problem : Problem) (range : Range) : Diagnostic := ⟨problem.severity, problem.message, range⟩

def isError (d : Diagnostic) : Bool := d.severity == .error

/-- Where the diagnostic is anchored. -/
def offset (d : Diagnostic) : Nat := d.range.start

/-- One line: severity, range, message. -/
def render (d : Diagnostic) : String := d.severity.label ++ "@" ++ d.range.render ++ ": " ++ d.message

end Diagnostic
end PhpSyntax
