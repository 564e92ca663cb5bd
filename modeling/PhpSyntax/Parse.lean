import PhpSyntax.Grammar.Php
import PhpSyntax.Parsing.Machine
import PhpSyntax.Text.Utf8
import PhpSyntax.Token.Stream

/-!
Parsing a text. Every text has a tree whose leaves are its tokens, with missing ones put in where a
rule requires them; what is wrong is reported beside it.
-/
namespace PhpSyntax

/-- A tree, and what was found to be wrong with its text, in the order of the text. -/
structure Parse where
  tree : Tree
  diagnostics : List Diagnostic

/-- Why there could be no tree: something goes wrong in the parser, or the builder refuses its
log. -/
inductive Breakdown where
  | fault (fault : Fault)
  | refused (error : BuildError)
  deriving DecidableEq

/-- Why bytes cannot be parsed. -/
inductive ParseError where
  | tooLarge (length : Nat)
  | invalidUtf8 (validUpTo : Nat)
  | breakdown (cause : Breakdown)
  deriving DecidableEq

namespace Breakdown

def message : Breakdown → String
  | fault .outOfSteps => "the parser made no progress"
  | fault .assertion => "a rule was entered at a token that it cannot stand at"
  | fault .strayMarker => "internal error: entered unreachable code"
  | refused e => e.message

end Breakdown

namespace ParseError

def message : ParseError → String
  | tooLarge n =>
    "source is " ++ toString n ++ " bytes long, offsets are limited to 4 GiB"
  | invalidUtf8 n => "source is not valid UTF-8 (valid up to byte " ++ toString n ++ ")"
  | breakdown cause => cause.message

end ParseError

namespace Parse

def hasErrors (p : Parse) : Bool := p.diagnostics.any Diagnostic.isError

/-- How many steps the machine may take for each token. -/
def stepsPerToken : Nat := 1024

/-- The state after all tokens; the whole file is one branch. -/
def complete (tokens : List Token) : Except Fault ParseState :=
  let (m, s) := (ParseState.start tokens).openBranch
  match s.run Grammar.php (stepsPerToken * (tokens.length + 1)) [.act Grammar.program] with
  | .error fault => .error fault
  | .ok s =>
    match s.takeEnd with
    | .error fault => .error fault
    | .ok s => s.closeBranch m .sourceFile

end Parse

/-- Parses a text. -/
def parse (dialect : Dialect) (text : List Char) : Except Breakdown Parse :=
  match Parse.complete (tokenize dialect text) with
  | .error fault => .error (.fault fault)
  | .ok s =>
    match s.log.replay with
    | .error fault => .error (.fault fault)
    | .ok steps =>
      match Tree.build text steps with
      | .ok tree => .ok ⟨tree, s.diagnostics.toList⟩
      | .error e => .error (.refused e)

/-- Parses bytes. There must be less than 4 GiB of them, and they must be UTF-8. -/
def parseBytes (dialect : Dialect) (bytes : ByteArray) : Except ParseError Parse :=
  if 4294967296 ≤ bytes.size then .error (.tooLarge bytes.size)
  else match Text.decode bytes with
    | .error n => .error (.invalidUtf8 n)
    | .ok text => (parse dialect text).mapError .breakdown

end PhpSyntax
