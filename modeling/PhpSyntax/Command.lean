import PhpSyntax.Parse
import PhpSyntax.Token.Listing
import PhpSyntax.Tree.Dump

/-!
The command that parses one file: what it writes and how it exits, as a function of the bytes read.
-/
namespace PhpSyntax

/-- What the command is asked for. -/
structure Command where
  path : String
  /-- List the tokens before the tree. -/
  tokens : Bool := false
  /-- Leave the tree out. -/
  noTree : Bool := false
  /-- Take `<?` alone for text. -/
  noShortOpenTag : Bool := false
  /-- Write diagnostics without colors. -/
  plain : Bool := false

/-- Why a file cannot be read. -/
inductive ReadError where
  | notFound
  | permissionDenied
  | notADirectory
  | isDirectory
  | nameTooLong
  | other (message : String)

namespace ReadError

def message : ReadError → String
  | notFound => "No such file or directory (os error 2)"
  | permissionDenied => "Permission denied (os error 13)"
  | notADirectory => "Not a directory (os error 20)"
  | isDirectory => "Is a directory (os error 21)"
  | nameTooLong => "File name too long (os error 36)"
  | other message => message

end ReadError

/-- What the command does. -/
structure Outcome where
  exitCode : UInt8
  output : List String
  diagnostics : List Diagnostic
  /-- The last lines of the error output. -/
  closing : List String

namespace Outcome

/-- A failure and its cause. Line breaks in `what`, which names a path, break the line. -/
def failure (what cause : String) : Outcome :=
  ⟨1, [], [], ("Error: " ++ what).splitOn "\n" ++ ["", "Caused by:", "    " ++ cause]⟩

/-- The arguments make no command. -/
def misuse : Outcome := ⟨2, [], [], []⟩

end Outcome

namespace Command

def dialect (c : Command) : Dialect := { shortOpenTag := !c.noShortOpenTag }

/-- The words that name the file in a message. -/
def quotedPath (c : Command) : String := "`" ++ c.path ++ "`"

/-- Writes what is asked for about a parse; the exit code tells whether there are errors. -/
def present (c : Command) (p : Parse) : Outcome :=
  let text := p.tree.text
  let listing := if c.tokens then Token.listing text (tokenize c.dialect text) else []
  let dump := if c.noTree then .ok [] else p.tree.dump
  match dump with
  | .error fault => .failure ("failed to print " ++ c.quotedPath) fault.message
  | .ok lines =>
    let errors := (p.diagnostics.filter Diagnostic.isError).length
    if errors = 0 then ⟨0, listing ++ lines, p.diagnostics, []⟩
    else
      let closing := toString errors ++ " error(s) in " ++ c.quotedPath
      ⟨1, listing ++ lines, p.diagnostics, closing.splitOn "\n"⟩

/-- What the command does with the bytes of its file. -/
def run (c : Command) (input : Except ReadError ByteArray) : Outcome :=
  match input with
  | .error e => .failure ("failed to read " ++ c.quotedPath) e.message
  | .ok bytes =>
    match parseBytes c.dialect bytes with
    | .error e => .failure ("failed to parse " ++ c.quotedPath) e.message
    | .ok p => c.present p

/-- Sets a flag; `none` if there is no such flag or it is set already. -/
def flag? (c : Command) : String → Option Command
  | "--tokens" => if c.tokens then none else some { c with tokens := true }
  | "--no-tree" => if c.noTree then none else some { c with noTree := true }
  | "--no-short-open-tag" =>
    if c.noShortOpenTag then none else some { c with noShortOpenTag := true }
  | "--plain" => if c.plain then none else some { c with plain := true }
  | _ => none

/-- There must be one path. -/
def atPath? (c : Command) : List String → Option Command
  | [path] => some { c with path := path }
  | _ => none

/-- Reads arguments in any order: flags, which begin with a hyphen, and `paths`. A hyphen alone is a
path, and after two of them everything is. -/
def read? (c : Command) (paths : List String) : List String → Option Command
  | [] => c.atPath? paths
  | "--" :: arguments => c.atPath? (paths ++ arguments)
  | a :: arguments =>
    if a.startsWith "-" && a != "-" then
      match c.flag? a with
      | some c => read? c paths arguments
      | none => none
    else read? c (paths ++ [a]) arguments

/-- The command that some arguments make. -/
def ofArguments? (arguments : List String) : Option Command :=
  read? { path := "" } [] arguments

end Command
end PhpSyntax
