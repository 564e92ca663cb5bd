import PhpSyntax.Token.Stream

/-!
Reading a text token by token, with a look ahead, and from any state: an offset and a mode. An
offset that is no position in the text stands for its end.
-/
namespace PhpSyntax

/-- All that is needed to go on reading: where the next token (its trivia included) begins, and in
which mode. -/
structure LexState where
  offset : Nat := 0
  mode : Mode := .html
  deriving DecidableEq

namespace LexState

/-- The place of a state in a text. -/
def place (text : List Char) (s : LexState) : Place :=
  match Text.splitBytes? s.offset text with
  | some (_, rest) => ⟨s.offset, s.mode, rest⟩
  | none => ⟨Text.width text, s.mode, []⟩

end LexState

/-- A reader of a text. It holds the token to come and the place after that. -/
structure Session where
  dialect : Dialect
  text : List Char
  /-- The state that the token to come was read from. -/
  state : LexState
  current : Token
  following : Place
  /-- What was found to be wrong and is not reported yet. -/
  pending : Option Problem

namespace Session

/-- Reads the token at the place that follows. A problem that is pending is reported with it, unless
something else is wrong with the token. -/
def read (s : Session) : Session :=
  let (token, after) := s.following.next s.dialect
  let error := token.error <|> s.pending.map (Diagnostic.of · token.range)
  { s with current := { token with error := error }, following := after, pending := none }

/-- Starts reading at a state. -/
def start (dialect : Dialect) (text : List Char) (state : LexState) : Session :=
  read ⟨dialect, text, state, ⟨state.offset, [], .eof, [], none⟩, state.place text, none⟩

/-- The token to come. -/
def peek (s : Session) : Token := s.current

/-- The state from which the token to come can be read again. -/
def checkpoint (s : Session) : LexState := s.state

/-- Takes the token to come. -/
def next (s : Session) : Token × Session :=
  (s.current, read { s with state := ⟨s.following.offset, s.following.mode⟩ })

/-- Goes on from a state. -/
def restore (s : Session) (state : LexState) : Session :=
  read { s with state := state, following := state.place s.text }

/-- The session after taking `n` tokens. -/
def skip (s : Session) : Nat → Session
  | 0 => s
  | n + 1 => s.next.2.skip n

/-- The kind of the token `n` places ahead; the token to come is at 0. -/
def nth (s : Session) (n : Nat) : Kind := (s.skip n).current.kind

end Session
end PhpSyntax
