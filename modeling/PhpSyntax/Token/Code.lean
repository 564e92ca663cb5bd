import PhpSyntax.Token.Number
import PhpSyntax.Token.Operator
import PhpSyntax.Token.StringLiteral

/-!
The token at the beginning of a text inside code, after the trivia.
-/
namespace PhpSyntax.Lexeme

/-- ASCII control characters that are no white space; code has no use for them. -/
def isUnrecognized (c : Char) : Bool :=
  (c.toNat < 0x20 || c.toNat == 0x7f) && c != '\t' && c != '\n' && c != '\r'

/-- A run of unrecognized characters is one token. -/
def unrecognized (cs : List Char) : Lexeme :=
  ⟨.skipped, (cs.takeWhile isUnrecognized).length, some .unrecognizedInput⟩

/-- A heredoc comes before the shift operator, a cast before the parenthesis, a variable before the
dollar sign, a number before the point. -/
def code (cs : List Char) : Lexeme :=
  match cs with
  | [] => ⟨.eof, 0, none⟩
  | c :: _ =>
    if let some l := heredoc? cs then l
    else if let some l := cast? cs then l
    else if let some l := dollarName? cs then l
    else if let some l := quotedString? cs then l
    else if c.isDigit then number cs
    else if let some l := pointNumber? cs then l
    else if isNameStart c then name cs
    else if isUnrecognized c then unrecognized cs
    else operator cs

end PhpSyntax.Lexeme
