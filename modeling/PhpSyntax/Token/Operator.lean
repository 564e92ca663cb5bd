import PhpSyntax.Token.Heredoc

/-!
Punctuation, operators and casts. An operator is told by its first character and by the first of
several ways to go on from there.
-/
namespace PhpSyntax.Lexeme

/-- How punctuation and operators go on behind their first character, in the order in which that is
tried; to end there comes last. Inequality has a second spelling, and the close tag is read among
them. -/
def continuations : Char → List (List Char × Kind)
  | '(' => [([], .leftParen)]
  | ')' => [([], .rightParen)]
  | '[' => [([], .leftBracket)]
  | ']' => [([], .rightBracket)]
  | '\x7b' => [([], .leftBrace)]
  | '\x7d' => [([], .rightBrace)]
  | ';' => [([], .semicolon)]
  | ',' => [([], .comma)]
  | '~' => [([], .tilde)]
  | '@' => [([], .atSign)]
  | '\\' => [([], .backslash)]
  | ':' => [([':'], .colonColon), ([], .colon)]
  | '?' => [(['>'], .closeTag), (['-', '>'], .questionArrow), (['?', '='], .questionQuestionEq),
      (['?'], .questionQuestion), ([], .question)]
  | '$' => [([], .dollar)]
  | '=' => [(['=', '='], .eqEqEq), (['='], .eqEq), (['>'], .fatArrow), ([], .eq)]
  | '!' => [(['=', '='], .bangEqEq), (['='], .bangEq), ([], .bang)]
  | '<' => [(['=', '>'], .spaceship), (['<', '='], .shlEq), (['<'], .shl), (['='], .ltEq),
      (['>'], .bangEq), ([], .lt)]
  | '>' => [(['>', '='], .shrEq), (['>'], .shr), (['='], .gtEq), ([], .gt)]
  | '+' => [(['+'], .plusPlus), (['='], .plusEq), ([], .plus)]
  | '-' => [(['>'], .arrow), (['-'], .minusMinus), (['='], .minusEq), ([], .minus)]
  | '*' => [(['*', '='], .starStarEq), (['*'], .starStar), (['='], .starEq), ([], .star)]
  | '/' => [(['='], .slashEq), ([], .slash)]
  | '%' => [(['='], .percentEq), ([], .percent)]
  | '.' => [(['.', '.'], .ellipsis), (['='], .dotEq), ([], .dot)]
  | '&' => [(['&'], .ampAmp), (['='], .ampEq), ([], .amp)]
  | '|' => [(['|'], .pipePipe), (['='], .pipeEq), ([], .pipe)]
  | '^' => [(['='], .caretEq), ([], .caret)]
  | _ => []

/-- The first of the spellings that are tried that a text begins with. -/
def firstSpelling? : List Char → Option Lexeme
  | [] => none
  | c :: cs =>
    ((continuations c).find? fun p => p.1.isPrefixOf cs).map fun p => ⟨p.2, p.1.length + 1, none⟩

/-- The operator at the beginning of a text. A close tag takes one line break along. What has no
spelling is one unrecognized character. -/
def operator (cs : List Char) : Lexeme :=
  match firstSpelling? cs with
  | some ⟨.closeTag, n, _⟩ => ⟨.closeTag, n + lineBreakLength (cs.drop n), none⟩
  | some l => l
  | none => ⟨.skipped, 1, some .unrecognizedInput⟩

/-- The types that a cast can name. -/
def castTypes : List String :=
  ["int", "integer", "bool", "boolean", "float", "double", "real", "string", "array", "object",
   "unset", "binary"]

/-- A cast: a type in parentheses, blanks allowed around it, letter case ignored. -/
def cast? : List Char → Option Lexeme
  | '(' :: cs =>
    let before := blankLength cs
    let n := nameLength (cs.drop before)
    let type := (cs.drop before).take n
    let after := blankLength (cs.drop (before + n))
    if castTypes.contains (String.ofList (type.map Char.toLower)) &&
        (cs.drop (before + n + after)).head? == some ')' then
      some ⟨.cast, before + n + after + 2, none⟩
    else none
  | _ => none

end PhpSyntax.Lexeme
