import PhpSyntax.Kind

/-!
Trivia: blanks, line breaks and comments, which stand before a token and belong to it.
-/
namespace PhpSyntax

inductive TriviaKind where
  | whitespace | newline | singleLineComment | multiLineComment | docComment
  deriving DecidableEq

namespace TriviaKind

def all : List TriviaKind :=
  [.whitespace, .newline, .singleLineComment, .multiLineComment, .docComment]

def label : TriviaKind → String
  | whitespace => "Whitespace"
  | newline => "Newline"
  | singleLineComment => "SingleLineComment"
  | multiLineComment => "MultiLineComment"
  | docComment => "DocComment"

def ofLabel? (s : String) : Option TriviaKind := all.find? (·.label == s)

/-- The kind under which a dump lists a piece. -/
def kind : TriviaKind → Kind
  | whitespace => .whitespace
  | newline => .newline
  | singleLineComment => .lineComment
  | multiLineComment => .blockComment
  | docComment => .docComment

def isComment : TriviaKind → Bool
  | whitespace | newline => false
  | _ => true

theorem isTrivia_kind (t : TriviaKind) : t.kind.isTrivia = true := by
  cases t <;> decide

end TriviaKind

/-- A piece of trivia and its width in bytes. -/
structure TriviaPiece where
  kind : TriviaKind
  width : Nat
  deriving DecidableEq

namespace TriviaPiece

/-- The width of several pieces together. -/
def totalWidth (pieces : List TriviaPiece) : Nat := pieces.foldr (fun p n => p.width + n) 0

theorem totalWidth_cons (p : TriviaPiece) (ps : List TriviaPiece) :
    totalWidth (p :: ps) = p.width + totalWidth ps := rfl

theorem totalWidth_append (ps qs : List TriviaPiece) :
    totalWidth (ps ++ qs) = totalWidth ps + totalWidth qs := by
  induction ps with
  | nil => exact (Nat.zero_add _).symm
  | cons p ps ih => rw [List.cons_append, totalWidth_cons, ih, totalWidth_cons, Nat.add_assoc]

theorem totalWidth_reverse (ps : List TriviaPiece) : totalWidth ps.reverse = totalWidth ps := by
  induction ps with
  | nil => rfl
  | cons p ps ih =>
    rw [List.reverse_cons, totalWidth_append, ih, Nat.add_comm]
    rfl

end TriviaPiece
end PhpSyntax
