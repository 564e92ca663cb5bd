/-!
Widths in bytes. Positions in a text are byte offsets of its UTF-8 form; a text is a list of
characters, and an offset that falls inside a character is no position at all.
-/
namespace PhpSyntax.Text

/-- The number of bytes that a text takes. -/
def width (cs : List Char) : Nat := cs.foldl (fun n c => n + c.utf8Size) 0

theorem foldl_width (cs : List Char) (n : Nat) :
    cs.foldl (fun n c => n + c.utf8Size) n = n + width cs := by
  unfold width
  induction cs generalizing n with
  | nil => rfl
  | cons c cs ih => simp only [List.foldl_cons]; rw [ih, ih (0 + c.utf8Size)]; omega

@[simp] theorem width_nil : width [] = 0 := rfl

@[simp] theorem width_cons (c : Char) (cs : List Char) :
    width (c :: cs) = c.utf8Size + width cs := by
  rw [width, List.foldl_cons, foldl_width]; omega

@[simp] theorem width_append (cs ds : List Char) : width (cs ++ ds) = width cs + width ds := by
  induction cs with
  | nil => simp
  | cons c cs ih => simp [ih]; omega

/-- The first `n` bytes and the rest; `none` if `n` lies past the end or inside a character. The
characters of `before`, last first, go in front. -/
def splitBytesFrom? (before : List Char) : Nat → List Char → Option (List Char × List Char)
  | 0, cs => some (before.reverse, cs)
  | _ + 1, [] => none
  | n + 1, c :: cs =>
    if c.utf8Size ≤ n + 1 then splitBytesFrom? (c :: before) (n + 1 - c.utf8Size) cs else none
termination_by structural _ cs => cs

/-- The first `n` bytes and the rest; `none` if `n` lies past the end or inside a character. -/
def splitBytes? (n : Nat) (cs : List Char) : Option (List Char × List Char) :=
  splitBytesFrom? [] n cs

/-- The two ends of a part of a text. -/
inductive Edge where
  | start | stop
  deriving DecidableEq

/-- An end of a part of a text that lies inside a character, where no text starts or ends. -/
structure MidCharacter where
  edge : Edge
  offset : Nat
  character : Char
  /-- Where the character starts. -/
  start : Nat
  deriving DecidableEq

/-- The character of a text, starting at offset `start`, that holds offset `n` in its inside. -/
def midCharacter? (edge : Edge) (n start : Nat) : List Char → Option MidCharacter
  | [] => none
  | c :: cs =>
    if n < start + c.utf8Size then (if start < n then some ⟨edge, n, c, start⟩ else none)
    else midCharacter? edge n (start + c.utf8Size) cs

end PhpSyntax.Text
