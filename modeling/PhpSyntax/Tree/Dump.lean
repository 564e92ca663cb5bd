import PhpSyntax.Tree.Text

/-!
Trees in writing: an indented listing with one element per line, and the bare shape in parentheses.
-/
namespace PhpSyntax

namespace Visit

/-- The lines of a listing that a visit makes at a given depth, and the depth after it. The trivia
of a token comes before the token. -/
def lines (depth : Nat) : Visit → Except Text.MidCharacter (List String × Nat)
  | enter n => .ok ([indented depth n.render], depth + 1)
  | leave _ => .ok ([], depth - 1)
  | token t => do
    let trivia ← t.trivia.mapM (·.render)
    return ((trivia ++ [← t.render]).map (indented depth), depth)
where
  indented (depth : Nat) (s : String) : String :=
    String.ofList (List.replicate (2 * depth) ' ') ++ s

/-- How a visit shows in the shape of a tree; `first` tells that nothing stands before it. -/
def shape (first : Bool) : Visit → String
  | enter n => (if first then "(" else " (") ++ n.kind.label
  | leave _ => ")"
  | token t => " " ++ t.kind.label

end Visit

namespace Node

/-- The kinds of a node and all below it: a branch in parentheses, a leaf as its kind. -/
def shape (n : Node) : String :=
  (n.visits.foldl (fun (s, first) v => (s ++ v.shape first, false)) ("", true)).1

end Node

namespace Tree

/-- The lines that some visits make, after those `before`. -/
def linesFrom (before : Array String) (depth : Nat) :
    List Visit → Except Text.MidCharacter (Array String)
  | [] => .ok before
  | v :: vs =>
    match v.lines depth with
    | .ok (lines, depth) => linesFrom (before ++ lines) depth vs
    | .error fault => .error fault

/-- One line for each branch, piece of trivia and token, two blanks deeper for each level. -/
def dump (t : Tree) : Except Text.MidCharacter (List String) :=
  (linesFrom #[] 0 t.root.visits).map (·.toList)

end Tree
end PhpSyntax
