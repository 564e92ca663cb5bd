import PhpSyntax.Spelling
import PhpSyntax.Tree.Walk

/-!
Figures about a whole tree: how many branches and leaves of which kinds there are, and how deep they
are nested.
-/
namespace PhpSyntax

namespace Visit

/-- The kind that a visit meets for the first time. -/
def newKind? : Visit → Option Kind
  | enter n => some n.kind
  | leave _ => none
  | token t => some t.kind

/-- The greatest number of open nodes while some visits are made, `depth` being open before. -/
def depthFrom (greatest depth : Nat) : List Visit → Nat
  | [] => greatest
  | enter _ :: vs => depthFrom (max greatest (depth + 1)) (depth + 1) vs
  | leave _ :: vs => depthFrom greatest (depth - 1) vs
  | token _ :: vs => depthFrom greatest depth vs

end Visit

namespace Tree

/-- The greatest number of branches that lie within each other. -/
def depth (t : Tree) : Nat := Visit.depthFrom 0 0 t.root.visits

/-- How often each kind occurs, in the order of kinds; kinds that do not occur are left out. -/
def kindCounts (t : Tree) : List (Kind × Nat) :=
  let counts := (t.root.visits.filterMap Visit.newKind?).foldl
    (fun counts k => counts.modify k.index (· + 1)) (Array.replicate Kind.all.length 0)
  Kind.all.filterMap fun k =>
    match counts[k.index]?.getD 0 with
    | 0 => none
    | n => some (k, n)

/-- One line with the length of the text and the numbers of branches and leaves. -/
def overview (t : Tree) : String :=
  let visits := t.root.visits
  "SyntaxTree \x7b text_len: " ++ toString t.root.range.stop ++
    ", nodes: " ++ toString (visits.filterMap Visit.entered?).length ++
    ", tokens: " ++ toString (visits.filterMap Visit.tip?).length ++ ", .. \x7d"

end Tree
end PhpSyntax
