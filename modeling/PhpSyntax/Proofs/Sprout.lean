import PhpSyntax.Parsing.Log

/-!
What a parse records, seen as trees: a sprout is a tree that no text was cut up for yet. Its listing
is the session of the builder that makes it.
-/
namespace PhpSyntax

/-- A tree without places; only a missing token remembers where it stands. -/
inductive Sprout where
  | token (t : Token)
  | missing (offset : Nat)
  | branch (kind : Kind) (children : List Sprout)

namespace Sprout

/-- Induction over a sprout: a branch has what all its children have. -/
@[elab_as_elim]
theorem induct {P : Sprout → Prop} (token : ∀ t, P (token t)) (missing : ∀ o, P (missing o))
    (branch : ∀ kind children, (∀ c ∈ children, P c) → P (branch kind children)) (s : Sprout) :
    P s := by
  refine Sprout.rec (motive_1 := P) (motive_2 := fun cs => ∀ c ∈ cs, P c)
    token missing branch ?_ ?_ s
  · intro c hc
    cases hc
  · intro c cs hc hcs d hd
    rcases List.mem_cons.mp hd with rfl | hd
    · exact hc
    · exact hcs d hd

/-- The steps of the builder that make a sprout. -/
def listing : Sprout → List BuildStep
  | token t => [.token t.leading t.kind (Text.width t.text)]
  | missing _ => [.missing]
  | branch kind children => .startNode kind :: children.flatMap listing ++ [.finishNode]

/-- The tokens of a sprout, in order; missing ones are none. -/
def tokens : Sprout → List Token
  | token t => [t]
  | missing _ => []
  | branch _ children => children.flatMap tokens

theorem listing_branch (kind : Kind) (children : List Sprout) :
    (branch kind children).listing =
      .startNode kind :: children.flatMap listing ++ [.finishNode] := by
  rw [listing]

theorem tokens_branch (kind : Kind) (children : List Sprout) :
    (branch kind children).tokens = children.flatMap tokens := by
  rw [tokens]

end Sprout
end PhpSyntax
