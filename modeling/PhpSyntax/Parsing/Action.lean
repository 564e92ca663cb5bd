import PhpSyntax.Diagnostic
import PhpSyntax.KindSet

/-!
The language that grammar rules are written in. A rule is a tree of actions; `ρ` names the rules that
actions may call. Everything an action decides hangs on the tokens to come.
-/
namespace PhpSyntax

/-- A question about the tokens to come. Unrecognized input does not count among them. -/
inductive Test where
  /-- The current token is of this kind. -/
  | kind (k : Kind)
  /-- The kind of the current token is in this set. -/
  | kindIn (kinds : KindSet)
  /-- The kind of the token `n` places ahead is in this set; the current token is at 0. -/
  | aheadIn (n : Nat) (kinds : KindSet)
  /-- The current token reads like this, whatever the case of its ASCII letters. -/
  | word (w : String)
  /-- The rule called last found what it looks for. -/
  | found
  | not (t : Test)
  | and (a b : Test)
  | or (a b : Test)

inductive Act (ρ : Type) where
  | done
  | andThen (first second : Act ρ)
  /-- Makes sure that the test holds. -/
  | require (test : Test)
  /-- Takes the current token; the end of file stays. -/
  | bump
  /-- Reports that something is absent and records a missing token in its place. -/
  | missing (what : String)
  /-- Reports the current token, and makes an error branch of it and all that follow up to one of
  the set `stop`. -/
  | recover (problem : Kind → Problem) (stop : KindSet)
  /-- A branch of this kind around all that the body records. -/
  | node (kind : Kind) (body : Act ρ)
  /-- A branch of this kind around all that the body records, if it records anything. -/
  | nodeIfAny (kind : Kind) (body : Act ρ)
  /-- A branch of this kind around the branch found last and all that the body records. -/
  | wrap (kind : Kind) (body : Act ρ)
  /-- Tells that there is nothing here that the rule looks for. -/
  | decline
  | branch (test : Test) (yes no : Act ρ)
  /-- Goes on as the kind of the current token says. -/
  | byKind (choose : Kind → Act ρ)
  /-- As long as the test holds, the body. -/
  | repeatWhile (test : Test) (body : Act ρ)
  | call (rule : ρ)

namespace Act

variable {ρ : Type}

instance : Append (Act ρ) := ⟨andThen⟩

/-- The body, if the test holds. -/
def when (test : Test) (body : Act ρ) : Act ρ := branch test body done

/-- The body, unless the test holds. -/
def whenNot (test : Test) (body : Act ρ) : Act ρ := branch test done body

/-- Takes a token of this kind if it is there, and goes on in one of two ways. -/
def eat (k : Kind) (yes no : Act ρ) : Act ρ := branch (.kind k) (bump ++ yes) no

/-- Takes a token of this kind if it is there. -/
def optional (k : Kind) : Act ρ := when (.kind k) bump

/-- A token of this kind is absent. -/
def missingKind (k : Kind) : Act ρ := missing k.display

/-- Takes a token of this kind, which is missing if it is not there. -/
def expect (k : Kind) : Act ρ := branch (.kind k) bump (missingKind k)

/-- The element once, and again after each comma. -/
def separated (element : Act ρ) : Act ρ :=
  element ++ repeatWhile (.kind .comma) (bump ++ element)

/-- A list in brackets. An element begins with a token of the set `first`. Between two elements a
comma is required, after the last one it is allowed; where an element should stand, a comma is
reported. -/
def delimited (opening close : Kind) (what : String) (first : KindSet) (element : Act ρ) : Act ρ :=
  require (.kind opening) ++
  bump ++
  repeatWhile (.kindIn (first ∪ .single .comma))
    (branch (.kind .comma) (recover (fun _ => .expected what) .all)
      (element ++ branch (.kind .comma) bump (when (.kindIn first) (missingKind .comma)))) ++
  expect close

end Act
end PhpSyntax
