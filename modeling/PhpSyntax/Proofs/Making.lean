import PhpSyntax.Parsing.Machine
import PhpSyntax.Proofs.Sprout

/-!
What an action makes of the tokens to come, without a log and without a stack: a stage holds the
children of the innermost open branch, and an action leads from one stage to another. The machine
realises this relation, and all that is said about trees is proved over it.
-/
namespace PhpSyntax

/-- What is known of the branch that the rule called last found. -/
inductive Found where
  | nothing
  /-- It is the last child of the innermost open branch. -/
  | last
  /-- Something was recorded after it, or it lies outside of the innermost open branch. -/
  | earlier
  deriving DecidableEq

namespace Found

/-- Something else comes after the branch that was found. -/
def bury : Found → Found
  | nothing => nothing
  | _ => earlier

/-- Whether anything was found. -/
def any (f : Found) : Bool := f != nothing

@[simp] theorem any_bury (f : Found) : f.bury.any = f.any := by cases f <;> rfl

@[simp] theorem bury_ne_last (f : Found) : f.bury ≠ last := by cases f <;> simp [bury]

@[simp] theorem bury_eq_nothing {f : Found} : f.bury = nothing ↔ f = nothing := by
  cases f <;> simp [bury]

end Found

/-- Where a parse stands within the innermost open branch. -/
structure Stage where
  /-- The tokens to come, the end of file last. -/
  tokens : List Token
  /-- The children of the innermost open branch. -/
  children : List Sprout
  diagnostics : List Diagnostic
  /-- The end of the token taken last. -/
  lastEnd : Nat
  found : Found

namespace Token

def isSkipped (t : Token) : Bool := t.kind == .skipped

/-- The end of the last of some tokens. -/
def endFrom (lastEnd : Nat) (tokens : List Token) : Nat :=
  tokens.foldl (fun _ t => t.range.stop) lastEnd

end Token

namespace Sprout

/-- Unrecognized tokens in an error branch of their own, if there are any. -/
def aside : List Token → List Sprout
  | [] => []
  | t :: ts => [branch .error ((t :: ts).map token)]

end Sprout

namespace Stage

def kind (g : Stage) : Kind := Token.firstKind g.tokens

def holds (g : Stage) (t : Test) : Bool := t.holds g.tokens g.found.any

/-- The first stage of a new branch. -/
def enter (g : Stage) : Stage := { g with children := [], found := g.found.bury }

/-- The stage after a branch whose last stage is `inner`. -/
def leave (g : Stage) (kind : Kind) (inner : Stage) : Stage :=
  { inner with children := g.children ++ [.branch kind inner.children], found := .last }

/-- Takes the current token and the unrecognized ones after it; the end of file stays. -/
def take (g : Stage) : Stage :=
  match g.tokens with
  | [] => g
  | t :: rest =>
    if t.kind = .eof then g
    else
      let junk := rest.takeWhile Token.isSkipped
      { tokens := rest.dropWhile Token.isSkipped
        children := g.children ++ .token t :: Sprout.aside junk
        diagnostics := g.diagnostics ++ (t :: junk).filterMap (·.error)
        lastEnd := Token.endFrom t.range.stop junk
        found := g.found.bury }

/-- Reports that something is absent and records a missing token. -/
def miss (g : Stage) (what : String) : Stage :=
  { g with
    children := g.children ++ [.missing g.lastEnd]
    diagnostics := g.diagnostics ++ [.of (.expected what) (.point g.lastEnd)]
    found := g.found.bury }

/-- Reports a problem with the current token. -/
def report (g : Stage) (problem : Kind → Problem) : Stage :=
  match g.tokens with
  | [] => g
  | t :: _ => { g with diagnostics := g.diagnostics ++ [.of (problem t.kind) t.range] }

end Stage

variable {ρ : Type} {grammar : ρ → Act ρ}

/-- Takes tokens up to one of the set `stop`, or up to the end of file. -/
def Act.takeUpTo (stop : KindSet) : Act ρ :=
  .repeatWhile (.not (.kindIn (.single .eof ∪ stop))) .bump

/-- `Makes grammar a g n g'`: the action leads from one stage to the other in `n` steps of the
machine. No requirement fails on the way, and branches are wrapped only right after they are
found. -/
inductive Makes (grammar : ρ → Act ρ) : Act ρ → Stage → Nat → Stage → Prop where
  | done {g} : Makes grammar .done g 1 g
  | andThen {a b g m g₁ n g₂} (first : Makes grammar a g m g₁) (second : Makes grammar b g₁ n g₂) :
    Makes grammar (.andThen a b) g (m + n + 1) g₂
  | require {test g} (h : g.holds test = true) : Makes grammar (.require test) g 1 g
  | bump {g} : Makes grammar .bump g 1 g.take
  | missing {what g} : Makes grammar (.missing what) g 1 (g.miss what)
  | recover {problem stop g n g'} (h : g.kind ≠ .eof)
    (loop : Makes grammar (.takeUpTo stop) (g.enter.report problem).take n g') :
    Makes grammar (.recover problem stop) g (n + 2) (g.leave .error g')
  | node {kind body g n g'} (inner : Makes grammar body g.enter n g') :
    Makes grammar (.node kind body) g (n + 2) (g.leave kind g')
  | nodeIfAny {kind body g n g'} (inner : Makes grammar body g.enter n g')
    (h : g'.children ≠ []) : Makes grammar (.nodeIfAny kind body) g (n + 2) (g.leave kind g')
  | nodeIfNone {kind body g n g'} (inner : Makes grammar body g.enter n g')
    (h : g'.children = []) :
    Makes grammar (.nodeIfAny kind body) g (n + 2)
      { g' with children := g.children, found := .nothing }
  | wrap {kind body g n g' before k cs} (h : g.found = .last)
    (last : g.children = before ++ [.branch k cs])
    (inner : Makes grammar body { g with children := [.branch k cs], found := .earlier } n g') :
    Makes grammar (.wrap kind body) g (n + 2) ({ g with children := before }.leave kind g')
  | decline {g} : Makes grammar .decline g 1 { g with found := .nothing }
  | branch {test yes no g n g'} (h : Makes grammar (if g.holds test then yes else no) g n g') :
    Makes grammar (.branch test yes no) g (n + 1) g'
  | byKind {choose g n g'} (h : Makes grammar (choose g.kind) g n g') :
    Makes grammar (.byKind choose) g (n + 1) g'
  | stop {test body g} (h : g.holds test = false) : Makes grammar (.repeatWhile test body) g 1 g
  | again {test body g m g₁ n g₂} (h : g.holds test = true) (first : Makes grammar body g m g₁)
    (rest : Makes grammar (.repeatWhile test body) g₁ n g₂) :
    Makes grammar (.repeatWhile test body) g (m + n + 1) g₂
  | call {rule g n g'} (h : Makes grammar (grammar rule) g n g') :
    Makes grammar (.call rule) g (n + 1) g'

namespace Makes

/-- An action makes at most one thing of a stage. -/
theorem unique {a : Act ρ} {g g' g'' : Stage} {n m : Nat} (h : Makes grammar a g n g')
    (h' : Makes grammar a g m g'') : n = m ∧ g' = g'' := by
  induction h generalizing m g'' with
  | done | bump | missing | decline | require => cases h'; exact ⟨rfl, rfl⟩
  | andThen _ _ ih₁ ih₂ =>
    cases h' with
    | andThen first second =>
      obtain ⟨rfl, rfl⟩ := ih₁ first
      obtain ⟨rfl, rfl⟩ := ih₂ second
      exact ⟨rfl, rfl⟩
  | recover _ _ ih =>
    cases h' with
    | recover _ loop => obtain ⟨rfl, rfl⟩ := ih loop; exact ⟨rfl, rfl⟩
  | node _ ih =>
    cases h' with
    | node inner => obtain ⟨rfl, rfl⟩ := ih inner; exact ⟨rfl, rfl⟩
  | nodeIfAny _ hc ih =>
    cases h' with
    | nodeIfAny inner => obtain ⟨rfl, rfl⟩ := ih inner; exact ⟨rfl, rfl⟩
    | nodeIfNone inner hc' => obtain ⟨rfl, rfl⟩ := ih inner; exact absurd hc' hc
  | nodeIfNone _ hc ih =>
    cases h' with
    | nodeIfAny inner hc' => obtain ⟨rfl, rfl⟩ := ih inner; exact absurd hc hc'
    | nodeIfNone inner => obtain ⟨rfl, rfl⟩ := ih inner; exact ⟨rfl, rfl⟩
  | wrap hf hl _ ih =>
    cases h' with
    | wrap _ hl' inner =>
      obtain ⟨rfl, hb⟩ := List.append_inj' (hl.symm.trans hl') rfl
      cases hb
      obtain ⟨rfl, rfl⟩ := ih inner
      exact ⟨rfl, rfl⟩
  | branch _ ih =>
    cases h' with
    | branch inner => obtain ⟨rfl, rfl⟩ := ih inner; exact ⟨rfl, rfl⟩
  | byKind _ ih =>
    cases h' with
    | byKind inner => obtain ⟨rfl, rfl⟩ := ih inner; exact ⟨rfl, rfl⟩
  | stop ht =>
    cases h' with
    | stop => exact ⟨rfl, rfl⟩
    | again ht' => rw [ht] at ht'; cases ht'
  | again ht _ _ ih₁ ih₂ =>
    cases h' with
    | stop ht' => rw [ht] at ht'; cases ht'
    | again _ first rest =>
      obtain ⟨rfl, rfl⟩ := ih₁ first
      obtain ⟨rfl, rfl⟩ := ih₂ rest
      exact ⟨rfl, rfl⟩
  | call _ ih =>
    cases h' with
    | call inner => obtain ⟨rfl, rfl⟩ := ih inner; exact ⟨rfl, rfl⟩

end Makes
end PhpSyntax
