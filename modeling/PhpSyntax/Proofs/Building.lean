import PhpSyntax.Proofs.Growth
import PhpSyntax.Proofs.Layout

/-!
The builder makes a tree of every listing of a sprout whose tokens tile the text. Its elements show
the sprouts: each at its place, with its text.
-/
namespace PhpSyntax

namespace Token

variable {offset : Nat} {text rest : List Char} {ts us : List Token}

theorem Tiles.split (h : Tiles offset text (ts ++ us) rest) :
    ∃ front mid, text = front ++ mid ∧ Tiles offset text ts mid ∧
      Tiles (offset + Text.width front) mid us rest := by
  induction ts generalizing offset text with
  | nil => exact ⟨[], text, rfl, .nil, h⟩
  | cons t ts ih =>
    cases h with
    | @cons _ _ _ _ lead text begins wide tail =>
      obtain ⟨front, mid, rfl, h₁, h₂⟩ := ih tail
      refine ⟨lead ++ (t.text ++ front), mid, by simp, .cons lead begins wide h₁, ?_⟩
      have he : offset + Text.width (lead ++ (t.text ++ front)) =
          t.range.stop + Text.width front := by
        rw [stop_range, begins, ← wide, Text.width_append, Text.width_append]
        omega
      rwa [he]

end Token

namespace Sprout

/-- Sprouts that a builder takes: branches have node kinds and children, tokens have token kinds. -/
inductive Buildable : Sprout → Prop where
  | token {t : Token} (isToken : t.kind.isToken = true) (notTrivia : t.kind.isTrivia = false) :
    Buildable (token t)
  | missing (o : Nat) : Buildable (missing o)
  | branch {kind : Kind} {children : List Sprout} (isNode : kind.isNode = true)
    (nonempty : children ≠ []) (buildable : ∀ c ∈ children, Buildable c) :
    Buildable (branch kind children)

theorem buildable_token {t : Token} (h : t.Lawful) : (token t).Buildable := by
  by_cases hk : t.kind = .eof
  · exact .token (by rw [hk]; rfl) (by rw [hk]; rfl)
  · have hw := h.written hk
    simp only [Kind.isWritten, Bool.and_eq_true, Bool.not_eq_true'] at hw
    exact .token hw.1.1.1.1 hw.1.1.1.2

theorem Made.buildable {c : Sprout} (h : c.Made) (hf : c.Full) : c.Buildable := by
  induction h with
  | token _ lawful => exact buildable_token lawful
  | missing o => exact .missing o
  | aside skipped lawful =>
    refine .branch rfl (by simp) fun c hc => ?_
    obtain ⟨u, hu, rfl⟩ := List.mem_map.mp hc
    exact buildable_token (lawful u hu)
  | branch isNode _ _ _ ih =>
    cases hf with
    | branch nonempty full => exact .branch isNode nonempty fun c hc => ih c hc (full c hc)

/-- Elements that show sprouts, which stand at an offset and take all of a text. -/
inductive Shows : (offset : Nat) → (text : List Char) → List Sprout → List Element → Prop where
  | nil {offset} : Shows offset [] [] []
  | token {offset t index lead text cs es} (begins : t.offset = offset)
    (wide : Text.width lead = t.leadingWidth) (tail : Shows t.range.stop text cs es) :
    Shows offset (lead ++ (t.text ++ text)) (token t :: cs)
      (.leaf ⟨t.kind, index, offset, t.leading, Text.width t.text, lead ++ t.text⟩ :: es)
  | missing {offset index text cs es} (tail : Shows offset text cs es) :
    Shows offset text (missing offset :: cs) (.leaf ⟨.missing, index, offset, [], 0, []⟩ :: es)
  | branch {offset kind index ds fs front text cs es} (inner : Shows offset front ds fs)
    (tail : Shows (offset + Text.width front) text cs es) :
    Shows offset (front ++ text) (branch kind ds :: cs)
      (.branch ⟨kind, index, .ofLength offset (Text.width front)⟩ fs :: es)

theorem Shows.ne_nil {offset : Nat} {text : List Char} {cs : List Sprout} {es : List Element}
    (h : Shows offset text cs es) (hc : cs ≠ []) : es ≠ [] := by
  cases h <;> simp_all

end Sprout

namespace Builder

open Sprout (Shows Stands)

variable {b b' : Builder} {top : OpenBranch} {up : List OpenBranch}

/-- What building some elements leaves: they are in the innermost open branch, and `front` is taken
of the text. -/
structure Adds (b b' : Builder) (top : OpenBranch) (up : List OpenBranch) (es : List Element)
    (front rest : List Char) : Prop where
  opened : b'.opened = { top with children := es.reverse ++ top.children } :: up
  rest : b'.rest = rest
  covered : b'.covered = b.covered + Text.width front
  text : b'.text = b.text

variable {es es' : List Element} {front front' rest rest' : List Char}

theorem Adds.trans {b₁ b₂ : Builder} (h : Adds b b₁ top up es front rest)
    (h' : Adds b₁ b₂ { top with children := es.reverse ++ top.children } up es' front' rest') :
    Adds b b₂ top up (es ++ es') (front ++ front') rest' where
  opened := by simp [h'.opened]
  rest := h'.rest
  covered := by rw [h'.covered, h.covered, Text.width_append, Nat.add_assoc]
  text := h'.text.trans h.text

/-- Adding a token that the text goes on with. -/
theorem adds_token {leading : List TriviaPiece} {kind : Kind} {lead text rest : List Char}
    (hb : b.opened = top :: up) (hr : b.rest = lead ++ (text ++ rest))
    (hk : kind.isToken = true) (ht : kind.isTrivia = false)
    (hw : Text.width lead = TriviaPiece.totalWidth leading) :
    ∃ b' index, b.step (.token leading kind (Text.width text)) = .ok b' ∧ Adds b b' top up
      [.leaf ⟨kind, index, b.covered, leading, Text.width text, lead ++ text⟩]
      (lead ++ text) rest := by
  have hsplit := Text.splitBytes_append (lead ++ text) rest
  rw [Text.width_append, hw, List.append_assoc, ← hr] at hsplit
  let leaf : Leaf := ⟨kind, b.leaves, b.covered, leading, Text.width text, lead ++ text⟩
  refine ⟨{ b with
    opened := { top with children := .leaf leaf :: top.children } :: up
    rest := rest
    covered := b.covered + (TriviaPiece.totalWidth leading + Text.width text)
    leaves := b.leaves + 1 }, b.leaves, ?_, rfl, rfl, ?_, rfl⟩
  · simp [step, token, hk, ht, hb, hsplit, leaf]
  · rw [Text.width_append, hw]

theorem adds_missing (hb : b.opened = top :: up) :
    ∃ b' index, b.step .missing = .ok b' ∧ Adds b b' top up
      [.leaf ⟨.missing, index, b.covered, [], 0, []⟩] [] b.rest := by
  have h : b.rest = [] ++ ([] ++ b.rest) := rfl
  exact adds_token hb h rfl rfl rfl

/-- Opening a branch in another one. -/
theorem opens_branch {kind : Kind} (hb : b.opened = top :: up) (hk : kind.isNode = true) :
    ∃ b' index, b.step (.startNode kind) = .ok b' ∧
      b'.opened = ⟨kind, index, b.covered, []⟩ :: top :: up ∧ b'.rest = b.rest ∧
      b'.covered = b.covered ∧ b'.text = b.text := by
  refine ⟨{ b with
    opened := ⟨kind, b.branches, b.covered, []⟩ :: top :: up
    branches := b.branches + 1 }, b.branches, ?_, rfl, rfl, rfl, rfl⟩
  simp [step, startNode, hk, hb]

/-- Closing a branch in which something was built. -/
theorem adds_branch {kind : Kind} {index : Nat} {b₁ b₂ : Builder} (hcov : b₁.covered = b.covered)
    (htext : b₁.text = b.text) (hne : es ≠ [])
    (h : Adds b₁ b₂ ⟨kind, index, b.covered, []⟩ (top :: up) es front rest) :
    ∃ b', b₂.step .finishNode = .ok b' ∧ Adds b b' top up
      [.branch ⟨kind, index, .ofLength b.covered (Text.width front)⟩ es] front rest := by
  have hlen : b₂.covered - b.covered = Text.width front := by
    rw [h.covered, hcov, Nat.add_sub_cancel_left]
  let branch : Branch := ⟨kind, index, .ofLength b.covered (Text.width front)⟩
  refine ⟨{ b₂ with opened := { top with children := .branch branch es :: top.children } :: up },
    ?_, rfl, h.rest, h.covered.trans (by rw [hcov]), h.text.trans htext⟩
  simp [step, finishNode, h.opened, hne, hlen, branch]

/-- The listing of sprouts adds elements that show them. The induction is over the sprouts as they
stand in the text. -/
theorem run_listing {cs : List Sprout} {start stop : Nat} {text rest : List Char}
    (hs : Stands start cs stop) (hc : ∀ c ∈ cs, c.Buildable)
    (ht : Token.Tiles start text (cs.flatMap Sprout.tokens) rest)
    (hb : b.opened = top :: up) (hr : b.rest = text) (hcov : b.covered = start) :
    ∃ b' es front, b.run (cs.flatMap Sprout.listing) = .ok b' ∧ text = front ++ rest ∧
      Shows start front cs es ∧ Adds b b' top up es front rest ∧ stop = b'.covered := by
  induction hs generalizing b top up text rest with
  | nil =>
    cases ht
    exact ⟨b, [], [], rfl, rfl, .nil, ⟨by simp [hb], hr, by simp, rfl⟩, hcov.symm⟩
  | @token o t cs e begins tail ih =>
    subst hcov
    obtain ⟨hct, hcs⟩ := List.forall_mem_cons.mp hc
    cases hct with
    | token hk htr =>
      rw [List.flatMap_cons, Sprout.tokens, List.singleton_append] at ht
      cases ht with
      | @cons _ _ _ _ lead text' _ wide tiles =>
        obtain ⟨b₁, index, hstep, hadd⟩ := adds_token hb hr hk htr wide
        have hstop : b₁.covered = t.range.stop := by
          rw [hadd.covered, Token.stop_range, begins, Text.width_append, wide, Nat.add_assoc]
        obtain ⟨b', es, front, hrun, rfl, hshow, hadds, hcov'⟩ :=
          ih hcs tiles hadd.opened hadd.rest hstop
        have htrans := hadd.trans hadds
        rw [List.append_assoc] at htrans
        refine ⟨b', _, _, ?_, by simp, .token begins wide hshow, htrans, hcov'⟩
        rw [List.flatMap_cons, Sprout.listing, List.singleton_append, run_cons hstep]
        exact hrun
  | @missing o cs e tail ih =>
    subst hcov
    obtain ⟨-, hcs⟩ := List.forall_mem_cons.mp hc
    rw [List.flatMap_cons, Sprout.tokens, List.nil_append] at ht
    obtain ⟨b₁, index, hstep, hadd⟩ := adds_missing hb
    obtain ⟨b', es, front, hrun, rfl, hshow, hadds, hcov'⟩ :=
      ih hcs ht hadd.opened (hadd.rest.trans hr) hadd.covered
    refine ⟨b', _, front, ?_, rfl, .missing hshow, hadd.trans hadds, hcov'⟩
    rw [List.flatMap_cons, Sprout.listing, List.singleton_append, run_cons hstep]
    exact hrun
  | @branch o kind ds m cs e inner tail ihi iht =>
    subst hcov
    obtain ⟨hct, hcs⟩ := List.forall_mem_cons.mp hc
    cases hct with
    | branch hk hne hds =>
      rw [List.flatMap_cons, Sprout.tokens_branch] at ht
      obtain ⟨front, mid, rfl, ht₁, ht₂⟩ := ht.split
      obtain ⟨b₁, index, hstart, ho₁, hr₁, hc₁, hx₁⟩ := opens_branch hb hk
      obtain ⟨b₂, fs, front', hrun₂, hf, hshow₂, hadds₂, hm⟩ :=
        ihi hds ht₁ ho₁ (hr₁.trans hr) hc₁
      obtain rfl := List.append_cancel_right hf
      obtain ⟨b₃, hfinish, hadds₃⟩ := adds_branch hc₁ hx₁ (hshow₂.ne_nil hne) hadds₂
      have hm' : b.covered + Text.width front = m := by
        rw [hm, hadds₂.covered, hc₁]
      rw [hm'] at ht₂
      obtain ⟨b₄, es, back, hrun₄, rfl, hshow₄, hadds₄, hcov'⟩ :=
        iht hcs ht₂ hadds₃.opened hadds₃.rest (hadds₃.covered.trans hm')
      rw [← hm'] at hshow₄
      refine ⟨b₄, _, front ++ back, ?_, by simp, .branch hshow₂ hshow₄, hadds₃.trans hadds₄, hcov'⟩
      rw [List.flatMap_cons, Sprout.listing_branch, List.append_assoc, List.cons_append,
        run_cons hstart, run_append hrun₂, List.singleton_append,
        run_cons hfinish]
      exact hrun₄

end Builder

open Sprout (Shows Stands) in
/-- The listing of a sprout whose tokens tile a text builds a tree that shows it. -/
theorem Tree.build_listing {kind : Kind} {cs : List Sprout} {text : List Char} {stop : Nat}
    (hs : Stands 0 cs stop) (hb : (Sprout.branch kind cs).Buildable)
    (ht : Token.Tiles 0 text (cs.flatMap Sprout.tokens) []) :
    ∃ index es, Tree.build text (Sprout.branch kind cs).listing =
      .ok ⟨text, ⟨kind, index, .ofLength 0 (Text.width text)⟩, es⟩ ∧ Shows 0 text cs es := by
  cases hb with
  | branch hk hne hcs =>
    let b₀ : Builder := { Builder.start text with opened := [⟨kind, 0, 0, []⟩], branches := 1 }
    have hstart : (Builder.start text).step (.startNode kind) = .ok b₀ := by
      simp [Builder.step, Builder.startNode, hk, Builder.start, b₀]
    obtain ⟨b₁, es, front, hrun, hf, hshow, hadds, -⟩ :=
      b₀.run_listing hs hcs ht rfl rfl rfl
    rw [List.append_nil] at hf
    subst hf
    have hfinish : b₁.step .finishNode = .ok { b₁ with
        opened := [], root := some (⟨kind, 0, .ofLength 0 (Text.width text)⟩, es) } := by
      have hcov : b₁.covered = Text.width text := hadds.covered.trans (Nat.zero_add _)
      simp [Builder.step, Builder.finishNode, hadds.opened, hshow.ne_nil hne, hcov]
    refine ⟨0, es, ?_, hshow⟩
    rw [Tree.build, Sprout.listing_branch, List.cons_append, Builder.run_cons hstart,
      Builder.run_append hrun, Builder.run_cons hfinish]
    simp [Builder.run, Builder.finish, hadds.rest, hadds.text, b₀, Builder.start]

end PhpSyntax
