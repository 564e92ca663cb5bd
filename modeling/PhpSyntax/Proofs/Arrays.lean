import PhpSyntax.Proofs.Expressions

/-!
Array literals of variables: with keys, by reference, spread, and with nothing between two commas.
-/
namespace PhpSyntax

open Grammar (php elementFirst)
open Word (mark written Legible)

/-- An element of an array whose key and value are variables. -/
inductive ArrayItem where
  /-- `$x` -/
  | plain (value : Spelled .variableName)
  /-- `$k => $v` -/
  | keyed (key value : Spelled .variableName)
  /-- `$k => &$v` -/
  | keyedReference (key value : Spelled .variableName)
  /-- `&$x` -/
  | reference (value : Spelled .variableName)
  /-- `...$x` -/
  | spread (value : Spelled .variableName)

namespace ArrayItem

/-- How an element is written. -/
def text : ArrayItem → List Char
  | plain x => x.text
  | keyed k x => k.text ++ " => ".toList ++ x.text
  | keyedReference k x => k.text ++ " => &".toList ++ x.text
  | reference x => "&".toList ++ x.text
  | spread x => "...".toList ++ x.text

/-- The words of an element, with blanks around an arrow. -/
def pieces : ArrayItem → List (Bool × Word)
  | plain x => [(false, x.word)]
  | keyed k x => [(false, k.word), (true, mark .fatArrow), (true, x.word)]
  | keyedReference k x =>
    [(false, k.word), (true, mark .fatArrow), (true, mark .amp), (false, x.word)]
  | reference x => [(false, mark .amp), (false, x.word)]
  | spread x => [(false, mark .ellipsis), (false, x.word)]

def words (a : ArrayItem) : List Word := a.pieces.map Prod.snd

def tree : ArrayItem → Sprout
  | plain x => .branch .arrayElement [(Expr.var x).tree]
  | keyed k x =>
    .branch .arrayElement [(Expr.var k).tree, .token (mark .fatArrow).token, (Expr.var x).tree]
  | keyedReference k x =>
    .branch .arrayElement [(Expr.var k).tree, .token (mark .fatArrow).token,
      .token (mark .amp).token, (Expr.var x).tree]
  | reference x => .branch .arrayElement [.token (mark .amp).token, (Expr.var x).tree]
  | spread x => .branch .arrayElement [.token (mark .ellipsis).token, (Expr.var x).tree]

/-- The bare tree of a variable. -/
def operand : Outline := .branch .variableExpr [.leaf .variableName]

/-- The bare tree of an element. -/
def outline : ArrayItem → Outline
  | plain _ => .branch .arrayElement [operand]
  | keyed _ _ => .branch .arrayElement [operand, .leaf .fatArrow, operand]
  | keyedReference _ _ => .branch .arrayElement [operand, .leaf .fatArrow, .leaf .amp, operand]
  | reference _ => .branch .arrayElement [.leaf .amp, operand]
  | spread _ => .branch .arrayElement [.leaf .ellipsis, operand]

/-! ## Lists with holes -/

section Joined

variable {α β : Type} (comma : α) (item : ArrayItem → List α)

/-- What stands for the elements of a list, and between them for the commas. There is nothing where
an element is absent. -/
def joined (is : List (Option ArrayItem)) : List α :=
  [comma].intercalate (is.map fun i => i.elim [] item)

@[simp] theorem joined_nil : joined comma item [] = [] := rfl

@[simp] theorem joined_hole : joined comma item [none] = [] := rfl

@[simp] theorem joined_one (a : ArrayItem) : joined comma item [some a] = item a :=
  List.intercalate_singleton

@[simp] theorem joined_hole_cons (i : Option ArrayItem) (is : List (Option ArrayItem)) :
    joined comma item (none :: i :: is) = comma :: joined comma item (i :: is) :=
  List.intercalate_cons_cons

@[simp] theorem joined_cons (a : ArrayItem) (i : Option ArrayItem) (is : List (Option ArrayItem)) :
    joined comma item (some a :: i :: is) = item a ++ comma :: joined comma item (i :: is) :=
  List.intercalate_cons_cons.trans (List.append_assoc ..)

/-- Induction over a list with holes: it has at most one place, or a comma follows the first. -/
@[elab_as_elim]
theorem joined_induct {P : List (Option ArrayItem) → Prop} (nil : P []) (hole : P [none])
    (one : ∀ a, P [some a]) (hole_cons : ∀ i is, P (i :: is) → P (none :: i :: is))
    (cons : ∀ a i is, P (i :: is) → P (some a :: i :: is)) (is : List (Option ArrayItem)) :
    P is := by
  match is with
  | [] => exact nil
  | [none] => exact hole
  | [some a] => exact one a
  | none :: i :: is => exact hole_cons i is (joined_induct nil hole one hole_cons cons (i :: is))
  | some a :: i :: is => exact cons a i is (joined_induct nil hole one hole_cons cons (i :: is))

theorem map_joined (g : α → β) (is : List (Option ArrayItem)) :
    (joined comma item is).map g = joined (g comma) (fun a => (item a).map g) is := by
  induction is using joined_induct with
  | nil | hole => rfl
  | one a => simp
  | hole_cons i is ih => simp [ih]
  | cons a i is ih => simp [ih]

variable {comma item} {p : α → Bool}

/-- Without the commas a list is what stands for the elements that are there. -/
theorem filter_joined_items (hc : p comma = false) (hi : ∀ a, (item a).filter p = item a)
    (is : List (Option ArrayItem)) :
    (joined comma item is).filter p = (is.filterMap id).flatMap item := by
  induction is using joined_induct with
  | nil | hole => rfl
  | one a => simp [hi]
  | hole_cons i is ih => simp [hc, ih]
  | cons a i is ih => simp [hc, hi, ih]

/-- There is a comma between any two places of a list. -/
theorem filter_joined_commas (hc : p comma = true) (hi : ∀ a, (item a).filter p = [])
    (is : List (Option ArrayItem)) :
    (joined comma item is).filter p = List.replicate (is.length - 1) comma := by
  induction is using joined_induct with
  | nil | hole => rfl
  | one a => simp [hi]
  | hole_cons i is ih => simp [hc, ih, List.replicate_succ]
  | cons a i is ih => simp [hc, hi, ih, List.replicate_succ]

end Joined

/-- The text `<?php [a,b,…];` -/
def arrayText (is : List (Option ArrayItem)) : List Char :=
  "<?php [".toList ++ joined ',' text is ++ "];".toList

def arrayWords (is : List (Option ArrayItem)) : List Word :=
  mark .leftBracket :: (joined (mark .comma) words is ++ [mark .rightBracket, mark .semicolon])

def arrayPieces (is : List (Option ArrayItem)) : List (Bool × Word) :=
  (true, mark .leftBracket) :: (joined (false, mark .comma) pieces is ++
    [(false, mark .rightBracket), (false, mark .semicolon)])

theorem words_arrayPieces (is : List (Option ArrayItem)) :
    (arrayPieces is).map Prod.snd = arrayWords is := by
  rw [arrayPieces, List.map_cons, List.map_append, map_joined]
  rfl

/-! ## Texts of arrays -/

section Pieces

variable {ps : List (Bool × Word)}

theorem written_pieces (a : ArrayItem) (ps : List (Bool × Word)) :
    written (a.pieces ++ ps) = a.text ++ written ps := by
  cases a with
  | plain x => rfl
  | keyed k x | keyedReference k x =>
    rw [text, List.append_assoc, List.append_assoc]
    rfl
  | reference x | spread x =>
    rw [text, List.append_assoc]
    rfl

theorem written_joined (is : List (Option ArrayItem)) (ps : List (Bool × Word)) :
    written (joined (false, mark .comma) pieces is ++ ps) = joined ',' text is ++ written ps := by
  have hcomma (qs : List (Bool × Word)) :
      written ((false, mark .comma) :: qs) = ',' :: written qs := rfl
  induction is using joined_induct with
  | nil | hole => rfl
  | one a => rw [joined_one, joined_one, written_pieces]
  | hole_cons i is ih =>
    rw [joined_hole_cons, joined_hole_cons, List.cons_append, hcomma, ih, List.cons_append]
  | cons a i is ih =>
    rw [joined_cons, joined_cons, List.append_assoc, written_pieces, List.cons_append, hcomma, ih,
      List.append_assoc, List.cons_append]

theorem written_arrayPieces (is : List (Option ArrayItem)) :
    Word.openTag.2 ++ written (arrayPieces is) = arrayText is := by
  have hopen (xs ys : List Char) :
      "<?php [".toList ++ xs ++ ys = Word.openTag.2 ++ ([' ', '['] ++ (xs ++ ys)) := by
    have hstart : "<?php [".toList = Word.openTag.2 ++ [' ', '['] := by decide
    rw [hstart, List.append_assoc, List.append_assoc]
  have hlist : written
      (joined (false, mark .comma) pieces is ++
        [(false, mark .rightBracket), (false, mark .semicolon)]) =
      joined ',' text is ++ "];".toList := written_joined is _
  calc Word.openTag.2 ++ written (arrayPieces is)
      = Word.openTag.2 ++ ([' ', '['] ++ (joined ',' text is ++ "];".toList)) :=
        congrArg (fun cs => Word.openTag.2 ++ ([' ', '['] ++ cs)) hlist
    _ = arrayText is := (hopen _ _).symm

/-- A variable after an ampersand is no part of it. -/
theorem stands_amp (x : Spelled .variableName) (rest : List Char) :
    Lexeme.Stands .amp ['&'] (x.text ++ rest) := by
  obtain ⟨cs, hx, -⟩ := x.isWord.eq_variable
  rw [hx]
  exact ⟨rfl, rfl, nofun, nofun⟩

theorem legible_pieces (a : ArrayItem) (h : Legible ps)
    (hps : ∀ c ∈ (written ps).head?, Lexeme.isNameContinue c = false) :
    Legible (a.pieces ++ ps) := by
  have hkey (k : Spelled .variableName) (cs : List Char) :
      Lexeme.Stands .variableName k.text (' ' :: cs) := by
    apply k.isWord.stands_variable
    intro c hc
    obtain rfl : ' ' = c := Option.some.inj hc
    decide
  cases a with
  | plain x => exact ⟨x.isWord.stands_variable hps, h⟩
  | keyed k x =>
    exact ⟨hkey k _, ⟨rfl, rfl, nofun, nofun⟩, x.isWord.stands_variable hps, h⟩
  | keyedReference k x =>
    exact ⟨hkey k _, ⟨rfl, rfl, nofun, nofun⟩, stands_amp x _, x.isWord.stands_variable hps, h⟩
  | reference x => exact ⟨stands_amp x _, x.isWord.stands_variable hps, h⟩
  | spread x => exact ⟨⟨rfl, rfl, nofun, nofun⟩, x.isWord.stands_variable hps, h⟩

theorem legible_joined (is : List (Option ArrayItem)) (h : Legible ps)
    (hps : ∀ c ∈ (written ps).head?, Lexeme.isNameContinue c = false) :
    Legible (joined (false, mark .comma) pieces is ++ ps) := by
  have hcomma (qs : List (Bool × Word)) (hqs : Legible qs) : Legible ((false, mark .comma) :: qs) :=
    ⟨⟨rfl, rfl, nofun, nofun⟩, hqs⟩
  induction is using joined_induct with
  | nil | hole => exact h
  | one a =>
    rw [joined_one]
    exact a.legible_pieces h hps
  | hole_cons i is ih =>
    rw [joined_hole_cons]
    exact hcomma _ ih
  | cons a i is ih =>
    rw [joined_cons, List.append_assoc]
    apply a.legible_pieces (hcomma _ ih)
    intro c hc
    obtain rfl : ',' = c := Option.some.inj hc
    decide

theorem legible_arrayPieces (is : List (Option ArrayItem)) : Legible (arrayPieces is) := by
  have hclose : Legible [(false, mark .rightBracket), (false, mark .semicolon)] :=
    ⟨⟨rfl, rfl, nofun, nofun⟩, ⟨rfl, rfl, nofun, nofun⟩, trivial⟩
  constructor
  · exact ⟨rfl, rfl, nofun, nofun⟩
  · apply legible_joined is hclose
    intro c hc
    obtain rfl : ']' = c := Option.some.inj hc
    decide

end Pieces

/-- The tokens of an array literal. -/
theorem tokens_arrayText (is : List (Option ArrayItem)) (dialect : Dialect) :
    Token.significant (tokenize dialect (arrayText is)) =
      Word.openTag :: arrayWords is ++ [Word.eof] ∧
    ∀ t ∈ tokenize dialect (arrayText is), t.error = none := by
  rw [← written_arrayPieces, ← words_arrayPieces]
  exact Word.tokens_opened (legible_arrayPieces is) rfl dialect

/-! ## What arrays lead to -/

variable {rest : List Word} {cs : List Sprout} {f : Found} {k : Kind}

theorem first_words (a : ArrayItem) (rest : List Word) :
    elementFirst.contains (Word.first (a.words ++ rest)) = true := by
  cases a with
  | plain | keyed | keyedReference =>
    show elementFirst.contains .variableName = true
    decide
  | reference =>
    show elementFirst.contains .amp = true
    decide
  | spread =>
    show elementFirst.contains .ellipsis = true
    decide

theorem var_leads (x : Spelled .variableName) (hc : Expr.closes k = true) :
    Leads php Grammar.expression ⟨x.word :: mark k :: rest, cs, f⟩
      ⟨mark k :: rest, cs ++ [(Expr.var x).tree], .last⟩ :=
  Expr.Climbs.before ((Expr.var x).climbs rfl).1 hc

/-- An element before a word that goes on with no expression and is no arrow. -/
theorem leads (a : ArrayItem) (hc : Expr.closes k = true) (hk : (k == .fatArrow) = false) :
    Leads php Grammar.arrayElement ⟨a.words ++ mark k :: rest, cs, f⟩
      ⟨mark k :: rest, cs ++ [a.tree], .last⟩ := by
  have hfirst {ws : List Word} {cs : List Sprout} {f : Found} (x : Spelled .variableName) :
      Spot.holds ⟨x.word :: ws, cs, f⟩ (.kindIn (.ofList [.ellipsis, .amp])) = false :=
    show KindSet.contains _ .variableName = false by decide
  have hsign (s : Kind) (hs : KindSet.contains (.ofList [.ellipsis, .amp]) s = true)
      (hne : s ≠ .eof) (x : Spelled .variableName) :
      Leads php Grammar.arrayElement ⟨mark s :: x.word :: mark k :: rest, cs, f⟩
        ⟨mark k :: rest, cs ++ [.branch .arrayElement [.token (mark s).token, (Expr.var x).tree]],
          .last⟩ :=
    .node (.yes hs ((Leads.mark hne).andThen (var_leads x hc)))
  have harrow : Expr.closes .fatArrow = true := by decide
  cases a with
  | plain x => exact .node (.no (hfirst x) ((var_leads x hc).andThen (.no hk .done)))
  | keyed key x =>
    exact .node (.no (hfirst key) ((var_leads key harrow).andThen
      (.yes rfl ((Leads.mark (by decide)).andThen
        ((Leads.no rfl .done).andThen (var_leads x hc))))))
  | keyedReference key x =>
    exact .node (.no (hfirst key) ((var_leads key harrow).andThen
      (.yes rfl ((Leads.mark (by decide)).andThen
        ((Leads.yes rfl (.mark (by decide))).andThen (var_leads x hc))))))
  | reference x => exact hsign .amp (by decide) nofun x
  | spread x => exact hsign .ellipsis (by decide) nofun x

/-- The loop over the elements of an array. -/
def loop : Grammar.Action := Expr.listLoop elementFirst .bump Grammar.arrayElement

/-- The loop leads to the closing bracket, whatever is absent. -/
theorem loop_leads (is : List (Option ArrayItem)) (rest : List Word) (cs : List Sprout)
    (f : Found) :
    ∃ f', Leads php loop ⟨joined (mark .comma) words is ++ mark .rightBracket :: rest, cs, f⟩
      ⟨mark .rightBracket :: rest,
        cs ++ joined (.token (mark .comma).token) (fun a => [a.tree]) is, f'⟩ := by
  have hstop (cs : List Sprout) (f : Found) : Leads php loop
      ⟨mark .rightBracket :: rest, cs, f⟩ ⟨mark .rightBracket :: rest, cs, f⟩ :=
    .stop (show KindSet.contains _ .rightBracket = false by decide)
  have hother : elementFirst.contains .comma = false := by decide
  induction is using joined_induct generalizing cs f with
  | nil | hole =>
    use f
    simpa using hstop cs f
  | one a =>
    have hclose : elementFirst.contains .rightBracket = false := by decide
    rw [joined_one, joined_one]
    exact ⟨_, Expr.listLoop_step hother (a.first_words _) (a.leads (by decide) rfl)
      (.no rfl (.no hclose .done)) (hstop _ _)⟩
  | hole_cons i is ih =>
    -- a comma without an element before it is taken alone
    obtain ⟨f', hrest⟩ := ih (cs ++ [.token (mark .comma).token]) f.bury
    rw [joined_hole_cons, joined_hole_cons, List.append_cons cs]
    exact ⟨f', .again (show KindSet.contains _ .comma = true by decide)
      (.yes rfl (.mark (by decide))) hrest⟩
  | cons a i is ih =>
    obtain ⟨f', hrest⟩ := ih (cs ++ [a.tree] ++ [.token (mark .comma).token]) Found.last.bury
    rw [joined_cons, joined_cons, List.append_assoc, List.cons_append, ← List.append_assoc cs,
      List.append_cons (cs ++ [a.tree])]
    exact ⟨f', Expr.listLoop_step hother (a.first_words _) (a.leads (by decide) rfl)
      (.yes rfl (.mark (by decide))) hrest⟩

/-- The tree of `[a,b,…]` -/
def arrayTree (is : List (Option ArrayItem)) : Sprout :=
  .branch .arrayExpr (.token (mark .leftBracket).token ::
    (joined (.token (mark .comma).token) (fun a => [a.tree]) is ++
      [.token (mark .rightBracket).token]))

theorem array_leads (is : List (Option ArrayItem)) :
    Leads php Grammar.array
      ⟨mark .leftBracket :: (joined (mark .comma) words is ++ mark .rightBracket :: rest), cs, f⟩
      ⟨rest, cs ++ [arrayTree is], .last⟩ := by
  obtain ⟨f', hloop⟩ := loop_leads is rest [.token (mark .leftBracket).token] f.bury.bury
  have helements : Leads php (Grammar.arrayElements .leftBracket .rightBracket)
      ⟨mark .leftBracket :: (joined (mark .comma) words is ++ mark .rightBracket :: rest), [],
        f.bury⟩
      ⟨rest, [.token (mark .leftBracket).token] ++
        joined (.token (mark .comma).token) (fun a => [a.tree]) is ++
          [.token (mark .rightBracket).token], f'.bury⟩ :=
    (((Leads.require rfl).andThen (.mark (by decide))).andThen hloop).andThen
      (.expect rfl (by decide))
  exact .node (.no rfl helements)

/-- The tree of the statement. -/
def statementTree (is : List (Option ArrayItem)) : Sprout :=
  .branch .exprStmt [arrayTree is, .token (mark .semicolon).token]

theorem statement_leads (is : List (Option ArrayItem)) :
    Leads php (.call .statement) ⟨arrayWords is ++ rest, cs, f⟩
      ⟨rest, cs ++ [statementTree is], .last⟩ := by
  have hwords : arrayWords is ++ rest = mark .leftBracket ::
      (joined (mark .comma) words is ++ mark .rightBracket :: mark .semicolon :: rest) := by
    simp [arrayWords]
  have hpostfixed : Leads php Grammar.postfixed ⟨arrayWords is ++ rest, [], f.bury⟩
      ⟨mark .semicolon :: rest, [arrayTree is], .last⟩ := by
    rw [hwords]
    exact Expr.postfixed_leads (.byKind (array_leads is))
      (.stop (show Grammar.postfixFirst.contains .semicolon = false by decide))
  have hexpression : Leads php Grammar.expression ⟨arrayWords is ++ rest, [], f.bury⟩
      ⟨mark .semicolon :: rest, [arrayTree is], .last⟩ :=
    Expr.expressionAt (.call (Expr.climb_leads (.byKind hpostfixed)
      (Expr.operators_stop fun b hb => by cases hb)))
  have hnode : Leads php Grammar.expressionStatement ⟨arrayWords is ++ rest, cs, f⟩
      ⟨rest, cs ++ [statementTree is], .last⟩ :=
    .node (hexpression.andThen (.no rfl (.expect rfl (by decide))))
  apply Leads.call
  apply Leads.byKind
  show Leads php (if Grammar.expressionFirst.contains .leftBracket then _ else _) _ _
  rw [if_pos (by decide)]
  exact hnode

/-! ## Bare trees -/

/-- The bare trees of the children of `[a,b,…]` -/
def arrayOutlines (is : List (Option ArrayItem)) : List Outline :=
  .leaf .leftBracket :: (joined (.leaf .comma) (fun a => [a.outline]) is ++ [.leaf .rightBracket])

theorem bare_tree (a : ArrayItem) : a.tree.bare = a.outline := by
  cases a <;>
    simp [tree, outline, operand, Expr.tree, Sprout.bare, Spelled.word, Word.token, mark]

theorem bare_arrayTree (is : List (Option ArrayItem)) :
    (arrayTree is).bare = .branch .arrayExpr (arrayOutlines is) := by
  have hlist := map_joined (.token (mark .comma).token) (fun a => [a.tree]) Sprout.bare is
  simp only [List.map_singleton, bare_tree] at hlist
  rw [arrayTree, Sprout.bare_branch, List.map_cons, List.map_append, hlist]
  simp [arrayOutlines, Sprout.bare, Word.token, mark]

theorem kind_outline (a : ArrayItem) : a.outline.kind = .arrayElement := by cases a <;> rfl

/-- The elements of an array are those that are there. -/
theorem elements_arrayOutlines (is : List (Option ArrayItem)) :
    (arrayOutlines is).filter (·.kind == .arrayElement) = (is.filterMap id).map outline := by
  have hitem (a : ArrayItem) : [a.outline].filter (·.kind == .arrayElement) = [a.outline] :=
    List.filter_cons_of_pos (beq_iff_eq.mpr a.kind_outline)
  rw [arrayOutlines, List.filter_cons_of_neg (by decide), List.filter_append,
    filter_joined_items rfl hitem, List.map_eq_flatMap]
  exact List.append_nil _

/-- The commas of an array are those between its places. -/
theorem commas_arrayOutlines (is : List (Option ArrayItem)) :
    (arrayOutlines is).filter (·.kind == .comma) =
      List.replicate (is.length - 1) (.leaf .comma) := by
  have hitem (a : ArrayItem) : [a.outline].filter (·.kind == .comma) = [] :=
    List.filter_cons_of_neg (by simp [kind_outline])
  rw [arrayOutlines, List.filter_cons_of_neg (by decide), List.filter_append,
    filter_joined_commas rfl hitem]
  exact List.append_nil _

end ArrayItem

end PhpSyntax
