import PhpSyntax.Proofs.Leading
import PhpSyntax.Proofs.Reports
import PhpSyntax.Proofs.Shape
import PhpSyntax.Tree.Text

/-!
Texts with nothing wrong in them. What the program makes of the words alone, with nothing to report,
is the tree of every text with these words, and that text has no diagnostics.
-/
namespace PhpSyntax

namespace Outline

/-- All kinds in an outline, in preorder. -/
def kinds : Outline → List Kind
  | leaf k => [k]
  | branch k os => k :: os.flatMap kinds

theorem kinds_branch (k : Kind) (os : List Outline) :
    (branch k os).kinds = k :: os.flatMap kinds := by rw [kinds]

end Outline

namespace Sprout

variable {c : Sprout} {cs : List Sprout}

theorem kinds_bare (c : Sprout) : c.bare.kinds = c.kinds := by
  induction c using Sprout.induct with
  | token | missing => rw [bare, Outline.kinds, kinds]
  | branch kind cs ih =>
    rw [bare_branch, Outline.kinds_branch, kinds_branch, List.flatMap_map]
    exact congrArg (kind :: ·) (List.flatMap_congr ih)

theorem flatMap_kinds_eq (cs : List Sprout) :
    cs.flatMap kinds = (cs.map bare).flatMap Outline.kinds := by
  rw [List.flatMap_map]
  exact List.flatMap_congr fun c _ => c.kinds_bare.symm

/-- Without unrecognized input a sprout has one outline. -/
theorem Made.outlines_eq (h : c.Made) (hs : ∀ t ∈ c.tokens, t.kind ≠ .skipped) :
    c.outlines = [c.bare] := by
  induction h with
  | token | missing => rw [outlines, bare]
  | @aside t ts skipped _ =>
    refine absurd (skipped t (List.mem_cons_self ..)) (hs t ?_)
    rw [tokens_branch, flatMap_tokens_map]
    exact List.mem_cons_self ..
  | @branch kind cs _ recovered _ _ ih =>
    have hcs : cs.flatMap outlines = cs.flatMap fun c => [c.bare] := by
      refine List.flatMap_congr fun c hc => ih c hc fun t ht => hs t ?_
      rw [tokens_branch]
      exact List.mem_flatMap.mpr ⟨c, hc, ht⟩
    rw [outlines_branch (isAside_branch recovered), hcs, bare_branch, List.map_eq_flatMap]

theorem flatMap_outlines_eq (h : ∀ c ∈ cs, c.Made)
    (hs : ∀ t ∈ cs.flatMap tokens, t.kind ≠ .skipped) : cs.flatMap outlines = cs.map bare := by
  rw [List.map_eq_flatMap]
  exact List.flatMap_congr fun c hc => (h c hc).outlines_eq fun t ht =>
    hs t (List.mem_flatMap.mpr ⟨c, hc, ht⟩)

/-- Nothing is reported where nothing is amiss. -/
theorem reports_eq_nil (hk : ∀ k ∈ c.kinds, k.isAmiss = false)
    (he : ∀ t ∈ c.tokens, t.error = none) : c.reports = [] := by
  induction c using Sprout.induct with
  | token t =>
    have ht : t.error = none := he t (by simp [tokens])
    rw [reports, ht]
    rfl
  | missing o => cases hk .missing (by simp [kinds])
  | branch kind cs ih =>
    rw [kinds_branch] at hk
    rw [tokens_branch] at he
    obtain ⟨hkind, hcs⟩ := List.forall_mem_cons.mp hk
    rw [reports_branch (Kind.isAmiss_eq_false.mp hkind).1, List.flatMap_eq_nil_iff]
    exact fun c hc => ih c hc (fun k h => hcs k (List.mem_flatMap.mpr ⟨c, hc, h⟩))
      fun t h => he t (List.mem_flatMap.mpr ⟨c, hc, h⟩)

/-- Where nothing is reported, nothing is wrong with the tokens. -/
theorem error_eq_none (c : Sprout) (h : c.reports = []) : ∀ t ∈ c.tokens, t.error = none := by
  induction c using Sprout.induct with
  | token t =>
    intro u hu
    obtain rfl : u = t := by simpa [tokens] using hu
    rw [reports] at h
    cases he : u.error with
    | none => rfl
    | some d => simp [he] at h
  | missing => simp [tokens]
  | branch kind cs ih =>
    rw [reports, List.append_eq_nil_iff, List.flatMap_eq_nil_iff] at h
    intro t ht
    rw [tokens_branch] at ht
    obtain ⟨c, hc, ht⟩ := List.mem_flatMap.mp ht
    exact ih c hc (h.2 c hc) t ht

/-- Sprouts with the same bare trees: if nothing is reported of some and nothing is wrong with the
tokens of the others, nothing is reported of these either. -/
theorem reports_congr {ds : List Sprout} (hcs : ∀ c ∈ cs, c.Made) (hr : cs.flatMap reports = [])
    (h : cs.map bare = ds.map bare) (he : ∀ t ∈ ds.flatMap tokens, t.error = none) :
    ds.flatMap reports = [] := by
  rw [List.flatMap_eq_nil_iff] at hr ⊢
  refine fun d hd => reports_eq_nil (fun k hk => ?_) fun t ht =>
    he t (List.mem_flatMap.mpr ⟨d, hd, ht⟩)
  have hmem : k ∈ cs.flatMap kinds := by
    rw [flatMap_kinds_eq, h, ← flatMap_kinds_eq]
    exact List.mem_flatMap.mpr ⟨d, hd, hk⟩
  obtain ⟨c, hc, hk⟩ := List.mem_flatMap.mp hmem
  exact (hcs c hc).sound (hr c hc) k hk

end Sprout

namespace Sprout.Shows

variable {offset : Nat} {text : List Char} {cs : List Sprout} {es : List Element}

/-- Where nothing is missing, the leaves have the kinds and the texts of the tokens. -/
theorem texts_leaves (h : Shows offset text cs es) (hk : .missing ∉ cs.flatMap Sprout.kinds) :
    (es.flatMap Element.leaves).map
        (fun l => (l.kind, Text.dropBytes l.start l.leadingWidth l.text)) =
      (cs.flatMap Sprout.tokens).map fun t => (t.kind, .ok t.text) := by
  induction h with
  | nil => rfl
  | @token offset t index lead text cs es begins wide tail ih =>
    have hcs : .missing ∉ cs.flatMap Sprout.kinds := fun hm => hk (by simp [hm])
    have htext : Text.dropBytes offset t.leadingWidth (lead ++ t.text) = .ok t.text := by
      rw [Text.dropBytes, ← wide, Text.splitBytes_append]
    simp only [List.flatMap_cons, Element.leaves_leaf, Sprout.tokens, List.map_append, ih hcs,
      List.map_singleton]
    exact congrArg (fun s => [(t.kind, s)] ++ (cs.flatMap Sprout.tokens).map _) htext
  | missing => exact absurd (by simp [Sprout.kinds]) hk
  | @branch offset kind index ds fs front text cs es inner tail ihi iht =>
    rw [List.flatMap_cons, Sprout.kinds_branch] at hk
    simp only [List.cons_append, List.mem_cons, List.mem_append, not_or] at hk
    simp only [List.flatMap_cons, Element.leaves_branch, Sprout.tokens_branch, List.map_append,
      ihi hk.2.1, iht hk.2.2]

end Sprout.Shows

namespace Word

/-- The program makes these children of the words and the end of file, and reports nothing. -/
def Makes (ws : List Word) (cs : List Sprout) : Prop :=
  ∃ n lastEnd found, PhpSyntax.Makes Grammar.php Grammar.program
    (Stage.start ((ws ++ [eof]).map token)) n ⟨[eof.token], cs, [], lastEnd, found⟩

theorem significant_map_token {ws : List Word} (h : ∀ w ∈ ws, w.1 ≠ .skipped) :
    Token.significant (ws.map token) = ws := by
  induction ws with
  | nil => rfl
  | cons w ws ih =>
    obtain ⟨hw, hws⟩ := List.forall_mem_cons.mp h
    rw [List.map_cons, Token.significant_cons hw, ih hws]
    rfl

theorem ended_words {ws : List Word} (h : ∀ w ∈ ws, w.1 ≠ .eof) :
    Token.Ended ((ws ++ [eof]).map token) := by
  refine ⟨_, _, List.map_append, rfl, fun t ht => ?_⟩
  obtain ⟨w, hw, rfl⟩ := List.mem_map.mp ht
  exact h w hw

section Text

variable {dialect : Dialect} {text : List Char} {ws : List Word} {cs : List Sprout}

/-- The words of a text, and the end of file after them. -/
theorem exists_words (dialect : Dialect) (text : List Char) :
    ∃ ws, Token.significant (tokenize dialect text) = ws ++ [eof] ∧ ∀ w ∈ ws, w.1 ≠ .eof := by
  obtain ⟨ts, e, hts, hk, htext, hother⟩ := Place.exists_tokens dialect ⟨0, .html, text⟩
  rw [tokenize_eq_tokens, hts]
  refine ⟨Token.significant ts, ?_, fun w hw => ?_⟩
  · rw [Token.significant, List.filter_append, List.map_append]
    simp [Token.significant, Token.isSkipped, hk, htext, eof]
  · obtain ⟨t, ht, rfl⟩ := List.mem_map.mp hw
    exact hother t (List.mem_filter.mp ht).1

/-- Words of a text are recognized, and lawful as tokens. -/
theorem lawful_of_mem {w : Word} (h : w ∈ Token.significant (tokenize dialect text)) :
    w.1 ≠ .skipped ∧ w.token.Lawful := by
  obtain ⟨t, ht, rfl⟩ := List.mem_map.mp h
  obtain ⟨ht, hs⟩ := List.mem_filter.mp ht
  have hk : t.kind ≠ .skipped := by simpa [Token.isSkipped] using hs
  exact ⟨hk, (tokenize_lawful dialect text t ht).written, fun hskipped => absurd hskipped hk, fun _ he => by cases he⟩

/-- Before a text and before its words alone the program sees the same. -/
theorem start_words (h : Token.significant (tokenize dialect text) = ws) :
    (Stage.start (ws.map token)).Regular ∧
      (Stage.start (ws.map token)).gist = (Stage.start (tokenize dialect text)).gist := by
  have hws : ∀ w ∈ ws, w.1 ≠ .skipped ∧ w.token.Lawful := fun w hw => lawful_of_mem (h ▸ hw)
  have hskipped : ∀ w ∈ ws, w.1 ≠ .skipped := fun w hw => (hws w hw).1
  refine ⟨⟨⟨nofun, nofun, nofun, fun t ht => ?_⟩, ?_⟩, ?_⟩
  · obtain ⟨w, hw, rfl⟩ := List.mem_map.mp ht
    exact (hws w hw).2
  · cases ws with
    | nil => exact nofun
    | cons w ws => exact hskipped w (List.mem_cons_self ..)
  · simp only [Stage.gist, Stage.start, significant_map_token hskipped, h]

/-- Tokens that nothing is wrong with are recognized. -/
theorem recognized_of_error (he : ∀ t ∈ tokenize dialect text, t.error = none) :
    ∀ t ∈ tokenize dialect text, t.kind ≠ .skipped := by
  intro t ht hk
  have hsome := (tokenize_lawful dialect text t ht).reported hk
  rw [he t ht] at hsome
  cases hsome

section Start

variable {ts : List Token} {n : Nat} {g : Stage} (hr : (Stage.start ts).Regular)
  (hm : PhpSyntax.Makes Grammar.php Grammar.program (Stage.start ts) n g)

include hr hm

theorem tokens_start : g.children.flatMap Sprout.tokens ++ g.tokens = ts := by
  have hall : Stage.Conserves ts [] g := (Stage.conserves_steady ts).makes Grammar.php_orderly hm
    rfl hr.recognized rfl
  rwa [Stage.Conserves, List.nil_append] at hall

/-- The diagnostics of a program are those of its children. -/
theorem reports_start : g.diagnostics = [] ↔ g.children.flatMap Sprout.reports = [] := by
  have hreported : Stage.Reported [] g := Stage.reported_steady.makes Grammar.php_orderly hm rfl
    hr.recognized rfl
  rw [← List.map_eq_nil_iff, hreported, List.nil_append]

end Start

/-- The program leaves nothing but the end of file. -/
theorem tokens_end {g : Stage} {n : Nat} (h : ∀ w ∈ ws, w.1 ≠ .eof)
    (hr : (Stage.start ((ws ++ [eof]).map token)).Regular)
    (hm : PhpSyntax.Makes Grammar.php Grammar.program
      (Stage.start ((ws ++ [eof]).map token)) n g) : g.tokens = [eof.token] := by
  obtain ⟨k, f, last, hf, -, hlast, -⟩ := Stage.exists_program (ended_words h) hr.recognized
  obtain ⟨-, rfl⟩ := hf.unique hm
  have htokens := tokens_start hr hm
  rw [hlast, List.map_append] at htokens
  rw [hlast, (List.append_inj' htokens rfl).2]
  rfl

/-- A text and its words alone: what the program makes of them has the same bare trees if nothing is
wrong with the tokens. -/
theorem map_bare_congr {g f : Stage} (hg : g.WellMade) (hf : f.WellMade) (he : g.gist = f.gist)
    (hgs : ∀ t ∈ g.children.flatMap Sprout.tokens, t.kind ≠ .skipped)
    (hfs : ∀ t ∈ f.children.flatMap Sprout.tokens, t.kind ≠ .skipped) :
    g.children.map Sprout.bare = f.children.map Sprout.bare := by
  have houtlines : g.children.flatMap Sprout.outlines = f.children.flatMap Sprout.outlines :=
    congrArg Gist.outlines he
  rwa [Sprout.flatMap_outlines_eq hg.made hgs, Sprout.flatMap_outlines_eq hf.made hfs] at houtlines

/-- A text with nothing wrong in its tokens, of whose words the program makes a tree and reports
nothing, has that tree and no diagnostics. -/
theorem Makes.exists_parse (h : Makes ws cs)
    (hts : Token.significant (tokenize dialect text) = ws ++ [eof])
    (he : ∀ t ∈ tokenize dialect text, t.error = none) :
    ∃ p, parse dialect text = .ok p ∧ p.diagnostics = [] ∧
      p.tree.root.outline = .branch .sourceFile (cs.map Sprout.bare ++ [.leaf .eof]) ∧
      p.tree.tips.map (fun t => (t.kind, t.trimmedText)) =
        (ws ++ [eof]).map fun w => (w.1, .ok w.2) := by
  obtain ⟨-, p, g, last, -, -, hp, hparsed⟩ := PhpSyntax.exists_parse dialect text
  obtain ⟨hregular, hgist⟩ := start_words hts
  obtain ⟨m, hm⟩ := hparsed.makes
  obtain ⟨n, e, f, hn⟩ := h
  -- the program makes only one thing of the text
  obtain ⟨g', hg', hsame⟩ := hn.sameGist Grammar.php_orderly rfl hregular
    (start_regular dialect text) hgist.symm
  obtain ⟨-, rfl⟩ := hg'.unique hm
  have hunskipped := recognized_of_error he
  have hwell := (hn.regular Grammar.php_orderly rfl hregular).wellMade
  have hbare : g'.children.map Sprout.bare = cs.map Sprout.bare := by
    refine map_bare_congr hparsed.wellMade hwell hsame (fun t ht => hunskipped t ?_) fun t ht => ?_
    · rw [← hparsed.tokens]
      exact List.mem_append_left _ ht
    · have hmem : t ∈ (ws ++ [eof]).map token := by
        rw [← tokens_start hregular hn]
        exact List.mem_append_left _ ht
      obtain ⟨w, hw, rfl⟩ := List.mem_map.mp hmem
      exact (lawful_of_mem (hts ▸ hw)).1
  have hshown : ∀ t ∈ (g'.children ++ [Sprout.token last]).flatMap Sprout.tokens, t.error = none :=
    hparsed.tokens_shown ▸ he
  have hreports : (g'.children ++ [Sprout.token last]).flatMap Sprout.reports = [] := by
    rw [List.flatMap_append, List.forall_mem_append] at hshown
    rw [List.flatMap_append, List.append_eq_nil_iff]
    refine ⟨Sprout.reports_congr hwell.made ((reports_start hregular hn).mp rfl) hbare.symm
      hshown.1, ?_⟩
    have hlast : last.error = none := hshown.2 last (by simp [Sprout.tokens])
    simp [Sprout.reports, hlast]
  refine ⟨p, hp, ?_, ?_, ?_⟩
  · have hreported := hparsed.reported
    rw [hreports] at hreported
    exact List.map_eq_nil_iff.mp hreported
  · have houtline : p.tree.children.map Element.outline =
        (g'.children ++ [Sprout.token last]).map Sprout.bare := hparsed.shows.map_outline
    rw [List.map_append, hbare, List.map_singleton, Sprout.bare, hparsed.isEnd] at houtline
    rw [Node.outline, hparsed.kind]
    exact congrArg _ houtline
  · have hmissing : Kind.missing ∉ (g'.children ++ [Sprout.token last]).flatMap Sprout.kinds := by
      intro hk
      obtain ⟨c, hc, hk⟩ := List.mem_flatMap.mp hk
      cases (hparsed.made c hc).sound (List.flatMap_eq_nil_iff.mp hreports c hc) _ hk
    have htexts := hparsed.shows.texts_leaves hmissing
    rw [hparsed.tokens_shown, ← p.tree.map_leaf_tips, List.map_map] at htexts
    rw [← hts, Token.significant, List.filter_eq_self.mpr fun t ht => by
      simpa [Token.isSkipped] using hunskipped t ht, List.map_map]
    exact htexts

/-- A text without diagnostics has nothing wrong in its tokens, and the program makes its tree of the
words alone and reports nothing. -/
theorem exists_makes {p : Parse} (hp : parse dialect text = .ok p) (hd : p.diagnostics = []) :
    ∃ ws cs, Token.significant (tokenize dialect text) = ws ++ [eof] ∧
      (∀ w ∈ ws, w.1 ≠ .eof) ∧ (∀ t ∈ tokenize dialect text, t.error = none) ∧ Makes ws cs ∧
      p.tree.root.children.map Element.outline = cs.map Sprout.bare ++ [.leaf .eof] := by
  obtain ⟨-, p', g, last, -, -, hp', hparsed⟩ := PhpSyntax.exists_parse dialect text
  obtain rfl : p' = p := Except.ok.inj (hp'.symm.trans hp)
  have hreports : (g.children ++ [Sprout.token last]).flatMap Sprout.reports = [] := by
    rw [← hparsed.reported, hd]
    rfl
  have he : ∀ t ∈ tokenize dialect text, t.error = none := by
    rw [← hparsed.tokens_shown]
    intro t ht
    obtain ⟨c, hc, ht⟩ := List.mem_flatMap.mp ht
    exact c.error_eq_none (List.flatMap_eq_nil_iff.mp hreports c hc) t ht
  have hunskipped := recognized_of_error he
  obtain ⟨ws, hwords, hnone⟩ := exists_words dialect text
  obtain ⟨hregular, hgist⟩ := start_words hwords
  obtain ⟨m, hm⟩ := hparsed.makes
  obtain ⟨f, hf, hsame⟩ := hm.sameGist Grammar.php_orderly rfl (start_regular dialect text)
    hregular hgist
  have hwell := (hf.regular Grammar.php_orderly rfl hregular).wellMade
  have hall : ∀ t ∈ f.children.flatMap Sprout.tokens ++ f.tokens, t.kind ≠ .skipped ∧
      t.error = none := by
    rw [tokens_start hregular hf]
    intro t ht
    obtain ⟨w, hw, rfl⟩ := List.mem_map.mp ht
    exact ⟨(lawful_of_mem (hwords ▸ hw)).1, rfl⟩
  have hbare : f.children.map Sprout.bare = g.children.map Sprout.bare :=
    map_bare_congr hwell hparsed.wellMade hsame
      (fun t ht => (hall t (List.mem_append_left _ ht)).1) fun t ht => hunskipped t (by
        rw [← hparsed.tokens]
        exact List.mem_append_left _ ht)
  have hquiet : f.diagnostics = [] := by
    rw [List.flatMap_append, List.append_eq_nil_iff] at hreports
    exact (reports_start hregular hf).mpr (Sprout.reports_congr hparsed.wellMade.made hreports.1
      hbare.symm fun t ht => (hall t (List.mem_append_left _ ht)).2)
  have hend := tokens_end hnone hregular hf
  obtain ⟨tokens, children, diagnostics, lastEnd, found⟩ := f
  obtain rfl : diagnostics = [] := hquiet
  obtain rfl : tokens = [eof.token] := hend
  refine ⟨ws, children, hwords, hnone, he, ⟨m, lastEnd, found, hf⟩, ?_⟩
  have houtline : p'.tree.children.map Element.outline =
      (g.children ++ [Sprout.token last]).map Sprout.bare := hparsed.shows.map_outline
  rw [List.map_append, ← hbare, List.map_singleton, Sprout.bare, hparsed.isEnd] at houtline
  exact houtline

end Text

/-! ## Programs -/

/-- The statement that the open tag is. -/
def opening : Sprout := .branch .inlineHtmlStmt [.token openTag.token]

theorem bare_opening : opening.bare = .branch .inlineHtmlStmt [.leaf .openTag] := by
  rw [opening, Sprout.bare_branch, List.map_singleton, Sprout.bare]
  rfl

/-- The open tag is a statement of its own. -/
theorem opening_leads {ws : List Word} {cs : List Sprout} {f : Found} :
    Leads Grammar.php (.call .statement) ⟨openTag :: ws, cs, f⟩ ⟨ws, cs ++ [opening], .last⟩ := by
  have hnode : Leads Grammar.php (.node .inlineHtmlStmt
      (.optional .closeTag ++ .optional .inlineHtml ++ .optional .openTag))
      ⟨openTag :: ws, cs, f⟩ ⟨ws, cs ++ [opening], .last⟩ :=
    .node (((Leads.no rfl .done).andThen (.no rfl .done)).andThen (.yes rfl (.bump nofun)))
  have hfirst : Token.firstKind (openTag.token :: ws.map token) = .openTag := rfl
  refine .call (.byKind (.no ?_ hnode))
  simp [Spot.holds, Test.holds, hfirst]

/-- A text of an open tag and words whose statements the program makes has no diagnostics, and its
parse is right. -/
theorem parse_opened {dialect : Dialect} {text : List Char} {ws : List Word} {cs : List Sprout}
    {f : Found} (hts : Token.significant (tokenize dialect text) = openTag :: ws ++ [eof])
    (he : ∀ t ∈ tokenize dialect text, t.error = none)
    (h : Leads Grammar.php Grammar.program ⟨ws ++ [eof], [opening], .last⟩
      ⟨[eof], opening :: cs, f⟩) :
    ∃ p, parse dialect text = .ok p ∧ p.diagnostics = [] ∧
      p.tree.root.outline = .branch .sourceFile (opening.bare :: cs.map Sprout.bare ++ [.leaf .eof]) ∧
      p.tree.tips.map (fun t => (t.kind, t.trimmedText)) =
        (openTag :: ws ++ [eof]).map fun w => (w.1, .ok w.2) := by
  have hrecognized : Spot.Recognized ⟨openTag :: ws ++ [eof], [], .nothing⟩ := by
    intro w hw
    exact (lawful_of_mem (hts ▸ hw)).1
  have hleads : Leads Grammar.php Grammar.program ⟨openTag :: ws ++ [eof], [], .nothing⟩
      ⟨[eof], opening :: cs, f⟩ := .again rfl opening_leads h
  obtain ⟨n, e, hmakes⟩ := (hleads hrecognized).2 [] 0
  have hmakes : Makes (openTag :: ws) (opening :: cs) := ⟨n, e, f, hmakes⟩
  exact hmakes.exists_parse hts he

/-- Words whose statements the program makes after the open tag are a program, and its parse is
right. -/
theorem parse_program {ws : List Word} {cs : List Sprout} {f : Found} (hr : Readable ws)
    (h : Leads Grammar.php Grammar.program ⟨ws ++ [eof], [opening], .last⟩
      ⟨[eof], opening :: cs, f⟩) (dialect : Dialect) :
    ∃ p, parse dialect (program ws) = .ok p ∧ p.diagnostics = [] ∧
      p.tree.root.outline = .branch .sourceFile (opening.bare :: cs.map Sprout.bare ++ [.leaf .eof]) ∧
      p.tree.tips.map (fun t => (t.kind, t.trimmedText)) =
        (openTag :: ws ++ [eof]).map fun w => (w.1, .ok w.2) := by
  obtain ⟨hts, he⟩ := tokens_program hr dialect
  exact parse_opened hts he h

end Word

end PhpSyntax
