import PhpSyntax.Proofs.Building
import PhpSyntax.Proofs.Completion
import PhpSyntax.Proofs.Visiting

/-!
Every text has a parse, and its tree shows the sprout that the program makes of the tokens.
-/
namespace PhpSyntax

open Sprout (Shows Stands)

/-- A parse of a text: `g` is where the program ends, and `last` is the end of file. -/
structure ParsedAs (dialect : Dialect) (text : List Char) (g : Stage) (last : Token) (p : Parse) :
    Prop where
  makes : ∃ n, Makes Grammar.php Grammar.program (Stage.start (tokenize dialect text)) n g
  wellMade : g.WellMade
  lawful : last.Lawful
  isEnd : last.kind = .eof
  tokens : g.children.flatMap Sprout.tokens ++ [last] = tokenize dialect text
  diagnostics : p.diagnostics = g.diagnostics ++ last.error.toList
  kind : p.tree.root.kind = .sourceFile
  range : p.tree.root.range = .ofLength 0 (Text.width text)
  shows : Shows 0 text (g.children ++ [.token last]) p.tree.children

section Program

variable {dialect : Dialect} {text : List Char} {n : Nat} {g : Stage} {last : Token}
  (hm : Makes Grammar.php Grammar.program (Stage.start (tokenize dialect text)) n g)

include hm

/-- A property that actions keep and that holds before the first token holds at the end. -/
theorem Steady.program {ι : Type} {I : ι → Stage → Prop} (hI : Steady I) {i : ι}
    (hi : I i (Stage.start (tokenize dialect text))) : I i g :=
  hI.makes Grammar.php_orderly hm rfl (firstKind_tokenize dialect text) hi

theorem program_wellMade : g.WellMade :=
  Stage.wellMade_steady.program hm (i := ())
    ⟨by simp [Stage.start], by simp [Stage.start], by simp [Stage.start],
      tokenize_lawful dialect text⟩

theorem program_conserves :
    g.children.flatMap Sprout.tokens ++ g.tokens = tokenize dialect text := by
  have h := (Stage.conserves_steady (tokenize dialect text)).program hm (i := []) rfl
  rwa [Stage.Conserves, List.nil_append] at h

theorem program_placed : Stands 0 g.children g.lastEnd ∧ Token.Chained g.lastEnd g.tokens :=
  Stage.placed_steady.program hm ⟨.nil, (tokenize_tiles dialect text).chained⟩

/-- When the program ends, only the end of file is left. -/
theorem ParsedAs.tokens_left {p : Parse} (h : ParsedAs dialect text g last p) : g.tokens = [last] :=
  List.append_cancel_left ((program_conserves hm).trans h.tokens.symm)

end Program

/-- Every text has a parse, and it is built from the listing of what the program made. -/
theorem exists_recorded (dialect : Dialect) (text : List Char) :
    ∃ s p g last, Parse.complete (tokenize dialect text) = .ok s ∧ Log.Settled s.log.toList ∧
      s.log.replay = .ok (g.root last).listing ∧
      Tree.build text (g.root last).listing = .ok p.tree ∧
      parse dialect text = .ok p ∧ ParsedAs dialect text g last p := by
  obtain ⟨n, g, last, hm, hp, ht, hk, hn⟩ :=
    Stage.exists_program (tokenize_ended dialect text) (firstKind_tokenize dialect text)
  obtain ⟨s, hs, hsettled, hreplay, hd⟩ := Parse.complete_eq hm hn ht hk
  have hwell := program_wellMade hm
  have htokens := program_conserves hm
  obtain ⟨hstands, hchained⟩ := program_placed hm
  rw [ht] at htokens hchained
  have hlawful := hwell.lawful last (by rw [ht]; exact List.mem_singleton.mpr rfl)
  have hbuild : (Sprout.branch .sourceFile (g.children ++ [.token last])).Buildable := by
    refine .branch rfl (by simp) fun c hc => ?_
    rcases List.mem_append.mp hc with hc | hc
    · exact (hwell.made c hc).buildable (hp.full c hc)
    · rw [List.mem_singleton.mp hc]
      exact Sprout.buildable_token hlawful
  have hflat :
      (g.children ++ [Sprout.token last]).flatMap Sprout.tokens = tokenize dialect text := by
    rw [List.flatMap_append, List.flatMap_singleton, Sprout.tokens, htokens]
  obtain ⟨index, es, htree, hshow⟩ := Tree.build_listing
    (hstands.append (.token hchained.1 .nil)) hbuild (hflat ▸ tokenize_tiles dialect text)
  let tree : Tree := ⟨text, ⟨.sourceFile, index, .ofLength 0 (Text.width text)⟩, es⟩
  refine ⟨s, ⟨tree, s.diagnostics.toList⟩, g, last, hs, hsettled, hreplay, htree, ?_,
    ⟨⟨n, hm⟩, hwell, hlawful, hk, htokens, hd, rfl, rfl, hshow⟩⟩
  rw [parse, hs]
  simp only [hreplay]
  rw [Stage.root, htree]

/-- Every text has a parse. The machine comes to an end in time and without a fault, every branch
that it opens is closed or given up, and the builder takes its log. -/
theorem exists_parse (dialect : Dialect) (text : List Char) :
    ∃ s p g last, Parse.complete (tokenize dialect text) = .ok s ∧ Log.Settled s.log.toList ∧
      parse dialect text = .ok p ∧ ParsedAs dialect text g last p := by
  obtain ⟨s, p, g, last, hs, hsettled, -, -, hp, h⟩ := exists_recorded dialect text
  exact ⟨s, p, g, last, hs, hsettled, hp, h⟩

end PhpSyntax
