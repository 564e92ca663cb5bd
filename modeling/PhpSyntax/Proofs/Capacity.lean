import PhpSyntax.Proofs.Counting
import PhpSyntax.Proofs.Kinship
import PhpSyntax.Proofs.Prices
import PhpSyntax.Proofs.Statements

/-!
Which texts can be parsed with indices of 32 bits. Everything that is recorded and every table is at
most a fixed number of times as large as the text, so what comes of a text that is short enough can
be numbered. A length that itself has 32 bits is not short enough.
-/
namespace PhpSyntax

/-- The largest index of 32 bits. -/
def maxIndex : Nat := 4294967295

namespace TriviaPiece

theorem length_le_totalWidth {ps : List TriviaPiece} (h : ∀ p ∈ ps, 1 ≤ p.width) :
    ps.length ≤ totalWidth ps := by
  induction ps with
  | nil => exact Nat.le_refl 0
  | cons p ps ih =>
    obtain ⟨hp, hps⟩ := List.forall_mem_cons.mp h
    have hle := ih hps
    rw [List.length_cons, totalWidth_cons]
    omega

end TriviaPiece

namespace Token

variable {text : List Char} {t : Token} {ts : List Token}

/-- A token is at least as long as it has pieces of trivia. -/
theorem Lies.length_leading_le (h : t.Lies text) : t.leading.length ≤ t.fullRange.length := by
  have hle := TriviaPiece.length_le_totalWidth h.pieces
  show _ ≤ t.offset + (t.leadingWidth + Text.width t.text) - t.offset
  rw [leadingWidth]
  omega

/-- A token that is not the end of file takes something besides. -/
theorem Lies.length_leading_lt (h : t.Lies text) (hk : t.kind ≠ .eof) :
    t.leading.length < t.fullRange.length := by
  have hle := TriviaPiece.length_le_totalWidth h.pieces
  have htaken : t.offset + t.leadingWidth <
    t.offset + t.leadingWidth + Text.width t.text := h.taken hk
  show _ < t.offset + (t.leadingWidth + Text.width t.text) - t.offset
  rw [leadingWidth] at htaken ⊢
  omega

/-- Tokens of a text, none of them the end of file: with their trivia there are no more of them than
bytes that they take. -/
theorem length_add_le (h : ∀ t ∈ ts, t.Lies text) (hk : ∀ t ∈ ts, t.kind ≠ .eof) :
    ts.length + (ts.flatMap leading).length ≤ ((ts.map fullRange).map Range.length).sum := by
  induction ts with
  | nil => exact Nat.le_refl 0
  | cons t ts ih =>
    obtain ⟨ht, hts⟩ := List.forall_mem_cons.mp h
    obtain ⟨hkt, hkts⟩ := List.forall_mem_cons.mp hk
    have hle := ih hts hkts
    have hlt := ht.length_leading_lt hkt
    simp only [List.length_cons, List.flatMap_cons, List.length_append, List.map_cons,
      List.sum_cons]
    omega

end Token

/-- A text has at most as many tokens and pieces of trivia as bytes, and the end of file. -/
theorem length_tokenize_le (dialect : Dialect) (text : List Char) :
    (tokenize dialect text).length + ((tokenize dialect text).flatMap Token.leading).length ≤
      Text.width text + 1 := by
  have hlies : ∀ t ∈ tokenize dialect text, t.Lies text := by
    intro t ht
    obtain ⟨p, hp, rfl⟩ := exists_place_of_mem_tokenize ht
    exact hp.lies dialect
  obtain ⟨front, hfront, htile⟩ := (tokenize_tiles dialect text).tile
  have hwidth := htile.sum_length
  rw [List.append_nil] at hfront
  rw [← hfront, Nat.zero_add, Nat.zero_add] at hwidth
  obtain ⟨before, last, he, -, hbefore⟩ := tokenize_ended dialect text
  rw [he, List.forall_mem_append] at hlies
  have hle := Token.length_add_le hlies.1 hbefore
  have hlast := (hlies.2 last (List.mem_singleton_self last)).length_leading_le
  rw [← hwidth, he]
  simp only [List.length_append, List.length_singleton, List.flatMap_append,
    List.flatMap_singleton, List.map_append, List.map_singleton, List.sum_append_nat,
    List.sum_singleton]
  omega

namespace Sprout

/-- The steps that make a sprout bring in the trivia of its tokens. -/
theorem trivia_listing (c : Sprout) :
    c.listing.flatMap BuildStep.trivia = c.tokens.flatMap Token.leading := by
  induction c using Sprout.induct with
  | token | missing => rw [listing, tokens]; rfl
  | branch kind cs ih =>
    rw [listing_branch, tokens_branch, List.cons_append, List.flatMap_cons, List.flatMap_append,
      List.flatMap_assoc, List.flatMap_assoc, List.flatMap_congr ih]
    exact List.append_nil _

/-- An outline is written in as many parts as it takes steps to make the sprout. -/
theorem length_listing (c : Sprout) : c.listing.length = c.bare.parts.length := by
  induction c using Sprout.induct with
  | token | missing => rw [listing, bare, Outline.parts_leaf]; rfl
  | branch kind cs ih =>
    have hcs : (cs.flatMap listing).length = ((cs.map bare).flatMap Outline.parts).length := by
      rw [List.flatMap_map, List.length_flatMap, List.length_flatMap,
        List.map_congr_left ih]
    rw [listing_branch, bare_branch, Outline.parts_branch]
    simp only [List.length_append, List.length_cons, hcs]
    rfl

/-- A branch of one token is written in three parts. -/
theorem length_parts_single (kind : Kind) (t : Token) :
    (branch kind [.token t]).bare.parts.length = 3 := by
  rw [← length_listing, listing_branch, List.flatMap_singleton, listing]
  rfl

end Sprout

namespace ParsedAs

variable {dialect : Dialect} {text : List Char} {g : Stage} {last : Token} {p : Parse}

theorem outline_root (h : ParsedAs dialect text g last p) :
    p.tree.root.outline = (g.root last).bare := by
  rw [Node.outline, h.kind, Stage.root, Sprout.bare_branch, ← h.shows.map_outline]
  rfl

theorem length_root_le (h : ParsedAs dialect text g last p) :
    (g.root last).listing.length ≤ eventsPerToken * Text.width text + 3 := by
  have hle := h.extent_le
  have htokens := length_tokenize_le dialect text
  have hroot : (g.root last).listing.length =
      Sprout.extent (g.children ++ [.token last]) + 2 := by
    rw [Stage.root, Sprout.listing_branch, List.length_append, List.length_cons]
    rfl
  rw [eventsPerToken] at hle ⊢
  omega

theorem length_trivia_le (h : ParsedAs dialect text g last p) :
    ((g.root last).listing.flatMap BuildStep.trivia).length ≤ Text.width text := by
  have htokens := length_tokenize_le dialect text
  have hpos : 0 < (tokenize dialect text).length :=
    List.length_pos_iff.mpr (tokenize_ended dialect text).ne_nil
  rw [Sprout.trivia_listing, Stage.root, Sprout.tokens_branch, h.tokens_shown]
  omega

end ParsedAs

/-- How much is recorded of a text, and how large its tables are. Two events and an entry stand for
a node, one event and an entry for a token, and every node but the root and every token is a child.
All events together are at most a fixed number of times as many as the bytes of the text. -/
theorem exists_sizes (dialect : Dialect) (text : List Char) :
    ∃ s steps t, Parse.complete (tokenize dialect text) = .ok s ∧ s.log.replay = .ok steps ∧
      Table.build text steps = .ok t ∧
      s.log.size = 2 * t.nodes.size + t.tokens.size ∧
      t.slots.size + 1 = t.nodes.size + t.tokens.size ∧
      s.log.size ≤ eventsPerToken * Text.width text + 3 ∧
      t.trivia.size ≤ Text.width text := by
  obtain ⟨s, p, g, last, hs, hsettled, hreplay, hbuild, -, h⟩ := exists_recorded dialect text
  obtain ⟨t, ht, -⟩ := Table.exists_table hbuild
  obtain ⟨hsteps, hslots, htrivia⟩ := Table.build_sizes ht
  have hsize := hsettled.length_replay hreplay
  exact ⟨s, _, t, hs, hreplay, ht, hsize ▸ hsteps, hslots, hsize ▸ h.length_root_le,
    htrivia ▸ h.length_trivia_le⟩

/-- What is recorded in a log and the entries of the tables that are built from it can be counted
with 32 bits. -/
structure Fits (log : Log) (t : Table) : Prop where
  events : log.size ≤ maxIndex
  tokens : t.tokens.size ≤ maxIndex
  trivia : t.trivia.size ≤ maxIndex
  slots : t.slots.size ≤ maxIndex

/-- Every text whose length has 32 bits is parsed, and its pieces of trivia can be counted with 32
bits. So can everything else if the text has at most 286331152 bytes, a fifteenth of what there are
indices for. -/
theorem parse_fits (dialect : Dialect) (text : List Char) (h : Text.width text ≤ maxIndex) :
    ∃ s steps t, Parse.complete (tokenize dialect text) = .ok s ∧ s.log.replay = .ok steps ∧
      Table.build text steps = .ok t ∧ t.trivia.size ≤ maxIndex ∧
      (Text.width text ≤ 286331152 → Fits s.log t) := by
  obtain ⟨s, steps, t, hs, hreplay, ht, hevents, hslots, hle, htrivia⟩ :=
    exists_sizes dialect text
  have htrivia := Nat.le_trans htrivia h
  refine ⟨s, steps, t, hs, hreplay, ht, htrivia, fun hshort => ?_⟩
  have hmax : maxIndex = 4294967295 := rfl
  rw [eventsPerToken] at hle
  exact ⟨by omega, by omega, htrivia, by omega⟩

/-- A text in which a semicolon is missing. -/
theorem parse_fits_missing : Text.width "<?php $a".toList ≤ maxIndex ∧
    ∃ s steps t, Parse.complete (tokenize {} "<?php $a".toList) = .ok s ∧
      s.log.replay = .ok steps ∧ Table.build "<?php $a".toList steps = .ok t ∧ Fits s.log t := by
  have hwidth : Text.width "<?php $a".toList = 8 := by decide
  have hadmitted : Text.width "<?php $a".toList ≤ maxIndex := by rw [hwidth]; decide
  obtain ⟨s, steps, t, hs, hreplay, ht, -, hfits⟩ := parse_fits {} "<?php $a".toList hadmitted
  exact ⟨hadmitted, s, steps, t, hs, hreplay, ht, hfits (by rw [hwidth]; decide)⟩

/-! ## Texts that are too long -/

/-- The text of some empty statements. -/
def semicolons (n : Nat) : List Char := "<?php".toList ++ (List.replicate n " ;".toList).flatten

theorem width_semicolons (n : Nat) : Text.width (semicolons n) = 2 * n + 5 := by
  have hrest : Text.width (List.replicate n " ;".toList).flatten = 2 * n := by
    induction n with
    | zero => rfl
    | succ n ih =>
      have hone : Text.width " ;".toList = 2 := by decide
      rw [List.replicate_succ, List.flatten_cons, Text.width_append, ih, hone]
      omega
  have htag : Text.width "<?php".toList = 5 := by decide
  rw [semicolons, Text.width_append, hrest, htag, Nat.add_comm]

theorem semicolons_eq (n : Nat) :
    semicolons n = Word.program (List.replicate n (Word.mark .semicolon)) := by
  rw [Word.program, Word.spaced, List.flatMap_def, List.map_replicate]
  rfl

/-- The program makes an empty statement of each semicolon. -/
theorem semicolons_lead (n : Nat) : Leads Grammar.php Grammar.program
    ⟨List.replicate n (Word.mark .semicolon) ++ [Word.eof], [Word.opening], .last⟩
    ⟨[Word.eof], Word.opening :: List.replicate n Stmt.empty.tree, .last⟩ := by
  have hend : Kind.eof.ends (.single .eof) = true := by decide
  have htest (s : Spot) : s.holds (.not (.kind .eof)) = !KindSet.contains (.single .eof) s.kind :=
    congrArg (!·) (KindSet.contains_single ..).symm
  have hwords : listWords (List.replicate n Stmt.empty) =
      List.replicate n (Word.mark .semicolon) := by
    rw [listWords_eq_flatMap, List.flatMap_replicate, Stmt.words,
      List.flatten_replicate_singleton]
  have hlist : Leads Grammar.php Grammar.program
      ⟨listWords (List.replicate n Stmt.empty) ++ [Word.eof], [Word.opening], .last⟩
      ⟨[Word.eof], [Word.opening] ++ listTrees (List.replicate n Stmt.empty),
        Found.last.after (List.replicate n Stmt.empty)⟩ :=
    list_leads _ (list_reads _) htest hend
  rwa [Found.last_after, listTrees_eq_map, List.map_replicate, hwords] at hlist

/-- The events of a parse are the parts that the outline of its tree is written in. -/
theorem size_log_eq {dialect : Dialect} {text : List Char} {p : Parse}
    (hp : parse dialect text = .ok p) : ∃ s, Parse.complete (tokenize dialect text) = .ok s ∧
      s.log.size = p.tree.root.outline.parts.length := by
  obtain ⟨s, p', g, last, hs, hsettled, hreplay, -, hp', h⟩ := exists_recorded dialect text
  obtain rfl : p' = p := Except.ok.inj (hp'.symm.trans hp)
  refine ⟨s, hs, ?_⟩
  rw [h.outline_root, ← Sprout.length_listing, hsettled.length_replay hreplay]

/-- An empty statement is recorded as three events. -/
theorem size_log_semicolons (dialect : Dialect) (n : Nat) :
    ∃ s, Parse.complete (tokenize dialect (semicolons n)) = .ok s ∧ s.log.size = 3 * n + 6 := by
  have hreadable : Word.Readable (List.replicate n (Word.mark .semicolon)) := by
    induction n with
    | zero => exact .nil
    | succ n ih => exact ih.mark (by decide)
  obtain ⟨p, hp, -, houtline, -⟩ := Word.parse_program hreadable (semicolons_lead n) dialect
  rw [← semicolons_eq] at hp
  obtain ⟨s, hs, hsize⟩ := size_log_eq hp
  refine ⟨s, hs, hsize.trans ?_⟩
  have hopening : Word.opening.bare.parts.length = 3 := Sprout.length_parts_single ..
  have hempty : Stmt.empty.tree.bare.parts.length = 3 := by
    rw [Stmt.tree]
    exact Sprout.length_parts_single ..
  have hstatements : (((List.replicate n Stmt.empty.tree).map Sprout.bare).flatMap
      Outline.parts).length = 3 * n := by
    rw [List.map_replicate, List.length_flatMap, List.map_replicate, List.sum_replicate_nat, hempty]
    exact Nat.mul_comm n 3
  rw [houtline, Outline.parts_branch, List.flatMap_append, List.flatMap_cons,
    List.flatMap_singleton, Outline.parts_leaf]
  simp only [List.length_append, List.length_cons, List.length_nil, hopening, hstatements]
  omega

/-- Lengths of 32 bits are not enough: of a text that is not too long, more is recorded than can be
counted with 32 bits. -/
theorem semicolons_overflow : Text.width (semicolons 1500000000) ≤ maxIndex ∧
    ∃ s, Parse.complete (tokenize {} (semicolons 1500000000)) = .ok s ∧
      s.log.size = 4500000006 ∧ ¬ s.log.size ≤ maxIndex := by
  obtain ⟨s, hs, hsize⟩ := size_log_semicolons {} 1500000000
  have hmax : maxIndex = 4294967295 := rfl
  exact ⟨by rw [width_semicolons]; omega, s, hs, hsize, by omega⟩

end PhpSyntax
