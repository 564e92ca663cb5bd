import PhpSyntax.Proofs.Words

/-!
Texts of words with single blanks between them: their tokens are the words again.
-/
namespace PhpSyntax

namespace Place

variable {dialect : Dialect}

/-- The tokens from a place on, the end of file last. -/
def tokens (dialect : Dialect) (p : Place) : List Token :=
  (tokensFrom dialect #[] (p.rest.length + 1) p).toList

theorem tokensFrom_eq_tokens (before : Array Token) {count : Nat} {p : Place}
    (hc : p.rest.length < count) :
    (tokensFrom dialect before count p).toList = before.toList ++ p.tokens dialect := by
  induction hn : p.rest.length using Nat.strongRecOn generalizing p before count with
  | ind n ih =>
    obtain ⟨count, rfl⟩ := Nat.exists_eq_add_one.mpr (Nat.zero_lt_of_lt hc)
    by_cases hk : (p.next dialect).1.kind = .eof
    · simp [tokens, tokensFrom, hk]
    · have hlt := (next_reads dialect p).length_lt hk
      have hwhole (before : Array Token) (count : Nat) (hc : n ≤ count) :=
        ih _ (hn ▸ hlt) (before.push (p.next dialect).1) (show _ < count by omega) rfl
      rw [tokens, tokensFrom, tokensFrom]
      simp only [hk, if_false]
      rw [hwhole before count (by omega), hwhole #[] p.rest.length (by omega)]
      simp

/-- The end of file is the last token. -/
theorem tokens_eof {p : Place} (h : (p.next dialect).1.kind = .eof) :
    p.tokens dialect = [(p.next dialect).1] := by
  simp [tokens, tokensFrom, h]

/-- A token, and those from the place after it on. -/
theorem tokens_next {p : Place} (h : (p.next dialect).1.kind ≠ .eof) :
    p.tokens dialect = (p.next dialect).1 :: (p.next dialect).2.tokens dialect := by
  have hlt := (next_reads dialect p).length_lt h
  rw [tokens, tokensFrom]
  simp only [h, if_false]
  rw [tokensFrom_eq_tokens _ (by omega)]
  rfl

/-- The token at a place is the first one from it on. -/
theorem exists_tokens_cons (dialect : Dialect) (p : Place) :
    ∃ ts, p.tokens dialect = (p.next dialect).1 :: ts := by
  by_cases hk : (p.next dialect).1.kind = .eof
  · exact ⟨[], tokens_eof hk⟩
  · exact ⟨_, tokens_next hk⟩

/-- The end of file takes no text, and it is at no other place. -/
theorem exists_tokens (dialect : Dialect) (p : Place) : ∃ ts e, p.tokens dialect = ts ++ [e] ∧
    e.kind = .eof ∧ e.text = [] ∧ ∀ t ∈ ts, t.kind ≠ .eof := by
  induction hn : p.rest.length using Nat.strongRecOn generalizing p with
  | ind n ih =>
    have hreads := next_reads dialect p
    by_cases hk : (p.next dialect).1.kind = .eof
    · exact ⟨[], _, tokens_eof hk, hk, (hreads.last hk).1, by simp⟩
    · obtain ⟨ts, e, hts, he, htext, hother⟩ := ih _ (hn ▸ hreads.length_lt hk) _ rfl
      refine ⟨(p.next dialect).1 :: ts, e, ?_, he, htext, List.forall_mem_cons.mpr ⟨hk, hother⟩⟩
      rw [tokens_next hk, hts]
      rfl

end Place

theorem tokenize_eq_tokens (dialect : Dialect) (text : List Char) :
    tokenize dialect text = Place.tokens dialect ⟨0, .html, text⟩ := rfl

namespace Word

/-- A word as a token that stands nowhere. -/
def token (w : Word) : Token := ⟨0, [], w.1, w.2, none⟩

/-- The kind of the first of some words; the end of file if there is none. -/
def first (ws : List Word) : Kind := Token.firstKind (ws.map token)

/-- The word of a kind that has one spelling. -/
def mark (k : Kind) : Word := (k, (k.spelling?.getD "").toList)

/-- Words, each after a blank. -/
def spaced (ws : List Word) : List Char := ws.flatMap fun w => ' ' :: w.2

/-- No parenthesis begins a cast. -/
def Clear : List Word → Prop
  | [] => True
  | w :: ws => (w.1 = .leftParen → Lexeme.cast? ('(' :: spaced ws) = none) ∧ Clear ws

theorem spaced_cons (w : Word) (ws : List Word) : spaced (w :: ws) = ' ' :: (w.2 ++ spaced ws) := rfl

theorem spaced_cases (ws : List Word) : spaced ws = [] ∨ ∃ ds, spaced ws = ' ' :: ds := by
  cases ws with
  | nil => exact .inl rfl
  | cons w ws => exact .inr ⟨_, rfl⟩

/-- What can be written as words with blanks between them. -/
structure Readable (ws : List Word) : Prop where
  words : ∀ w ∈ ws, Lexeme.IsWord w.1 w.2
  clear : Clear ws

namespace Readable

variable {w w' : Word} {ws : List Word} {k : Kind}

theorem nil : Readable [] := ⟨nofun, trivial⟩

theorem cons (hw : Lexeme.IsWord w.1 w.2) (hk : w.1 ≠ .leftParen) (h : Readable ws) :
    Readable (w :: ws) :=
  ⟨List.forall_mem_cons.mpr ⟨hw, h.words⟩, fun hp => absurd hp hk, h.clear⟩

/-- Kinds of one spelling that are words whatever follows; parentheses may begin casts. -/
def isMark (k : Kind) : Bool :=
  k.spelling?.isSome && !KindSet.contains
    (.ofList [.openTag, .openTagWithEcho, .closeTag, .leftParen]) k

theorem isMark_isWord :
    Kind.all.all (fun k => !isMark k || Lexeme.IsWord (mark k).1 (mark k).2) = true := by
  decide +kernel

theorem isWord_mark (h : isMark k = true) : Lexeme.IsWord (mark k).1 (mark k).2 := by
  have hk := List.all_eq_true.mp isMark_isWord _ (Kind.mem_all k)
  rw [h] at hk
  exact of_decide_eq_true hk

theorem mark (h : Readable ws) (hm : isMark k = true) : Readable (Word.mark k :: ws) := by
  refine h.cons (isWord_mark hm) ?_
  rintro rfl
  revert hm
  decide

theorem paren (h : Readable ws)
    (hcast : Lexeme.cast? ('(' :: spaced ws) = none) : Readable (Word.mark .leftParen :: ws) :=
  ⟨List.forall_mem_cons.mpr ⟨by decide, h.words⟩, fun _ => hcast, h.clear⟩

/-- A parenthesis and something that is no name. -/
theorem paren_other (h : Readable ws) (hk : (first ws).isNameLike = false) :
    Readable (Word.mark .leftParen :: ws) := by
  refine h.paren ?_
  cases ws with
  | nil => decide
  | cons w ws => exact (h.words w (List.mem_cons_self ..)).cast_blank hk

/-- A parenthesis and two words, of which the second one is not its partner. -/
theorem paren_words (h : Readable (w :: w' :: ws)) (hk : w'.1 ≠ .rightParen) :
    Readable (Word.mark .leftParen :: w :: w' :: ws) :=
  h.paren ((h.words w (by simp)).cast_words (h.words w' (by simp)) hk)

end Readable

/-! ## Tokens of words -/

/-- Words, some of them after a blank. -/
def written : List (Bool × Word) → List Char
  | [] => []
  | (blank, w) :: ps => List.replicate blank.toNat ' ' ++ (w.2 ++ written ps)

/-- Each word stands where it is written. -/
def Legible : List (Bool × Word) → Prop
  | [] => True
  | (_, w) :: ps => Lexeme.Stands w.1 w.2 (written ps) ∧ Legible ps

/-- Words that stand where they are written are read one by one, and nothing is wrong with them. -/
theorem tokens_written {ps : List (Bool × Word)} (h : Legible ps) (dialect : Dialect)
    (offset : Nat) :
    let ts := Place.tokens dialect ⟨offset, .code, written ps⟩
    Token.significant ts = ps.map Prod.snd ++ [(.eof, [])] ∧ ∀ t ∈ ts, t.error = none := by
  induction ps generalizing offset with
  | nil =>
    have hnil : Place.tokens dialect ⟨offset, .code, written []⟩ = [⟨offset, [], .eof, [], none⟩] :=
      Place.tokens_eof rfl
    simp [hnil, Token.significant, Token.isSkipped]
  | cons p ps ih =>
    obtain ⟨blank, w⟩ := p
    obtain ⟨hw, hps⟩ := h
    have hnext := hw.next blank dialect offset
    obtain ⟨hts, herror⟩ := ih hps (offset + blank.toNat + Text.width w.2)
    intro ts
    have hcons : ts = _ := Place.tokens_next (by rw [written, hnext]; exact hw.ne_eof)
    rw [written, hnext] at hcons
    rw [hcons]
    refine ⟨?_, List.forall_mem_cons.mpr ⟨rfl, herror⟩⟩
    rw [Token.significant_cons hw.ne_skipped, hts]
    rfl

theorem spaced_eq_written (ws : List Word) : spaced ws = written (ws.map (true, ·)) := by
  induction ws with
  | nil => rfl
  | cons w ws ih =>
    rw [spaced_cons, ih]
    rfl

/-- What can be written with blanks between the words stands where it is written. -/
theorem Readable.legible {ws : List Word} (h : Readable ws) : Legible (ws.map (true, ·)) := by
  induction ws with
  | nil => trivial
  | cons w ws ih =>
    obtain ⟨hw, hws⟩ := List.forall_mem_cons.mp h.words
    refine ⟨?_, ih ⟨hws, h.clear.2⟩⟩
    have hstands := hw.stands (spaced_cases ws) h.clear.1
    rwa [spaced_eq_written] at hstands

/-- The open tag as a word. -/
def openTag : Word := (.openTag, "<?php".toList)

/-- The end of file as a word. -/
def eof : Word := (.eof, [])

/-- The text of a program: an open tag and words. -/
def program (ws : List Word) : List Char := openTag.2 ++ spaced ws

/-- Words after an open tag, which is one because a blank follows it, or nothing at all. -/
theorem tokens_opened {ps : List (Bool × Word)} (h : Legible ps)
    (hblank : (written ps).head?.all Lexeme.isAsciiWhitespace = true) (dialect : Dialect) :
    let ts := tokenize dialect (openTag.2 ++ written ps)
    Token.significant ts = openTag :: ps.map Prod.snd ++ [eof] ∧ ∀ t ∈ ts, t.error = none := by
  have hhtml : Lexeme.html dialect (openTag.2 ++ written ps) = ⟨.openTag, 5, none⟩ := by
    have htag : openTag.2 = ['<', '?', 'p', 'h', 'p'] := by decide
    have hname : ['p', 'h', 'p'].map Char.toLower = ['p', 'h', 'p'] := by decide
    simp [htag, Lexeme.html, Lexeme.openTag?, hname, hblank]
  have hnext : Place.next dialect ⟨0, .html, openTag.2 ++ written ps⟩ =
      (⟨0, [], .openTag, "<?php".toList, none⟩, ⟨5, .code, written ps⟩) := by
    have hwidth : Text.width "<?php".toList = 5 := by decide
    have htake : (openTag.2 ++ written ps).take 5 = "<?php".toList := rfl
    have hdrop : (openTag.2 ++ written ps).drop 5 = written ps := rfl
    simp only [Place.next, hhtml, List.splitAt_eq, htake, hdrop, hwidth]
    rfl
  obtain ⟨hts, herror⟩ := tokens_written h dialect 5
  intro ts
  have hcons : ts = _ := Place.tokens_next (by rw [hnext]; simp)
  rw [hnext] at hcons
  rw [hcons]
  refine ⟨?_, List.forall_mem_cons.mpr ⟨rfl, herror⟩⟩
  rw [Token.significant_cons (by simp), hts]
  rfl

theorem tokens_program {ws : List Word} (h : Readable ws) (dialect : Dialect) :
    Token.significant (tokenize dialect (program ws)) = openTag :: ws ++ [eof] ∧
    ∀ t ∈ tokenize dialect (program ws), t.error = none := by
  have hblank : (spaced ws).head?.all Lexeme.isAsciiWhitespace = true := by
    rcases spaced_cases ws with hs | ⟨ds, hs⟩ <;> rw [hs] <;> rfl
  have hmap : (ws.map (true, ·)).map Prod.snd = ws := by simp [Function.comp_def]
  rw [spaced_eq_written] at hblank
  have hopened := tokens_opened h.legible hblank dialect
  rwa [← spaced_eq_written, hmap] at hopened

end Word

end PhpSyntax
