import PhpSyntax.Proofs.Sessions

/-!
Reading never looks back. What is read from a place on depends on the mode and on the characters
behind the place; what lies before it only moves the offsets.
-/
namespace PhpSyntax

namespace Range

/-- The range as many bytes further on. -/
def shift (o : Nat) (r : Range) : Range :=
  ⟨o + r.start, o + r.stop, Nat.add_le_add_left r.start_le_stop o⟩

theorem ofLength_add (o start length : Nat) :
    ofLength (o + start) length = (ofLength start length).shift o := by
  simp only [ofLength, shift, Nat.add_assoc]

end Range

namespace Diagnostic

/-- The same report, further on. -/
def shift (o : Nat) (d : Diagnostic) : Diagnostic := { d with range := d.range.shift o }

theorem of_ofLength_add (problem : Problem) (o start length : Nat) :
    of problem (.ofLength (o + start) length) = (of problem (.ofLength start length)).shift o := by
  rw [Range.ofLength_add]
  rfl

end Diagnostic

namespace Token

/-- The same token further on, with the report of what is wrong with it. -/
def shift (o : Nat) (t : Token) : Token :=
  { t with offset := o + t.offset, error := t.error.map (Diagnostic.shift o) }

theorem range_shift (o : Nat) (t : Token) : (t.shift o).range = t.range.shift o := by
  rw [range, range, ← Range.ofLength_add, ← Nat.add_assoc]
  rfl

theorem fullRange_shift (o : Nat) (t : Token) : (t.shift o).fullRange = t.fullRange.shift o :=
  Range.ofLength_add o t.offset (t.leadingWidth + Text.width t.text)

end Token

namespace LeadingTrivia

/-- The same trivia, further on. -/
def shift (o : Nat) (lead : LeadingTrivia) : LeadingTrivia :=
  { lead with error := lead.error.map (Diagnostic.shift o), offset := o + lead.offset }

theorem add_shift (o : Nat) (lead : LeadingTrivia) (scan : TriviaScan) (text : List Char) :
    (lead.shift o).add scan text = (lead.add scan text).shift o := by
  simp only [add, shift, Nat.add_assoc, Diagnostic.of_ofLength_add]
  cases lead.error <;> cases scan.terminated <;> rfl

theorem readFrom_shift (o : Nat) (lead : LeadingTrivia) (skip : Nat) (cs : List Char) :
    readFrom (lead.shift o) skip cs = (readFrom lead skip cs).shift o := by
  induction cs generalizing lead skip with
  | nil => cases skip <;> rfl
  | cons c cs ih =>
    cases skip with
    | succ skip =>
      rw [readFrom, readFrom]
      exact ih lead skip
    | zero =>
      rw [readFrom, readFrom]
      split
      · rfl
      · rw [add_shift]
        exact ih _ _

theorem read_shift (o offset : Nat) (cs : List Char) :
    read (o + offset) cs = (read offset cs).shift o := by
  have h := readFrom_shift o ⟨[], none, offset, []⟩ 0 cs
  rw [read, read]
  exact congrArg (fun lead : LeadingTrivia => { lead with pieces := lead.pieces.reverse }) h

end LeadingTrivia

namespace Place

/-- A place with the same to come, further on. -/
def shift (o : Nat) (p : Place) : Place := { p with offset := o + p.offset }

/-- The token at a place that lies further on is the same token further on, and so is the place
behind it. -/
theorem next_shift (dialect : Dialect) (o : Nat) (p : Place) :
    (p.shift o).next dialect =
      ((p.next dialect).1.shift o, (p.next dialect).2.shift o) := by
  obtain ⟨offset, mode, rest⟩ := p
  cases mode with
  | html =>
    simp only [next, shift, List.splitAt_eq, Nat.add_assoc, Diagnostic.of_ofLength_add]
    cases (Lexeme.html dialect rest).problem <;> rfl
  | code =>
    simp only [next, shift, LeadingTrivia.read_shift]
    simp only [LeadingTrivia.shift, List.splitAt_eq, Nat.add_assoc, Diagnostic.of_ofLength_add]
    generalize LeadingTrivia.read offset rest = lead
    cases lead.error <;> cases (Lexeme.code lead.rest).problem <;> rfl

end Place

namespace Session

/-- The tokens that are taken from a session one after the other, up to and with the first end of
file. -/
inductive Gives : Session → List Token → Prop where
  | last {s : Session} (h : s.next.1.kind = .eof) : Gives s [s.next.1]
  | more {s : Session} {ts} (h : s.next.1.kind ≠ .eof) (tail : Gives s.next.2 ts) :
    Gives s (s.next.1 :: ts)

variable {dialect : Dialect} {s s' : Session} {ts us : List Token} {o : Nat}

theorem Gives.unique (h : s.Gives ts) (h' : s.Gives us) : us = ts := by
  induction h generalizing us with
  | last hk =>
    cases h' with
    | last => rfl
    | more hk' => exact absurd hk hk'
  | more hk _ ih =>
    cases h' with
    | last hk' => exact absurd hk' hk
    | more _ tail => rw [ih tail]

/-- Every session comes to an end of file: each token before it takes a character. -/
theorem exists_gives (s : Session) : ∃ ts, s.Gives ts := by
  induction hn : s.following.rest.length using Nat.strongRecOn generalizing s with
  | ind n ih =>
    subst hn
    by_cases hk : s.next.1.kind = .eof
    · exact ⟨_, .last hk⟩
    by_cases hk' : s.next.2.next.1.kind = .eof
    · exact ⟨_, .more hk (.last hk')⟩
    · have hlt := (Place.next_reads s.dialect s.following).length_lt hk'
      obtain ⟨ts, hts⟩ := ih _ hlt s.next.2 rfl
      exact ⟨_, .more hk hts⟩

/-- The second session has to come what the first one has, further on. -/
structure Shifted (o : Nat) (s s' : Session) : Prop where
  dialect : s'.dialect = s.dialect
  current : s'.current = s.current.shift o
  following : s'.following = s.following.shift o
  pending : s'.pending = s.pending

/-- Reading keeps two sessions apart by the same distance. -/
theorem shifted_read (hd : s'.dialect = s.dialect) (hf : s'.following = s.following.shift o)
    (hp : s'.pending = s.pending) : Shifted o s.read s'.read := by
  have hn := Place.next_shift s.dialect o s.following
  rw [← hd, ← hf, hd] at hn
  refine ⟨hd, ?_, ?_, rfl⟩
  · rw [read, read, hd, hn, hp]
    dsimp only
    rw [Token.range_shift]
    cases he : (s.following.next s.dialect).1.error <;> cases s.pending <;>
      simp [Token.shift, he, Diagnostic.shift, Diagnostic.of]
  · rw [read, read, hd, hn]

theorem Shifted.next (h : Shifted o s s') : Shifted o s.next.2 s'.next.2 :=
  shifted_read h.dialect h.following h.pending

/-- What a session gives, one that is further on gives further on. -/
theorem Gives.shifted (hg : s.Gives ts) (h : Shifted o s s') :
    s'.Gives (ts.map (Token.shift o)) := by
  induction hg generalizing s' with
  | @last s hk =>
    have hc : s'.next.1 = s.next.1.shift o := h.current
    rw [List.map_singleton, ← hc]
    exact .last (by rw [hc]; exact hk)
  | @more s ts hk _ ih =>
    have hc : s'.next.1 = s.next.1.shift o := h.current
    rw [List.map_cons, ← hc]
    exact .more (by rw [hc]; exact hk) (ih h.next)

theorem shifted_start (dialect : Dialect) (mode : Mode) (front rest : List Char) :
    Shifted (Text.width front) (start dialect rest ⟨0, mode⟩)
      (start dialect (front ++ rest) ⟨Text.width front, mode⟩) := by
  refine shifted_read rfl ?_ rfl
  have hbase : LexState.place rest ⟨0, mode⟩ = ⟨0, mode, rest⟩ :=
    LexState.place_eq (p := ⟨0, mode, rest⟩) ⟨[], rfl, rfl⟩
  have hfar : LexState.place (front ++ rest) ⟨Text.width front, mode⟩ =
      ⟨Text.width front, mode, rest⟩ :=
    LexState.place_eq (p := ⟨Text.width front, mode, rest⟩) ⟨front, rfl, rfl⟩
  exact hfar.trans (congrArg (Place.shift (Text.width front)) hbase).symm

/-- Reading never looks back. Started behind any part of a text in any mode, a session gives the
tokens, up to the end of file, that one gives which is started in that mode at the beginning of what
is left: with the same kinds, trivia, messages and severities, and every range moved by the width of
the part. Both of them do come to the end of file. -/
theorem gives_shifted (dialect : Dialect) (mode : Mode) (front rest : List Char) :
    ∃ ts, (∀ us, (start dialect rest ⟨0, mode⟩).Gives us ↔ us = ts) ∧
      ∀ us, (start dialect (front ++ rest) ⟨Text.width front, mode⟩).Gives us ↔
        us = ts.map (Token.shift (Text.width front)) := by
  obtain ⟨ts, hts⟩ := exists_gives (start dialect rest ⟨0, mode⟩)
  have hfar := hts.shifted (shifted_start dialect mode front rest)
  refine ⟨ts, fun us => ⟨hts.unique, ?_⟩, fun us => ⟨hfar.unique, ?_⟩⟩
  · rintro rfl
    exact hts
  · rintro rfl
    exact hfar

end Session
end PhpSyntax
