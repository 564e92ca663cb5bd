import PhpSyntax.Proofs.Tiling
import PhpSyntax.Token.Session

/-!
A session of a reader is determined by its checkpoint: whatever was asked of it before, it answers
like a reader that was just started at the state that it reports.
-/
namespace PhpSyntax

namespace LexState

variable {text : List Char}

/-- Every state stands for a place in the text, also one whose offset is no position in it. -/
theorem place_within (text : List Char) (s : LexState) : (s.place text).Within text := by
  rw [place]
  split
  · next front rest h =>
    obtain ⟨htext, hwidth⟩ := Text.splitBytes_eq_some_iff.mp h
    exact ⟨front, htext, hwidth.symm⟩
  · exact ⟨text, (List.append_nil text).symm, rfl⟩

/-- A place in the text is found again by its offset and mode. -/
theorem place_eq {p : Place} (h : p.Within text) : place text ⟨p.offset, p.mode⟩ = p := by
  obtain ⟨before, htext, hoffset⟩ := h
  rw [place, hoffset, Text.splitBytes_eq_some_iff.mpr ⟨htext, rfl⟩, ← hoffset]

end LexState

namespace Session

/-- What can be asked of a session. -/
inductive Call where
  | next
  | peek
  | nth (n : Nat)
  | checkpoint
  | restore (state : LexState)

inductive Answer where
  | token (t : Token)
  | kind (k : Kind)
  | state (s : LexState)
  | done

/-- The answer to a call, and the session after it. -/
def call (s : Session) : Call → Answer × Session
  | .next => (.token s.next.1, s.next.2)
  | .peek => (.token s.peek, s)
  | .nth n => (.kind (s.nth n), s)
  | .checkpoint => (.state s.checkpoint, s)
  | .restore state => (.done, s.restore state)

/-- The session after some calls. -/
def after (s : Session) (calls : List Call) : Session := calls.foldl (fun s c => (s.call c).2) s

/-- The answers to some calls. -/
def answers (s : Session) : List Call → List Answer
  | [] => []
  | c :: calls => (s.call c).1 :: (s.call c).2.answers calls

variable {dialect : Dialect} {text : List Char} {s : Session}

/-- A session that holds nothing but what can be read at its state again. -/
structure Settled (dialect : Dialect) (text : List Char) (s : Session) : Prop where
  within : s.following.Within text
  pending : s.pending = none
  started : s = start dialect text s.state

/-- Reading at the place of a state settles a session, whatever it held before. -/
theorem settled_read (hd : s.dialect = dialect) (ht : s.text = text)
    (hf : s.following = s.state.place text) (hp : s.pending = none) :
    s.read.Settled dialect text where
  within := by
    show (s.following.next s.dialect).2.Within text
    rw [hf]
    exact (s.state.place_within text).next _
  pending := rfl
  started := by
    obtain ⟨_, _, state, current, following, pending⟩ := s
    dsimp only at hd ht hf hp
    subst hd ht hf hp
    rfl

theorem settled_start (dialect : Dialect) (text : List Char) (state : LexState) :
    (start dialect text state).Settled dialect text :=
  settled_read rfl rfl rfl rfl

theorem Settled.dialect_eq (h : s.Settled dialect text) : s.dialect = dialect := by
  rw [h.started]
  rfl

theorem Settled.text_eq (h : s.Settled dialect text) : s.text = text := by
  rw [h.started]
  rfl

theorem Settled.next (h : s.Settled dialect text) : s.next.2.Settled dialect text :=
  settled_read h.dialect_eq h.text_eq (LexState.place_eq h.within).symm h.pending

theorem Settled.restore (h : s.Settled dialect text) (state : LexState) :
    (s.restore state).Settled dialect text :=
  settled_read h.dialect_eq h.text_eq (congrArg state.place h.text_eq) h.pending

/-- Every call keeps a session settled. -/
theorem Settled.call (h : s.Settled dialect text) (c : Call) :
    (s.call c).2.Settled dialect text := by
  cases c with
  | next => exact h.next
  | peek | nth | checkpoint => exact h
  | restore state => exact h.restore state

theorem Settled.after (h : s.Settled dialect text) (calls : List Call) :
    (s.after calls).Settled dialect text := by
  induction calls generalizing s with
  | nil => exact h
  | cons c calls ih => exact ih (h.call c)

/-- To go on from a checkpoint is to be back where it was taken. -/
theorem Settled.restore_eq {s' : Session} (h : s.Settled dialect text)
    (h' : s'.Settled dialect text) : s'.restore s.checkpoint = s := by
  rw [(h'.restore s.checkpoint).started]
  exact h.started.symm

theorem after_replicate_next (s : Session) (n : Nat) :
    s.after (List.replicate n .next) = s.skip n := by
  induction n generalizing s with
  | zero => rfl
  | succ n ih =>
    rw [List.replicate_succ, skip, ← ih]
    rfl

/-- A session has no hidden state. Started anywhere and after any calls, it answers whatever it is
asked like one that is started at its checkpoint. To look ahead changes nothing and tells the kind
that taking tokens leads to. To go on from a checkpoint, whatever was asked in between, brings the
answers that were given after it was taken. -/
theorem checkpoint_determines (dialect : Dialect) (text : List Char) (state : LexState)
    (calls : List Call) :
    let s := (start dialect text state).after calls
    s.peek = (start dialect text s.checkpoint).peek ∧
    (∀ more, s.answers more = (start dialect text s.checkpoint).answers more) ∧
    (∀ n, s.call (.nth n) = (.kind (s.after (List.replicate n .next)).peek.kind, s)) ∧
    ∀ between more, ((s.after between).restore s.checkpoint).answers more = s.answers more := by
  intro s
  have hs : s.Settled dialect text := (settled_start dialect text state).after calls
  have heq : start dialect text s.checkpoint = s := hs.started.symm
  refine ⟨?_, fun more => ?_, fun n => ?_, fun between more => ?_⟩
  · rw [heq]
  · rw [heq]
  · rw [after_replicate_next]
    rfl
  · rw [hs.restore_eq (hs.after between)]

end Session
end PhpSyntax
