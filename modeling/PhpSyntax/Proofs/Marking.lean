import PhpSyntax.Proofs.Levels
import PhpSyntax.Proofs.Recording

/-!
A log that was written by moves in order realises them: it replays without a fault, to calls that
open and close every branch where it should be. What stands in the log is known level by level: the
events of the blocks of a level, behind those of the levels around it. Where branches cross, out of
order, it is different.
-/
namespace PhpSyntax

open Log

namespace Call

variable {bs bs' after : List Block} {e es es' f : List Event} {ps ps' : List Nat} {i : Nat}

theorem getElem?_mono {m : Nat} (hp : ps <+: ps') (h : ps[m]? = some i) :
    ps'[m]? = some i := by
  obtain ⟨hm, rfl⟩ := List.getElem?_eq_some_iff.mp h
  exact List.prefix_iff_getElem?.mp hp m hm

/-- The events of some blocks, from `i` on; a branch begins where `ps` says by its number. -/
inductive Written (ps : List Nat) : (i : Nat) → List Block → List Event → Prop where
  | nil {i : Nat} : Written ps i [] []
  | loose {i : Nat} {cs : List Call} {bs : List Block} {e es : List Event}
    (replays : Replays e (cs.map step)) (rest : Written ps (i + e.length) bs es) :
    Written ps i (.loose cs :: bs) (e ++ es)
  | branch {i m own : Nat} {kind : Kind} {cs : List Call} {events : Option Nat → List Event}
    {bs : List Block} {es : List Event}
    (stem : Stem events own ((Block.branch m kind cs).calls.map step))
    (position : ps[m]? = some (i + own)) (rest : Written ps (i + (events none).length) bs es) :
    Written ps i (.branch m kind cs :: bs) (events none ++ es)

namespace Written

theorem replays (h : Written ps i bs es) : Replays es ((listing bs).map step) := by
  induction h with
  | nil => exact replays_nil
  | loose h _ ih =>
    rw [listing_cons, List.map_append]
    exact replays_append h ih
  | branch stem _ _ ih =>
    rw [listing_cons, List.map_append]
    exact replays_append stem.replays ih

theorem one_loose {cs : List Call} (h : Replays e (cs.map step)) : Written ps i [.loose cs] e := by
  have hone : Written ps i [.loose cs] (e ++ []) := loose h .nil
  simpa using hone

theorem one_branch {m own : Nat} {kind : Kind} {cs : List Call} {events : Option Nat → List Event}
    (stem : Stem events own ((Block.branch m kind cs).calls.map step))
    (position : ps[m]? = some (i + own)) : Written ps i [.branch m kind cs] (events none) := by
  simpa using branch stem position .nil

theorem append (h : Written ps i bs es) (h' : Written ps (i + es.length) bs' es') :
    Written ps i (bs ++ bs') (es ++ es') := by
  induction h with
  | nil => exact h'
  | loose h _ ih =>
    rw [List.append_assoc]
    exact .loose h (ih (by rwa [Nat.add_assoc, ← List.length_append]))
  | branch stem position _ ih =>
    rw [List.append_assoc]
    exact .branch stem position (ih (by rwa [Nat.add_assoc, ← List.length_append]))

theorem split (h : Written ps i (bs ++ bs') es) : ∃ front back, es = front ++ back ∧
    Written ps i bs front ∧ Written ps (i + front.length) bs' back := by
  induction bs generalizing i es with
  | nil => exact ⟨[], es, rfl, .nil, h⟩
  | cons b bs ih =>
    cases h with
    | loose h rest =>
      obtain ⟨front, back, rfl, hfront, hback⟩ := ih rest
      refine ⟨_, back, (List.append_assoc ..).symm, .loose h hfront, ?_⟩
      rwa [List.length_append, ← Nat.add_assoc]
    | branch stem position rest =>
      obtain ⟨front, back, rfl, hfront, hback⟩ := ih rest
      refine ⟨_, back, (List.append_assoc ..).symm, .branch stem position hfront, ?_⟩
      rwa [List.length_append, ← Nat.add_assoc]

/-- What is known of the branches that were opened stays so. -/
theorem mono (h : Written ps i bs es) (hp : ps <+: ps') : Written ps' i bs es := by
  induction h with
  | nil => exact .nil
  | loose h _ ih => exact .loose h ih
  | branch stem position _ ih =>
    exact .branch stem (getElem?_mono hp position) ih

end Written

end Call

open Call

/-- Giving a branch up: its beginning is taken back, or stays as one that stands for nothing. -/
theorem Log.abandon_eq (front e : List Event) : ∃ e',
    abandon (front ++ .tombstone :: e).toArray ⟨front.length⟩ = .ok (front ++ e').toArray ∧
      ∀ steps, Replays e steps → Replays e' steps := by
  cases e with
  | nil => exact ⟨[], by simp [abandon, Event.tombstone], fun _ h => h⟩
  | cons x e =>
    refine ⟨.tombstone :: x :: e, ?_, fun _ h => replays_append replays_tombstone h⟩
    simp [abandon]

/-- What is known of one level, which began behind the events `front`, when branches had begun at
`base`: the moves `ms` were made at it since, and `es` are the events of its blocks. -/
structure Floor (base : List Nat) (front : List Event) (ms : List Move) (positions : List Nat)
    (bs : List Block) (es : List Event) (ready : List Nat) : Prop where
  level : Level base.length ms bs
  grows : base <+: positions
  count : positions.length = base.length + Move.opened ms
  written : Written positions front.length bs es
  ready : ready.Sublist (tops bs).reverse

/-- The branches that are open, the innermost first, each with what was done around it before it was
opened. -/
inductive Frames : List Move → List Nesting.Entry → List Nat → List Event → Prop where
  | root : Frames [] [] [] []
  | start {before ms : List Move} {up : List Nesting.Entry} {base positions ready : List Nat}
    {front es : List Event} {bs : List Block} (outer : Frames before up base front)
    (floor : Floor base front ms positions bs es ready) :
    Frames (before ++ ms ++ [.start]) (⟨positions.length, true, ready⟩ :: up)
      (positions ++ [(front ++ es).length]) (front ++ es ++ [.tombstone])
  | precede {before ms : List Move} {up : List Nesting.Entry}
    {base positions ready left : List Nat} {front es f : List Event} {bs after : List Block}
    {c own : Nat} {kind : Kind} {cs : List Call} {events : Option Nat → List Event}
    (outer : Frames before up base front)
    (floor : Floor base front ms positions (bs ++ .branch c kind cs :: after)
      (es ++ (events none ++ f)) ready)
    (written : Written positions front.length bs es)
    (stem : Stem events own ((Block.branch c kind cs).calls.map step))
    (behind : Replays f ((listing after).map step)) (remains : left.Sublist (tops bs).reverse) :
    Frames (before ++ ms ++ [.precede c]) (⟨positions.length, false, left⟩ :: up)
      (positions ++ [(front ++ es ++ events (some ((events none ++ f).length - own)) ++ f).length])
      (front ++ es ++ events (some ((events none ++ f).length - own)) ++ f ++ [.tombstone])

/-- What was recorded by moves in order: at the innermost level, and at those around it. -/
inductive Recorded : List Move → Nesting → Recorder → Prop where
  | mk {before ms : List Move} {up : List Nesting.Entry} {base positions ready : List Nat}
    {front es : List Event} {bs : List Block} (outer : Frames before up base front)
    (floor : Floor base front ms positions bs es ready) :
    Recorded (before ++ ms) ⟨positions.length, ready, up⟩ ⟨(front ++ es).toArray, positions⟩

variable {before ms ms' moves : List Move} {up : List Nesting.Entry}
  {base positions positions' ready new : List Nat} {front es es' : List Event} {bs bs' : List Block}
  {held : List Nat} {s s' : Nesting} {r : Recorder} {a : Move} {m c : Nat} {kind : Kind}
  {free : Bool}

/-- What is left after a branch is preceded lies before it. -/
theorem Nesting.left_sublist {after : List Nat} (hc : c ∉ after)
    (h : ready.Sublist (after ++ c :: held)) : (left true ready c).Sublist held := by
  obtain ⟨behind, rest, rfl, hbehind, hrest⟩ := List.sublist_append_iff.mp h
  rw [Nesting.left_append fun hc' => hc (hbehind.subset hc')]
  obtain hrest | ⟨rest, rfl, hrest⟩ := List.sublist_cons_iff.mp hrest
  · exact (List.tail_sublist _).trans ((List.dropWhile_sublist _).trans hrest)
  · rwa [Nesting.left_cons]

namespace Floor

theorem fresh : Floor base front [] base [] [] [] where
  level := .nil
  grows := List.prefix_rfl
  count := rfl
  written := .nil
  ready := .slnil

/-- What is known of the level within a branch that began at `i`, when branches had begun at
`positions`. -/
theorem within {i : Nat} (h : Floor (positions ++ [i]) front ms positions' bs es ready) :
    positions'[positions.length]? = some i ∧ positions <+: positions' ∧
      Level (positions.length + 1) ms bs ∧
      positions'.length = positions.length + 1 + Move.opened ms := by
  have hlevel := h.level
  have hcount := h.count
  rw [List.length_append] at hlevel hcount
  exact ⟨getElem?_mono h.grows List.getElem?_concat_length,
    (List.prefix_append ..).trans h.grows, hlevel, hcount⟩

theorem append (h : Floor base front ms positions bs es ready)
    (level : Level positions.length ms' bs') (hp : positions <+: positions')
    (count : positions'.length = positions.length + Move.opened ms')
    (written : Written positions' (front ++ es).length bs' es')
    (hnew : new.Sublist (tops bs').reverse) :
    Floor base front (ms ++ ms') positions' (bs ++ bs') (es ++ es') (new ++ ready) where
  level := h.level.append (h.count ▸ level)
  grows := h.grows.trans hp
  count := by rw [count, h.count, Move.opened_append, Nat.add_assoc]
  written := (h.written.mono hp).append (by rwa [← List.length_append])
  ready := by
    rw [tops_append, List.reverse_append]
    exact hnew.append h.ready

/-- The end of a branch that was put around the blocks from one of them on. -/
theorem around {after : List Block} {k : Kind} {cs : List Call} {own : Nat}
    {events : Option Nat → List Event}
    (h : Floor base front ms positions (bs ++ .branch c k cs :: after) es' ready)
    (written : Written positions front.length bs es) (hp : positions <+: positions')
    (inner : Level (positions.length + 1) ms' bs')
    (count : positions'.length = positions.length + 1 + Move.opened ms')
    (stem : Stem events own ((Block.branch positions.length kind
      (listing (.branch c k cs :: (after ++ bs')))).calls.map step))
    (position : positions'[positions.length]? = some (front.length + es.length + own))
    (hleft : held.Sublist (tops bs).reverse) :
    Floor base front (ms ++ .precede c :: (ms' ++ [.complete positions.length kind])) positions'
      (bs ++ [.branch positions.length kind (listing (.branch c k cs :: (after ++ bs')))])
      (es ++ events none) ([positions.length] ++ held) where
  level := by
    have hcount := h.count
    obtain ⟨before, lead, rfl, hbefore, hlead⟩ := h.level.split
    rw [Move.opened_append, ← Nat.add_assoc] at hcount
    rw [List.append_assoc]
    exact hbefore.append (.around kind hcount hlead inner)
  grows := h.grows.trans hp
  count := by
    rw [count, h.count]
    simp only [Move.opened_append, Move.opened_precede, Move.opened_complete, Move.opened_nil]
    omega
  written := (written.mono hp).append (.one_branch stem position)
  ready := by
    rw [tops_append, List.reverse_append]
    exact (List.Sublist.refl _).append hleft

end Floor

namespace Recorded

theorem leaf {step : BuildStep} {x : Event} (outer : Frames before up base front)
    (floor : Floor base front ms positions bs es ready) (ha : a.leaf? = some step)
    (hx : Replays [x] [step]) :
    Recorded (before ++ ms ++ [a]) ⟨positions.length, ready, up⟩
      ⟨(front ++ es).toArray.push x, positions⟩ := by
  have hfloor : Floor base front (ms ++ [a]) positions (bs ++ [.loose [.leaf step]]) (es ++ [x])
      ([] ++ ready) :=
    floor.append (.leaf ha) List.prefix_rfl (by rw [Move.opened_leaf ha]; rfl) (.one_loose hx)
      .slnil
  simpa using mk outer hfloor

theorem opened (outer : Frames before up base front) :
    Recorded before ⟨base.length, [], up⟩ ⟨front.toArray, base⟩ := by
  simpa using mk outer .fresh

theorem complete (outer : Frames before (⟨m, free, held⟩ :: up) base front)
    (floor : Floor base front ms positions bs es ready) (kind : Kind) :
    ∃ i log, positions[m]? = some i ∧ Log.complete (front ++ es).toArray ⟨i⟩ kind = .ok (⟨i⟩, log) ∧
      Recorded (before ++ ms ++ [.complete m kind]) ⟨positions.length, m :: held, up⟩
        ⟨log, positions⟩ := by
  cases outer with
  | @start before ms₀ up base positions₀ _ front es₀ bs₀ outer floor₀ =>
    obtain ⟨hposition, hgrows, hlevel, hcount⟩ := floor.within
    have hcomplete := Log.complete_eq (e := es) (front ++ es₀) kind
    have hstem : Stem (fun forward => .start (some kind) forward :: es ++ [.finish]) 0
        ((Block.branch positions₀.length kind (listing bs)).calls.map step) := by
      simpa [Block.calls, step] using Stem.node kind floor.written.replays
    have hfloor : Floor base front (ms₀ ++ .start :: (ms ++ [.complete positions₀.length kind]))
        positions (bs₀ ++ [.branch positions₀.length kind (listing bs)])
        (es₀ ++ (.start (some kind) none :: es ++ [.finish])) ([positions₀.length] ++ held) := by
      refine floor₀.append (.branch kind hlevel) hgrows ?_ ?_ (.refl _)
      · simp only [hcount, Move.opened_start, Move.opened_append, Move.opened_complete,
          Move.opened_nil]
        omega
      · exact Written.one_branch hstem hposition
    refine ⟨_, _, hposition, by simpa using hcomplete, ?_⟩
    simpa using mk outer hfloor
  | @precede before ms₀ up base positions₀ _ _ front es₀ f bs₀ after c own k cs events outer floor₀
      written stem behind remains =>
    -- with its pointer set, the branch is as long as without
    obtain ⟨hposition, hgrows, hlevel, hcount⟩ := floor.within
    have hcomplete := Log.complete_eq (e := es)
      (front ++ es₀ ++ events (some ((events none ++ f).length - own)) ++ f) kind
    have hstem : Stem (fun forward => events (some ((events none ++ f).length - own)) ++ f ++
        .start (some kind) forward :: es ++ [.finish]) (events none ++ f).length
        ((Block.branch positions₀.length kind
          (listing (.branch c k cs :: (after ++ bs)))).calls.map step) := by
      simpa [Block.calls, step] using stem.wrap kind behind floor.written.replays
    have hfloor := floor₀.around written hgrows hlevel hcount hstem
      (by rw [hposition]; simpa [Nat.add_assoc] using stem.length_eq _) remains
    refine ⟨_, _, hposition, by simpa using hcomplete, ?_⟩
    simpa using mk outer hfloor

theorem abandon (outer : Frames before (⟨m, true, held⟩ :: up) base front)
    (floor : Floor base front ms positions bs es ready) :
    ∃ i log, positions[m]? = some i ∧ Log.abandon (front ++ es).toArray ⟨i⟩ = .ok log ∧
      Recorded (before ++ ms ++ [.abandon m]) ⟨positions.length, held, up⟩ ⟨log, positions⟩ := by
  cases outer with
  | @start before ms₀ up base positions₀ _ front es₀ bs₀ outer floor₀ =>
    obtain ⟨hposition, hgrows, hlevel, hcount⟩ := floor.within
    obtain ⟨e, habandon, hreplays⟩ := Log.abandon_eq (front ++ es₀) es
    have hfloor : Floor base front (ms₀ ++ .start :: (ms ++ [.abandon positions₀.length])) positions
        (bs₀ ++ [.loose (listing bs)]) (es₀ ++ e) ([] ++ held) := by
      refine floor₀.append (.given hlevel) hgrows ?_
        (.one_loose (hreplays _ floor.written.replays)) .slnil
      simp only [hcount, Move.opened_start, Move.opened_append, Move.opened_abandon,
        Move.opened_nil]
      omega
    refine ⟨_, _, hposition, by simpa using habandon, ?_⟩
    simpa using mk outer hfloor

theorem precede (outer : Frames before up base front)
    (floor : Floor base front ms positions bs es ready) (hc : c ∈ ready) :
    ∃ i j log, positions[c]? = some i ∧ Log.precede (front ++ es).toArray ⟨i⟩ = .ok (⟨j⟩, log) ∧
      Recorded (before ++ ms ++ [.precede c])
        ⟨positions.length + 1, [], ⟨positions.length, false, Nesting.left true ready c⟩ :: up⟩
        ⟨log, positions ++ [j]⟩ := by
  obtain ⟨bs₀, kind, cs, after, rfl⟩ :=
    exists_branch_of_mem_tops (List.mem_reverse.mp (floor.ready.subset hc))
  obtain ⟨es₀, back, rfl, hwritten, hback⟩ := floor.written.split
  -- no other block has this number, so what was ready before it lies before its block
  have hnodup : (tops (bs₀ ++ .branch c kind cs :: after)).Nodup :=
    (tops_sublist _).nodup floor.level.nodup
  cases hback with
  | @branch _ _ own _ _ events _ f stem position rest =>
    have hleft : (Nesting.left true ready c).Sublist (tops bs₀).reverse := by
      have hready := floor.ready
      rw [tops_append, tops_branch] at hready hnodup
      have hc : c ∉ (tops after).reverse := by
        rw [List.mem_reverse]
        exact (List.nodup_cons.mp (List.nodup_append.mp hnodup).2.1).1
      exact Nesting.left_sublist hc (by simpa using hready)
    have hprecede := stem.precede_eq (f := f) (front ++ es₀)
    have hframes := outer.precede floor hwritten stem rest.replays hleft
    refine ⟨(front ++ es₀).length + own, _, _, by rwa [List.length_append],
      by simpa using hprecede, ?_⟩
    simpa [stem.length_eq (some _)] using opened hframes

/-- A move in order makes no fault. -/
theorem perform (h : Recorded moves s r) (ha : s.perform true a = some s') :
    ∃ r', r.perform a = .ok r' ∧ Recorded (moves ++ [a]) s' r' := by
  cases h with | @mk before ms up base positions ready front es bs outer floor =>
  cases a with
  | start =>
    cases ha
    refine ⟨_, rfl, ?_⟩
    simpa [Log.start] using opened (outer.start floor)
  | token t =>
    cases ha
    exact ⟨_, rfl, leaf outer floor rfl (replays_token t)⟩
  | missing =>
    cases ha
    exact ⟨_, rfl, leaf outer floor rfl replays_missing⟩
  | complete m kind =>
    cases up with
    | nil => cases ha
    | cons entry up =>
      obtain ⟨n, free, held⟩ := entry
      obtain ⟨⟨rfl, -⟩, hs⟩ := Option.ite_none_right_eq_some.mp ha
      obtain ⟨i, log, hi, hlog, hrecorded⟩ := complete outer floor kind
      cases hs
      refine ⟨⟨log, positions⟩, ?_, hrecorded⟩
      simp only [Recorder.perform, hi, hlog, Except.map]
  | abandon m =>
    cases up with
    | nil => cases ha
    | cons entry up =>
      obtain ⟨n, free, held⟩ := entry
      cases free with
      | false => cases ha
      | true =>
        obtain ⟨rfl, hs⟩ := Option.ite_none_right_eq_some.mp ha
        obtain ⟨i, log, hi, hlog, hrecorded⟩ := abandon outer floor
        cases hs
        refine ⟨⟨log, positions⟩, ?_, hrecorded⟩
        simp only [Recorder.perform, hi, hlog, Except.map]
  | precede c =>
    simp only [Nesting.perform] at ha
    obtain ⟨hc, hs⟩ := Option.ite_none_right_eq_some.mp ha
    obtain ⟨i, j, log, hi, hlog, hrecorded⟩ := precede outer floor hc
    cases hs
    refine ⟨⟨log, positions ++ [j]⟩, ?_, hrecorded⟩
    simp only [Recorder.perform, hi, hlog, Except.map]

theorem run (h : Recorded moves s r) (hs : s.run true ms = some s') :
    ∃ r', r.run ms = .ok r' ∧ Recorded (moves ++ ms) s' r' := by
  induction ms generalizing moves s r with
  | nil =>
    cases hs
    exact ⟨r, rfl, by simpa using h⟩
  | cons a ms ih =>
    obtain ⟨s₁, ha, hs⟩ := Option.bind_eq_some_iff.mp hs
    obtain ⟨r₁, hr₁, h₁⟩ := h.perform ha
    obtain ⟨r', hr', h'⟩ := ih h₁ hs
    exact ⟨r', (Recorder.run_cons hr₁ ms).trans hr', by simpa using h'⟩

end Recorded

/-! ## What the machine records -/

/-- The moves that set some unrecognized tokens aside, when `m` branches were opened. -/
def Move.aside (m : Nat) : List Token → List Move
  | [] => []
  | t :: ts => .start :: ((t :: ts).map .token ++ [.complete m .error])

namespace Recorder

theorem run_tokens (log : List Event) (positions : List Nat) (ts : List Token) (moves : List Move) :
    run ⟨log.toArray, positions⟩ (ts.map .token ++ moves) =
      run ⟨(log ++ ts.map Event.token).toArray, positions⟩ moves := by
  induction ts generalizing log with
  | nil => simp
  | cons t ts ih =>
    rw [List.map_cons, List.cons_append, run_cons rfl, Log.token, List.push_toArray, ih]
    simp

theorem run_aside (log : Log) (positions : List Nat) (ts : List Token) : ∃ positions',
    run ⟨log, positions⟩ (Move.aside positions.length ts) =
      .ok ⟨log ++ (ParseState.asideEvents ts).toArray, positions'⟩ := by
  obtain ⟨log⟩ := log
  cases ts with
  | nil => exact ⟨positions, by rw [Move.aside, run_nil]; simp [ParseState.asideEvents]⟩
  | cons t ts =>
    have hposition : (positions ++ [log.length])[positions.length]? = some log.length :=
      List.getElem?_concat_length
    have hclose : perform ⟨(log ++ Event.tombstone :: (t :: ts).map .token).toArray,
        positions ++ [log.length]⟩ (.complete positions.length .error) =
          .ok ⟨(log ++ Event.start (some .error) none :: (t :: ts).map .token ++
            [Event.finish]).toArray, positions ++ [log.length]⟩ := by
      simp only [perform, hposition, complete_eq, Except.map]
    refine ⟨positions ++ [log.length], ?_⟩
    rw [Move.aside, run_cons rfl]
    simp only [List.push_toArray, List.size_toArray]
    rw [run_tokens, List.append_assoc, List.singleton_append, run_cons hclose, run_nil]
    simp [ParseState.asideEvents]

end Recorder

/-- To take a token is to record it and then, as a branch of its own, the unrecognized input after
it. -/
theorem ParseState.advance_recorded {s : ParseState} {t : Token} {rest : List Token}
    (h : s.tokens = t :: rest) (ht : t.kind ≠ .eof) (positions : List Nat) : ∃ positions',
    Recorder.run ⟨s.log, positions⟩
        (.token t :: Move.aside positions.length (rest.takeWhile Token.isSkipped)) =
      .ok ⟨s.advance.log, positions'⟩ := by
  obtain ⟨positions', hrun⟩ :=
    Recorder.run_aside (s.log.token t) positions (rest.takeWhile Token.isSkipped)
  refine ⟨positions', ?_⟩
  rw [advance, h]
  simp only [if_neg ht]
  rw [setSkippedAside_eq]
  exact hrun

/-! ## What moves in order make -/

/-- Moves in order write a log without a fault. The log replays, again without a fault, to calls of
the builder that realise the moves. -/
theorem Move.ordered_realised (moves : List Move) (h : Move.Ordered true moves) :
    ∃ r calls, Recorder.start.run moves = .ok r ∧ r.log.replay = .ok (calls.map Call.step) ∧
      Realises moves calls := by
  obtain ⟨s, hs, hup⟩ := (Option.any_eq_true ..).mp h
  obtain ⟨r, hr, hrecorded⟩ := (Recorded.mk .root .fresh).run hs
  refine ⟨r, ?_⟩
  cases hrecorded with | @mk before ms up base positions ready front es bs outer floor =>
  obtain rfl : up = [] := List.isEmpty_iff.mp hup
  cases outer
  exact ⟨listing bs, hr, floor.written.replays.replay, floor.level.realises⟩

/-- Two branches are put around a complete one, and two are given up, one of them empty. -/
def chained : List Move :=
  [.start,
    .start, .token ⟨0, [], .name, ['a'], none⟩, .complete 1 .nameExpr,
    .precede 1, .start, .missing, .abandon 3, .complete 2 .callExpr,
    .precede 2, .token ⟨1, [], .semicolon, [';'], none⟩, .complete 4 .exprStmt,
    .start, .abandon 5,
    .complete 0 .sourceFile]

theorem chained_realised : Move.Ordered true chained ∧ ∃ r calls,
    Recorder.start.run chained = .ok r ∧ r.log.replay = .ok (calls.map Call.step) ∧
      Realises chained calls :=
  ⟨by decide, Move.ordered_realised chained (by decide)⟩

/-! ## Branches that cross -/

/-- A branch is put around a first one when a second one is complete, which comes to lie within it.
It is closed, a branch is put around the second one, and something is recorded in that. -/
def crossing : List Move :=
  [.start,
    .start, .token ⟨0, [], .name, ['a'], none⟩, .complete 1 .nameExpr,
    .start, .token ⟨1, [], .name, ['b'], none⟩, .complete 2 .variableExpr,
    .precede 1, .complete 3 .callExpr,
    .precede 2, .token ⟨2, [], .semicolon, [';'], none⟩, .complete 4 .exprStmt,
    .complete 0 .sourceFile]

/-- What is made of it: the second of these branches ends where the first one was closed, before
what was recorded in it. -/
def crossed : List BuildStep :=
  [.startNode .sourceFile, .startNode .callExpr,
    .startNode .nameExpr, .token [] .name 1, .finishNode,
    .startNode .exprStmt,
    .startNode .variableExpr, .token [] .name 1, .finishNode,
    .finishNode, .token [] .semicolon 1, .finishNode, .finishNode]

/-- What follows the end of the branch that is innermost when `depth` more are open within it. -/
def behindEnd : (depth : Nat) → List BuildStep → Option (List BuildStep)
  | _, [] => none
  | 0, .finishNode :: steps => some steps
  | depth + 1, .finishNode :: steps => behindEnd depth steps
  | depth, .startNode _ :: steps => behindEnd (depth + 1) steps
  | depth, _ :: steps => behindEnd depth steps

theorem Call.Nested.behindEnd_eq {calls : List Call} (h : Nested calls)
    (hleaves : ∀ step, .leaf step ∈ calls → step ≠ .finishNode ∧ ∀ kind, step ≠ .startNode kind)
    (depth : Nat) (steps : List BuildStep) :
    behindEnd depth (calls.map step ++ steps) = behindEnd depth steps := by
  induction h generalizing depth steps with
  | nil => rfl
  | @leaf x calls _ ih =>
    obtain ⟨hfinish, hstart⟩ := hleaves x List.mem_cons_self
    have hcalls := ih (fun step hstep => hleaves step (.tail _ hstep)) depth steps
    cases x with
    | startNode kind => exact absurd rfl (hstart kind)
    | finishNode => exact absurd rfl hfinish
    | token | missing => exact hcalls
  | @branch m kind inside calls _ _ ih ih' =>
    have hinside := ih (fun step hstep => hleaves step (by simp [hstep])) (depth + 1)
      (.finishNode :: (calls.map step ++ steps))
    have hcalls := ih' (fun step hstep => hleaves step (by simp [hstep])) depth steps
    simpa [step, behindEnd, hcalls] using hinside

theorem Call.Holds.leaf_ne {calls : List Call} {step : BuildStep} (h : Holds calls moves)
    (hstep : .leaf step ∈ calls) : step ≠ .finishNode ∧ ∀ kind, step ≠ .startNode kind := by
  have hmem : step ∈ calls.filterMap Call.leaf? := List.mem_filterMap.mpr ⟨_, hstep, rfl⟩
  rw [h.leaves] at hmem
  obtain ⟨a, -, ha⟩ := List.mem_filterMap.mp hmem
  cases a <;> simp [Move.leaf?] at ha <;> simp [← ha]

/-- Where four branches were opened before the next one. -/
theorem crossing_split {back : List Move} (h : crossing = ms ++ a :: back)
    (hopened : Move.opened ms = 4) : a = .complete 3 .callExpr ∨ a = .precede 2 ∧
      back = [.token ⟨2, [], .semicolon, [';'], none⟩, .complete 4 .exprStmt,
        .complete 0 .sourceFile] := by
  -- the place before the end of the branch with number 3 is another one, but opens nothing
  have hall : ∀ i < 13, Move.opened (crossing.take i) = 4 → crossing.drop i ∈
      [crossing.drop 8, crossing.drop 9] := by decide
  have hlen : ms.length < 13 := by
    have hlen := congrArg List.length h
    simp [crossing] at hlen
    omega
  have hmem := hall ms.length hlen (by rwa [h, List.take_left])
  rw [h, List.drop_left, ← h] at hmem
  rcases List.mem_cons.mp hmem with heq | hmem
  · exact .inl (List.cons.inj heq).1
  · obtain ⟨ha, hback⟩ := List.cons.inj (List.mem_singleton.mp hmem)
    exact .inr ⟨ha, hback⟩

theorem crossed_split {front back : List BuildStep}
    (h : crossed = front ++ .startNode .exprStmt :: back) : back = crossed.drop 6 := by
  have hall : ∀ i < 13, crossed[i]? = some (.startNode .exprStmt) → i = 5 := by decide
  have hget : crossed[front.length]? = some (.startNode .exprStmt) := by simp [h]
  have hlen := hall front.length (List.getElem?_eq_some_iff.mp hget).1 hget
  have hdrop : crossed.drop front.length = .startNode .exprStmt :: back := by
    rw [h, List.drop_left]
  rw [hlen] at hdrop
  exact (List.cons.inj hdrop.symm).2

/-- Closed in an order that crosses, a branch ends before what was recorded in it. -/
theorem crossing_not_realised : Move.Ordered false crossing ∧ ∃ r,
    Recorder.start.run crossing = .ok r ∧ r.log.replay = .ok crossed ∧
      ∀ calls, calls.map Call.step = crossed → ¬ Realises crossing calls := by
  refine ⟨by decide, _, rfl, by decide +kernel, ?_⟩
  intro calls hcalls h
  cases h.spans 4 .exprStmt (by decide) with
  | started before between after pre inside post moves_eq number calls_eq holds =>
    obtain ha | ⟨ha, -⟩ := crossing_split moves_eq (by omega)
    · cases ha
    · cases ha
  | @around c k before since between after pre inner later post moves_eq number calls_eq nested
      holds =>
    have hsplit : crossing = (before ++ .complete c k :: since) ++ .precede c ::
        (between ++ .complete 4 .exprStmt :: after) := by simp [moves_eq]
    obtain ha | ⟨-, hback⟩ := crossing_split hsplit (by omega)
    · cases ha
    have hbetween : .token ⟨2, [], .semicolon, [';'], none⟩ ∈ between := by
      cases between with
      | nil => cases hback
      | cons x between => exact List.mem_cons.mpr (.inl (List.cons.inj hback).1.symm)
    have hlater : .leaf (.token [] .semicolon 1) ∈ later := by
      have hmem : .token [] .semicolon 1 ∈ later.filterMap Call.leaf? := by
        rw [holds.leaves]
        exact List.mem_filterMap.mpr ⟨_, List.mem_append_right _ hbetween, rfl⟩
      obtain ⟨call, hcall, hleaf⟩ := List.mem_filterMap.mp hmem
      cases call <;> cases hleaf
      exact hcall
    have hnested : Nested (.opens c k :: (inner ++ .closes c :: later)) :=
      .branch nested holds.nested
    have hmem : .leaf (.token [] .semicolon 1) ∈ .opens c k :: (inner ++ .closes c :: later) := by
      simp [hlater]
    generalize Call.opens c k :: (inner ++ .closes c :: later) = body at calls_eq hnested hmem
    have hleaves : ∀ step, .leaf step ∈ body →
        step ≠ .finishNode ∧ ∀ kind, step ≠ .startNode kind :=
      fun step hstep => h.leaf_ne (by simp [calls_eq, hstep])
    have hparts : crossed = pre.map step ++ .startNode .exprStmt ::
        (body.map step ++ .finishNode :: post.map step) := by
      rw [← hcalls, calls_eq]
      simp [step]
    have hrest := crossed_split hparts
    -- all that the calls enclose ends before the semicolon, which should be among it
    have hpost := hnested.behindEnd_eq hleaves 0 (.finishNode :: post.map step)
    rw [hrest] at hpost
    obtain hpost : some (crossed.drop 10) = some (post.map step) := hpost
    rw [← Option.some.inj hpost] at hrest
    have hbody : body.map step = (crossed.drop 6).take 3 := List.append_cancel_right hrest
    have hstep := List.mem_map_of_mem (f := step) hmem
    rw [hbody] at hstep
    revert hstep
    decide

end PhpSyntax
