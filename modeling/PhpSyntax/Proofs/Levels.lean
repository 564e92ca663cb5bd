import PhpSyntax.Proofs.Moves

/-!
What is recorded at one level, that is, directly within one open branch. It is a list of blocks: the
complete branches, which can still be preceded, and what else lies between them. A branch that is
closed becomes a block of the level around, with all that was recorded in it and the blocks that it
was put around.
-/
namespace PhpSyntax.Call

inductive Block where
  /-- A leaf, or the calls of a branch that was given up. -/
  | loose (calls : List Call)
  | branch (m : Nat) (kind : Kind) (inner : List Call)

namespace Block

def calls : Block → List Call
  | loose calls => calls
  | branch m kind inner => .opens m kind :: (inner ++ [.closes m])

def top? : Block → Option Nat
  | loose _ => none
  | branch m _ _ => some m

end Block

/-- The calls of some blocks. -/
def listing (blocks : List Block) : List Call := blocks.flatMap Block.calls

/-- The numbers of the branches that are blocks. -/
def tops (blocks : List Block) : List Nat := blocks.filterMap Block.top?

/-- The branch that a move gives up. -/
def given? : Move → Option Nat
  | .abandon m => some m
  | _ => none

/-- Moves that were made at one level, before which `n` branches were opened, and the blocks that
they made of what they recorded. -/
inductive Level : (n : Nat) → List Move → List Block → Prop where
  | nil {n : Nat} : Level n [] []
  | append {n : Nat} {ms ms' : List Move} {bs bs' : List Block} (first : Level n ms bs)
    (second : Level (n + Move.opened ms) ms' bs') : Level n (ms ++ ms') (bs ++ bs')
  | leaf {n : Nat} {a : Move} {step : BuildStep} (h : a.leaf? = some step) :
    Level n [a] [.loose [.leaf step]]
  | given {n : Nat} {ms : List Move} {bs : List Block} (inner : Level (n + 1) ms bs) :
    Level n (.start :: (ms ++ [.abandon n])) [.loose (listing bs)]
  | branch {n : Nat} {ms : List Move} {bs : List Block} (kind : Kind)
    (inner : Level (n + 1) ms bs) :
    Level n (.start :: (ms ++ [.complete n kind])) [.branch n kind (listing bs)]
  | around {n m c : Nat} {ms ms' : List Move} {k : Kind} {cs : List Call} {after bs : List Block}
    (kind : Kind) (number : m = n + Move.opened ms) (lead : Level n ms (.branch c k cs :: after))
    (inner : Level (m + 1) ms' bs) :
    Level n (ms ++ .precede c :: (ms' ++ [.complete m kind]))
      [.branch m kind (listing (.branch c k cs :: (after ++ bs)))]

variable {bs bs' front after : List Block} {ms ms' : List Move} {cs ds : List Call} {b : Block}
  {a : Move} {n m c : Nat} {kind k : Kind}

@[simp] theorem listing_nil : listing [] = [] := rfl

@[simp] theorem listing_append : listing (bs ++ bs') = listing bs ++ listing bs' :=
  List.flatMap_append

@[simp] theorem listing_cons : listing (b :: bs) = b.calls ++ listing bs := List.flatMap_cons

theorem openings_loose :
    openings (listing (.loose cs :: bs)) = openings cs ++ openings (listing bs) :=
  openings_append

theorem openings_branch : openings (listing (.branch m kind cs :: bs)) =
    m :: (openings cs ++ openings (listing bs)) := by
  simp [Block.calls]

@[simp] theorem tops_append : tops (bs ++ bs') = tops bs ++ tops bs' := List.filterMap_append

@[simp] theorem tops_branch (inner : List Call) :
    tops (.branch m kind inner :: bs) = m :: tops bs := rfl

theorem exists_branch_of_mem_tops (h : m ∈ tops bs) :
    ∃ before kind inner after, bs = before ++ .branch m kind inner :: after := by
  obtain ⟨b, hb, hm⟩ := List.mem_filterMap.mp h
  obtain ⟨before, after, rfl⟩ := List.append_of_mem hb
  cases b with
  | loose => cases hm
  | branch m' kind inner =>
    obtain rfl := Option.some.inj hm
    exact ⟨before, kind, inner, after, rfl⟩

theorem tops_sublist (bs : List Block) : (tops bs).Sublist (openings (listing bs)) := by
  induction bs with
  | nil => exact .slnil
  | cons b bs ih =>
    cases b with
    | loose =>
      rw [openings_loose]
      exact ih.trans (List.sublist_append_right ..)
    | branch m kind inner =>
      rw [tops_branch, openings_branch]
      exact (ih.trans (List.sublist_append_right ..)).cons_cons m

/-! ## What was recorded -/

namespace Holds

theorem nil : Holds [] [] := ⟨.nil, rfl, by simp⟩

theorem quiet (h : a.leaf? = none) (h' : ∀ m kind, a ≠ .complete m kind) : Holds [] [a] where
  nested := .nil
  leaves := by simp [h]
  branches m kind := by simp [(h' m kind).symm]

theorem leaf {step : BuildStep} (h : a.leaf? = some step) : Holds [.leaf step] [a] where
  nested := .leaf .nil
  leaves := by simp [Call.leaf?, h]
  branches m kind := by cases a <;> simp [Move.leaf?] at h ⊢

theorem append (h : Holds cs ms) (h' : Holds ds ms') : Holds (cs ++ ds) (ms ++ ms') where
  nested := h.nested.append h'.nested
  leaves := by rw [List.filterMap_append, List.filterMap_append, h.leaves, h'.leaves]
  branches m kind := by simp [h.branches, h'.branches]

theorem close (h : Holds cs ms) (m : Nat) (kind : Kind) :
    Holds (.opens m kind :: (cs ++ [.closes m])) (ms ++ [.complete m kind]) where
  nested := .branch h.nested .nil
  leaves := by simp [List.filterMap_cons, Call.leaf?, Move.leaf?, h.leaves]
  branches m' kind' := by simp [h.branches, or_comm]

end Holds

theorem Level.holds (h : Level n ms bs) : Holds (listing bs) ms := by
  induction h with
  | nil => exact .nil
  | append _ _ ih ih' =>
    rw [listing_append]
    exact ih.append ih'
  | leaf h => exact .leaf h
  | @given n _ _ _ ih =>
    have h := (Holds.quiet (a := .start) rfl nofun).append
      (ih.append (.quiet (a := .abandon n) rfl nofun))
    simpa [Block.calls] using h
  | @branch n _ _ kind _ ih =>
    have h := ((Holds.quiet (a := .start) rfl nofun).append ih).close n kind
    simpa [Block.calls] using h
  | @around _ m c _ _ _ _ _ _ kind _ _ _ ih ih' =>
    have h := (ih.append ((Holds.quiet (a := .precede c) rfl nofun).append ih')).close m kind
    simpa [Block.calls] using h

/-- Every branch that is opened at a level is closed or given up at that level, and only once. -/
theorem Level.numbers (h : Level n ms bs) :
    (openings (listing bs) ++ ms.filterMap given?).Perm (List.range' n (Move.opened ms)) := by
  -- a branch around another one is opened before it in the calls, but was numbered after it
  rw [List.perm_iff_count]
  intro x
  induction h with
  | nil => rfl
  | append _ _ ih ih' =>
    rw [Move.opened_append, ← List.range'_append_1]
    simp only [listing_append, openings_append, List.filterMap_append, List.count_append]
      at ih ih' ⊢
    omega
  | @leaf _ a _ h =>
    rw [Move.opened_leaf h]
    cases a <;> first | rfl | cases h
  | given _ ih =>
    rw [Move.opened_start, Move.opened_append, List.range'_succ]
    simp only [openings_loose, listing_nil, openings_nil, List.append_nil, List.filterMap_cons,
      given?, List.filterMap_append, List.filterMap_nil, Move.opened_abandon, Move.opened_nil,
      Nat.add_zero, List.count_append, List.count_cons, List.count_nil] at ih ⊢
    omega
  | branch kind _ ih =>
    rw [Move.opened_start, Move.opened_append, List.range'_succ]
    simp only [openings_branch, listing_nil, openings_nil, List.append_nil, List.filterMap_cons,
      given?, List.filterMap_append, List.filterMap_nil, Move.opened_complete, Move.opened_nil,
      Nat.add_zero, List.count_append, List.count_cons] at ih ⊢
    omega
  | around kind number _ _ ih ih' =>
    subst number
    rw [Move.opened_append, ← List.range'_append_1, Move.opened_precede, List.range'_succ,
      Move.opened_append]
    simp only [openings_branch, listing_append, openings_append, listing_nil, openings_nil,
      List.append_nil, List.filterMap_cons, given?, List.filterMap_append, List.filterMap_nil,
      Move.opened_complete, Move.opened_nil, Nat.add_zero, List.count_append, List.count_cons]
      at ih ih' ⊢
    omega

namespace Level

theorem split_single (h : Level n ms [b]) (hb : bs ++ bs' = [b]) : ∃ front after,
    ms = front ++ after ∧ Level n front bs ∧ Level (n + Move.opened front) after bs' := by
  obtain ⟨rfl, rfl⟩ | ⟨rfl, rfl⟩ := List.append_eq_singleton_iff.mp hb
  · exact ⟨[], ms, rfl, .nil, h⟩
  · exact ⟨ms, [], (List.append_nil ms).symm, h, .nil⟩

/-- The moves of a level fall in two parts where its blocks do. -/
theorem split (h : Level n ms (bs ++ bs')) : ∃ front after,
    ms = front ++ after ∧ Level n front bs ∧ Level (n + Move.opened front) after bs' := by
  generalize hl : bs ++ bs' = l at h
  induction h generalizing bs bs' with
  | nil =>
    obtain ⟨rfl, rfl⟩ := List.append_eq_nil_iff.mp hl
    exact ⟨[], [], rfl, .nil, .nil⟩
  | @append n ms ms' _ _ first second ih ih' =>
    obtain ⟨mid, rfl, rfl⟩ | ⟨mid, rfl, rfl⟩ := List.append_eq_append_iff.mp hl
    · obtain ⟨front, after, rfl, hfront, hafter⟩ := ih rfl
      rw [Move.opened_append, ← Nat.add_assoc] at second
      exact ⟨front, after ++ ms', List.append_assoc .., hfront, hafter.append second⟩
    · obtain ⟨front, after, rfl, hfront, hafter⟩ := ih' rfl
      refine ⟨ms ++ front, after, (List.append_assoc ..).symm, first.append hfront, ?_⟩
      rwa [Move.opened_append, ← Nat.add_assoc]
  | leaf h => exact split_single (.leaf h) hl
  | given inner => exact split_single (.given inner) hl
  | branch kind inner => exact split_single (.branch kind inner) hl
  | around kind number lead inner => exact split_single (.around kind number lead inner) hl

/-- Where there is one branch only, nothing was recorded after its end. -/
theorem of_branch (h : Level n ms [.branch c k cs]) :
    Nested cs ∧ ∃ before since, ms = before ++ .complete c k :: since ∧ Holds [] since := by
  generalize hl : [Block.branch c k cs] = l at h
  induction h with
  | nil | leaf | given => cases hl
  | @append _ ms ms' _ _ _ second ih ih' =>
    -- the moves of the part without a block may still be such that record nothing
    obtain ⟨rfl, rfl⟩ | ⟨rfl, rfl⟩ := List.append_eq_singleton_iff.mp hl.symm
    · obtain ⟨hcs, before, since, rfl, hsince⟩ := ih' rfl
      exact ⟨hcs, ms ++ before, since, by simp, hsince⟩
    · obtain ⟨hcs, before, since, rfl, hsince⟩ := ih rfl
      exact ⟨hcs, before, since ++ ms', by simp, hsince.append second.holds⟩
  | @branch _ ms _ kind inner =>
    cases hl
    exact ⟨inner.holds.nested, .start :: ms, [], rfl, .nil⟩
  | @around _ _ c ms ms' _ _ _ _ kind _ lead inner =>
    cases hl
    refine ⟨?_, ms ++ .precede c :: ms', [], by simp, .nil⟩
    have hall := lead.holds.append inner.holds
    rw [← listing_append, List.cons_append] at hall
    exact hall.nested

/-- What was recorded since the end of a complete branch is what lies behind it. -/
theorem since (h : Level n ms (.branch c k cs :: after)) : Nested cs ∧ ∃ before since,
    ms = before ++ .complete c k :: since ∧ Holds (listing after) since := by
  have hsplit : Level n ms ([.branch c k cs] ++ after) := h
  obtain ⟨front, behind, rfl, hfront, hbehind⟩ := hsplit.split
  obtain ⟨hcs, before, since, rfl, hsince⟩ := hfront.of_branch
  exact ⟨hcs, before, since ++ behind, by simp, hsince.append hbehind.holds⟩

end Level

namespace Spans

/-- More moves behind, and more calls around. -/
theorem more (h : Spans n ms cs m kind) (ms' : List Move) (front back : List Call) :
    Spans n (ms ++ ms') (front ++ cs ++ back) m kind := by
  cases h with
  | started before between after pre inside post moves_eq number calls_eq holds =>
    refine .started before between (after ++ ms') (front ++ pre) inside (post ++ back)
      ?_ number ?_ holds
    · rw [moves_eq]; simp
    · rw [calls_eq]; simp
  | around before since between after pre inner later post moves_eq number calls_eq nested holds =>
    refine .around before since between (after ++ ms') (front ++ pre) inner later (post ++ back)
      ?_ number ?_ nested holds
    · rw [moves_eq]; simp
    · rw [calls_eq]; simp

/-- More moves before. -/
theorem later (ms : List Move) (h : Spans (n + Move.opened ms) ms' cs m kind) :
    Spans n (ms ++ ms') cs m kind := by
  cases h with
  | started before between after pre inside post moves_eq number calls_eq holds =>
    refine .started (ms ++ before) between after pre inside post ?_ ?_ calls_eq holds
    · rw [moves_eq, List.append_assoc]
    · rw [number, Move.opened_append, Nat.add_assoc]
  | around before since between after pre inner later post moves_eq number calls_eq nested holds =>
    refine .around (ms ++ before) since between after pre inner later post ?_ ?_ calls_eq nested
      holds
    · rw [moves_eq, List.append_assoc]
    · rw [number, List.append_assoc, Move.opened_append ms, Nat.add_assoc]

end Spans

/-- A branch that was completed begins and ends where it should. -/
theorem Level.spans (h : Level n ms bs) (hm : .complete m kind ∈ ms) :
    Spans n ms (listing bs) m kind := by
  induction h with
  | nil => cases hm
  | @append n ms ms' bs bs' _ _ ih ih' =>
    rw [listing_append]
    rcases List.mem_append.mp hm with hm | hm
    · simpa using (ih hm).more ms' [] (listing bs')
    · simpa using ((ih' hm).later ms).more [] (listing bs) []
  | leaf h =>
    obtain rfl := List.mem_singleton.mp hm
    cases h
  | @given n ms bs _ ih =>
    simp only [List.mem_cons, reduceCtorEq, List.mem_append, List.not_mem_nil, or_false,
      false_or] at hm
    have hspans := ((ih hm).later [.start]).more [.abandon n] [] []
    simpa [Block.calls] using hspans
  | @branch n ms bs kind' inner ih =>
    simp only [List.mem_cons, reduceCtorEq, List.mem_append, List.not_mem_nil, or_false,
      false_or] at hm
    rcases hm with hm | hm
    · have hspans := ((ih hm).later [.start]).more [.complete n kind'] [.opens n kind'] [.closes n]
      simpa [Block.calls] using hspans
    · cases hm
      refine .started [] ms [] [] (listing bs) [] rfl rfl ?_ inner.holds
      simp [Block.calls]
  | @around n m' c ms ms' k cs after bs kind' number lead inner ih ih' =>
    simp only [List.mem_cons, reduceCtorEq, List.mem_append, List.not_mem_nil, or_false,
      false_or] at hm
    rcases hm with hm | hm | hm
    · have hspans := (ih hm).more (.precede c :: (ms' ++ [.complete m' kind'])) [.opens m' kind']
        (listing bs ++ [.closes m'])
      simpa [Block.calls] using hspans
    · have hinner := ih' hm
      rw [number] at hinner
      have hspans := ((hinner.later [.precede c]).later ms).more [.complete m' kind']
        (.opens m' kind' :: listing (.branch c k cs :: after)) [.closes m']
      simpa [Block.calls] using hspans
    · cases hm
      -- between its ends lies what was recorded since the end of the branch it was put around
      obtain ⟨hcs, before, since, rfl, hsince⟩ := lead.since
      refine .around (c := c) (k := k) before since ms' [] [] cs (listing (after ++ bs)) []
        ?_ number ?_ hcs ?_
      · simp
      · simp [Block.calls]
      · rw [listing_append]
        exact hsince.append inner.holds

theorem Level.nodup_all (h : Level n ms bs) :
    (openings (listing bs) ++ ms.filterMap given?).Nodup :=
  h.numbers.nodup_iff.mpr (List.nodup_range' ..)

theorem Level.nodup (h : Level n ms bs) : (openings (listing bs)).Nodup :=
  (List.nodup_append.mp h.nodup_all).1

/-- Where nothing else was recorded, the calls of the blocks realise the moves. -/
theorem Level.realises (h : Level 0 ms bs) : Realises ms (listing bs) where
  toHolds := h.holds
  once := h.nodup
  abandoned m hm hopen := by
    have hdisjoint := (List.nodup_append.mp h.nodup_all).2.2
    exact hdisjoint m hopen m (List.mem_filterMap.mpr ⟨_, hm, rfl⟩) rfl
  spans _ _ hm := h.spans hm

end PhpSyntax.Call
