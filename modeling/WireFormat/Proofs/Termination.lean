import WireFormat.Proofs.Descended

namespace WireFormat

-- How many turns a loop may take, and how many levels of structs are read, is no part of
-- what is read: with more of them than are needed the answer is the same.

namespace Descends

-- Where one reading has an answer, the other has the same.
def Refines (less more : Descends α) : Prop :=
  ∀ before answer, less before = some answer → more before = some answer

theorem Refines.refl (reading : Descends α) : Refines reading reading := fun _ _ runs => runs

theorem Refines.bind {less more : Descends α} {afterLess afterMore : α → Descends β} (first : Refines less more)
    (second : ∀ value, Refines (afterLess value) (afterMore value)) :
    Refines (less >>= afterLess) (more >>= afterMore) := by
  intro before answer runs
  cases found : less before with
  | none => simp [Bind.bind, ExceptT.bind, ExceptT.mk, StateT.bind, found] at runs
  | some read =>
    obtain ⟨error | value, middle⟩ := read
    · rw [run_error found] at runs
      rw [run_error (first _ _ found), runs]
    · rw [run_ok found] at runs
      rw [run_ok (first _ _ found)]
      exact second value middle answer runs

theorem Refines.nested {less more : Descends α} (body : Refines less more) :
    Refines (Descends.nested less) (Descends.nested more) := by
  intro before answer runs
  by_cases full : maxNesting ≤ before.depth
  · rw [nested_full _ full] at runs ⊢
    exact runs
  · rw [Descends.nested, if_neg full] at runs ⊢
    obtain ⟨inner, deeper, runs⟩ := Option.bind_eq_some_iff.mp runs
    obtain ⟨read, ran, closed⟩ := Option.bind_eq_some_iff.mp runs
    exact Option.bind_eq_some_iff.mpr ⟨inner, deeper, Option.bind_eq_some_iff.mpr ⟨read, body _ _ ran, closed⟩⟩

theorem loopFor_refines {less more : β → Descends (Turn β α)}
    (turn : ∀ gathered, Refines (less gathered) (more gathered)) (enough : turns ≤ others) (gathered : β) :
    Refines (loopFor less turns gathered) (loopFor more others gathered) := by
  induction turns generalizing others gathered with
  | zero => exact fun _ _ runs => nomatch runs
  | succ turns ih =>
    obtain _ | others := others
    · exact absurd enough (Nat.not_succ_le_zero turns)
    · refine (turn gathered).bind ?_
      rintro (again | value)
      · exact ih (Nat.le_of_succ_le_succ enough) again
      · exact .refl _

theorem structBody_refines {less more : Descends Member} (member : Refines less more) :
    Refines (structBody less) (structBody more) := by
  refine (Refines.refl _).bind fun _ => (Refines.refl _).bind fun _ => Refines.bind ?_ fun _ => .refl _
  intro before
  refine loopFor_refines (fun members => ?_) (Nat.le_refl _) [] before
  refine (Refines.refl _).bind fun token => ?_
  split
  · exact .refl _
  · exact member.bind fun _ => .refl _

theorem memberWithin_refines (enough : levels ≤ others) : Refines (memberWithin levels) (memberWithin others) := by
  induction levels generalizing others with
  | zero => exact fun _ _ runs => nomatch runs
  | succ levels ih =>
    obtain _ | others := others
    · exact absurd enough (Nat.not_succ_le_zero levels)
    · refine (Refines.refl _).bind fun token => ?_
      split
      · exact (structBody_refines (ih (Nat.le_of_succ_le_succ enough))).nested
      all_goals exact .refl _

-- A reading answers, neither before its place nor past the last token and at the depth at
-- which it began, and with success it is so many tokens on.
def Advances (least : Nat) (reading : Descends α) (before : Descent) : Prop :=
  ∃ result after, reading before = some (result, after) ∧
    after.tokens = before.tokens ∧ after.depth = before.depth ∧
    before.pos ≤ after.pos ∧ after.pos ≤ before.tokens.length ∧
    ∀ value, result = .ok value → before.pos + least ≤ after.pos

-- A loop comes to one answer, in as many turns as there are tokens left and one more in
-- which it leaves.
def Concludes (turn : β → Descends (Turn β α)) (before : Descent) : Prop :=
  ∀ gathered, ∃ answer, loop turn gathered before = some answer ∧
    ∀ turns, before.left < turns → loopFor turn turns gathered before = some answer

theorem Moves.advances {reading : Descends α} (moves : Moves least reading before) (valid : before.Valid) :
    Advances least reading before := by
  obtain ⟨result, after, runs, leads, further⟩ := moves valid
  exact ⟨result, after, runs, leads.tokens, leads.depth, leads.ahead, leads.within,
    fun value same => (further value same).ahead⟩

theorem Turns.concludes {turn : β → Descends (Turn β α)} (valid : before.Valid)
    (each : ∀ gathered middle, before.Leads 0 middle → Turns least (turn gathered) middle) :
    Concludes turn before := by
  intro gathered
  obtain ⟨result, after, runs, _⟩ := loop_moves each gathered valid
  exact ⟨_, runs, fun turns enough => loopFor_refines (fun _ => .refl _) enough gathered before _ runs⟩

theorem memberWithin_enough (valid : before.Valid) (room : maxNesting < before.depth + levels) :
    memberWithin levels before = member before := by
  obtain ⟨result, after, runs, _⟩ := memberWithin_moves levels room valid
  rcases Nat.le_total levels (maxNesting + 1) with fewer | more
  · exact runs.trans (memberWithin_refines fewer before _ runs).symm
  · obtain ⟨other, last, found, _⟩ := member_moves valid
    exact (memberWithin_refines more before _ found).trans found.symm

theorem deeper_bounded {before inner : Descent} (deeper : before.deeper = some inner) :
    inner.depth = before.depth + 1 ∧ inner.depth ≤ maxNesting := by
  unfold Descent.deeper at deeper
  split at deeper
  · cases deeper
    exact ⟨rfl, ‹_›⟩
  · cases deeper

theorem shallower_bounded {before outer : Descent} (shallower : before.shallower = some outer) :
    outer.depth + 1 = before.depth := by
  unfold Descent.shallower at shallower
  split at shallower
  · cases shallower
    exact Nat.succ_pred_eq_of_pos ‹_›
  · cases shallower

theorem parse_decls (tokens : List Token) : (parse tokens).decls.length ≤ tokens.length := by
  have valid : Descent.Valid ⟨⟨tokens, 0⟩, 0⟩ := ⟨Nat.zero_le _, Nat.zero_le _⟩
  obtain ⟨result, after, runs, leads, count⟩ := decls_ends valid
  have parsed := descend_parse tokens
  rw [descend, runs] at parsed
  exact Nat.le_trans (count _ (Option.some.inj parsed)) leads.within

-- Wherever it begins, reading comes to an end and does not stand still: each construct that
-- is read takes a token of its own, but for bounds that are not there, and the depth is in
-- the end what it was. It has no answer where the count of open bodies leaves its range, so
-- the count never does. A schema has no more declarations than tokens.
theorem descent_progress :
    (∀ before : Descent, before.pos ≤ before.tokens.length → before.depth ≤ maxNesting →
      (Advances 1 decl before ∧ Advances 1 field before ∧ Advances 1 name before ∧ Advances 1 type before ∧
        Advances 1 size before ∧ Advances 1 enum before ∧ Advances 1 struct before ∧ Advances 1 member before ∧
        Advances 1 select before ∧ Advances 1 arm before ∧ Advances 1 item before ∧ Advances 0 bounds before) ∧
      (Concludes declsTurn before ∧ (∀ withValues, Concludes (entriesTurn withValues) before) ∧
        Concludes (membersTurn member) before ∧ Concludes armsTurn before ∧ Concludes labelsTurn before ∧
        Concludes nameTurn before) ∧
      ∀ levels, maxNesting < before.depth + levels → memberWithin levels before = member before) ∧
    (∀ before inner, Descent.deeper before = some inner → inner.depth = before.depth + 1 ∧ inner.depth ≤ maxNesting) ∧
    (∀ before outer, Descent.shallower before = some outer → outer.depth + 1 = before.depth) ∧
    ∀ tokens, descend tokens = some (.ok (parse tokens)) ∧ (parse tokens).decls.length ≤ tokens.length := by
  refine ⟨fun before within depth => ?_, fun _ _ => deeper_bounded, fun _ _ => shallower_bounded,
    fun tokens => ⟨descend_parse tokens, parse_decls tokens⟩⟩
  have valid : before.Valid := ⟨within, depth⟩
  refine ⟨⟨decl_moves.advances valid, field_moves.advances valid, name_moves.advances valid, type_moves.advances valid,
    size_moves.advances valid, enum_moves.advances valid, struct_moves.advances valid, member_moves.advances valid,
    select_moves.advances valid, arm_moves.advances valid, item_moves.advances valid, bounds_moves.advances valid⟩,
    ⟨?_, fun withValues => ?_, ?_, ?_, ?_, ?_⟩, fun levels room => memberWithin_enough valid room⟩
  · exact Turns.concludes valid fun decls _ _ => declsTurn_moves decls
  · exact Turns.concludes valid fun entries _ _ => entriesTurn_moves withValues entries
  · exact Turns.concludes valid fun members _ _ => membersTurn_moves member_moves members
  · exact Turns.concludes valid fun arms _ _ => armsTurn_moves arms
  · exact Turns.concludes valid fun labels _ _ => labelsTurn_moves labels
  · exact Turns.concludes valid fun name _ _ => nameTurn_moves name

-- The deepest place, where the tokens run out without an end, and the one around it.
def deepest : Descent := ⟨⟨[⟨.structWord, "struct", 1⟩, ⟨.lBrace, "\x7b", 1⟩], 2⟩, maxNesting⟩
def outside : Descent := { deepest with depth := 255 }

theorem descent_progress_deepest :
    (deepest.pos ≤ deepest.tokens.length ∧ deepest.depth ≤ maxNesting ∧ maxNesting < deepest.depth + 1) ∧
      Advances 1 decl deepest ∧ memberWithin 1 deepest = member deepest ∧
      outside.deeper = some deepest ∧ deepest.depth = outside.depth + 1 ∧ deepest.depth ≤ maxNesting ∧
      deepest.shallower = some outside ∧ outside.depth + 1 = deepest.depth := by
  have within : deepest.pos ≤ deepest.tokens.length := by decide
  have depth : deepest.depth ≤ maxNesting := Nat.le_refl _
  have room : maxNesting < deepest.depth + 1 := Nat.lt_succ_self _
  obtain ⟨progress, deeper, shallower, _⟩ := descent_progress
  obtain ⟨⟨moves, _⟩, _, levels⟩ := progress deepest within depth
  obtain ⟨count, bounded⟩ := deeper outside deepest rfl
  exact ⟨⟨within, depth, room⟩, moves, levels 1 room, rfl, count, bounded, rfl, shallower deepest outside rfl⟩

end Descends

end WireFormat
