import WireFormat.Proofs.Descent

namespace WireFormat

-- Every construct that is read takes a token, and every body that is opened is closed again.

namespace Descent

structure Valid (descent : Descent) : Prop where
  within : descent.pos ≤ descent.tokens.length
  depth : descent.depth ≤ maxNesting

-- What lies between two places of one reading, the later at least so many tokens on.
structure Leads (least : Nat) (before after : Descent) : Prop where
  tokens : after.tokens = before.tokens
  depth : after.depth = before.depth
  ahead : before.pos + least ≤ after.pos
  within : after.pos ≤ before.tokens.length

theorem Leads.refl (valid : before.Valid) : Leads 0 before before := ⟨rfl, rfl, Nat.le_refl _, valid.within⟩

theorem Leads.weaken (leads : Leads least before after) (less : fewer ≤ least) : Leads fewer before after :=
  ⟨leads.tokens, leads.depth, Nat.le_trans (Nat.add_le_add_left less _) leads.ahead, leads.within⟩

theorem Leads.trans (first : Leads least before middle) (more : Leads others middle after) :
    Leads (least + others) before after where
  tokens := more.tokens.trans first.tokens
  depth := more.depth.trans first.depth
  ahead := by have one := first.ahead; have two := more.ahead; omega
  within := first.tokens ▸ more.within

theorem Leads.valid (leads : Leads least before after) (valid : before.Valid) : after.Valid :=
  ⟨leads.tokens ▸ leads.within, leads.depth ▸ valid.depth⟩

theorem Leads.shrinks (leads : Leads 1 before after) : after.left < before.left := by
  obtain ⟨tokens, _, ahead, within⟩ := leads
  rw [left, left, tokens]
  omega

theorem peek_written (descent : Descent) (other : descent.peek.kind ≠ .eof) :
    descent.pos < descent.tokens.length := by
  by_contra beyond
  refine other ?_
  have none : descent.tokens[descent.pos]? = Option.none := List.getElem?_eq_none (Nat.le_of_not_lt beyond)
  rw [Cursor.peek, none, Option.getD_none, Cursor.atEnd]
  cases last : descent.tokens.getLast?.filter fun token => token.kind = .eof with
  | none => rfl
  | some token => simpa using (Option.filter_eq_some_iff.mp last).2

theorem next_leads (descent : Descent) (other : descent.peek.kind ≠ .eof) : Leads 1 descent descent.next := by
  have written := descent.peek_written other
  have moved : descent.bump = ⟨descent.tokens, descent.pos + 1⟩ := if_pos written
  refine ⟨?_, rfl, ?_, ?_⟩
  · rw [next, moved]
  · rw [next, moved]
  · rw [next, moved]
    exact written

end Descent

open Descent (Leads)

namespace Descends

-- A reading comes to an end, at the depth at which it began and not before its place.
def Ends (reading : Descends α) (before : Descent) (post : α → Descent → Prop) : Prop :=
  before.Valid → ∃ result after, reading before = some (result, after) ∧ before.Leads 0 after ∧
    ∀ value, result = .ok value → post value after

def Moves (least : Nat) (reading : Descends α) (before : Descent) : Prop :=
  Ends reading before fun _ after => before.Leads least after

section Rules

variable {before : Descent}

theorem run_ok {reading : Descends α} {more : α → Descends β} (first : reading before = some (.ok value, middle)) :
    (reading >>= more) before = more value middle := by
  simp only [bind, ExceptT.bind, ExceptT.mk, StateT.bind, first, Option.bind_some, ExceptT.bindCont]

theorem run_error {reading : Descends α} {more : α → Descends β}
    (first : reading before = some (.error error, middle)) :
    (reading >>= more) before = some (.error error, middle) := by
  simp only [bind, ExceptT.bind, ExceptT.mk, StateT.bind, first, Option.bind_some, ExceptT.bindCont]
  rfl

theorem Ends.weaken {reading : Descends α} (ends : Ends reading before post)
    (weaker : ∀ value after, post value after → other value after) : Ends reading before other := by
  intro valid
  obtain ⟨result, after, runs, leads, holds⟩ := ends valid
  exact ⟨result, after, runs, leads, fun value same => weaker value after (holds value same)⟩

theorem Ends.bind {reading : Descends α} {more : α → Descends β} (first : Ends reading before middle)
    (second : ∀ value after, before.Leads 0 after → middle value after → Ends (more value) after post) :
    Ends (reading >>= more) before post := by
  intro valid
  obtain ⟨result, after, runs, leads, holds⟩ := first valid
  cases result with
  | error error => exact ⟨.error error, after, run_error runs, leads, nofun⟩
  | ok value =>
    obtain ⟨result, last, further, onward, holds⟩ := second value after leads (holds value rfl) (leads.valid valid)
    exact ⟨result, last, (run_ok runs).trans further, leads.trans onward, holds⟩

theorem Ends.pure (holds : post value before) : Ends (pure value) before post := by
  intro valid
  refine ⟨.ok value, before, rfl, .refl valid, fun other same => ?_⟩
  cases same
  exact holds

theorem Ends.peek {more : Token → Descends α} (ends : Ends (more before.peek) before post) :
    Ends (Descends.peek >>= more) before post := ends

theorem Moves.weaken {reading : Descends α} (moves : Moves least reading before) (less : fewer ≤ least) :
    Moves fewer reading before := Ends.weaken moves fun _ _ leads => leads.weaken less

theorem Moves.then {reading : Descends α} {more : α → Descends β} (first : Moves least reading before)
    (second : ∀ value after, Moves 0 (more value) after) : Moves least (reading >>= more) before :=
  Ends.bind first fun value after _ leads => Ends.weaken (second value after) fun _ _ onward => leads.trans onward

theorem Moves.onward {reading : Descends α} {more : α → Descends β} (first : Moves least reading before)
    (second : ∀ value after, Moves 0 (more value) after) : Moves 0 (reading >>= more) before :=
  (first.then second).weaken (Nat.zero_le least)

theorem Moves.since {reading : Descends α} (moves : Moves 0 reading middle) (leads : before.Leads least middle) :
    Ends reading middle fun _ after => before.Leads least after :=
  Ends.weaken moves fun _ _ onward => leads.trans onward

theorem Moves.pure (value : α) : Moves 0 (Pure.pure value) before := fun valid => Ends.pure (.refl valid) valid

theorem Moves.peek {more : Token → Descends α} (moves : Moves least (more before.peek) before) :
    Moves least (Descends.peek >>= more) before := moves

theorem bump_moves (other : before.peek.kind ≠ .eof) : Moves 1 bump before := by
  intro valid
  refine ⟨.ok before.peek, before.next, rfl, (before.next_leads other).weaken (Nat.zero_le 1), fun _ _ => ?_⟩
  exact before.next_leads other

theorem unexpected_ends (expected : List Token.Kind) :
    Ends (unexpected expected : Descends α) before post := fun valid =>
  ⟨.error ⟨before.peek, .unexpected expected⟩, before, rfl, .refl valid, nofun⟩

theorem eat_run (kind : Token.Kind) : eat kind before =
    if before.peek.kind = kind then some (.ok (some before.peek), before.next) else some (.ok none, before) := by
  have split : eat kind before = (if before.peek.kind = kind then
    (do return some (← bump) : Descends (Option Token)) else return none) before := rfl
  rw [split]
  split <;> rfl

theorem eat_ends (other : kind ≠ .eof) : Ends (eat kind) before fun found after =>
    match found with
    | some token => before.Leads 1 after ∧ token.kind = kind
    | none => after = before ∧ before.peek.kind ≠ kind := by
  intro valid
  rw [eat_run]
  split
  · rename_i same
    have leads := before.next_leads (same ▸ other)
    refine ⟨_, _, rfl, leads.weaken (Nat.zero_le 1), fun found given => ?_⟩
    cases given
    exact ⟨leads, same⟩
  · rename_i differs
    refine ⟨_, _, rfl, .refl valid, fun found given => ?_⟩
    cases given
    exact ⟨rfl, differs⟩

theorem eat_moves (other : kind ≠ .eof) : Moves 0 (eat kind) before := fun valid =>
  Ends.weaken (eat_ends other) (by
    rintro (_ | token) after given
    · obtain ⟨rfl, _⟩ := given
      exact .refl valid
    · exact given.1.weaken (Nat.zero_le 1)) valid

theorem expectIn_moves (other : kind ≠ .eof) (expected : List Token.Kind) :
    Moves 1 (expectIn kind expected) before := by
  refine Ends.bind (eat_ends other) ?_
  rintro (_ | token) after _ given
  · exact unexpected_ends expected
  · exact Ends.pure given.1

theorem expect_moves (kind : Token.Kind) (other : kind ≠ .eof) : Moves 1 (expect kind) before :=
  expectIn_moves other [kind]

theorem nested_full (body : Descends α) (full : maxNesting ≤ before.depth) :
    nested body before = some (.error ⟨before.peek, .tooDeep⟩, before) := if_pos full

theorem nested_open {body : Descends α} (room : before.depth < maxNesting)
    (runs : body { before with depth := before.depth + 1 } = some (result, after))
    (deeper : after.depth = before.depth + 1) :
    nested body before = some (result, { after with depth := before.depth }) := by
  have inner : before.deeper = some { before with depth := before.depth + 1 } := if_pos room
  have outer : after.shallower = some { after with depth := before.depth } := by
    rw [Descent.shallower, deeper]
    exact if_pos (Nat.succ_pos before.depth)
  rw [nested, if_neg (Nat.not_le_of_lt room), inner]
  simp only [bind, Option.bind_some, runs, outer]
  rfl

theorem nested_moves {body : Descends α} (moves : Moves least body { before with depth := before.depth + 1 }) :
    Moves least (nested body) before := by
  intro valid
  rcases Nat.lt_or_ge before.depth maxNesting with room | full
  · obtain ⟨result, after, runs, leads, holds⟩ := moves ⟨valid.within, room⟩
    refine ⟨_, _, nested_open room runs leads.depth, ⟨leads.tokens, rfl, leads.ahead, leads.within⟩, ?_⟩
    intro value same
    have further := holds value same
    exact ⟨further.tokens, rfl, further.ahead, further.within⟩
  · exact ⟨_, _, nested_full body full, .refl valid, nofun⟩

def Turn.Meets (again : β → Prop) (leave : α → Prop) : Turn β α → Prop
  | .again gathered => again gathered
  | .leave value => leave value

theorem loopFor_ends {turn : β → Descends (Turn β α)} (kept : β → Descent → Prop)
    (each : ∀ gathered middle, before.Leads 0 middle → kept gathered middle →
      Ends (turn gathered) middle fun taken after => taken.Meets
        (fun more => middle.Leads 1 after ∧ kept more after) fun value => post value after)
    (start : kept gathered before) (enough : before.left < turns) :
    Ends (loopFor turn turns gathered) before post := by
  induction turns generalizing before gathered with
  | zero => exact absurd enough (Nat.not_lt_zero _)
  | succ turns ih =>
    intro valid
    refine Ends.bind (each gathered before (.refl valid) start) ?_ valid
    rintro (more | value) after onward given
    · obtain ⟨leads, again⟩ := given
      -- A turn that goes on has taken a token, so the turns that are left are enough.
      have fewer : after.left < turns := Nat.lt_of_lt_of_le leads.shrinks (Nat.le_of_lt_succ enough)
      exact ih (fun gathered middle further => each gathered middle (onward.trans further)) again fewer
    · exact Ends.pure given

def Turns (least : Nat) (reading : Descends (Turn β α)) (before : Descent) : Prop :=
  Ends reading before fun taken after => taken.Meets (fun _ => before.Leads 1 after) fun _ => before.Leads least after

theorem Turns.moves {reading : Descends (Turn β α)} (turns : Turns least reading before) :
    Moves 0 reading before := by
  intro valid
  obtain ⟨result, after, runs, leads, _⟩ := turns valid
  exact ⟨result, after, runs, leads, fun _ _ => leads⟩

theorem loopFor_moves {turn : β → Descends (Turn β α)}
    (each : ∀ gathered middle, before.Leads 0 middle → Turns least (turn gathered) middle) (gathered : β)
    (enough : before.left < turns) : Moves least (loopFor turn turns gathered) before := by
  refine loopFor_ends (fun _ _ => True) (fun gathered middle onward _ => ?_) trivial enough
  refine Ends.weaken (each gathered middle onward) ?_
  rintro (more | value) after leads
  · exact ⟨leads, trivial⟩
  · exact (onward.trans leads).weaken (Nat.le_add_left least 0)

theorem loop_moves {turn : β → Descends (Turn β α)}
    (each : ∀ gathered middle, before.Leads 0 middle → Turns least (turn gathered) middle) (gathered : β) :
    Moves least (loop turn gathered) before := loopFor_moves each gathered (Nat.lt_succ_self _)

end Rules

section Constructs

variable {before : Descent}

theorem nameTurn_moves (name : Name) : Turns 0 (nameTurn name) before := by
  refine Ends.bind (eat_ends (by decide)) ?_
  rintro (_ | dot) after onward given
  · exact Ends.pure onward
  · exact Ends.bind (expect_moves .ident (by decide)) fun _ _ further _ => Ends.pure (given.1.trans further)

theorem name_moves : Moves 1 name before :=
  (expect_moves .ident (by decide)).then fun _ _ => loop_moves (fun _ _ _ => nameTurn_moves _) _

theorem type_moves : Moves 1 type before := by
  refine Moves.peek ?_
  split
  · rename_i scalar kind
    have other : before.peek.kind ≠ .eof := by
      intro ended
      rw [ended] at kind
      cases kind
    exact (bump_moves other).then fun _ _ => .pure _
  · exact name_moves.then fun _ _ => .pure _

theorem number_moves : Moves 1 number before := (expect_moves .number (by decide)).then fun _ _ => .pure _

theorem size_moves : Moves 1 size before := by
  refine Moves.peek ?_
  split
  · exact number_moves.then fun _ _ => .pure _
  · rename_i power
    have other : before.peek.kind ≠ .eof := by simp [power]
    exact (bump_moves other).then fun _ _ => .pure _
  · exact name_moves.then fun _ _ => .pure _
  · exact unexpected_ends _

theorem bounds_moves : Moves 0 bounds before := by
  refine (eat_moves (by decide)).then ?_
  rintro (_ | left) after
  · refine (eat_moves (by decide)).then ?_
    rintro (_ | left) after
    · exact .pure _
    · refine size_moves.onward fun _ _ => ?_
      refine (expect_moves .dots (by decide)).onward fun _ _ => ?_
      refine size_moves.onward fun _ _ => ?_
      exact (expect_moves .greater (by decide)).onward fun _ _ => .pure _
  · refine size_moves.onward fun _ _ => ?_
    exact (expect_moves .rBracket (by decide)).onward fun _ _ => .pure _

theorem lineEnd_moves (bounds : Option Bounds) : Moves 1 (lineEnd bounds) before := by
  cases bounds with
  | none => exact expectIn_moves (by decide) _
  | some bounds => exact expect_moves .semi (by decide)

theorem field_moves : Moves 1 field before := by
  refine type_moves.then fun _ _ => ?_
  refine (expect_moves .ident (by decide)).onward fun _ _ => ?_
  refine bounds_moves.then fun _ _ => ?_
  exact (lineEnd_moves _).onward fun _ _ => .pure _

theorem external_moves : Moves 1 external before := by
  refine (expect_moves .externWord (by decide)).then fun _ _ => ?_
  refine (expect_moves .ident (by decide)).onward fun _ _ => ?_
  exact (expect_moves .semi (by decide)).onward fun _ _ => .pure _

theorem paren_moves : Moves 1 paren before := by
  refine (expect_moves .lParen (by decide)).then fun _ _ => ?_
  refine number_moves.onward fun _ _ => ?_
  exact (expect_moves .rParen (by decide)).onward fun _ _ => .pure _

theorem entry_moves (withValues : Bool) (name : Token) : Moves 0 (entry withValues name) before := by
  cases withValues with
  | false => exact .pure _
  | true => exact paren_moves.onward fun _ _ => .pure _

theorem entriesTurn_moves (withValues : Bool) (entries : List EnumEntry) :
    Turns 0 (entriesTurn withValues entries) before := by
  refine Ends.bind (eat_ends (by decide)) ?_
  rintro (_ | comma) after onward given
  · exact Ends.bind (expectIn_moves (by decide) _) fun _ _ further _ => Ends.pure (onward.trans further)
  · refine Ends.peek ?_
    split
    · refine Ends.bind paren_moves fun _ _ further _ => ?_
      refine Ends.bind (expect_moves .rBrace (by decide)) fun _ _ more _ => Ends.pure ?_
      exact (given.1.trans (further.trans more)).weaken (Nat.zero_le _)
    · refine Ends.bind (expectIn_moves (by decide) _) fun _ _ further _ => ?_
      refine Ends.bind (entry_moves withValues _) fun _ _ more _ => Ends.pure ?_
      exact given.1.trans (further.trans more)

theorem enum_moves : Moves 1 enum before := by
  refine (expect_moves .enumWord (by decide)).then fun _ _ => ?_
  refine (expect_moves .lBrace (by decide)).onward fun _ _ => ?_
  refine (expect_moves .ident (by decide)).onward fun _ _ => ?_
  refine Moves.peek ?_
  refine (entry_moves _ _).then fun _ _ => ?_
  refine (loop_moves (fun _ _ _ => entriesTurn_moves _ _) _).then fun _ _ => ?_
  refine (expect_moves .ident (by decide)).onward fun _ _ => ?_
  exact (expect_moves .semi (by decide)).onward fun _ _ => .pure _

theorem item_moves : Moves 1 item before := by
  refine type_moves.then fun _ _ => ?_
  refine (eat_moves (by decide)).then ?_
  rintro (_ | name) after
  · exact (expectIn_moves (by decide) _).onward fun _ _ => .pure _
  · refine bounds_moves.then fun _ _ => ?_
    exact (lineEnd_moves _).onward fun _ _ => .pure _

theorem labelsTurn_moves (labels : List Label) : Turns 1 (labelsTurn labels) before := by
  refine Ends.bind (expect_moves .caseWord (by decide)) fun _ _ _ first => ?_
  refine Ends.bind (expect_moves .ident (by decide)) fun _ _ further _ => ?_
  refine Ends.bind (expect_moves .colon (by decide)) fun _ _ more _ => ?_
  refine Ends.peek ?_
  split
  · exact Ends.pure (first.trans (further.trans more))
  · exact Ends.pure (first.trans (further.trans more))

theorem clause_moves (other : before.peek.kind ≠ .eof) : Moves 1 clause before := by
  refine (bump_moves other).then fun _ _ => ?_
  refine name_moves.onward fun _ _ => ?_
  refine (expect_moves .semi (by decide)).onward fun _ _ => ?_
  refine Moves.peek ?_
  split
  · exact item_moves.onward fun _ _ => .pure _
  · exact .pure _

theorem body_moves : Moves 1 body before := by
  refine Moves.peek ?_
  split
  · rename_i ends
    have other : before.peek.kind ≠ .eof := by simp [ends]
    exact (bump_moves other).then fun _ _ => .pure _
  · rename_i signs
    exact clause_moves (by simp [signs])
  · exact item_moves.then fun _ _ => .pure _
  · exact item_moves.then fun _ _ => .pure _
  · exact unexpected_ends _

theorem arm_moves : Moves 1 arm before := by
  refine (loop_moves (fun _ _ _ => labelsTurn_moves _) _).then fun _ _ => ?_
  exact body_moves.onward fun _ _ => .pure _

theorem armsTurn_moves (arms : List Arm) : Turns 1 (armsTurn arms) before := by
  refine Ends.bind arm_moves fun _ _ _ leads => ?_
  refine Ends.peek ?_
  split
  · exact Ends.pure leads
  · exact Ends.pure leads
  · exact unexpected_ends _

theorem selectEnd_moves (name : Option Token) : Moves 1 (selectEnd name) before := by
  cases name with
  | none => exact expectIn_moves (by decide) _
  | some name => exact expect_moves .semi (by decide)

theorem selectBody_moves : Moves 1 selectBody before := by
  refine (expect_moves .selectWord (by decide)).then fun _ _ => ?_
  refine (expect_moves .lParen (by decide)).onward fun _ _ => ?_
  refine name_moves.onward fun _ _ => ?_
  refine (expect_moves .rParen (by decide)).onward fun _ _ => ?_
  refine (expect_moves .lBrace (by decide)).onward fun _ _ => ?_
  refine (loop_moves (fun _ _ _ => armsTurn_moves _) _).onward fun _ _ => ?_
  refine (expect_moves .rBrace (by decide)).onward fun _ _ => ?_
  refine (eat_moves (by decide)).then fun _ _ => ?_
  exact (selectEnd_moves _).onward fun _ _ => .pure _

theorem select_moves : Moves 1 select before := nested_moves selectBody_moves

-- All the members of a struct stand at one depth.
section Members

variable {each : Descends Member}

theorem membersTurn_moves (moves : Moves 1 each before) (members : List Member) :
    Turns 0 (membersTurn each members) before := by
  refine Ends.peek ?_
  split
  · exact fun valid => Ends.pure (.refl valid) valid
  · exact Ends.bind moves fun _ _ _ leads => Ends.pure leads

theorem structBody_moves (moves : ∀ inner : Descent, inner.depth = before.depth → Moves 1 each inner) :
    Moves 1 (structBody each) before := by
  refine Ends.bind (expect_moves .structWord (by decide)) fun _ _ _ word => ?_
  refine Ends.bind (expect_moves .lBrace (by decide)) fun _ opened _ brace => ?_
  have entered := word.trans brace
  refine Moves.since (Moves.then (loop_moves (fun members middle onward => ?_) []) fun _ _ => ?_)
    (entered.weaken (by decide))
  · exact membersTurn_moves (moves middle (onward.depth.trans entered.depth)) members
  · refine (expect_moves .rBrace (by decide)).onward fun _ _ => ?_
    refine (expect_moves .ident (by decide)).onward fun _ _ => ?_
    exact (expect_moves .semi (by decide)).onward fun _ _ => .pure _

end Members

theorem memberWithin_moves (levels : Nat) (room : maxNesting < before.depth + levels) :
    Moves 1 (memberWithin levels) before := by
  induction levels generalizing before with
  | zero => exact fun valid => absurd valid.depth (Nat.not_le_of_lt room)
  | succ levels ih =>
    refine Moves.peek ?_
    split
    · refine nested_moves (structBody_moves fun inner deeper => ih ?_)
      -- The count of open bodies goes up by one where the levels go down by one.
      have count : inner.depth = before.depth + 1 := deeper
      omega
    · exact select_moves.then fun _ _ => .pure _
    · exact field_moves.then fun _ _ => .pure _
    · exact field_moves.then fun _ _ => .pure _
    · exact unexpected_ends _

theorem member_moves : Moves 1 member before :=
  memberWithin_moves _ (Nat.lt_add_left before.depth (Nat.lt_succ_self _))

theorem struct_moves : Moves 1 struct before := nested_moves (structBody_moves fun _ _ => member_moves)

theorem decl_moves : Moves 1 decl before := by
  refine Moves.peek ?_
  split
  · exact external_moves
  · exact enum_moves.then fun _ _ => .pure _
  · exact struct_moves.then fun _ _ => .pure _
  · exact select_moves.then fun _ _ => .pure _
  · exact field_moves.then fun _ _ => .pure _
  · exact field_moves.then fun _ _ => .pure _
  · exact unexpected_ends _

theorem declsTurn_ok (runs : decl before = some (.ok one, after)) : declsTurn decls before = some
    (.ok (if after.peek.kind = .eof then .leave ⟨decls ++ [one], none⟩ else .again (decls ++ [one])), after) := by
  simp only [declsTurn, runs, bind, Option.bind_some]
  split <;> rfl

theorem declsTurn_error (runs : decl before = some (.error error, after)) :
    declsTurn decls before = some (.ok (.leave ⟨decls, some error⟩), after) := by
  simp only [declsTurn, runs, bind, Option.bind_some]
  rfl

theorem declsTurn_ends (decls : List Decl) : Ends (declsTurn decls) before fun taken after => taken.Meets
    (fun more => before.Leads 1 after ∧ more.length = decls.length + 1)
    fun parsed => before.Leads 0 after ∧ parsed.decls.length + before.pos ≤ decls.length + after.pos := by
  intro valid
  obtain ⟨result, after, runs, leads, moves⟩ := decl_moves valid
  cases result with
  | error error =>
    refine ⟨_, after, declsTurn_error runs, leads, ?_⟩
    rintro _ ⟨⟩
    exact ⟨leads, Nat.add_le_add_left leads.ahead _⟩
  | ok one =>
    have further := moves one rfl
    have longer : (decls ++ [one]).length = decls.length + 1 := List.length_append
    refine ⟨_, after, declsTurn_ok runs, leads, ?_⟩
    by_cases ended : after.peek.kind = .eof
    · rw [if_pos ended]
      rintro _ ⟨⟩
      have ahead := further.ahead
      exact ⟨leads, by rw [longer]; omega⟩
    · rw [if_neg ended]
      rintro _ ⟨⟩
      exact ⟨further, longer⟩

theorem declsTurn_moves (decls : List Decl) : Turns 0 (declsTurn decls) before := by
  refine Ends.weaken (declsTurn_ends decls) ?_
  rintro (more | parsed) after given
  · exact given.1
  · exact given.1

theorem decls_ends : Ends (loop declsTurn []) before fun parsed after =>
    parsed.decls.length + before.pos ≤ after.pos := by
  refine loopFor_ends (fun decls (middle : Descent) => decls.length + before.pos ≤ middle.pos) ?_
    (Nat.zero_add before.pos).le (Nat.lt_succ_self _)
  intro decls middle _ fits
  refine Ends.weaken (declsTurn_ends decls) ?_
  rintro (more | parsed) after ⟨leads, count⟩
  · have ahead := leads.ahead
    exact ⟨leads, by omega⟩
  · show parsed.decls.length + before.pos ≤ after.pos
    omega

end Constructs

end Descends

end WireFormat
