import WireFormat.Proofs.Lockstep

namespace WireFormat

-- Selects, structs and whole schemas: reading by descent comes to what the reader comes to
-- that is fed the same tokens.

open Descent (Leads)

namespace Descends

variable {before : Descent} {reader base : Reader}

section Select

variable {selector : Name} {opening : Token} {arms : List Arm} {labels : List Label}

theorem arm_then (arm next : ArmReading) (only : arm.expected = [kind]) (plain : kind ≠ .eof)
    (takes : before.peek.kind = kind → arm.advance before.peek = some next)
    (refused : before.peek.kind ≠ kind → arm.advance before.peek = none) (unfinished : arm.arm? before.peek = none)
    {more : Token → Descends α} (follows : ∀ after, before.peek.kind = kind →
      Follows base.decls.toList (more before.peek) after (inArm base selector opening arms next) post) :
    Follows base.decls.toList (expect kind >>= more) before (inArm base selector opening arms arm) post := by
  refine expectIn_then plain (fun same => arm_goes (takes same)) (fun other => ?_)
    fun after same _ => follows after same
  exact only ▸ arm_refuses (refused other) unfinished

structure Opens (base : Reader) (selector : Name) (opening : Token) (arms : List Arm) (labels : List Label)
    (token : Token) (reader : Reader) : Prop where
  takes : token.kind = .caseWord →
    reader.advance token = some (inArm base selector opening arms (.cased labels.toArray))
  refuses : token.kind ≠ .caseWord →
    reader.Refuses token ⟨base.decls.toList, some ⟨token, .unexpected [.caseWord]⟩⟩

theorem labelsTurn_follows (begins : Opens base selector opening arms labels before.peek reader) :
    Follows base.decls.toList (labelsTurn labels) before reader fun taken after last => taken.Meets
      (fun labels => Opens base selector opening arms labels after.peek last)
      fun labels => last = inArm base selector opening arms (.coloned labels.toArray) ∧ after.peek.kind ≠ .caseWord := by
  refine expectIn_then (by decide) begins.takes begins.refuses fun middle _ _ => ?_
  refine arm_then (.cased labels.toArray) (.labelled labels.toArray middle.peek) rfl (by decide)
    (fun same => if_pos same) (fun other => if_neg other) rfl fun next _ => ?_
  refine arm_then (.labelled labels.toArray middle.peek)
    (.coloned (labels.toArray.push ⟨middle.peek, next.peek⟩)) rfl (by decide) (fun same => if_pos same)
    (fun other => if_neg other) rfl fun last _ => ?_
  have longer : labels.toArray.push ⟨middle.peek, next.peek⟩ =
      (labels ++ [(⟨middle.peek, next.peek⟩ : Label)]).toArray := List.push_toArray labels _
  rw [longer]
  refine Follows.peek ?_
  split
  · rename_i again
    refine .pure ⟨fun _ => arm_goes ?_, absurd again⟩
    simp [ArmReading.advance, again]
  · rename_i other
    exact .pure ⟨rfl, other⟩

-- An arm whose items are all there. What comes next is part of it, because a clause may
-- still be followed by an item.
structure Whole (labels : List Label) (items : List Item) (token : Token) (arm : ArmReading) : Prop where
  ends : ∀ follow, arm.arm? follow = some ⟨labels, items, follow⟩
  offers : arm.expected = [.caseWord, .rBrace]
  refuses : arm.advance token = none

def ArmRead (base : Reader) (selector : Name) (opening : Token) (arms : List Arm) (labels : List Label)
    (items : List Item) (after : Descent) (last : Reader) : Prop :=
  ∃ arm, last = inArm base selector opening arms arm ∧ Whole labels items after.peek arm

theorem whole_complete (labels : List Label) (items : List Item) (token : Token) :
    Whole labels items token (.complete labels.toArray items) := ⟨fun _ => rfl, rfl, rfl⟩

theorem coloned_semi (labels : List Label) (ends : token.kind = .semi) :
    (ArmReading.coloned labels.toArray).advance token = some (.complete labels.toArray []) := by
  simp [ArmReading.advance, ends]

theorem signature_start (labels : List Label) (signature : Item) (ident : token.kind = .ident) (line : LineReading)
    (starts : LineReading.start? token = some line) :
    (ArmReading.clause labels.toArray signature).advance token = some (.item labels.toArray [signature] line) := by
  simp_all [ArmReading.advance, LineReading.start?]

theorem clause_follows (signs : before.peek.kind = .signedWord) :
    Follows base.decls.toList clause before (inArm base selector opening arms (.coloned labels.toArray))
      (ArmRead base selector opening arms labels) := by
  have signing : (ArmReading.coloned labels.toArray).advance before.peek = some (.signing labels.toArray) := by
    simp [ArmReading.advance, signs]
  refine bump_then (by simp [signs]) (arm_goes signing) fun middle _ => ?_
  refine (name_follows (fun name => inArm base selector opening arms (.signed labels.toArray name))
    (fun name => inArm base selector opening arms (.signedDotted labels.toArray name)) (fun same => arm_goes ?_)
    (fun other => arm_refuses ?_ rfl) (fun name token joint => arm_goes ?_)
    (fun name token same => arm_goes (if_pos same))
    fun name token other => arm_refuses (if_neg other) rfl).bind name_moves ?_
  · exact if_pos same
  · exact if_neg other
  · simp [ArmReading.advance, joint]
  rintro name ends _ _ ⟨rfl, plain⟩
  refine arm_then (.signed labels.toArray name)
    (.clause labels.toArray ⟨true, .named name, none, none, ends.peek⟩) rfl (by decide) (fun same => ?_)
    (fun other => ?_) rfl fun last _ => ?_
  · simp [ArmReading.advance, same]
  · simp [ArmReading.advance]
  refine Follows.peek ?_
  split
  · rename_i ident
    have starts := signature_start labels ⟨true, .named name, none, none, ends.peek⟩ ident
    refine (item_follows (fun line begins => arm_goes (starts line begins)) (.inl ident)).map item_moves ?_
    exact fun item after last same => ⟨_, same, whole_complete labels _ _⟩
  · rename_i other
    exact .pure ⟨_, rfl, fun _ => rfl, rfl, if_neg other⟩

theorem body_follows (other : before.peek.kind ≠ .caseWord) :
    Follows base.decls.toList body before (inArm base selector opening arms (.coloned labels.toArray))
      (ArmRead base selector opening arms labels) := by
  have one (starts : LineStart before.peek) : Follows base.decls.toList (do return [← item]) before
      (inArm base selector opening arms (.coloned labels.toArray)) (ArmRead base selector opening arms labels) := by
    refine (item_follows (fun line begins => arm_goes (coloned_start labels.toArray begins)) starts).map item_moves ?_
    exact fun item after last same => ⟨_, same, whole_complete labels _ _⟩
  refine Follows.peek ?_
  split
  · rename_i ends
    refine bump_then (by simp [ends]) (arm_goes (coloned_semi labels ends)) fun _ _ => ?_
    exact .pure ⟨_, rfl, whole_complete labels [] _⟩
  · exact clause_follows ‹_›
  · exact one (.inl ‹_›)
  · exact one (.inr ⟨_, ‹_›⟩)
  · refine unexpected_follows (arm_refuses ?_ rfl)
    simp_all [ArmReading.advance, LineReading.start?]

theorem arm_follows (begins : Opens base selector opening arms [] before.peek reader) :
    Follows base.decls.toList arm before reader fun one after last =>
      one.follow = after.peek ∧ ArmRead base selector opening arms one.labels one.items after last := by
  refine (loop_follows (fun labels (middle : Descent) => Opens base selector opening arms labels middle.peek)
    (fun labels middle reader _ inside => ⟨(labelsTurn_moves labels).moves, labelsTurn_follows inside⟩) begins).bind
      (loop_moves (fun _ _ _ => labelsTurn_moves _) _) ?_
  rintro labels middle _ _ ⟨rfl, other⟩
  refine (body_follows other).bind body_moves ?_
  rintro items after last _ whole
  exact .pure ⟨rfl, whole⟩

theorem armsTurn_follows (begins : Opens base selector opening arms [] before.peek reader) :
    Follows base.decls.toList (armsTurn arms) before reader fun taken after last => taken.Meets
      (fun arms => Opens base selector opening arms [] after.peek last) fun arms => after.peek.kind = .rBrace ∧
        last.advance after.peek = some (base.moveTo (.select (.closed selector opening arms.toArray))) := by
  refine (arm_follows begins).bind arm_moves ?_
  rintro ⟨labels, items, _⟩ middle _ _ ⟨rfl, arm, rfl, whole⟩
  refine Follows.peek ?_
  split
  · rename_i again
    refine .pure ⟨fun _ => select_goes ?_, absurd again⟩
    simp [SelectReading.advance, whole.ends, again]
  · rename_i closes
    refine .pure ⟨closes, select_goes ?_⟩
    simp [SelectReading.advance, whole.ends, closes]
  · refine unexpected_follows (whole.offers ▸ select_refuses ?_ ?_)
    · simp_all [SelectReading.advance, whole.ends, whole.refuses]
    · simp [SelectReading.select?]

theorem select_then (choice next : SelectReading) (only : choice.expected = [kind]) (plain : kind ≠ .eof)
    (takes : before.peek.kind = kind → choice.advance before.peek = some next)
    (refused : before.peek.kind ≠ kind → choice.advance before.peek = none)
    (unfinished : ∀ close, choice.select? close = none)
    {more : Token → Descends α} (follows : ∀ after, before.peek.kind = kind →
      Follows base.decls.toList (more before.peek) after (base.moveTo (.select next)) post) :
    Follows base.decls.toList (expect kind >>= more) before (base.moveTo (.select choice)) post := by
  refine expectIn_then plain (fun same => select_goes (takes same)) (fun other => ?_)
    fun after same _ => follows after same
  exact only ▸ select_refuses (refused other) (unfinished before.peek)

theorem select_ends {choice : SelectReading} {decl : Select} (base : Reader) (done : choice.select? token = some decl) :
    (base.moveTo (.select choice)).advance token = some (base.add (.select decl)) := by
  rw [← Reader.add_moveTo base (.select choice)]
  simp [Reader.advance, Reader.moveTo, done]

theorem selectEnd_follows (selector : Name) (opening : Token) (arms : List Arm) : Follows base.decls.toList (do
    let name ← eat .ident
    let close ← selectEnd name
    return (⟨selector, opening, arms, name, close⟩ : Select)) before
      (base.moveTo (.select (.closed selector opening arms.toArray)))
      fun choice _ last => last = base.add (.select choice) := by
  refine eat_then (by decide) (fun same => select_goes (if_pos same)) (fun named _ _ => ?_) fun other => ?_
  · refine expectIn_then (by decide) (fun same => select_ends base ?_) (fun other => select_refuses rfl ?_)
      fun _ _ _ => .pure rfl
    · simp [SelectReading.select?, same]
    · simp [SelectReading.select?, other]
  · refine expectIn_then (by decide) (fun same => select_ends base ?_) (fun another => select_refuses (if_neg other) ?_)
      fun _ _ _ => .pure rfl
    · simp [SelectReading.select?, same]
    · simp [SelectReading.select?, another]

theorem selectBody_follows (word : before.peek.kind = .selectWord)
    (starts : reader.advance before.peek = some (base.moveTo (.select .wanted))) :
    Follows base.decls.toList selectBody before reader fun choice _ last => last = base.add (.select choice) := by
  refine expectIn_then (by decide) (fun _ => starts) (absurd word) fun _ _ _ => ?_
  refine select_then .wanted .opened rfl (by decide) (fun same => if_pos same) (fun other => if_neg other)
    (by simp [SelectReading.select?]) fun _ _ => ?_
  refine (name_follows (fun name => base.moveTo (.select (.choosing name)))
    (fun name => base.moveTo (.select (.choosingDotted name))) (fun same => select_goes ?_)
    (fun other => select_refuses ?_ ?_) (fun name token joint => select_goes ?_)
    (fun name token same => select_goes (if_pos same))
    fun name token other => select_refuses (if_neg other) ?_).bind name_moves ?_
  · exact if_pos same
  · exact if_neg other
  · simp [SelectReading.select?]
  · simp [SelectReading.advance, joint]
  · simp [SelectReading.select?]
  rintro selector closing _ _ ⟨rfl, plain⟩
  refine select_then (.choosing selector) (.selected selector) rfl (by decide) (fun same => ?_) (fun other => ?_)
    (by simp [SelectReading.select?]) fun braced _ => ?_
  · simp [SelectReading.advance, same]
  · simp [SelectReading.advance]
  refine select_then (.selected selector) (.braced selector braced.peek) rfl (by decide)
    (fun same => if_pos same) (fun other => if_neg other) (by simp [SelectReading.select?]) fun middle _ => ?_
  have begins : Opens base selector braced.peek [] [] middle.peek
      (base.moveTo (.select (.braced selector braced.peek))) :=
    ⟨fun same => select_goes (if_pos same), fun other => select_refuses (if_neg other) (by simp [SelectReading.select?])⟩
  refine (loop_follows (fun arms (middle : Descent) => Opens base selector braced.peek arms [] middle.peek)
    (fun arms middle reader _ inside => ⟨(armsTurn_moves arms).moves, armsTurn_follows inside⟩) begins).bind
      (loop_moves (fun _ _ _ => armsTurn_moves _) _) ?_
  rintro arms middle last _ ⟨closes, takes⟩
  refine expectIn_then (by decide) (fun _ => takes) (absurd closes) fun named _ _ => ?_
  exact selectEnd_follows selector braced.peek arms

end Select

theorem nested_follows {body : Descends α}
    (moves : Moves least body { before with depth := before.depth + 1 })
    (deep : maxNesting ≤ before.depth → reader.Refuses before.peek ⟨decls, some ⟨before.peek, .tooDeep⟩⟩)
    (follows : before.depth < maxNesting → Follows decls body { before with depth := before.depth + 1 } reader
      fun value after last => post value { after with depth := before.depth } last) :
    Follows decls (nested body) before reader post := by
  intro valid result after runs
  rcases Nat.lt_or_ge before.depth maxNesting with room | full
  · have inside : Descent.Valid { before with depth := before.depth + 1 } := ⟨valid.within, room⟩
    obtain ⟨found, between, runs_body, leads, _⟩ := moves inside
    obtain ⟨rfl, rfl⟩ := by simpa using (nested_open room runs_body leads.depth).symm.trans runs
    exact follows room inside found between runs_body
  · obtain ⟨rfl, rfl⟩ := by simpa using (nested_full body full).symm.trans runs
    exact ⟨[], reader, rfl, rfl, deep full⟩

-- Structs, and what else may stand in them or between them.
section Idle

variable {token : Token}

theorem deep_refuses (full : maxNesting ≤ reader.bodies.length)
    (word : token.kind = .structWord ∨ token.kind = .selectWord) :
    (reader.moveTo .idle).Refuses token ⟨reader.decls.toList, some ⟨token, .tooDeep⟩⟩ := by
  constructor
  · rcases word with word | word <;> simp [Reader.advance, Reader.moveTo, Reader.start, Reader.isFull, word, full]
  · rcases word with word | word <;>
      simp [Reader.parsed, Reader.moveTo, Reader.refusal, Reader.isIdle, Reader.isFull, word, full]

theorem word_starts (room : base.bodies.length < maxNesting)
    (word : token.kind = .structWord ∧ focus = .structWord ∨ token.kind = .selectWord ∧ focus = .select .wanted) :
    (base.moveTo .idle).advance token = some (base.moveTo focus) := by
  have open_bodies : (base.moveTo .idle).isFull = false := decide_eq_false (Nat.not_le_of_lt room)
  show (base.moveTo .idle).start token = _
  rcases word with ⟨word, rfl⟩ | ⟨word, rfl⟩
  · simp only [Reader.start, word, open_bodies]
    rfl
  · simp only [Reader.start, word, open_bodies]
    rfl

theorem select_follows (base : Reader) (word : before.peek.kind = .selectWord)
    (level : before.depth = base.bodies.length) :
    Follows base.decls.toList select before (base.moveTo .idle)
      fun choice _ last => last = base.add (.select choice) := by
  refine nested_follows selectBody_moves (fun full => deep_refuses (level ▸ full) (.inr word)) fun room => ?_
  refine selectBody_follows word ?_
  exact word_starts (level ▸ room) (.inr ⟨word, rfl⟩)

section Struct

variable {each : Descends Member}

def inBody (base : Reader) (members : List Member) : Reader := ⟨base.decls, members.toArray :: base.bodies, .idle⟩

theorem inBody_add (base : Reader) (members : List Member) (member : Member) :
    (inBody base members).add member = inBody base (members ++ [member]) := by
  simp [inBody, Reader.add]

theorem inBody_closed (base : Reader) (members : List Member) (closes : token.kind = .rBrace) :
    (inBody base members).advance token = some (base.moveTo (.structClosed members)) := by
  simp [Reader.advance, inBody, Reader.start, Reader.moveTo, closes]

theorem membersTurn_follows (moves : Moves 1 each before) (members : List Member)
    (follows : before.peek.kind ≠ .rBrace → Follows base.decls.toList each before (inBody base members)
      fun member _ last => last = (inBody base members).add member) :
    Follows base.decls.toList (membersTurn each members) before (inBody base members) fun taken after last =>
      taken.Meets (fun members => last = inBody base members) fun members =>
        last = inBody base members ∧ after.peek.kind = .rBrace := by
  refine Follows.peek ?_
  split
  · rename_i closes
    exact .pure ⟨rfl, closes⟩
  · rename_i other
    refine (follows other).bind moves ?_
    rintro one after _ _ rfl
    exact .pure (inBody_add base members one)

def EachFollows (base : Reader) (each : Descends Member) (inner : Descent) : Prop :=
  ∀ members, inner.peek.kind ≠ .rBrace → Follows base.decls.toList each inner (inBody base members)
    fun member _ last => last = (inBody base members).add member

theorem structBody_follows (word : before.peek.kind = .structWord)
    (starts : reader.advance before.peek = some (base.moveTo .structWord))
    (moves : ∀ inner : Descent, inner.depth = before.depth → Moves 1 each inner)
    (follows : ∀ inner : Descent, inner.depth = before.depth → EachFollows base each inner) :
    Follows base.decls.toList (structBody each) before reader fun member _ last => last = base.add member := by
  refine expectIn_then (by decide) (fun _ => starts) (absurd word) fun middle _ leads => ?_
  refine expectIn_then (by decide) (fun opens => if_pos opens) (fun other => busy_refuses (if_neg other) rfl)
    fun inside _ onward => ?_
  have entered := leads.trans onward
  have turns (members : List Member) (between : Descent) (further : inside.Leads 0 between) :
      Turns 0 (membersTurn each members) between :=
    membersTurn_moves (moves between (further.depth.trans entered.depth)) members
  have each_turn (members : List Member) (between : Descent) (further : inside.Leads 0 between) :=
    membersTurn_follows (moves between (further.depth.trans entered.depth)) members
      (follows between (further.depth.trans entered.depth) members)
  have read := loop_follows (fun members _ last => last = inBody base members) (fun members between _ further same =>
    ⟨(turns members between further).moves, same ▸ each_turn members between further⟩) (rfl : inBody base [] = _)
  refine read.bind (loop_moves turns []) ?_
  rintro members ends _ _ ⟨rfl, closes⟩
  refine expectIn_then (by decide) (fun _ => inBody_closed base members closes) (absurd closes) fun named _ _ => ?_
  refine expectIn_then (by decide) (fun ident => if_pos ident) (fun other => busy_refuses (if_neg other) rfl)
    fun last _ _ => ?_
  refine expectIn_then (by decide) (fun semi => if_pos semi) (fun other => busy_refuses (if_neg other) rfl)
    fun _ _ _ => .pure ?_
  exact Reader.add_moveTo base _ _

theorem nestedStruct_follows (base : Reader) (word : before.peek.kind = .structWord)
    (level : before.depth = base.bodies.length)
    (moves : ∀ inner : Descent, inner.depth = before.depth + 1 → Moves 1 each inner)
    (follows : ∀ inner : Descent, inner.depth = before.depth + 1 → EachFollows base each inner) :
    Follows base.decls.toList (nested (structBody each)) before (base.moveTo .idle)
      fun member _ last => last = base.add member :=
  nested_follows (structBody_moves moves) (fun full => deep_refuses (level ▸ full) (.inl word)) fun room =>
    structBody_follows word (word_starts (level ▸ room) (.inl ⟨word, rfl⟩)) moves follows

end Struct

theorem idle_refuses (reader : Reader) (refused : (reader.moveTo .idle).advance token = none)
    (plain : token.kind ≠ .structWord ∧ token.kind ≠ .selectWord)
    (early : token.kind = .eof → reader.bodies ≠ [] ∨ reader.decls = #[]) :
    (reader.moveTo .idle).Refuses token
      ⟨reader.decls.toList, some ⟨token, .unexpected (reader.moveTo .idle).expected⟩⟩ := by
  refine ⟨refused, ?_⟩
  have open_end : (token.kind = .eof && (reader.moveTo .idle).mayEnd) = false := by
    by_cases ended : token.kind = .eof
    · rcases early ended with bodies | decls
      · simp [Reader.mayEnd, Reader.moveTo, bodies]
      · simp [Reader.mayEnd, Reader.moveTo, decls]
    · simp [ended]
  rw [Reader.parsed, open_end, Reader.refusal]
  simp [plain, Reader.moveTo]

theorem memberWithin_follows (levels : Nat) (room : maxNesting < before.depth + levels)
    (level : before.depth = base.bodies.length + 1) : EachFollows base (memberWithin levels) before := by
  induction levels generalizing before base with
  | zero => exact fun _ _ _ _ _ runs => nomatch runs
  | succ levels ih =>
    intro members other
    -- The members of a struct stand one level below it, and one level less is left for them.
    have deeper (inner : Descent) (below : inner.depth = before.depth + 1) :
        maxNesting < inner.depth + levels := by omega
    refine Follows.peek ?_
    split
    · rename_i word
      exact nestedStruct_follows (inBody base members) word level
        (fun inner below => memberWithin_moves levels (deeper inner below))
        fun inner below => ih (deeper inner below) (below.trans (congrArg (· + 1) level))
    · rename_i word
      exact (select_follows (inBody base members) word level).map select_moves fun _ _ _ same => same
    · exact (field_follows (inBody base members) (.inl ‹_›)).map field_moves fun _ _ _ same => same
    · exact (field_follows (inBody base members) (.inr ⟨_, ‹_›⟩)).map field_moves fun _ _ _ same => same
    · rename_i struct select ident scalar
      refine unexpected_follows (idle_refuses (inBody base members) ?_ ⟨struct, select⟩ fun _ => .inl nofun)
      simp_all [Reader.advance, Reader.moveTo, Reader.start, inBody, LineReading.start?]

theorem member_follows (level : before.depth = base.bodies.length + 1) : EachFollows base member before :=
  memberWithin_follows _ (Nat.lt_add_left before.depth (Nat.lt_succ_self _)) level

theorem external_follows (word : before.peek.kind = .externWord)
    (starts : reader.advance before.peek = some (base.moveTo .externWord)) :
    Follows base.decls.toList external before reader fun decl _ last => last = base.declare decl := by
  refine expectIn_then (by decide) (fun _ => starts) (absurd word) fun _ _ _ => ?_
  refine expectIn_then (by decide) (fun ident => if_pos ident) (fun other => busy_refuses (if_neg other) rfl)
    fun _ _ _ => ?_
  exact expectIn_then (by decide) (fun ends => if_pos ends) (fun other => busy_refuses (if_neg other) rfl)
    fun _ _ _ => .pure rfl

def atTop (decls : List Decl) : Reader := ⟨decls.toArray, [], .idle⟩

theorem atTop_declare (decls : List Decl) (one : Decl) : (atTop decls).declare one = atTop (decls ++ [one]) := by
  simp [atTop, Reader.declare]

theorem decl_follows (decls : List Decl) (level : before.depth = 0) (begun : before.peek.kind = .eof → decls = []) :
    Follows decls decl before (atTop decls) fun one _ last => last = atTop (decls ++ [one]) := by
  refine Follows.peek ?_
  split
  · rename_i word
    have starts : (atTop decls).advance before.peek = some ((atTop decls).moveTo .externWord) := by
      simp [Reader.advance, atTop, Reader.start, word, Reader.moveTo]
    exact (external_follows word starts).weaken fun one _ _ same => same.trans (atTop_declare decls one)
  · rename_i word
    have starts : (atTop decls).advance before.peek = some ((atTop decls).moveTo (.enum .wanted)) := by
      simp [Reader.advance, atTop, Reader.start, word, Reader.moveTo]
    exact (enum_follows word starts).map enum_moves fun _ _ _ same => same.trans (atTop_declare decls _)
  · rename_i word
    have read := nestedStruct_follows (atTop decls) word level (fun _ _ => member_moves) fun inner below =>
      member_follows (below.trans (congrArg (· + 1) level))
    exact read.map struct_moves fun _ _ _ same => same.trans (atTop_declare decls _)
  · rename_i word
    have read := select_follows (atTop decls) word level
    exact read.map select_moves fun _ _ _ same => same.trans (atTop_declare decls _)
  · have read := field_follows (atTop decls) (.inl ‹_›)
    exact read.map field_moves fun _ _ _ same => same.trans (atTop_declare decls _)
  · have read := field_follows (atTop decls) (.inr ⟨_, ‹_›⟩)
    exact read.map field_moves fun _ _ _ same => same.trans (atTop_declare decls _)
  · rename_i struct select _ _
    refine unexpected_follows (idle_refuses (atTop decls) ?_ ⟨struct, select⟩ fun ended => .inr ?_)
    · simp_all [Reader.advance, Reader.moveTo, Reader.start, atTop, LineReading.start?]
    · rw [begun ended]
      rfl

-- All declarations so far have been read, and where the input ends there are none.
def Gathered (decls : List Decl) (middle : Descent) (last : Reader) : Prop :=
  middle.depth = 0 ∧ (middle.peek.kind = .eof → decls = []) ∧ last = atTop decls

theorem ended_refuses (decls : List Decl) (one : Decl) (ended : token.kind = .eof) :
    (atTop (decls ++ [one])).Refuses token ⟨decls ++ [one], none⟩ :=
  ⟨Reader.advance_eof _ _ ended, by simp [Reader.parsed, Reader.mayEnd, atTop, Reader.isIdle, ended]⟩

theorem declsTurn_follows (decls : List Decl) (gathered : Gathered decls before reader) :
    Follows all (declsTurn decls) before reader fun taken after last => taken.Meets
      (fun decls => Gathered decls after last) fun parsed => last.Refuses after.peek parsed := by
  obtain ⟨level, begun, rfl⟩ := gathered
  intro valid result after runs
  obtain ⟨found, between, runs_decl, leads, _⟩ := decl_moves valid
  obtain ⟨taken, last, parts, takes, holds⟩ := decl_follows decls level begun valid found between runs_decl
  cases found with
  | error error =>
    obtain ⟨rfl, rfl⟩ := by simpa using (declsTurn_error runs_decl).symm.trans runs
    exact ⟨taken, last, parts, takes, holds⟩
  | ok one =>
    obtain ⟨rfl, rfl⟩ := by simpa using (declsTurn_ok runs_decl).symm.trans runs
    obtain rfl := holds
    refine ⟨taken, _, parts, takes, ?_⟩
    by_cases ended : between.peek.kind = .eof
    · rw [if_pos ended]
      exact ended_refuses decls one ended
    · rw [if_neg ended]
      exact ⟨leads.depth.trans level, fun another => absurd another ended, rfl⟩

end Idle

theorem declsTurn_plain (decls : List Decl) (before : Descent) :
    declsTurn decls before ≠ some (.error error, after) := by
  intro runs
  cases one : decl before with
  | none => simp [declsTurn, one, bind] at runs
  | some read =>
    obtain ⟨_ | _, _⟩ := read
    · simp [declsTurn_error one] at runs
    · simp [declsTurn_ok one] at runs

theorem loopFor_plain {turn : β → Descends (Turn β α)}
    (plain : ∀ gathered before error after, turn gathered before ≠ some (.error error, after)) :
    loopFor turn turns gathered before ≠ some (.error error, after) := by
  induction turns generalizing before gathered with
  | zero => exact nofun
  | succ turns ih =>
    intro runs
    rw [loopFor] at runs
    cases first : turn gathered before with
    | none => simp [bind, ExceptT.bind, ExceptT.mk, StateT.bind, first] at runs
    | some taken =>
      obtain ⟨error | more | value, middle⟩ := taken
      · exact plain _ _ _ _ first
      · exact ih ((run_ok first).symm.trans runs)
      · cases (run_ok first).symm.trans runs

theorem decls_follows (level : before.depth = 0) : Follows [] (loop declsTurn []) before .initial
    fun parsed after last => last.Refuses after.peek parsed :=
  loop_follows Gathered (fun decls _ _ _ gathered => ⟨(declsTurn_moves decls).moves, declsTurn_follows decls gathered⟩)
    ⟨level, fun _ => rfl, rfl⟩

end Descends

theorem Descent.rest_head (descent : Descent)
    (plain : descent.rest = [] → ∀ token ∈ descent.tokens, token.kind ≠ .eof) :
    descent.rest.headD (.endAt 1) = descent.peek := by
  cases left : descent.rest with
  | cons token more =>
    have here : descent.tokens[descent.pos]? = some token := by
      rw [← List.head?_drop, ← rest, left, List.head?_cons]
    rw [Cursor.peek, here, Option.getD_some, List.headD_cons]
  | nil =>
    have beyond : descent.tokens[descent.pos]? = none := by
      rw [← List.head?_drop, ← rest, left, List.head?_nil]
    have open_end : (descent.tokens.getLast?.filter fun token => token.kind = .eof) = none :=
      Option.filter_eq_none_iff.mpr fun token last => by simpa using plain left token (List.mem_of_getLast? last)
    rw [Cursor.peek, beyond, Option.getD_none, Cursor.atEnd, open_end, Option.getD_none, List.headD_nil]

theorem descend_parse (tokens : List Token) : descend tokens = some (.ok (parse tokens)) := by
  have valid : Descent.Valid ⟨⟨tokens, 0⟩, 0⟩ := ⟨Nat.zero_le _, Nat.zero_le _⟩
  obtain ⟨result, after, runs, leads, _⟩ := Descends.decls_ends valid
  obtain ⟨taken, last, parts, takes, holds⟩ := Descends.decls_follows rfl valid result after runs
  cases result with
  | error error =>
    exact absurd runs (Descends.loopFor_plain fun decls before _ _ => Descends.declsTurn_plain decls before)
  | ok parsed =>
    obtain ⟨refused, comes⟩ := holds
    have split : tokens = taken ++ after.rest := parts
    have next : after.rest.headD (.endAt 1) = after.peek := by
      refine after.rest_head fun none => ?_
      rw [none, List.append_nil] at split
      rw [leads.tokens, split]
      exact Reader.takes_plain takes
    have fed : Reader.initial.feed tokens = (last, after.rest) := by
      rw [split, taken_feed takes]
      cases left : after.rest with
      | nil => rfl
      | cons token more =>
        rw [left, List.headD_cons] at next
        rw [Reader.feed, next, refused]
    rw [descend, runs, parse_fed, fed, next, comes]
    rfl

end WireFormat
