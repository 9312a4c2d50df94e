import WireFormat.Proofs.Offered
import WireFormat.Proofs.Progress

namespace WireFormat

-- A reader that is fed the tokens that a descent passes goes along with it: it comes to
-- what the descent has read, and it refuses the token at which the descent fails, in the
-- same words.

def Descent.rest (descent : Descent) : List Token := descent.tokens.drop descent.pos

theorem Descent.rest_next (descent : Descent) (other : descent.peek.kind ≠ .eof) :
    descent.rest = descent.peek :: descent.next.rest := by
  have written := descent.peek_written other
  have moved : descent.bump = ⟨descent.tokens, descent.pos + 1⟩ := if_pos written
  have here : descent.peek = descent.tokens[descent.pos] := by
    rw [Cursor.peek, List.getElem?_eq_getElem written, Option.getD_some]
  rw [rest, List.drop_eq_getElem_cons written, ← here, rest, next, moved]

def Reader.Refuses (reader : Reader) (token : Token) (parsed : Parsed) : Prop :=
  reader.advance token = none ∧ reader.parsed token = parsed

open Descent (Leads)

namespace Descends

def Follows (decls : List Decl) (reading : Descends α) (before : Descent) (reader : Reader)
    (post : α → Descent → Reader → Prop) : Prop :=
  before.Valid → ∀ result after, reading before = some (result, after) →
    ∃ taken last, before.rest = taken ++ after.rest ∧ Takes Reader.advance reader taken last ∧
      match result with
      | .ok value => post value after last
      | .error error => last.Refuses after.peek ⟨decls, some error⟩

section Rules

variable {decls : List Decl} {before : Descent} {reader : Reader}

theorem Follows.weaken {reading : Descends α} (follows : Follows decls reading before reader post)
    (weaker : ∀ value after last, post value after last → other value after last) :
    Follows decls reading before reader other := by
  intro valid result after runs
  obtain ⟨taken, last, parts, takes, holds⟩ := follows valid result after runs
  refine ⟨taken, last, parts, takes, ?_⟩
  cases result with
  | ok value => exact weaker value after last holds
  | error error => exact holds

theorem Follows.bind {reading : Descends α} {more : α → Descends β}
    (first : Follows decls reading before reader middle)
    (moves : Moves least reading before)
    (second : ∀ value after next, before.Leads least after → middle value after next →
      Follows decls (more value) after next post) : Follows decls (reading >>= more) before reader post := by
  intro valid result after runs
  obtain ⟨found, between, runs_first, leads, moved⟩ := moves valid
  obtain ⟨taken, next, parts, takes, holds⟩ := first valid found between runs_first
  cases found with
  | error error =>
    rw [run_error runs_first] at runs
    cases runs
    exact ⟨taken, next, parts, takes, holds⟩
  | ok value =>
    rw [run_ok runs_first] at runs
    obtain ⟨others, last, further, onward, holds⟩ :=
      second value between next (moved value rfl) holds (leads.valid valid) result after runs
    exact ⟨taken ++ others, last, by rw [parts, further, List.append_assoc], takes.append onward, holds⟩

theorem Follows.pure (holds : post value before reader) : Follows decls (pure value) before reader post := by
  rintro _ _ _ ⟨⟩
  exact ⟨[], reader, rfl, rfl, holds⟩

theorem Follows.map {reading : Descends α} {make : α → β} (follows : Follows decls reading before reader middle)
    (moves : Moves least reading before)
    (made : ∀ value after last, middle value after last → post (make value) after last) :
    Follows decls (do return make (← reading)) before reader post :=
  follows.bind moves fun value after last _ holds => .pure (made value after last holds)

theorem Follows.peek {more : Token → Descends α} (follows : Follows decls (more before.peek) before reader post) :
    Follows decls (Descends.peek >>= more) before reader post := follows

theorem unexpected_follows
    (refuses : reader.Refuses before.peek ⟨decls, some ⟨before.peek, .unexpected expected⟩⟩) :
    Follows decls (unexpected expected : Descends α) before reader post := by
  rintro _ _ _ ⟨⟩
  exact ⟨[], reader, rfl, rfl, refuses⟩

theorem bump_then {more : Token → Descends α} (other : before.peek.kind ≠ .eof)
    (takes : reader.advance before.peek = some next)
    (follows : ∀ after, before.Leads 1 after → Follows decls (more before.peek) after next post) :
    Follows decls (bump >>= more) before reader post := by
  have first : Follows decls bump before reader fun token _ last => token = before.peek ∧ last = next := by
    rintro _ _ _ ⟨⟩
    exact ⟨[before.peek], next, before.rest_next other, .single takes, rfl, rfl⟩
  refine first.bind (bump_moves other) ?_
  rintro _ after _ leads ⟨rfl, rfl⟩
  exact follows after leads

theorem eat_then {more : Option Token → Descends α} (other : kind ≠ .eof)
    (takes : before.peek.kind = kind → reader.advance before.peek = some next)
    (found : ∀ after, before.peek.kind = kind → before.Leads 1 after →
      Follows decls (more (some before.peek)) after next post)
    (missing : before.peek.kind ≠ kind → Follows decls (more none) before reader post) :
    Follows decls (eat kind >>= more) before reader post := by
  by_cases same : before.peek.kind = kind
  · have plain : before.peek.kind ≠ .eof := same ▸ other
    intro valid result after runs
    rw [run_ok (show eat kind before = _ from (eat_run kind).trans (if_pos same))] at runs
    have leads := before.next_leads plain
    obtain ⟨taken, last, parts, onward, holds⟩ := found before.next same leads (leads.valid valid) result after runs
    exact ⟨before.peek :: taken, last, by rw [before.rest_next plain, parts, List.cons_append],
      .cons (takes same) onward, holds⟩
  · intro valid result after runs
    rw [run_ok (show eat kind before = _ from (eat_run kind).trans (if_neg same))] at runs
    exact missing same valid result after runs

theorem expectIn_then {more : Token → Descends α} (other : kind ≠ .eof)
    (takes : before.peek.kind = kind → reader.advance before.peek = some next)
    (refuses : before.peek.kind ≠ kind →
      reader.Refuses before.peek ⟨decls, some ⟨before.peek, .unexpected expected⟩⟩)
    (follows : ∀ after, before.peek.kind = kind → before.Leads 1 after →
      Follows decls (more before.peek) after next post) :
    Follows decls (expectIn kind expected >>= more) before reader post := by
  have first : Follows decls (expectIn kind expected) before reader fun token after last =>
      token = before.peek ∧ before.peek.kind = kind ∧ last = next :=
    eat_then other takes (fun _ same _ => .pure ⟨rfl, same, rfl⟩) fun differs => unexpected_follows (refuses differs)
  refine first.bind (expectIn_moves other expected) ?_
  rintro _ after _ leads ⟨rfl, same, rfl⟩
  exact follows after same leads

theorem loopFor_follows {turn : β → Descends (Turn β α)} (kept : β → Descent → Reader → Prop)
    (each : ∀ gathered middle reader, before.Leads 0 middle → kept gathered middle reader →
      Moves 0 (turn gathered) middle ∧ Follows decls (turn gathered) middle reader fun taken after last =>
        taken.Meets (fun more => kept more after last) fun value => post value after last)
    (start : kept gathered before reader) : Follows decls (loopFor turn turns gathered) before reader post := by
  induction turns generalizing before gathered reader with
  | zero => exact fun _ _ _ runs => nomatch runs
  | succ turns ih =>
    intro valid
    obtain ⟨moves, follows⟩ := each gathered before reader (.refl valid) start
    refine follows.bind moves ?_ valid
    rintro (more | value) after next leads holds
    · exact ih (fun gathered middle reader onward => each gathered middle reader (leads.trans onward)) holds
    · exact .pure holds

theorem loop_follows {turn : β → Descends (Turn β α)} (kept : β → Descent → Reader → Prop)
    (each : ∀ gathered middle reader, before.Leads 0 middle → kept gathered middle reader →
      Moves 0 (turn gathered) middle ∧ Follows decls (turn gathered) middle reader fun taken after last =>
        taken.Meets (fun more => kept more after last) fun value => post value after last)
    (start : kept gathered before reader) : Follows decls (loop turn gathered) before reader post :=
  loopFor_follows kept each start

end Rules

section Lines

variable {decls : List Decl} {before : Descent} {reader : Reader}

theorem name_follows (plain dotted : Name → Reader)
    (starts : before.peek.kind = .ident → reader.advance before.peek = some (plain (.simple before.peek)))
    (wanted : before.peek.kind ≠ .ident →
      reader.Refuses before.peek ⟨decls, some ⟨before.peek, .unexpected [.ident]⟩⟩)
    (joins : ∀ name token, token.kind = .dot → (plain name).advance token = some (dotted name))
    (grows : ∀ name token, token.kind = .ident →
      (dotted name).advance token = some (plain (name.extend token.text)))
    (stops : ∀ name token, token.kind ≠ .ident →
      (dotted name).Refuses token ⟨decls, some ⟨token, .unexpected [.ident]⟩⟩) :
    Follows decls name before reader fun name after last => last = plain name ∧ after.peek.kind ≠ .dot := by
  refine expectIn_then (by decide) starts wanted fun _ _ _ => ?_
  refine loop_follows (fun name _ reader => reader = plain name) ?_ rfl
  rintro name middle _ _ rfl
  refine ⟨(nameTurn_moves name).moves, ?_⟩
  refine eat_then (by decide) (joins name _) (fun after _ _ => ?_) fun ends => .pure ⟨rfl, ends⟩
  exact expectIn_then (by decide) (grows name _) (stops name _) fun _ _ _ => .pure rfl

-- A construct that a line stands in, and what may come after the type of a line there.
structure Hosts (decls : List Decl) (host : LineReading → Reader) (afterType : List Token.Kind) : Prop where
  goes : ∀ line token next, line.advance token = some next → (host line).advance token = some (host next)
  stops : ∀ line token, line.advance token = none → line.item? token = none →
    (host line).Refuses token ⟨decls, some ⟨token, .unexpected (line.expected afterType)⟩⟩

variable {host : LineReading → Reader} {afterType : List Token.Kind}

theorem type_follows (hosts : Hosts decls host afterType)
    (starts : ∀ line, LineReading.start? before.peek = some line → reader.advance before.peek = some (host line))
    (wanted : before.peek.kind = .ident ∨ ∃ type, before.peek.kind = .scalar type) :
    Follows decls type before reader fun type after last => last = host (.typed type) ∧
      (after.peek.kind ≠ .ident → (LineReading.typed type).advance after.peek = none) := by
  refine Follows.peek ?_
  rcases wanted with ident | ⟨type, scalar⟩
  · rw [ident]
    refine Follows.bind (name_follows (fun name => host (.typed (.named name))) (fun name => host (.typeDotted name))
      (fun _ => starts _ (by simp [LineReading.start?, ident])) (absurd ident) (fun name token joint => ?_)
      (fun name token grows => ?_) fun name token other => ?_) name_moves ?_
    · exact hosts.goes _ token _ (by simp [LineReading.advance, joint])
    · exact hosts.goes _ token _ (by simp [LineReading.advance, grows])
    · exact hosts.stops (.typeDotted name) token (if_neg other) (by simp [LineReading.item?])
    · rintro name after _ _ ⟨rfl, ends⟩
      refine .pure ⟨rfl, fun other => ?_⟩
      simp only [LineReading.advance]
      split
      · exact absurd ‹_› ends
      · exact absurd ‹_› other
      · rfl
  · rw [scalar]
    have other : before.peek.kind ≠ .eof := by simp [scalar]
    have begins : LineReading.start? before.peek = some (.typed (.scalar type)) := by
      simp [LineReading.start?, scalar]
    refine bump_then other (starts _ begins) fun after _ => .pure ⟨rfl, fun other => ?_⟩
    simp [LineReading.advance]

theorem number_follows (read : Number → Reader)
    (takes : before.peek.kind = .number → reader.advance before.peek = some (read (.literal before.peek)))
    (wanted : before.peek.kind ≠ .number →
      reader.Refuses before.peek ⟨decls, some ⟨before.peek, .unexpected [.number]⟩⟩) :
    Follows decls number before reader fun number _ last => last = read number :=
  expectIn_then (by decide) takes wanted fun _ _ _ => .pure rfl

theorem size_follows (stay : SizeReading → Reader) (closer : Token.Kind)
    (goes : ∀ size token next, size.advance token = some next → (stay size).advance token = some (stay next))
    (stops : ∀ size token, size.advance token = none → size.complete? = none →
      (stay size).Refuses token ⟨decls, some ⟨token, .unexpected (size.expected closer)⟩⟩) :
    Follows decls size before (stay .wanted) fun size after last => last = stay (.complete size) ∧
      (SizeReading.complete size).advance after.peek = none := by
  refine Follows.peek ?_
  split
  · rename_i number
    have starts := goes .wanted before.peek (.complete (.literal (.literal before.peek)))
      (by simp [SizeReading.advance, number])
    refine Follows.map (number_follows (fun number => stay (.complete (.literal number))) (fun _ => starts)
      (absurd number)) number_moves ?_
    exact fun _ _ _ same => ⟨same, rfl⟩
  · rename_i power
    have starts := goes .wanted before.peek (.complete (.power (.power before.peek)))
      (by simp [SizeReading.advance, power])
    exact bump_then (by simp [power]) starts fun after _ => .pure ⟨rfl, rfl⟩
  · rename_i ident
    refine Follows.bind (name_follows (fun name => stay (.complete (.reference name))) (fun name => stay (.dotted name))
      (fun _ => goes _ _ _ (by simp [SizeReading.advance, ident])) (absurd ident) (fun name token joint => ?_)
      (fun name token grows => ?_) fun name token other => ?_) name_moves ?_
    · exact goes _ token _ (by simp [SizeReading.advance, joint])
    · exact goes _ token _ (by simp [SizeReading.advance, grows])
    · exact stops (.dotted name) token (by simp [SizeReading.advance, other]) rfl
    · rintro name after _ _ ⟨rfl, ends⟩
      exact .pure ⟨rfl, by simp [SizeReading.advance, ends]⟩
  · rename_i number power ident
    have refused : SizeReading.wanted.advance before.peek = none := by
      unfold SizeReading.advance
      split <;> simp_all
    exact unexpected_follows (stops .wanted _ refused rfl)

theorem size_then (hosts : Hosts decls host afterType) (stay : SizeReading → LineReading)
    (leave : SizeExpr → LineReading) (closer : Token.Kind) (plain : closer ≠ .eof)
    (steps : ∀ size token, (stay size).advance token = LineReading.inSize size token closer stay leave)
    (unfinished : ∀ size token, (stay size).item? token = none)
    (offers : ∀ size, (stay size).expected afterType = size.expected closer) {more : SizeExpr → Descends α}
    (follows : ∀ size after, Follows decls (more size) after (host (leave size)) post) :
    Follows decls (do
      let size ← size
      let _ ← expect closer
      more size) before (host (stay .wanted)) post := by
  have goes (size : SizeReading) (token : Token) (next : SizeReading) (step : size.advance token = some next) :
      (host (stay size)).advance token = some (host (stay next)) :=
    hosts.goes _ token _ (by simp [steps, LineReading.inSize, step])
  have stops (size : SizeReading) (token : Token) (refused : size.advance token = none)
      (other : token.kind = closer → size.complete? = none) :
      (host (stay size)).Refuses token ⟨decls, some ⟨token, .unexpected (size.expected closer)⟩⟩ := by
    have shut : (stay size).advance token = none := by
      rw [steps, LineReading.inSize, refused]
      exact ite_eq_right_iff.mpr fun closes => by rw [other closes, Option.map_none]
    exact offers size ▸ hosts.stops (stay size) token shut (unfinished size token)
  refine (size_follows (fun size => host (stay size)) closer goes fun size token refused open_size =>
    stops size token refused fun _ => open_size).bind size_moves ?_
  rintro size after _ _ ⟨rfl, shut⟩
  refine expectIn_then plain (fun closes => ?_) (fun other => ?_) fun _ _ _ => follows size _
  · exact hosts.goes _ _ _ (by simp [steps, LineReading.inSize, shut, closes, SizeReading.complete?])
  · exact stops (.complete size) _ shut fun closes => absurd closes other

theorem bounds_follows (hosts : Hosts decls host afterType) (type : TypeRef) (name : Token) :
    Follows decls bounds before (host (.named type name)) fun bounds after last =>
      last = host (.whole type name bounds) ∧ (LineReading.whole type name bounds).advance after.peek = none := by
  refine eat_then (by decide) (fun opens => hosts.goes _ _ (.fixed type name .wanted) ?_) (fun _ _ _ => ?_)
    fun other => ?_
  · simp [LineReading.advance, opens]
  · refine size_then hosts (.fixed type name) (fun size => .bounded type name (.fixed size)) .rBracket (by decide)
      (fun _ _ => rfl) (fun _ _ => ?_) (fun _ => rfl) fun size after => .pure ⟨rfl, rfl⟩
    simp [LineReading.item?]
  · refine eat_then (by decide) (fun opens => hosts.goes _ _ (.low type name .wanted) ?_) (fun _ _ _ => ?_)
      fun another => ?_
    · simp [LineReading.advance, opens]
    · refine size_then hosts (.low type name) (fun low => .high type name low .wanted) .dots (by decide)
        (fun _ _ => rfl) (fun _ _ => ?_) (fun _ => rfl) fun low after => ?_
      · simp [LineReading.item?]
      · refine size_then hosts (.high type name low) (fun high => .bounded type name (.range low high)) .greater
          (by decide) (fun _ _ => rfl) (fun _ _ => ?_) (fun _ => rfl) fun high after => .pure ⟨rfl, rfl⟩
        simp [LineReading.item?]
    · exact .pure ⟨rfl, by simp_all [LineReading.whole, LineReading.advance]⟩

theorem lineEnd_then (hosts : Hosts decls host afterType) (type : TypeRef) (name : Token) (bounds : Option Bounds)
    (shut : (LineReading.whole type name bounds).advance before.peek = none)
    (ends : before.peek.kind = .semi → (host (.whole type name bounds)).advance before.peek = some next)
    {more : Token → Descends α}
    (follows : ∀ after, before.peek.kind = .semi → Follows decls (more before.peek) after next post) :
    Follows decls (lineEnd bounds >>= more) before (host (.whole type name bounds)) post := by
  have refuses (other : before.peek.kind ≠ .semi) := hosts.stops _ _ shut (by simp [LineReading.item?, other])
  cases bounds with
  | none => exact expectIn_then (by decide) ends refuses fun after same _ => follows after same
  | some bounds => exact expectIn_then (by decide) ends refuses fun after same _ => follows after same

end Lines

section Levels

variable {reader : Reader} {token : Token}

theorem takes_one {step : σ → Token → Option σ} (takes : Takes step start [token] last) :
    step start token = some last := by
  obtain ⟨middle, next, rest⟩ := takes_cons.mp takes
  exact next.trans (congrArg some (takes_nil.mp rest))

theorem busy_refuses (refused : reader.advance token = none) (busy : reader.isIdle = false) :
    reader.Refuses token ⟨reader.decls.toList, some ⟨token, .unexpected reader.expected⟩⟩ := by
  refine ⟨refused, ?_⟩
  simp [Reader.parsed, Reader.mayEnd, Reader.refusal, busy]

theorem line_refuses {line : LineReading} (refused : line.advance token = none)
    (unfinished : line.field? token = none) : (reader.moveTo (.line line)).Refuses token
      ⟨reader.decls.toList, some ⟨token, .unexpected (line.expected [.ident])⟩⟩ :=
  busy_refuses (by simp [Reader.moveTo, Reader.advance, unfinished, refused]) rfl

theorem line_hosts (reader : Reader) :
    Hosts reader.decls.toList (fun line => reader.moveTo (.line line)) [.ident] where
  goes line token next step := takes_one (reader.line_inside (.single step))
  stops line token refused unfinished := by
    refine line_refuses refused ?_
    cases line <;> simp_all [LineReading.item?, LineReading.field?]

theorem enum_goes {listing : EnumReading} (step : listing.advance token = some next) :
    (reader.moveTo (.enum listing)).advance token = some (reader.moveTo (.enum next)) :=
  takes_one (reader.enum_takes (.single step))

theorem enum_refuses {listing : EnumReading} (refused : listing.advance token = none)
    (unfinished : listing.decl? token = none) : (reader.moveTo (.enum listing)).Refuses token
      ⟨reader.decls.toList, some ⟨token, .unexpected listing.expected⟩⟩ :=
  busy_refuses (by simp [Reader.moveTo, Reader.advance, unfinished, refused]) rfl

theorem select_goes {choice : SelectReading} (step : choice.advance token = some next) :
    (reader.moveTo (.select choice)).advance token = some (reader.moveTo (.select next)) :=
  takes_one (reader.select_takes (.single step))

theorem select_refuses {choice : SelectReading} (refused : choice.advance token = none)
    (unfinished : choice.select? token = none) : (reader.moveTo (.select choice)).Refuses token
      ⟨reader.decls.toList, some ⟨token, .unexpected choice.expected⟩⟩ :=
  busy_refuses (by simp [Reader.moveTo, Reader.advance, unfinished, refused]) rfl

def inArm (reader : Reader) (selector : Name) (opening : Token) (arms : List Arm) (arm : ArmReading) : Reader :=
  reader.moveTo (.select (.inArm selector opening arms.toArray arm))

variable {selector : Name} {opening : Token} {arms : List Arm}

theorem arm_goes {arm : ArmReading} (step : arm.advance token = some next) :
    (inArm reader selector opening arms arm).advance token = some (inArm reader selector opening arms next) :=
  select_goes (takes_one (arm_inside selector opening arms.toArray (.single step)))

theorem arm_refuses {arm : ArmReading} (refused : arm.advance token = none) (unfinished : arm.arm? token = none) :
    (inArm reader selector opening arms arm).Refuses token
      ⟨reader.decls.toList, some ⟨token, .unexpected arm.expected⟩⟩ := by
  refine select_refuses ?_ ?_
  · simp [SelectReading.advance, refused, unfinished]
  · simp [SelectReading.select?]

theorem item_hosts (reader : Reader) (selector : Name) (opening : Token) (arms : List Arm) (labels : List Label)
    (items : List Item) : Hosts reader.decls.toList
      (fun line => inArm reader selector opening arms (.item labels.toArray items line)) [.ident, .semi] where
  goes line token next step := arm_goes (takes_one (line_inside labels.toArray items (.single step)))
  stops line token refused unfinished := arm_refuses (by simp [ArmReading.advance, unfinished, refused]) rfl

end Levels

section Constructs

variable {before : Descent} {reader base : Reader}

abbrev LineStart (token : Token) : Prop := token.kind = .ident ∨ ∃ type, token.kind = .scalar type

theorem field_follows (reader : Reader) (starts : LineStart before.peek) :
    Follows reader.decls.toList field before (reader.moveTo .idle)
      fun entry _ last => last = reader.add (.field entry) := by
  have hosts := line_hosts reader
  refine (type_follows hosts (fun line => reader.start_line) starts).bind type_moves ?_
  rintro type middle _ _ ⟨rfl, shut⟩
  refine expectIn_then (by decide) (fun ident => hosts.goes _ _ _ (typed_named type ident))
    (fun other => line_refuses (shut other) ?_) fun _ _ _ => ?_
  · simp [LineReading.field?]
  · refine (bounds_follows hosts type _).bind bounds_moves ?_
    rintro bounds last _ _ ⟨rfl, closed⟩
    refine lineEnd_then hosts type _ bounds closed (fun ends => ?_) fun _ _ => .pure rfl
    rw [← Reader.add_moveTo reader (.line (.whole type middle.peek bounds))]
    cases bounds <;> simp [Reader.advance, Reader.moveTo, LineReading.whole, LineReading.field?, ends]

theorem item_follows {selector : Name} {opening : Token} {arms : List Arm} {labels : List Label} {items : List Item}
    (starts : ∀ line, LineReading.start? before.peek = some line →
      reader.advance before.peek = some (inArm base selector opening arms (.item labels.toArray items line)))
    (wanted : LineStart before.peek) : Follows base.decls.toList item before reader fun item _ last =>
      last = inArm base selector opening arms (.complete labels.toArray (items ++ [item])) := by
  have hosts := item_hosts base selector opening arms labels items
  have ends (line : LineReading) (token : Token) (item : Item) (done : line.item? token = some item) :
      (inArm base selector opening arms (.item labels.toArray items line)).advance token =
        some (inArm base selector opening arms (.complete labels.toArray (items ++ [item]))) :=
    arm_goes (by simp [ArmReading.advance, done])
  refine (type_follows hosts starts wanted).bind type_moves ?_
  rintro type middle _ _ ⟨rfl, shut⟩
  refine eat_then (by decide) (fun ident => hosts.goes _ _ _ (typed_named type ident)) (fun _ _ _ => ?_)
    fun other => ?_
  · refine (bounds_follows hosts type _).bind bounds_moves ?_
    rintro bounds last _ _ ⟨rfl, closed⟩
    refine lineEnd_then hosts type _ bounds closed (fun close => ends _ _ _ ?_) fun _ _ => .pure rfl
    cases bounds <;> simp [LineReading.whole, LineReading.item?, close]
  · refine expectIn_then (by decide) (fun close => ends _ _ _ ?_) (fun another => hosts.stops _ _ (shut other) ?_)
      fun _ _ _ => .pure rfl
    · simp [LineReading.item?, close]
    · simp [LineReading.item?, another]

theorem enum_single {listing : EnumReading} (only : listing.expected = [kind]) (other : token.kind ≠ kind) :
    listing.advance token = none := by
  cases listing with
  | firstNamed | entered | separated => cases only
  | finished => rfl
  | _ =>
    cases only
    simp [EnumReading.advance, other]

theorem enum_wants {listing : EnumReading} (only : listing.expected = [kind]) (other : token.kind ≠ kind) :
    (reader.moveTo (.enum listing)).Refuses token ⟨reader.decls.toList, some ⟨token, .unexpected [kind]⟩⟩ := by
  refine only ▸ enum_refuses (enum_single only other) ?_
  cases listing <;> simp_all [EnumReading.decl?, EnumReading.expected]

theorem enum_then {listing : EnumReading} (next : EnumReading) (only : listing.expected = [kind])
    (plain : kind ≠ .eof)
    (takes : before.peek.kind = kind → listing.advance before.peek = some next) {more : Token → Descends α}
    (follows : ∀ after, before.peek.kind = kind →
      Follows reader.decls.toList (more before.peek) after (reader.moveTo (.enum next)) post) :
    Follows reader.decls.toList (expect kind >>= more) before (reader.moveTo (.enum listing)) post :=
  expectIn_then plain (fun same => enum_goes (takes same)) (enum_wants only) fun after same _ => follows after same

theorem paren_follows {start : EnumReading} (wanting : EnumReading) (read shut : Number → EnumReading)
    (opens : before.peek.kind = .lParen → start.advance before.peek = some wanting)
    (wanted : before.peek.kind ≠ .lParen → start.expected = [.lParen]) (reads : wanting.expected = [.number])
    (takes : ∀ token, token.kind = .number → wanting.advance token = some (read (.literal token)))
    (closes : ∀ number, (read number).expected = [.rParen])
    (shuts : ∀ number token, token.kind = .rParen → (read number).advance token = some (shut number)) :
    Follows reader.decls.toList paren before (reader.moveTo (.enum start)) fun number _ last =>
      last = reader.moveTo (.enum (shut number)) := by
  refine expectIn_then (by decide) (fun same => enum_goes (opens same)) (fun other => enum_wants (wanted other) other)
    fun middle _ _ => ?_
  refine (number_follows (fun number => reader.moveTo (.enum (read number))) (fun same => enum_goes (takes _ same))
    (enum_wants reads)).bind number_moves ?_
  rintro number after _ _ rfl
  exact enum_then _ (closes number) (by decide) (shuts number _) fun _ _ => .pure rfl

theorem value_follows {listing : EnumReading} (entries : List EnumEntry) {name : Token}
    (opens : before.peek.kind = .lParen → listing.advance before.peek = some (.valueOpened entries.toArray name))
    (wanted : before.peek.kind ≠ .lParen → listing.expected = [.lParen]) :
    Follows reader.decls.toList (entry true name) before (reader.moveTo (.enum listing)) fun one _ last =>
      last = reader.moveTo (.enum (.entered true (entries ++ [one]).toArray)) := by
  refine (paren_follows _ (.valued entries.toArray name) (fun number =>
    .entered true (entries ++ [(⟨name, some number⟩ : EnumEntry)]).toArray) opens wanted rfl (fun token same => ?_)
    (fun _ => rfl) fun number token same => ?_).map paren_moves fun _ _ _ same => same
  · simp [EnumReading.advance, same]
  · simp [EnumReading.advance, same]

-- An enum after an entry. What comes next is part of it, because a first entry without a
-- value could still get one.
structure Listed (withValues : Bool) (entries : List EnumEntry) (token : Token) (listing : EnumReading) : Prop where
  entered : Entered withValues entries listing
  offers : listing.expected = [.comma, .rBrace]
  refuses : token.kind ≠ .comma → token.kind ≠ .rBrace → listing.advance token = none

theorem listed_done (withValues : Bool) (entries : List EnumEntry) (token : Token) :
    Listed withValues entries token (.entered withValues entries.toArray) :=
  ⟨entered_done withValues entries, rfl, fun another other => by simp [EnumReading.advance, another, other]⟩

theorem listed_first (name : Token) (plain : token.kind ≠ .lParen) :
    Listed false [⟨name, none⟩] token (.firstNamed name) where
  entered.comma _ comma := by simp [EnumReading.advance, comma]
  entered.closes _ closes := by simp [EnumReading.advance, closes]
  offers := rfl
  refuses another other := by simp [EnumReading.advance, plain, another, other]

abbrev InEntries (reader : Reader) (withValues : Bool) (entries : List EnumEntry) (middle : Descent)
    (last : Reader) : Prop :=
  ∃ listing, last = reader.moveTo (.enum listing) ∧ Listed withValues entries middle.peek listing

theorem entriesTurn_follows (inside : InEntries base withValues entries before reader) :
    Follows base.decls.toList (entriesTurn withValues entries) before reader fun taken after last => taken.Meets
      (fun more => InEntries base withValues more after last)
      fun listed => last = base.moveTo (.enum (.closed listed.1.toArray listed.2)) := by
  obtain ⟨listing, rfl, listed⟩ := inside
  refine eat_then (by decide) (fun comma => enum_goes (listed.entered.comma _ comma)) (fun middle _ _ => ?_)
    fun another => ?_
  · refine Follows.peek ?_
    split
    · rename_i opens
      refine (paren_follows (.maxOpened entries.toArray) (.maxRead entries.toArray) (.maxClosed entries.toArray)
        (fun _ => ?_) (absurd opens) rfl (fun token same => ?_) (fun _ => rfl)
        fun number token same => ?_).bind paren_moves ?_
      · simp [EnumReading.advance, opens]
      · simp [EnumReading.advance, same]
      · simp [EnumReading.advance, same]
      · rintro max after _ _ rfl
        refine enum_then (.closed entries.toArray (some max)) rfl (by decide) (fun closes => ?_) fun _ _ => .pure rfl
        simp [EnumReading.advance, closes]
    · rename_i plain
      have refuses (other : middle.peek.kind ≠ .ident) :
          (base.moveTo (.enum (.separated withValues entries.toArray))).Refuses middle.peek
            ⟨base.decls.toList, some ⟨middle.peek, .unexpected [.ident, .lParen]⟩⟩ :=
        enum_refuses (by simp [EnumReading.advance, plain, other]) rfl
      cases withValues with
      | false =>
        refine expectIn_then (by decide) (fun ident => enum_goes ?_) refuses fun after _ _ =>
          .pure ⟨_, rfl, listed_done false _ after.peek⟩
        simp [EnumReading.advance, ident]
      | true =>
        have named (ident : middle.peek.kind = .ident) :
            (EnumReading.separated true entries.toArray).advance middle.peek =
              some (.named entries.toArray middle.peek) := by simp [EnumReading.advance, ident]
        refine expectIn_then (by decide) (fun ident => enum_goes (named ident)) refuses fun after _ _ => ?_
        · refine (value_follows entries (fun opens => ?_) fun _ => rfl).bind (entry_moves true _) ?_
          · simp [EnumReading.advance, opens]
          · rintro one last _ _ rfl
            exact .pure ⟨_, rfl, listed_done true _ last.peek⟩
  · refine expectIn_then (by decide) (fun closes => enum_goes (listed.entered.closes _ closes)) (fun other => ?_)
      fun _ _ _ => .pure rfl
    refine listed.offers ▸ enum_refuses (listed.refuses another other) ?_
    have offers := listed.offers
    cases listing <;> simp_all [EnumReading.decl?, EnumReading.expected]

theorem enum_follows (word : before.peek.kind = .enumWord)
    (starts : reader.advance before.peek = some (base.moveTo (.enum .wanted))) :
    Follows base.decls.toList enum before reader fun listing _ last => last = base.declare (.enum listing) := by
  refine expectIn_then (by decide) (fun _ => starts) (absurd word) fun _ _ _ => ?_
  refine enum_then .opened rfl (by decide) (fun opens => by simp [EnumReading.advance, opens]) fun inside _ => ?_
  refine enum_then (.firstNamed inside.peek) rfl (by decide) (fun ident => by simp [EnumReading.advance, ident])
    fun middle _ => ?_
  refine Follows.peek ?_
  have first : Follows base.decls.toList (entry (middle.peek.kind = .lParen) inside.peek) middle
      (base.moveTo (.enum (.firstNamed inside.peek)))
      fun first => InEntries base (middle.peek.kind = .lParen) [first] := by
    by_cases opens : middle.peek.kind = .lParen
    · rw [decide_eq_true opens]
      refine (value_follows [] (fun _ => ?_) (absurd opens)).weaken ?_
      · simp [EnumReading.advance, opens]
      · rintro first last _ rfl
        exact ⟨_, rfl, listed_done true [first] last.peek⟩
    · rw [decide_eq_false opens]
      exact .pure ⟨_, rfl, listed_first _ opens⟩
  refine first.bind (entry_moves _ _) fun one after last _ entered => ?_
  have listed := loop_follows (InEntries base (middle.peek.kind = .lParen)) (fun entries _ _ _ inside =>
    ⟨(entriesTurn_moves (middle.peek.kind = .lParen) entries).moves, entriesTurn_follows inside⟩) entered
  refine listed.bind (loop_moves (fun _ _ _ => entriesTurn_moves _ _) _) ?_
  rintro ⟨entries, max⟩ last _ _ rfl
  refine enum_then (.finished entries.toArray max last.peek) rfl (by decide)
    (fun ident => by simp [EnumReading.advance, ident]) fun _ _ => ?_
  refine expectIn_then (by decide) (fun ends => ?_) (enum_wants rfl) fun _ _ _ => .pure rfl
  simp [Reader.advance, Reader.moveTo, EnumReading.decl?, ends, Reader.declare]

end Constructs

end Descends

end WireFormat
