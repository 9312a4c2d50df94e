import WireFormat.Proofs.Taken

namespace WireFormat

theorem label_taken (labels : Array Label) (spelt : LabelSpelt label tokens) :
    ∃ word rest, tokens = word :: rest ∧ word.kind = .caseWord ∧
      Takes ArmReading.advance (.cased labels) rest (.coloned (labels.push label)) := by
  obtain @⟨name, colon, case, word, ident, ends⟩ := spelt
  have first : (ArmReading.cased labels).advance name = some (.labelled labels name) := by
    simp [ArmReading.advance, ident]
  have second : (ArmReading.labelled labels name).advance colon =
      some (.coloned (labels.push ⟨name, colon⟩)) := by simp [ArmReading.advance, ends]
  exact ⟨case, [name, colon], rfl, word, .cons first (.single second)⟩

theorem labels_taken (spelt : Several LabelSpelt others tokens) (labels : Array Label) :
    Takes ArmReading.advance (.coloned labels) tokens (.coloned (labels ++ others)) := by
  induction spelt generalizing labels with
  | nil => simp [takes_nil]
  | cons head _ ih =>
    obtain ⟨case, rest, rfl, word, takes⟩ := label_taken labels head
    have start : (ArmReading.coloned labels).advance case = some (.cased labels) := by
      simp [ArmReading.advance, word]
    simpa using (Takes.cons start takes).append (ih _)

theorem coloned_start (labels : Array Label) (starts : LineReading.start? first = some line) :
    (ArmReading.coloned labels).advance first = some (.item labels [] line) := by
  have start := starts
  unfold LineReading.start? at start
  split at start <;> simp_all [ArmReading.advance]

theorem line_inside (labels : Array Label) (items : List Item)
    (takes : Takes LineReading.advance line tokens last) :
    Takes ArmReading.advance (.item labels items line) tokens (.item labels items last) := by
  apply takes.lift (ArmReading.item labels items)
  intro line token next step
  have open_line : line.item? token = none := by
    have other : token.kind ≠ .semi := fun ends => by simp [line_shut line ends] at step
    simp [LineReading.item?, other]
  simp [ArmReading.advance, open_line, step]

theorem name_first (spelt : NameSpelt name tokens) : ∃ first rest, tokens = first :: rest ∧ first.kind = .ident := by
  induction spelt with
  | simple ident => exact ⟨_, [], rfl, ident⟩
  | extend _ _ _ ih =>
    obtain ⟨first, rest, rfl, ident⟩ := ih
    exact ⟨first, _, List.cons_append, ident⟩

theorem item_first (spelt : ItemSpelt item (first :: rest)) (named : item.type = .named name) :
    first.kind = .ident := by
  generalize all : first :: rest = tokens at spelt
  obtain ⟨typed, _⟩ | ⟨typed, _, _, _⟩ := spelt
  all_goals
    cases named
    obtain _ | ⟨spelt⟩ := typed
    obtain ⟨start, more, rfl, ident⟩ := name_first spelt
    obtain ⟨rfl, _⟩ := List.cons.inj all
    exact ident

theorem clause_taken (labels : Array Label) (spelt : ClauseSpelt signature tokens) :
    Takes ArmReading.advance (.coloned labels) tokens (.clause labels signature) := by
  obtain @⟨name, tokens, close, signed, word, spelt, ends⟩ := spelt
  obtain ⟨first, rest, rfl, ident, takes⟩ := name_taken ArmReading.advance (.signed labels) (.signedDotted labels)
    (fun _ _ joint => by simp [ArmReading.advance, joint])
    (fun _ _ ident => by simp [ArmReading.advance, ident]) spelt
  have start : (ArmReading.coloned labels).advance signed = some (.signing labels) := by
    simp [ArmReading.advance, word]
  have second : (ArmReading.signing labels).advance first = some (.signed labels (.simple first)) := by
    simp [ArmReading.advance, ident]
  have last : (ArmReading.signed labels name).advance close =
      some (.clause labels ⟨true, .named name, none, none, close⟩) := by simp [ArmReading.advance, ends]
  exact (Takes.cons start (.cons second takes)).snoc last

theorem body_taken (labels : Array Label) (spelt : BodySpelt items tokens) :
    ∃ after, Takes ArmReading.advance (.coloned labels) tokens after ∧
      ∀ follow, after.arm? follow = some ⟨labels.toList, items, follow⟩ := by
  cases spelt with
  | empty ends => exact ⟨.complete labels [], .single (by simp [ArmReading.advance, ends]), fun _ => rfl⟩
  | @single item tokens spelt =>
    obtain ⟨first, rest, line, last, rfl, starts, takes, done⟩ := item_taken spelt
    have whole := Takes.cons (coloned_start labels starts) (line_inside labels [] takes)
    have end_item : (ArmReading.item labels [] last).advance item.close = some (.complete labels [item]) := by
      simp [ArmReading.advance, done]
    exact ⟨_, whole.snoc end_item, fun _ => rfl⟩
  | clause spelt => exact ⟨_, clause_taken labels spelt, fun _ => rfl⟩
  | @followed signature front item back name signs spelt named =>
    obtain ⟨first, rest, line, last, rfl, starts, takes, done⟩ := item_taken spelt
    have ident := item_first spelt named
    have same : line = .typed (.named (.simple first)) := by simpa [LineReading.start?, ident, eq_comm] using starts
    have start : (ArmReading.clause labels signature).advance first = some (.item labels [signature] line) := by
      simp [ArmReading.advance, ident, same]
    have end_item : (ArmReading.item labels [signature] last).advance item.close =
        some (.complete labels [signature, item]) := by simp [ArmReading.advance, done]
    have whole := (Takes.cons start (line_inside labels [signature] takes)).snoc end_item
    exact ⟨_, (clause_taken labels signs).append whole, fun _ => rfl⟩

theorem arm_taken (spelt : ArmSpelt arm tokens) :
    ∃ word rest after, tokens = word :: rest ∧ word.kind = .caseWord ∧
      Takes ArmReading.advance (.cased #[]) rest after ∧ after.arm? arm.follow = some arm := by
  obtain ⟨first, more, body⟩ := spelt
  obtain ⟨case, rest, rfl, word, label⟩ := label_taken #[] first
  obtain ⟨after, items, done⟩ := body_taken _ body
  refine ⟨case, _, after, by simp, word, (label.append (labels_taken more _)).append items, ?_⟩
  simp [done]

theorem arm_inside (selector : Name) (opening : Token) (arms : Array Arm)
    (takes : Takes ArmReading.advance arm tokens last) :
    Takes SelectReading.advance (.inArm selector opening arms arm) tokens
      (.inArm selector opening arms last) := by
  apply takes.lift (SelectReading.inArm selector opening arms)
  intro arm token next step
  have apart (whole : Arm) (done : arm.arm? token = some whole) : token.kind ≠ .caseWord ∧ token.kind ≠ .rBrace := by
    cases arm with
    | clause =>
      simp only [ArmReading.advance, Option.ite_none_right_eq_some] at step
      rw [step.1]
      decide
    | complete => cases step
    | _ => cases done
  cases done : arm.arm? token with
  | none => simp [SelectReading.advance, done, step]
  | some whole => simp [SelectReading.advance, done, step, apart whole done]

theorem arms_taken (selector : Name) (opening : Token) (closes : brace.kind = .rBrace)
    (spelt : ArmsSpelt brace arms tokens) :
    ∃ word rest, tokens = word :: rest ∧ word.kind = .caseWord ∧ ∀ before : Array Arm,
      Takes SelectReading.advance (.inArm selector opening before (.cased #[])) (rest ++ [brace])
        (.closed selector opening (before ++ arms)) := by
  induction spelt with
  | @last arm tokens spelt next =>
    obtain ⟨case, rest, after, rfl, word, takes, done⟩ := arm_taken spelt
    subst next
    refine ⟨case, rest, rfl, word, fun before => (arm_inside selector opening before takes).snoc ?_⟩
    simp [SelectReading.advance, done, closes]
  | @cons arm front arms back spelt next more ih =>
    obtain ⟨case, rest, after, rfl, word, takes, done⟩ := arm_taken spelt
    obtain ⟨follow, others, rfl, another, rest_taken⟩ := ih
    obtain rfl : follow = arm.follow := Option.some.inj next
    refine ⟨case, _, List.cons_append, word, fun before => ?_⟩
    have start : (SelectReading.inArm selector opening before after).advance arm.follow =
        some (.inArm selector opening (before.push arm) (.cased #[])) := by
      simp [SelectReading.advance, done, another]
    have whole := (arm_inside selector opening before takes).append (.cons start (rest_taken (before.push arm)))
    simpa using whole

theorem select_taken (spelt : SelectSpelt choice tokens) :
    ∃ word rest last, tokens = word :: rest ++ [choice.close] ∧ word.kind = .selectWord ∧
      Takes SelectReading.advance .wanted rest last ∧ last.select? choice.close = some choice := by
  obtain @⟨selector, front, brace, arms, middle, name, back, opening, close, select, left, right,
    word, before, chosen, after, opens, cases, closes, named, ends⟩ := spelt
  obtain ⟨first, rest, rfl, ident, takes⟩ := name_taken SelectReading.advance .choosing .choosingDotted
    (fun _ _ joint => by simp [SelectReading.advance, joint])
    (fun _ _ ident => by simp [SelectReading.advance, ident]) chosen
  obtain ⟨case, others, rfl, another, arms_taken⟩ := arms_taken selector opening closes cases
  have opened : SelectReading.wanted.advance left = some .opened := by simp [SelectReading.advance, before]
  have choosing : SelectReading.opened.advance first = some (.choosing (.simple first)) := by
    simp [SelectReading.advance, ident]
  have selected : (SelectReading.choosing selector).advance right = some (.selected selector) := by
    simp [SelectReading.advance, after]
  have braced : (SelectReading.selected selector).advance opening = some (.braced selector opening) := by
    simp [SelectReading.advance, opens]
  have started : (SelectReading.braced selector opening).advance case =
      some (.inArm selector opening #[] (.cased #[])) := by simp [SelectReading.advance, another]
  have whole := (Takes.cons opened (.cons choosing takes)).append
    (.cons selected (.cons braced (.cons started (arms_taken #[]))))
  cases named with
  | none =>
    refine ⟨select, _, _, ?_, word, whole, ?_⟩
    · simp
    · simp [SelectReading.select?, ends]
  | @some name tokens part =>
    obtain ⟨ident⟩ := part
    have last (all : Array Arm) : (SelectReading.closed selector opening all).advance name =
        some (.named selector opening all name) := by simp [SelectReading.advance, ident]
    refine ⟨select, _, _, ?_, word, whole.snoc (last _), ?_⟩
    · simp
    · simp [SelectReading.select?, ends]

end WireFormat
