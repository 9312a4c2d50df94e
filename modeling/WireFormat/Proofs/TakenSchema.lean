import WireFormat.Proofs.TakenSelect

namespace WireFormat

-- A reader between two constructs takes whatever spells the next one, if it may
-- still open as many bodies as that does.

namespace Reader

theorem add_moveTo (reader : Reader) (focus : Focus) (member : Member) :
    (reader.moveTo focus).add member = reader.add member := by
  obtain ⟨decls, bodies, current⟩ := reader
  cases bodies <;> rfl

theorem start_line (reader : Reader) (starts : LineReading.start? token = some line) :
    (reader.moveTo .idle).advance token = some (reader.moveTo (.line line)) := by
  have known := starts
  unfold LineReading.start? at known
  split at known <;> simp_all [advance, Reader.start, moveTo]

theorem line_inside (reader : Reader) (takes : Takes LineReading.advance line tokens last) :
    Takes advance (reader.moveTo (.line line)) tokens (reader.moveTo (.line last)) := by
  apply takes.lift (fun line => reader.moveTo (.line line))
  intro line token next step
  have other : token.kind ≠ .semi := fun ends => by simp [line_shut line ends] at step
  simp [advance, moveTo, LineReading.field?, other, step]

theorem field_inside (reader : Reader) (spelt : FieldSpelt entry tokens) :
    Takes advance (reader.moveTo .idle) tokens (reader.add (.field entry)) := by
  obtain ⟨first, rest, line, last, rfl, starts, takes, done⟩ := field_taken spelt
  have ends : (reader.moveTo (.line last)).advance entry.close = some (reader.add (.field entry)) := by
    rw [← add_moveTo reader (.line last)]
    simp [advance, moveTo, done]
  exact (Takes.cons (start_line reader starts) (line_inside reader takes)).snoc ends

theorem enum_takes (reader : Reader) (takes : Takes EnumReading.advance listing tokens last) :
    Takes advance (reader.moveTo (.enum listing)) tokens (reader.moveTo (.enum last)) := by
  apply takes.lift (fun listing => reader.moveTo (.enum listing))
  intro listing token next step
  have other : token.kind ≠ .semi := fun ends => by simp [enum_shut listing ends] at step
  have unfinished : listing.decl? token = none := by
    unfold EnumReading.decl?
    split <;> simp_all
  simp [advance, moveTo, unfinished, step]

theorem enum_inside (reader : Reader) (top : reader.bodies = []) (spelt : EnumSpelt listing tokens) :
    Takes advance (reader.moveTo .idle) tokens (reader.declare (.enum listing)) := by
  obtain ⟨word, rest, last, rfl, kind, takes, done⟩ := enum_taken spelt
  have starts : (reader.moveTo .idle).advance word = some (reader.moveTo (.enum .wanted)) := by
    simp [advance, start, moveTo, kind, top]
  have ends : (reader.moveTo (.enum last)).advance listing.close = some (reader.declare (.enum listing)) := by
    simp [advance, moveTo, done, declare]
  exact (Takes.cons starts (enum_takes reader takes)).snoc ends

theorem select_open {choice : SelectReading} (step : choice.advance token = some next) :
    choice.select? token = none := by
  unfold SelectReading.select?
  split
  · rfl
  · rename_i ends
    rw [Decidable.not_not] at ends
    cases choice with
    | closed | named => simp [SelectReading.advance, ends] at step
    | _ => rfl

theorem select_takes (reader : Reader) (takes : Takes SelectReading.advance choice tokens last) :
    Takes advance (reader.moveTo (.select choice)) tokens (reader.moveTo (.select last)) := by
  apply takes.lift (fun choice => reader.moveTo (.select choice))
  intro choice token next step
  simp [advance, moveTo, select_open step, step]

theorem select_rest (reader : Reader) (spelt : SelectSpelt choice tokens) :
    ∃ word rest, tokens = word :: rest ∧ word.kind = .selectWord ∧
      Takes advance (reader.moveTo (.select .wanted)) rest (reader.add (.select choice)) := by
  obtain ⟨word, rest, last, rfl, kind, takes, done⟩ := select_taken spelt
  have ends : (reader.moveTo (.select last)).advance choice.close = some (reader.add (.select choice)) := by
    rw [← add_moveTo reader (.select last)]
    simp [advance, moveTo, done]
  exact ⟨word, _, List.cons_append, kind, (select_takes reader takes).snoc ends⟩

theorem select_inside (reader : Reader) (room : reader.isFull = false) (spelt : SelectSpelt choice tokens) :
    Takes advance (reader.moveTo .idle) tokens (reader.add (.select choice)) := by
  obtain ⟨word, rest, rfl, kind, takes⟩ := select_rest reader spelt
  have starts : (reader.moveTo .idle).advance word = some (reader.moveTo (.select .wanted)) := by
    have full : (reader.moveTo .idle).isFull = false := room
    simp only [advance, moveTo] at full ⊢
    simp [Reader.start, moveTo, kind, full]
  exact .cons starts takes

theorem external_inside (reader : Reader) (top : reader.bodies = []) (word : head.kind = .externWord)
    (ident : name.kind = .ident) (ends : close.kind = .semi) :
    Takes advance (reader.moveTo .idle) [head, name, close] (reader.declare (.external name close)) := by
  have first : (reader.moveTo .idle).advance head = some (reader.moveTo .externWord) := by
    simp [advance, Reader.start, moveTo, word, top]
  have second : (reader.moveTo .externWord).advance name = some (reader.moveTo (.external name)) := by
    simp [advance, moveTo, ident]
  have third : (reader.moveTo (.external name)).advance close =
      some (reader.declare (.external name close)) := by simp [advance, moveTo, declare, ends]
  exact .cons first (.cons second (.single third))

theorem members_inside {step : Reader → Token → Option Reader} {inner : Member → List Token → Prop}
    (decls : Array Decl) (outer : List (Array Member))
    (each : ∀ body member tokens, inner member tokens →
      Takes step ⟨decls, body :: outer, .idle⟩ tokens ⟨decls, body.push member :: outer, .idle⟩)
    (spelt : Several inner members tokens) (body : Array Member) :
    Takes step ⟨decls, body :: outer, .idle⟩ tokens ⟨decls, (body ++ members) :: outer, .idle⟩ := by
  induction spelt generalizing body with
  | nil => simp [takes_nil]
  | cons head _ ih => simpa using (each body _ _ head).append (ih (body.push _))

theorem struct_rest (reader : Reader) (body : Array Member) (closes : right.kind = .rBrace)
    (ident : name.kind = .ident) (ends : close.kind = .semi) :
    Takes advance ⟨reader.decls, body :: reader.bodies, .idle⟩ [right, name, close]
      (reader.add (.struct body.toList name close)) := by
  have first : Reader.advance ⟨reader.decls, body :: reader.bodies, .idle⟩ right =
      some (reader.moveTo (.structClosed body.toList)) := by simp [advance, Reader.start, moveTo, closes]
  have second : (reader.moveTo (.structClosed body.toList)).advance name =
      some (reader.moveTo (.structNamed body.toList name)) := by simp [advance, moveTo, ident]
  have third : (reader.moveTo (.structNamed body.toList name)).advance close =
      some (reader.add (.struct body.toList name close)) := by
    rw [← add_moveTo reader (.structNamed body.toList name)]
    simp [advance, moveTo, ends]
  exact .cons first (.cons second (.single third))

theorem member_inside (n : Nat) (reader : Reader) (room : reader.bodies.length + n ≤ maxNesting)
    (spelt : MemberSpelt n member tokens) :
    Takes advance (reader.moveTo .idle) tokens (reader.add member) := by
  induction n generalizing reader member tokens with
  | zero =>
    obtain ⟨entry, rfl, spelt⟩ := spelt
    exact field_inside reader spelt
  | succ n ih =>
    have full : reader.isFull = false := by
      simp only [isFull, decide_eq_false_iff_not]
      omega
    cases spelt with
    | line spelt => exact field_inside reader spelt
    | select spelt => exact select_inside reader full spelt
    | @struct body tokens name close struct left right word opens members closes ident ends =>
      have first : (reader.moveTo .idle).advance struct = some (reader.moveTo .structWord) := by
        have full : (reader.moveTo .idle).isFull = false := full
        simp only [advance, moveTo] at full ⊢
        simp [Reader.start, moveTo, word, full]
      have second : (reader.moveTo .structWord).advance left =
          some ⟨reader.decls, #[] :: reader.bodies, .idle⟩ := by simp [advance, moveTo, opens]
      have inside := members_inside reader.decls reader.bodies
        (fun body member tokens spelt =>
          ih ⟨reader.decls, body :: reader.bodies, .idle⟩ (by simp; omega) spelt) members #[]
      have closed := struct_rest reader ((#[] : Array Member) ++ body) closes ident ends
      have whole := (Takes.cons first (.cons second inside)).append closed
      simpa using whole

theorem decl_inside (decls : Array Decl) (spelt : DeclSpelt decl tokens) :
    Takes advance ⟨decls, [], .idle⟩ tokens ⟨decls.push decl, [], .idle⟩ := by
  cases spelt with
  | external word ident ends => exact external_inside ⟨decls, [], .idle⟩ rfl word ident ends
  | enum spelt => exact enum_inside ⟨decls, [], .idle⟩ rfl spelt
  | member member spelt => exact member_inside maxNesting ⟨decls, [], .idle⟩ (by simp) spelt

theorem decls_inside (spelt : Several DeclSpelt others tokens) (decls : Array Decl) :
    Takes advance ⟨decls, [], .idle⟩ tokens ⟨decls ++ others, [], .idle⟩ := by
  induction spelt generalizing decls with
  | nil => simp [takes_nil]
  | cons head _ ih => simpa using (decl_inside decls head).append (ih (decls.push _))

end Reader

end WireFormat
