import WireFormat.Proofs.Spelling

namespace WireFormat

-- What a reading knows of the tokens it has taken: they spell the parts that it keeps.
-- Each step preserves this, and what a step completes is spelt in full.

theorem Several.snoc (front : Several spelt items tokens) (last : spelt item more) :
    Several spelt (items ++ [item]) (tokens ++ more) := by
  induction front with
  | nil => simpa using Several.cons last .nil
  | cons head _ ih =>
    rw [List.append_assoc]
    exact .cons head ih

inductive SizeHeld : SizeReading → List Token → Prop where
  | wanted : SizeHeld .wanted []
  | complete (spelt : SizeSpelt size tokens) : SizeHeld (.complete size) tokens
  | dotted (spelt : NameSpelt name tokens) (joint : dot.kind = .dot) :
      SizeHeld (.dotted name) (tokens ++ [dot])

theorem size_step (held : SizeHeld reading tokens) (next : reading.advance token = some after) :
    SizeHeld after (tokens ++ [token]) := by
  unfold SizeReading.advance at next
  split at next <;> cases next
  · cases held
    exact .complete (.literal ‹_›)
  · cases held
    exact .complete (.power ‹_›)
  · cases held
    exact .complete (.reference (.simple ‹_›))
  · obtain _ | ⟨spelt⟩ | _ := held
    cases spelt with
    | reference spelt => exact .dotted spelt ‹_›
  · obtain _ | _ | ⟨spelt, joint⟩ := held
    have longer := spelt.extend joint ‹_›
    exact .complete (.reference (by simpa using longer))

theorem size_complete (held : SizeHeld reading tokens) (done : reading.complete? = some size) :
    SizeSpelt size tokens := by
  cases held with
  | wanted | dotted => cases done
  | complete spelt =>
    cases done
    exact spelt

inductive LineHeld : LineReading → List Token → Prop where
  | typed (spelt : TypeSpelt type tokens) : LineHeld (.typed type) tokens
  | typeDotted (spelt : NameSpelt name tokens) (joint : dot.kind = .dot) :
      LineHeld (.typeDotted name) (tokens ++ [dot])
  | named (typed : TypeSpelt type front) (ident : name.kind = .ident) :
      LineHeld (.named type name) (front ++ [name])
  | fixed (typed : TypeSpelt type front) (ident : name.kind = .ident) (opens : left.kind = .lBracket)
      (size : SizeHeld reading back) : LineHeld (.fixed type name reading) (front ++ name :: left :: back)
  | low (typed : TypeSpelt type front) (ident : name.kind = .ident) (opens : left.kind = .less)
      (size : SizeHeld reading back) : LineHeld (.low type name reading) (front ++ name :: left :: back)
  | high (typed : TypeSpelt type front) (ident : name.kind = .ident) (opens : left.kind = .less)
      (low : SizeSpelt least middle) (joint : dots.kind = .dots) (size : SizeHeld reading back) :
      LineHeld (.high type name least reading) (front ++ name :: left :: middle ++ dots :: back)
  | bounded (typed : TypeSpelt type front) (ident : name.kind = .ident) (spelt : BoundsSpelt bounds back) :
      LineHeld (.bounded type name bounds) (front ++ name :: back)

theorem line_start (starts : LineReading.start? token = some line) : LineHeld line [token] := by
  unfold LineReading.start? at starts
  split at starts <;> cases starts
  · exact .typed (.scalar ‹_›)
  · exact .typed (.named (.simple ‹_›))

theorem inSize_parts (next : LineReading.inSize size token closer stay leave = some line) :
    (∃ after, size.advance token = some after ∧ line = stay after) ∨
      ∃ whole, size.complete? = some whole ∧ token.kind = closer ∧ line = leave whole := by
  unfold LineReading.inSize at next
  split at next
  · cases next
    exact .inl ⟨_, ‹_›, rfl⟩
  · split at next
    · obtain ⟨whole, done, rfl⟩ := Option.map_eq_some_iff.mp next
      exact .inr ⟨whole, done, ‹_›, rfl⟩
    · cases next

theorem line_step (held : LineHeld line tokens) (next : line.advance token = some after) :
    LineHeld after (tokens ++ [token]) := by
  cases held with
  | typed spelt =>
    simp only [LineReading.advance] at next
    split at next <;> cases next
    · cases spelt with
      | named spelt => exact .typeDotted spelt ‹_›
    · exact .named spelt ‹_›
  | typeDotted spelt joint =>
    simp only [LineReading.advance, Option.ite_none_right_eq_some] at next
    obtain ⟨ident, ⟨⟩⟩ := next
    have longer := spelt.extend joint ident
    exact .typed (.named (by simpa using longer))
  | named typed ident =>
    simp only [LineReading.advance] at next
    split at next <;> cases next
    · simpa using LineHeld.fixed typed ident ‹_› .wanted
    · simpa using LineHeld.low typed ident ‹_› .wanted
  | fixed typed ident opens size =>
    rcases inSize_parts next with ⟨grown, step, rfl⟩ | ⟨whole, done, closes, rfl⟩
    · simpa using LineHeld.fixed typed ident opens (size_step size step)
    · simpa using LineHeld.bounded typed ident (.fixed opens (size_complete size done) closes)
  | low typed ident opens size =>
    rcases inSize_parts next with ⟨grown, step, rfl⟩ | ⟨whole, done, closes, rfl⟩
    · simpa using LineHeld.low typed ident opens (size_step size step)
    · simpa using LineHeld.high typed ident opens (size_complete size done) closes .wanted
  | high typed ident opens low joint size =>
    rcases inSize_parts next with ⟨grown, step, rfl⟩ | ⟨whole, done, closes, rfl⟩
    · simpa using LineHeld.high typed ident opens low joint (size_step size step)
    · simpa using LineHeld.bounded typed ident (.range opens low joint (size_complete size done) closes)
  | bounded => cases next

theorem line_field (held : LineHeld line tokens) (done : line.field? close = some entry) :
    FieldSpelt entry (tokens ++ [close]) := by
  unfold LineReading.field? at done
  split at done
  · cases done
  · rename_i ends
    rw [Decidable.not_not] at ends
    split at done <;> cases done
    · obtain _ | _ | ⟨typed, ident⟩ := held
      simpa using FieldSpelt.line typed ident .none ends
    · obtain _ | _ | _ | _ | _ | _ | ⟨typed, ident, spelt⟩ := held
      simpa using FieldSpelt.line typed ident (.some spelt) ends

theorem line_item (held : LineHeld line tokens) (done : line.item? close = some item) :
    ItemSpelt item (tokens ++ [close]) := by
  unfold LineReading.item? at done
  split at done
  · cases done
  · rename_i ends
    rw [Decidable.not_not] at ends
    split at done <;> cases done
    · obtain ⟨spelt⟩ := held
      exact .bare spelt ends
    · obtain _ | _ | ⟨typed, ident⟩ := held
      simpa using ItemSpelt.named typed ident .none ends
    · obtain _ | _ | _ | _ | _ | _ | ⟨typed, ident, spelt⟩ := held
      simpa using ItemSpelt.named typed ident (.some spelt) ends

def LineReading.type : LineReading → TypeRef
  | .typed type => type
  | .typeDotted name => .named name
  | .named type _ => type
  | .fixed type _ _ => type
  | .low type _ _ => type
  | .high type _ _ _ => type
  | .bounded type _ _ => type

theorem line_named {line after : LineReading} (next : line.advance token = some after) (named : line.type = .named name) :
    ∃ longer, after.type = .named longer := by
  cases line with
  | typed type =>
    cases named
    simp only [LineReading.advance] at next
    split at next <;> cases next
    · exact ⟨_, rfl⟩
    · exact ⟨_, rfl⟩
  | typeDotted =>
    simp only [LineReading.advance, Option.ite_none_right_eq_some] at next
    obtain ⟨_, ⟨⟩⟩ := next
    exact ⟨_, rfl⟩
  | named =>
    simp only [LineReading.advance] at next
    split at next <;> cases next
    · exact ⟨_, named⟩
    · exact ⟨_, named⟩
  | fixed | low | high =>
    rcases inSize_parts next with ⟨_, _, rfl⟩ | ⟨_, _, _, rfl⟩
    · exact ⟨_, named⟩
    · exact ⟨_, named⟩
  | bounded => cases next

theorem item_type (done : LineReading.item? line close = some item) : item.type = line.type := by
  unfold LineReading.item? at done
  split at done
  · cases done
  · split at done <;> cases done <;> rfl

inductive EntriesHeld (withValues : Bool) : List EnumEntry → List Token → Prop where
  | list (first : EntrySpelt withValues entry front)
      (more : Several (After (EntrySpelt withValues) .comma) entries back) :
      EntriesHeld withValues (entry :: entries) (front ++ back)

theorem entries_single (spelt : EntrySpelt withValues entry tokens) :
    EntriesHeld withValues [entry] tokens := by
  simpa using EntriesHeld.list spelt .nil

theorem entries_snoc (held : EntriesHeld withValues entries tokens) (comma : token.kind = .comma)
    (spelt : EntrySpelt withValues entry rest) :
    EntriesHeld withValues (entries ++ [entry]) (tokens ++ token :: rest) := by
  obtain ⟨first, more⟩ := held
  have longer := EntriesHeld.list first (more.snoc ⟨token, rest, rfl, comma, spelt⟩)
  rwa [← List.append_assoc] at longer

inductive Preceding (withValues : Bool) : List EnumEntry → List Token → Prop where
  | none : Preceding withValues [] []
  | some (held : EntriesHeld withValues entries tokens) (comma : token.kind = .comma) :
      Preceding withValues entries (tokens ++ [token])

theorem preceding_entry (preceding : Preceding withValues entries tokens)
    (spelt : EntrySpelt withValues entry rest) :
    EntriesHeld withValues (entries ++ [entry]) (tokens ++ rest) := by
  cases preceding with
  | none => exact entries_single spelt
  | some held comma => simpa using entries_snoc held comma spelt

inductive EnumHeld : EnumReading → List Token → Prop where
  | wanted : EnumHeld .wanted []
  | opened (opens : left.kind = .lBrace) : EnumHeld .opened [left]
  | firstNamed (opens : left.kind = .lBrace) (ident : name.kind = .ident) :
      EnumHeld (.firstNamed name) [left, name]
  | named (opens : left.kind = .lBrace) (preceding : Preceding true entries.toList tokens)
      (ident : name.kind = .ident) : EnumHeld (.named entries name) (left :: tokens ++ [name])
  | valueOpened (opens : left.kind = .lBrace) (preceding : Preceding true entries.toList tokens)
      (ident : name.kind = .ident) (paren : start.kind = .lParen) :
      EnumHeld (.valueOpened entries name) (left :: tokens ++ [name, start])
  | valued (opens : left.kind = .lBrace) (preceding : Preceding true entries.toList tokens)
      (ident : name.kind = .ident) (paren : start.kind = .lParen) (number : value.kind = .number) :
      EnumHeld (.valued entries name (.literal value)) (left :: tokens ++ [name, start, value])
  | entered (opens : left.kind = .lBrace) (held : EntriesHeld withValues entries.toList tokens) :
      EnumHeld (.entered withValues entries) (left :: tokens)
  | separated (opens : left.kind = .lBrace) (held : EntriesHeld withValues entries.toList tokens)
      (comma : token.kind = .comma) :
      EnumHeld (.separated withValues entries) (left :: tokens ++ [token])
  | maxOpened (opens : left.kind = .lBrace) (held : EntriesHeld withValues entries.toList tokens)
      (comma : token.kind = .comma) (paren : start.kind = .lParen) :
      EnumHeld (.maxOpened entries) (left :: tokens ++ [token, start])
  | maxRead (opens : left.kind = .lBrace) (held : EntriesHeld withValues entries.toList tokens)
      (comma : token.kind = .comma) (paren : start.kind = .lParen) (number : value.kind = .number) :
      EnumHeld (.maxRead entries (.literal value)) (left :: tokens ++ [token, start, value])
  | maxClosed (opens : left.kind = .lBrace) (held : EntriesHeld withValues entries.toList tokens)
      (last : After NumberSpelt .comma limit rest) :
      EnumHeld (.maxClosed entries limit) (left :: tokens ++ rest)
  | closed (opens : left.kind = .lBrace) (held : EntriesHeld withValues entries.toList tokens)
      (last : Optional (After NumberSpelt .comma) limit rest) (closes : right.kind = .rBrace) :
      EnumHeld (.closed entries limit) (left :: tokens ++ rest ++ [right])
  | finished (opens : left.kind = .lBrace) (held : EntriesHeld withValues entries.toList tokens)
      (last : Optional (After NumberSpelt .comma) limit rest) (closes : right.kind = .rBrace)
      (ident : name.kind = .ident) :
      EnumHeld (.finished entries limit name) (left :: tokens ++ rest ++ [right, name])

theorem enum_step (held : EnumHeld reading tokens) (next : reading.advance token = some after) :
    EnumHeld after (tokens ++ [token]) := by
  unfold EnumReading.advance at next
  split at next <;> cases next
  · cases held with
    | wanted => exact .opened ‹_›
  · cases held with
    | opened opens => exact .firstNamed opens ‹_›
  · cases held with
    | firstNamed opens ident =>
      have first : Preceding true (#[] : Array EnumEntry).toList [] := .none
      exact .valueOpened opens first ident ‹_›
  · cases held with
    | firstNamed opens ident => exact .separated opens (entries_single (.plain ident)) ‹_›
  · cases held with
    | firstNamed opens ident => exact .closed opens (entries_single (.plain ident)) .none ‹_›
  · cases held with
    | named opens preceding ident => simpa using EnumHeld.valueOpened opens preceding ident ‹_›
  · cases held with
    | valueOpened opens preceding ident paren =>
      simpa using EnumHeld.valued opens preceding ident paren ‹_›
  · rename_i closes
    cases held with
    | valued opens preceding ident paren number =>
      have longer := preceding_entry preceding (.valued ident (.paren paren number closes))
      rw [← Array.toList_push] at longer
      simpa using EnumHeld.entered opens longer
  · cases held with
    | entered opens held => exact .separated opens held ‹_›
  · cases held with
    | entered opens held => simpa using EnumHeld.closed opens held .none ‹_›
  · cases held with
    | separated opens held comma => simpa using EnumHeld.maxOpened opens held comma ‹_›
  · cases held with
    | separated opens held comma => simpa using EnumHeld.named opens (.some held comma) ‹_›
  · rename_i ident
    cases held with
    | separated opens held comma =>
      have longer := entries_snoc held comma (.plain ident)
      rw [← Array.toList_push] at longer
      simpa using EnumHeld.entered opens longer
  · cases held with
    | maxOpened opens held comma paren => simpa using EnumHeld.maxRead opens held comma paren ‹_›
  · rename_i closes
    cases held with
    | maxRead opens held comma paren number =>
      simpa using EnumHeld.maxClosed opens held ⟨_, _, rfl, comma, .paren paren number closes⟩
  · cases held with
    | maxClosed opens held last => exact .closed opens held (.some last) ‹_›
  · cases held with
    | closed opens held last closes => simpa using EnumHeld.finished opens held last closes ‹_›

theorem enum_done (held : EnumHeld reading tokens) (done : reading.decl? close = some listing)
    (word : enum.kind = .enumWord) : EnumSpelt listing (enum :: tokens ++ [close]) := by
  unfold EnumReading.decl? at done
  split at done <;> cases done
  cases held with
  | finished opens held last closes ident =>
    generalize same : Array.toList _ = entries at held
    obtain ⟨first, more⟩ := held
    simpa [same] using EnumSpelt.listing word opens first more last closes ident ‹_›

end WireFormat
