import WireFormat.Proofs.Held

namespace WireFormat

-- The same for the arms of a select. Each arm starts with the `case` that the arm
-- before it keeps as the token that follows.

structure LabelsHeld (labels : List Label) (tokens : List Token) : Prop where
  spelt : Several LabelSpelt labels tokens
  some : labels ≠ []

inductive ArmHeld : ArmReading → List Token → Prop where
  | cased (spelt : Several LabelSpelt labels.toList tokens) (word : case.kind = .caseWord) :
      ArmHeld (.cased labels) (tokens ++ [case])
  | labelled (spelt : Several LabelSpelt labels.toList tokens) (word : case.kind = .caseWord)
      (ident : name.kind = .ident) : ArmHeld (.labelled labels name) (tokens ++ [case, name])
  | coloned (held : LabelsHeld labels.toList tokens) : ArmHeld (.coloned labels) tokens
  | signing (held : LabelsHeld labels.toList tokens) (word : signed.kind = .signedWord) :
      ArmHeld (.signing labels) (tokens ++ [signed])
  | signed (held : LabelsHeld labels.toList tokens) (word : signed.kind = .signedWord)
      (spelt : NameSpelt name rest) : ArmHeld (.signed labels name) (tokens ++ signed :: rest)
  | signedDotted (held : LabelsHeld labels.toList tokens) (word : signed.kind = .signedWord)
      (spelt : NameSpelt name rest) (joint : dot.kind = .dot) :
      ArmHeld (.signedDotted labels name) (tokens ++ signed :: rest ++ [dot])
  | clause (held : LabelsHeld labels.toList tokens) (spelt : ClauseSpelt signature rest) :
      ArmHeld (.clause labels signature) (tokens ++ rest)
  | item (held : LabelsHeld labels.toList tokens) (line : LineHeld reading rest) :
      ArmHeld (.item labels [] reading) (tokens ++ rest)
  | followed (held : LabelsHeld labels.toList tokens) (spelt : ClauseSpelt signature middle)
      (line : LineHeld reading rest) (named : reading.type = .named name) :
      ArmHeld (.item labels [signature] reading) (tokens ++ middle ++ rest)
  | complete (held : LabelsHeld labels.toList tokens) (body : BodySpelt items rest) :
      ArmHeld (.complete labels items) (tokens ++ rest)

theorem labels_push {labels : Array Label} (spelt : Several LabelSpelt labels.toList tokens) (word : case.kind = .caseWord)
    (ident : name.kind = .ident) (ends : colon.kind = .colon) :
    LabelsHeld (labels.push ⟨name, colon⟩).toList (tokens ++ [case, name, colon]) := by
  rw [Array.toList_push]
  exact ⟨spelt.snoc (.label word ident ends), by simp⟩

theorem arm_step (held : ArmHeld reading tokens) (next : reading.advance token = some after) :
    ArmHeld after (tokens ++ [token]) := by
  cases held with
  | cased spelt word =>
    simp only [ArmReading.advance, Option.ite_none_right_eq_some] at next
    obtain ⟨ident, ⟨⟩⟩ := next
    simpa using ArmHeld.labelled spelt word ident
  | labelled spelt word ident =>
    simp only [ArmReading.advance, Option.ite_none_right_eq_some] at next
    obtain ⟨ends, ⟨⟩⟩ := next
    simpa using ArmHeld.coloned (labels_push spelt word ident ends)
  | coloned held =>
    simp only [ArmReading.advance] at next
    split at next
    · cases next
      exact .cased held.spelt ‹_›
    · cases next
      exact .complete held (.empty ‹_›)
    · cases next
      exact .signing held ‹_›
    · obtain ⟨line, starts, rfl⟩ := Option.map_eq_some_iff.mp next
      exact .item held (line_start starts)
  | signing held word =>
    simp only [ArmReading.advance, Option.ite_none_right_eq_some] at next
    obtain ⟨ident, ⟨⟩⟩ := next
    simpa using ArmHeld.signed held word (.simple ident)
  | signed held word spelt =>
    simp only [ArmReading.advance] at next
    split at next <;> cases next
    · exact .signedDotted held word spelt ‹_›
    · simpa using ArmHeld.clause held (.clause word spelt ‹_›)
  | signedDotted held word spelt joint =>
    simp only [ArmReading.advance, Option.ite_none_right_eq_some] at next
    obtain ⟨ident, ⟨⟩⟩ := next
    simpa using ArmHeld.signed held word (spelt.extend joint ident)
  | clause held spelt =>
    simp only [ArmReading.advance, Option.ite_none_right_eq_some] at next
    obtain ⟨ident, ⟨⟩⟩ := next
    exact .followed held spelt (.typed (.named (.simple ident))) rfl
  | item held line =>
    simp only [ArmReading.advance] at next
    split at next
    · cases next
      simpa using ArmHeld.complete held (.single (line_item line ‹_›))
    · obtain ⟨grown, step, rfl⟩ := Option.map_eq_some_iff.mp next
      simpa using ArmHeld.item held (line_step line step)
  | followed held spelt line named =>
    simp only [ArmReading.advance] at next
    split at next
    · cases next
      have sort := (item_type ‹_›).trans named
      simpa using ArmHeld.complete held (.followed spelt (line_item line ‹_›) sort)
    · obtain ⟨grown, step, rfl⟩ := Option.map_eq_some_iff.mp next
      obtain ⟨longer, named⟩ := line_named step named
      simpa using ArmHeld.followed held spelt (line_step line step) named
  | complete => cases next

theorem labels_arm (held : LabelsHeld labels tokens) (body : BodySpelt items rest) :
    ArmSpelt ⟨labels, items, follow⟩ (tokens ++ rest) := by
  obtain ⟨spelt, some⟩ := held
  cases spelt with
  | nil => exact absurd rfl some
  | cons first more => exact .arm first more body

theorem arm_done (held : ArmHeld reading tokens) (done : reading.arm? follow = some arm) :
    ArmSpelt arm tokens ∧ arm.follow = follow := by
  cases held with
  | clause held spelt =>
    cases done
    exact ⟨labels_arm held (.clause spelt), rfl⟩
  | complete held body =>
    cases done
    exact ⟨labels_arm held body, rfl⟩
  | _ => cases done

inductive ArmsBefore (next : Token) : List Arm → List Token → Prop where
  | none : ArmsBefore next [] []
  | some (spelt : ArmsSpelt next arms tokens) : ArmsBefore next arms tokens

theorem head_append {front : List Token} (starts : front.head? = some token) (back : List Token) :
    (front ++ back).head? = some token := by
  rw [List.head?_append, starts]
  rfl

theorem arms_snoc (before : ArmsSpelt next arms front) (spelt : ArmSpelt arm back)
    (first : back.head? = some next) : ArmsSpelt arm.follow (arms ++ [arm]) (front ++ back) := by
  induction before with
  | last head follows => exact .cons head (by rw [first, follows]) (.last spelt rfl)
  | cons head follows more ih =>
    rw [List.append_assoc]
    exact .cons head (head_append follows back) ih

theorem before_snoc (before : ArmsBefore next arms front) (spelt : ArmSpelt arm back)
    (first : back.head? = some next) : ArmsSpelt arm.follow (arms ++ [arm]) (front ++ back) := by
  cases before with
  | none => exact .last spelt rfl
  | some before => exact arms_snoc before spelt first

inductive SelectHeld : SelectReading → List Token → Prop where
  | wanted : SelectHeld .wanted []
  | opened (before : left.kind = .lParen) : SelectHeld .opened [left]
  | choosing (before : left.kind = .lParen) (chosen : NameSpelt name tokens) :
      SelectHeld (.choosing name) (left :: tokens)
  | choosingDotted (before : left.kind = .lParen) (chosen : NameSpelt name tokens)
      (joint : dot.kind = .dot) : SelectHeld (.choosingDotted name) (left :: tokens ++ [dot])
  | selected (before : left.kind = .lParen) (chosen : NameSpelt name tokens)
      (closes : right.kind = .rParen) : SelectHeld (.selected name) (left :: tokens ++ [right])
  | braced (before : left.kind = .lParen) (chosen : NameSpelt name tokens)
      (closes : right.kind = .rParen) (opens : opening.kind = .lBrace) :
      SelectHeld (.braced name opening) (left :: tokens ++ [right, opening])
  | inArm (before : left.kind = .lParen) (chosen : NameSpelt name tokens)
      (closes : right.kind = .rParen) (opens : opening.kind = .lBrace)
      (others : ArmsBefore next arms.toList middle) (held : ArmHeld arm rest)
      (first : rest.head? = some next) :
      SelectHeld (.inArm name opening arms arm) (left :: tokens ++ right :: opening :: middle ++ rest)
  | closed (before : left.kind = .lParen) (chosen : NameSpelt name tokens)
      (closes : right.kind = .rParen) (opens : opening.kind = .lBrace)
      (spelt : ArmsSpelt brace arms.toList rest) (ends : brace.kind = .rBrace) :
      SelectHeld (.closed name opening arms) (left :: tokens ++ right :: opening :: rest ++ [brace])
  | named (before : left.kind = .lParen) (chosen : NameSpelt name tokens)
      (closes : right.kind = .rParen) (opens : opening.kind = .lBrace)
      (spelt : ArmsSpelt brace arms.toList rest) (ends : brace.kind = .rBrace)
      (ident : token.kind = .ident) : SelectHeld (.named name opening arms token)
        (left :: tokens ++ right :: opening :: rest ++ [brace, token])

theorem arm_start (word : token.kind = .caseWord) : ArmHeld (.cased #[]) [token] := by
  have fresh : Several LabelSpelt (#[] : Array Label).toList [] := .nil
  exact .cased fresh word

theorem first_arm : ArmsBefore next (#[] : Array Arm).toList [] := .none

theorem select_step (held : SelectHeld reading tokens) (next : reading.advance token = some after) :
    SelectHeld after (tokens ++ [token]) := by
  cases held with
  | wanted =>
    simp only [SelectReading.advance, Option.ite_none_right_eq_some] at next
    obtain ⟨before, ⟨⟩⟩ := next
    exact .opened before
  | opened before =>
    simp only [SelectReading.advance, Option.ite_none_right_eq_some] at next
    obtain ⟨ident, ⟨⟩⟩ := next
    exact .choosing before (.simple ident)
  | choosing before chosen =>
    simp only [SelectReading.advance] at next
    split at next <;> cases next
    · exact .choosingDotted before chosen ‹_›
    · exact .selected before chosen ‹_›
  | choosingDotted before chosen joint =>
    simp only [SelectReading.advance, Option.ite_none_right_eq_some] at next
    obtain ⟨ident, ⟨⟩⟩ := next
    simpa using SelectHeld.choosing before (chosen.extend joint ident)
  | selected before chosen closes =>
    simp only [SelectReading.advance, Option.ite_none_right_eq_some] at next
    obtain ⟨opens, ⟨⟩⟩ := next
    simpa using SelectHeld.braced before chosen closes opens
  | braced before chosen closes opens =>
    simp only [SelectReading.advance, Option.ite_none_right_eq_some] at next
    obtain ⟨word, ⟨⟩⟩ := next
    simpa using SelectHeld.inArm before chosen closes opens first_arm (arm_start word) rfl
  | inArm before chosen closes opens others held first =>
    simp only [SelectReading.advance] at next
    split at next
    · rename_i done word
      cases next
      obtain ⟨spelt, rfl⟩ := arm_done held done
      have longer := before_snoc others spelt first
      rw [← Array.toList_push] at longer
      simpa using SelectHeld.inArm before chosen closes opens (.some longer) (arm_start word) rfl
    · rename_i done ends
      cases next
      obtain ⟨spelt, rfl⟩ := arm_done held done
      have longer := before_snoc others spelt first
      rw [← Array.toList_push] at longer
      simpa using SelectHeld.closed before chosen closes opens longer ends
    · obtain ⟨grown, step, rfl⟩ := Option.map_eq_some_iff.mp next
      have starts := head_append first [token]
      simpa using SelectHeld.inArm before chosen closes opens others (arm_step held step) starts
  | closed before chosen closes opens spelt ends =>
    simp only [SelectReading.advance, Option.ite_none_right_eq_some] at next
    obtain ⟨ident, ⟨⟩⟩ := next
    simpa using SelectHeld.named before chosen closes opens spelt ends ident
  | named => cases next

theorem select_done (held : SelectHeld reading tokens) (done : reading.select? close = some choice)
    (word : select.kind = .selectWord) : SelectSpelt choice (select :: tokens ++ [close]) := by
  unfold SelectReading.select? at done
  split at done
  · cases done
  · rename_i semi
    rw [Decidable.not_not] at semi
    split at done <;> cases done
    · cases held with
      | closed before chosen closes opens spelt ends =>
        simpa using SelectSpelt.choice word before chosen closes opens spelt ends .none semi
    · cases held with
      | named before chosen closes opens spelt ends ident =>
        simpa using SelectSpelt.choice word before chosen closes opens spelt ends (.some (.ident ident)) semi

end WireFormat
