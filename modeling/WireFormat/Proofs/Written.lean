import Mathlib.Data.List.Forall2
import WireFormat.Proofs.Spelling

namespace WireFormat

-- Writing a tree back. A mark is what the tree knows of one token: its kind, its text
-- where the kind alone does not give it, and the whole token where the tree keeps it.
inductive Mark where
  | word (kind : Token.Kind)
  | segment (text : String)
  | kept (kind : Token.Kind) (token : Token)
  | head (text : String) (token : Token)
  | literal (number : Number)
  | power (number : Number)
  deriving DecidableEq, Repr

def Mark.Fits : Mark → Token → Prop
  | .word kind, token => token.kind = kind
  | .segment text, token => token.kind = .ident ∧ token.text = text
  | .kept kind own, token => token.kind = kind ∧ token = own
  | .head text own, token => token.kind = .ident ∧ token = own ∧ token.text = text
  | .literal number, token => token.kind = .number ∧ number = ⟨evaluateLiteral token.text, token⟩
  | .power number, token => token.kind = .power ∧ number = ⟨evaluatePower token.text, token⟩

def Name.marks (name : Name) : List Mark :=
  .head name.head name.token :: name.tail.flatMap fun text => [.word .dot, .segment text]

def TypeRef.marks : TypeRef → List Mark
  | .scalar type => [.word (.scalar type)]
  | .named name => name.marks

def SizeExpr.marks : SizeExpr → List Mark
  | .literal number => [.literal number]
  | .power number => [.power number]
  | .reference name => name.marks

def Bounds.marks : Bounds → List Mark
  | .fixed size => .word .lBracket :: size.marks ++ [.word .rBracket]
  | .range least most => .word .less :: least.marks ++ .word .dots :: most.marks ++ [.word .greater]

-- A part that may be absent, and parts with a word between each two.
def optionalMarks (marks : α → List Mark) : Option α → List Mark
  | none => []
  | some part => marks part

def listMarks (joint : Token.Kind) (marks : α → List Mark) : List α → List Mark
  | [] => []
  | first :: more => marks first ++ more.flatMap fun part => .word joint :: marks part

def Field.marks (entry : Field) : List Mark :=
  entry.type.marks ++ .kept .ident entry.name :: optionalMarks Bounds.marks entry.bounds ++
    [.kept .semi entry.close]

def Number.marks (number : Number) : List Mark := [.word .lParen, .literal number, .word .rParen]

def EnumEntry.marks (entry : EnumEntry) : List Mark :=
  .kept .ident entry.name :: optionalMarks Number.marks entry.value

def EnumDecl.marks (listing : EnumDecl) : List Mark :=
  .word .enumWord :: .word .lBrace :: listMarks .comma EnumEntry.marks listing.entries ++
    optionalMarks (fun number => .word .comma :: number.marks) listing.max ++
      [.word .rBrace, .kept .ident listing.name, .kept .semi listing.close]

def Label.marks (label : Label) : List Mark := [.kept .ident label.name, .kept .colon label.colon]

def Item.marks (item : Item) : List Mark :=
  (if item.signed then [.word .signedWord] else []) ++ item.type.marks ++
    optionalMarks (fun name => [.kept .ident name]) item.name ++ optionalMarks Bounds.marks item.bounds ++
      [.kept .semi item.close]

def itemsMarks (items : List Item) : List Mark :=
  if items.isEmpty then [.word .semi] else items.flatMap Item.marks

-- Without the `case` that it starts with.
def Arm.marks (arm : Arm) : List Mark :=
  listMarks .caseWord Label.marks arm.labels ++ itemsMarks arm.items

-- The token that an arm keeps of what follows is the next arm's `case`, or the closing brace.
def armsMarks : List Arm → List Mark
  | [] => []
  | [arm] => arm.marks ++ [.kept .rBrace arm.follow]
  | arm :: next :: rest => arm.marks ++ .kept .caseWord arm.follow :: armsMarks (next :: rest)

def Select.marks (choice : Select) : List Mark :=
  .word .selectWord :: .word .lParen :: choice.selector.marks ++
    .word .rParen :: .kept .lBrace choice.opening :: .word .caseWord :: armsMarks choice.arms ++
      optionalMarks (fun name => [.kept .ident name]) choice.name ++ [.kept .semi choice.close]

def structMarks (members : List Mark) (name close : Token) : List Mark :=
  .word .structWord :: .word .lBrace :: members ++ [.word .rBrace, .kept .ident name, .kept .semi close]

mutual

def Member.marks : Member → List Mark
  | .field entry => entry.marks
  | .struct members name close => structMarks (membersMarks members) name close
  | .select choice => choice.marks

def membersMarks : List Member → List Mark
  | [] => []
  | member :: rest => member.marks ++ membersMarks rest

end

def Decl.marks : Decl → List Mark
  | .field entry => entry.marks
  | .external name close => [.word .externWord, .kept .ident name, .kept .semi close]
  | .enum listing => listing.marks
  | .struct members name close => structMarks (membersMarks members) name close
  | .select choice => choice.marks

def Restores (marks : List Mark) (tokens : List Token) : Prop := List.Forall₂ Mark.Fits marks tokens

theorem restores_nil : Restores [] [] := List.Forall₂.nil

theorem Restores.cons (fits : mark.Fits token) (more : Restores marks tokens) :
    Restores (mark :: marks) (token :: tokens) := List.Forall₂.cons fits more

theorem Restores.append (front : Restores first left) (back : Restores second right) :
    Restores (first ++ second) (left ++ right) := List.rel_append front back

theorem Restores.word (same : token.kind = kind) (more : Restores marks tokens) :
    Restores (.word kind :: marks) (token :: tokens) := .cons same more

theorem Restores.kept (same : token.kind = kind) (more : Restores marks tokens) :
    Restores (.kept kind token :: marks) (token :: tokens) := .cons ⟨same, rfl⟩ more

theorem Restores.single (fits : mark.Fits token) : Restores [mark] [token] := .cons fits restores_nil

section Parts

variable {spelt : α → List Token → Prop} {marks : α → List Mark}

theorem optional_restored (each : ∀ part tokens, spelt part tokens → Restores (marks part) tokens)
    (given : Optional spelt part tokens) : Restores (optionalMarks marks part) tokens := by
  cases given with
  | none => exact restores_nil
  | some given => exact each _ _ given

theorem several_restored (each : ∀ part tokens, spelt part tokens → Restores (marks part) tokens)
    (given : Several spelt parts tokens) : Restores (parts.flatMap marks) tokens := by
  induction given with
  | nil => exact restores_nil
  | cons head _ ih => exact (each _ _ head).append ih

theorem after_restored (each : ∀ part tokens, spelt part tokens → Restores (marks part) tokens)
    (part : α) (tokens : List Token) (given : After spelt kind part tokens) :
    Restores (.word kind :: marks part) tokens := by
  obtain ⟨token, rest, rfl, same, given⟩ := given
  exact .cons same (each part rest given)

end Parts

theorem name_restored (spelt : NameSpelt name tokens) : Restores name.marks tokens := by
  induction spelt with
  | simple ident => exact .single ⟨ident, rfl, rfl⟩
  | @extend name tokens dot token _ joint ident ih =>
    have segment : Restores [.segment token.text] [token] := .single ⟨ident, rfl⟩
    simpa [Name.marks, Name.extend] using ih.append (.word joint segment)

theorem ident_restored (name : Token) (tokens : List Token) (spelt : IdentSpelt name tokens) :
    Restores [.kept .ident name] tokens := by
  obtain ⟨ident⟩ := spelt
  exact .kept ident restores_nil

theorem type_restored (spelt : TypeSpelt type tokens) : Restores type.marks tokens := by
  cases spelt with
  | scalar word => exact .word word restores_nil
  | named spelt => exact name_restored spelt

theorem size_restored (spelt : SizeSpelt size tokens) : Restores size.marks tokens := by
  cases spelt with
  | literal number => exact .single ⟨number, rfl⟩
  | power power => exact .single ⟨power, rfl⟩
  | reference spelt => exact name_restored spelt

theorem bounds_restored (bounds : Bounds) (tokens : List Token) (spelt : BoundsSpelt bounds tokens) :
    Restores bounds.marks tokens := by
  cases spelt with
  | fixed opens spelt closes =>
    exact .word opens ((size_restored spelt).append (.word closes restores_nil))
  | range opens low joint high closes =>
    have most := (size_restored high).append (.word closes restores_nil)
    have whole := Restores.word opens ((size_restored low).append (.word joint most))
    simpa [Bounds.marks] using whole

theorem field_restored (spelt : FieldSpelt entry tokens) : Restores entry.marks tokens := by
  obtain ⟨typed, ident, bounded, ends⟩ := spelt
  have bounds := optional_restored bounds_restored bounded
  have tail := bounds.append (.kept ends restores_nil)
  simpa [Field.marks] using (type_restored typed).append (.kept ident tail)

theorem number_restored (number : Number) (tokens : List Token) (spelt : NumberSpelt number tokens) :
    Restores number.marks tokens := by
  obtain ⟨opens, number, closes⟩ := spelt
  exact .word opens (.cons ⟨number, rfl⟩ (.word closes restores_nil))

theorem entry_restored (entry : EnumEntry) (tokens : List Token) (spelt : EntrySpelt withValues entry tokens) :
    Restores entry.marks tokens := by
  cases spelt with
  | plain ident => exact .kept ident restores_nil
  | valued ident value => exact .kept ident (number_restored _ _ value)

theorem enum_restored (spelt : EnumSpelt listing tokens) : Restores listing.marks tokens := by
  obtain ⟨word, opens, first, more, last, closes, ident, ends⟩ := spelt
  have others := several_restored (after_restored entry_restored) more
  have limit := optional_restored (after_restored number_restored) last
  have tail := limit.append (.word closes (.kept ident (.kept ends restores_nil)))
  have entries := (entry_restored _ _ first).append (others.append tail)
  simpa [EnumDecl.marks, listMarks] using Restores.word word (.word opens entries)

theorem item_restored (item : Item) (tokens : List Token) (spelt : ItemSpelt item tokens) :
    Restores item.marks tokens := by
  cases spelt with
  | bare typed ends =>
    simpa [Item.marks, optionalMarks] using (type_restored typed).append (.kept ends restores_nil)
  | named typed ident bounded ends =>
    have bounds := optional_restored bounds_restored bounded
    have tail := bounds.append (.kept ends restores_nil)
    simpa [Item.marks, optionalMarks] using (type_restored typed).append (.kept ident tail)

theorem clause_restored (spelt : ClauseSpelt signature tokens) : Restores signature.marks tokens := by
  obtain ⟨word, spelt, ends⟩ := spelt
  have tail := (name_restored spelt).append (.kept ends restores_nil)
  simpa [Item.marks, optionalMarks, TypeRef.marks] using Restores.word word tail

theorem body_restored (spelt : BodySpelt items tokens) : Restores (itemsMarks items) tokens := by
  cases spelt with
  | empty ends => exact .word ends restores_nil
  | single spelt => simpa [itemsMarks] using item_restored _ _ spelt
  | clause spelt => simpa [itemsMarks] using clause_restored spelt
  | followed signs spelt => simpa [itemsMarks] using (clause_restored signs).append (item_restored _ _ spelt)

theorem label_parts (spelt : LabelSpelt label tokens) :
    ∃ case rest, tokens = case :: rest ∧ case.kind = .caseWord ∧ Restores label.marks rest := by
  obtain ⟨word, ident, ends⟩ := spelt
  exact ⟨_, _, rfl, word, .kept ident (.kept ends restores_nil)⟩

theorem label_restored (label : Label) (tokens : List Token) (spelt : LabelSpelt label tokens) :
    Restores (.word .caseWord :: label.marks) tokens := by
  obtain ⟨case, rest, rfl, word, given⟩ := label_parts spelt
  exact .word word given

theorem arm_parts (spelt : ArmSpelt arm tokens) :
    ∃ case rest, tokens = case :: rest ∧ case.kind = .caseWord ∧ Restores arm.marks rest := by
  obtain @⟨_, _, labels, middle, items, back, _, first, more, body⟩ := spelt
  obtain ⟨case, rest, rfl, word, given⟩ := label_parts first
  have others := several_restored label_restored more
  have whole := given.append (others.append (body_restored body))
  refine ⟨case, rest ++ (middle ++ back), by simp, word, ?_⟩
  simpa [Arm.marks, listMarks] using whole

theorem armsMarks_cons (arm : Arm) (more : ArmsSpelt right arms tokens) :
    armsMarks (arm :: arms) = arm.marks ++ .kept .caseWord arm.follow :: armsMarks arms := by
  cases more <;> rfl

theorem arms_parts (spelt : ArmsSpelt right arms tokens) (closes : right.kind = .rBrace) :
    ∃ case rest, tokens = case :: rest ∧ case.kind = .caseWord ∧
      Restores (armsMarks arms) (rest ++ [right]) := by
  induction spelt with
  | last spelt next =>
    obtain ⟨case, rest, rfl, word, given⟩ := arm_parts spelt
    subst next
    exact ⟨case, rest, rfl, word, given.append (.kept closes restores_nil)⟩
  | cons spelt next more ih =>
    obtain ⟨case, rest, rfl, word, given⟩ := arm_parts spelt
    obtain ⟨second, others, rfl, again, later⟩ := ih
    have own := Option.some.inj next
    refine ⟨case, rest ++ second :: others, by simp, word, ?_⟩
    rw [armsMarks_cons _ more, ← own]
    simpa using given.append (.kept again later)

theorem select_restored (spelt : SelectSpelt choice tokens) : Restores choice.marks tokens := by
  obtain ⟨word, before, chosen, after, opens, cases, closes, named, ends⟩ := spelt
  obtain ⟨case, rest, rfl, first, arms⟩ := arms_parts cases closes
  have name := optional_restored ident_restored named
  have tail := arms.append (name.append (.kept ends restores_nil))
  have body := Restores.word after (.kept opens (.word first tail))
  simpa [Select.marks] using Restores.word word (.word before ((name_restored chosen).append body))

theorem members_restored {inner : Member → List Token → Prop}
    (each : ∀ member tokens, inner member tokens → Restores member.marks tokens)
    (given : Several inner members tokens) : Restores (membersMarks members) tokens := by
  induction given with
  | nil => exact restores_nil
  | cons head _ ih => exact (each _ _ head).append ih

theorem member_restored (n : Nat) (member : Member) (tokens : List Token)
    (spelt : MemberSpelt n member tokens) : Restores member.marks tokens := by
  induction n generalizing member tokens with
  | zero =>
    obtain ⟨entry, rfl, spelt⟩ := spelt
    exact field_restored spelt
  | succ n ih =>
    cases spelt with
    | line spelt => exact field_restored spelt
    | select spelt => exact select_restored spelt
    | struct word opens members closes ident ends =>
      have tail := Restores.word closes (.kept ident (.kept ends restores_nil))
      exact .word word (.word opens ((members_restored ih members).append tail))

theorem toDecl_marks (member : Member) : member.toDecl.marks = member.marks := by
  cases member <;> rfl

theorem decl_restored (decl : Decl) (tokens : List Token) (spelt : DeclSpelt decl tokens) :
    Restores decl.marks tokens := by
  cases spelt with
  | external word ident ends => exact .word word (.kept ident (.kept ends restores_nil))
  | enum spelt => exact enum_restored spelt
  | member member spelt =>
    rw [toDecl_marks]
    exact member_restored maxNesting member tokens spelt

theorem schema_restored (spelt : SchemaSpelt decls tokens) : Restores (decls.flatMap Decl.marks) tokens :=
  several_restored decl_restored spelt.2

end WireFormat
