import WireFormat.Reading

namespace WireFormat

-- Which tokens spell which tree: one rule for each production of the grammar, with
-- every token that a node keeps at its place.

section Parts

variable (spelt : α → List Token → Prop)

inductive Optional : Option α → List Token → Prop where
  | none : Optional none []
  | some (part : spelt item tokens) : Optional (some item) tokens

inductive Several : List α → List Token → Prop where
  | nil : Several [] []
  | cons (head : spelt item front) (tail : Several items back) :
      Several (item :: items) (front ++ back)

def After (kind : Token.Kind) (item : α) (tokens : List Token) : Prop :=
  ∃ token rest, tokens = token :: rest ∧ token.kind = kind ∧ spelt item rest

end Parts

inductive NameSpelt : Name → List Token → Prop where
  | simple (ident : token.kind = .ident) : NameSpelt (.simple token) [token]
  | extend (front : NameSpelt name tokens) (joint : dot.kind = .dot) (ident : token.kind = .ident) :
      NameSpelt (name.extend token.text) (tokens ++ [dot, token])

inductive TypeSpelt : TypeRef → List Token → Prop where
  | scalar (word : token.kind = .scalar type) : TypeSpelt (.scalar type) [token]
  | named (spelt : NameSpelt name tokens) : TypeSpelt (.named name) tokens

inductive SizeSpelt : SizeExpr → List Token → Prop where
  | literal (number : token.kind = .number) : SizeSpelt (.literal (.literal token)) [token]
  | power (power : token.kind = .power) : SizeSpelt (.power (.power token)) [token]
  | reference (spelt : NameSpelt name tokens) : SizeSpelt (.reference name) tokens

inductive BoundsSpelt : Bounds → List Token → Prop where
  | fixed (opens : left.kind = .lBracket) (spelt : SizeSpelt size tokens)
      (closes : right.kind = .rBracket) : BoundsSpelt (.fixed size) (left :: tokens ++ [right])
  | range (opens : left.kind = .less) (low : SizeSpelt least front) (joint : dots.kind = .dots)
      (high : SizeSpelt most back) (closes : right.kind = .greater) :
      BoundsSpelt (.range least most) (left :: front ++ dots :: back ++ [right])

inductive FieldSpelt : Field → List Token → Prop where
  | line (typed : TypeSpelt type front) (ident : name.kind = .ident)
      (bounded : Optional BoundsSpelt bounds back) (ends : close.kind = .semi) :
      FieldSpelt ⟨type, name, bounds, close⟩ (front ++ name :: back ++ [close])

inductive NumberSpelt : Number → List Token → Prop where
  | paren (opens : left.kind = .lParen) (number : token.kind = .number)
      (closes : right.kind = .rParen) : NumberSpelt (.literal token) [left, token, right]

-- `withValues` is the same for all entries of an enum.
inductive EntrySpelt : Bool → EnumEntry → List Token → Prop where
  | plain (ident : name.kind = .ident) : EntrySpelt false ⟨name, none⟩ [name]
  | valued (ident : name.kind = .ident) (value : NumberSpelt number tokens) :
      EntrySpelt true ⟨name, some number⟩ (name :: tokens)

inductive EnumSpelt : EnumDecl → List Token → Prop where
  | listing (word : enum.kind = .enumWord) (opens : left.kind = .lBrace)
      (first : EntrySpelt withValues entry front)
      (more : Several (After (EntrySpelt withValues) .comma) entries middle)
      (last : Optional (After NumberSpelt .comma) limit back)
      (closes : right.kind = .rBrace) (ident : name.kind = .ident) (ends : close.kind = .semi) :
      EnumSpelt ⟨entry :: entries, limit, name, close⟩
        (enum :: left :: front ++ middle ++ back ++ [right, name, close])

inductive LabelSpelt : Label → List Token → Prop where
  | label (word : case.kind = .caseWord) (ident : name.kind = .ident) (ends : colon.kind = .colon) :
      LabelSpelt ⟨name, colon⟩ [case, name, colon]

inductive ItemSpelt : Item → List Token → Prop where
  | bare (typed : TypeSpelt type front) (ends : close.kind = .semi) :
      ItemSpelt ⟨false, type, none, none, close⟩ (front ++ [close])
  | named (typed : TypeSpelt type front) (ident : name.kind = .ident)
      (bounded : Optional BoundsSpelt bounds back) (ends : close.kind = .semi) :
      ItemSpelt ⟨false, type, some name, bounds, close⟩ (front ++ name :: back ++ [close])

inductive ClauseSpelt : Item → List Token → Prop where
  | clause (word : signed.kind = .signedWord) (spelt : NameSpelt name tokens) (ends : close.kind = .semi) :
      ClauseSpelt ⟨true, .named name, none, none, close⟩ (signed :: tokens ++ [close])

-- Only an item of a named type may follow a signed clause.
inductive BodySpelt : List Item → List Token → Prop where
  | empty (ends : close.kind = .semi) : BodySpelt [] [close]
  | single (spelt : ItemSpelt item tokens) : BodySpelt [item] tokens
  | clause (spelt : ClauseSpelt signature tokens) : BodySpelt [signature] tokens
  | followed (signs : ClauseSpelt signature front) (spelt : ItemSpelt item back)
      (named : item.type = .named name) : BodySpelt [signature, item] (front ++ back)

inductive ArmSpelt : Arm → List Token → Prop where
  | arm (first : LabelSpelt label front) (more : Several LabelSpelt labels middle)
      (body : BodySpelt items back) : ArmSpelt ⟨label :: labels, items, follow⟩ (front ++ middle ++ back)

-- The token after an arm is the next arm's first one, or the brace that ends the last.
inductive ArmsSpelt (right : Token) : List Arm → List Token → Prop where
  | last (spelt : ArmSpelt arm tokens) (next : arm.follow = right) : ArmsSpelt right [arm] tokens
  | cons (spelt : ArmSpelt arm front) (next : back.head? = some arm.follow)
      (more : ArmsSpelt right arms back) : ArmsSpelt right (arm :: arms) (front ++ back)

inductive IdentSpelt : Token → List Token → Prop where
  | ident (ident : token.kind = .ident) : IdentSpelt token [token]

inductive SelectSpelt : Select → List Token → Prop where
  | choice (word : select.kind = .selectWord) (before : left.kind = .lParen)
      (chosen : NameSpelt selector front) (after : right.kind = .rParen) (opens : opening.kind = .lBrace)
      (cases : ArmsSpelt brace arms middle) (closes : brace.kind = .rBrace)
      (named : Optional IdentSpelt name back) (ends : close.kind = .semi) :
      SelectSpelt ⟨selector, opening, arms, name, close⟩
        (select :: left :: front ++ right :: opening :: middle ++ brace :: back ++ [close])

-- A member whose own members, if it is a struct, are `inner` ones.
inductive NestedSpelt (inner : Member → List Token → Prop) : Member → List Token → Prop where
  | line (spelt : FieldSpelt entry tokens) : NestedSpelt inner (.field entry) tokens
  | struct (word : struct.kind = .structWord) (opens : left.kind = .lBrace)
      (members : Several inner body tokens) (closes : right.kind = .rBrace)
      (ident : name.kind = .ident) (ends : close.kind = .semi) :
      NestedSpelt inner (.struct body name close) (struct :: left :: tokens ++ [right, name, close])
  | select (spelt : SelectSpelt choice tokens) : NestedSpelt inner (.select choice) tokens

-- The number is that of the bodies which may still be opened.
def MemberSpelt : Nat → Member → List Token → Prop
  | 0 => fun member tokens => ∃ entry, member = .field entry ∧ FieldSpelt entry tokens
  | n + 1 => NestedSpelt (MemberSpelt n)

inductive DeclSpelt : Decl → List Token → Prop where
  | external (word : head.kind = .externWord) (ident : name.kind = .ident) (ends : close.kind = .semi) :
      DeclSpelt (.external name close) [head, name, close]
  | enum (spelt : EnumSpelt listing tokens) : DeclSpelt (.enum listing) tokens
  | member (member : Member) (spelt : MemberSpelt maxNesting member tokens) :
      DeclSpelt member.toDecl tokens

def SchemaSpelt (decls : List Decl) (tokens : List Token) : Prop :=
  decls ≠ [] ∧ Several DeclSpelt decls tokens

end WireFormat
