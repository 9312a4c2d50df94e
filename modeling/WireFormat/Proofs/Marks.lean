import WireFormat.Proofs.Written

namespace WireFormat

-- The kinds of the tokens that a tree is written as.

def Token.Kind.isFixed : Token.Kind → Bool
  | .ident | .number | .power | .unknown | .eof => false
  | _ => true

namespace Mark

def kind : Mark → Token.Kind
  | .word kind | .kept kind _ => kind
  | .segment _ | .head _ _ => .ident
  | .literal _ => .number
  | .power _ => .power

theorem Fits.kind {mark : Mark} (fits : mark.Fits token) : token.kind = mark.kind := by
  cases mark with
  | word => exact fits
  | segment | kept | head | literal | power => exact fits.1

-- A mark whose text is known: it is kept, or there is only one.
def isProper : Mark → Bool
  | .word kind => kind.isFixed
  | .kept kind _ => kind = .ident || kind.isFixed
  | _ => true

end Mark

section Parts

-- The marks of a part are among those of the whole.

theorem list_subset {marks : α → List Mark} (stands : part ∈ parts) : marks part ⊆ listMarks joint marks parts := by
  cases parts with
  | nil => cases stands
  | cons first more =>
    rcases List.mem_cons.mp stands with rfl | later
    · exact List.subset_append_left _ _
    · exact fun mark member => List.mem_append_right _ (List.mem_flatMap.mpr ⟨part, later, .tail _ member⟩)

theorem list_mem {marks : α → List Mark} (member : mark ∈ listMarks joint marks parts) :
    mark = .word joint ∨ ∃ part ∈ parts, mark ∈ marks part := by
  cases parts with
  | nil => cases member
  | cons first more =>
    rcases List.mem_append.mp member with here | later
    · exact .inr ⟨first, .head _, here⟩
    · obtain ⟨part, stands, listed⟩ := List.mem_flatMap.mp later
      rcases List.mem_cons.mp listed with rfl | inside
      · exact .inl rfl
      · exact .inr ⟨part, .tail _ stands, inside⟩

theorem items_subset (stands : item ∈ items) : item.marks ⊆ itemsMarks items := by
  have some : items.isEmpty = false := List.isEmpty_eq_false_iff_exists_mem.mpr ⟨item, stands⟩
  rw [itemsMarks, some]
  exact fun mark member => List.mem_flatMap.mpr ⟨item, stands, member⟩

theorem arms_subset (stands : arm ∈ arms) : arm.marks ⊆ armsMarks arms := by
  induction arms with
  | nil => cases stands
  | cons first rest ih =>
    cases rest with
    | nil =>
      cases List.mem_singleton.mp stands
      exact List.subset_append_left _ _
    | cons next more =>
      rcases List.mem_cons.mp stands with rfl | later
      · exact List.subset_append_left _ _
      · exact fun mark member => List.mem_append_right _ (.tail _ (ih later member))

theorem members_subset (stands : member ∈ members) : member.marks ⊆ membersMarks members := by
  induction members with
  | nil => cases stands
  | cons first rest ih =>
    rw [membersMarks]
    rcases List.mem_cons.mp stands with rfl | later
    · exact List.subset_append_left _ _
    · exact fun mark listed => List.mem_append_right _ (ih later listed)

end Parts

def Proper (marks : List Mark) : Prop := ∀ mark ∈ marks, mark.isProper = true

section Proper

theorem proper_nil : Proper [] := List.forall_mem_nil _

theorem proper_cons : Proper (mark :: marks) ↔ mark.isProper = true ∧ Proper marks := List.forall_mem_cons

theorem proper_append : Proper (front ++ back) ↔ Proper front ∧ Proper back := List.forall_mem_append

theorem Proper.cons (here : mark.isProper = true) (later : Proper marks) : Proper (mark :: marks) :=
  proper_cons.mpr ⟨here, later⟩

theorem Proper.append (before : Proper front) (after : Proper back) : Proper (front ++ back) :=
  proper_append.mpr ⟨before, after⟩

theorem proper_single (proper : mark.isProper = true) : Proper [mark] := .cons proper proper_nil

theorem proper_flatMap {marks : α → List Mark} (each : ∀ part, Proper (marks part)) (parts : List α) :
    Proper (parts.flatMap marks) := by
  intro mark member
  obtain ⟨part, _, here⟩ := List.mem_flatMap.mp member
  exact each part mark here

theorem proper_optional {marks : α → List Mark} (each : ∀ part, Proper (marks part)) (part : Option α) :
    Proper (optionalMarks marks part) := by
  cases part with
  | none => exact proper_nil
  | some part => exact each part

theorem proper_list {marks : α → List Mark} (fixed : (Mark.word joint).isProper = true)
    (each : ∀ part, Proper (marks part)) (parts : List α) : Proper (listMarks joint marks parts) := by
  cases parts with
  | nil => exact proper_nil
  | cons first more =>
    exact (each first).append (proper_flatMap (fun part => .cons fixed (each part)) more)

end Proper

section Trees

theorem name_proper (name : Name) : Proper name.marks :=
  .cons rfl (proper_flatMap (fun _ => .cons rfl (proper_single rfl)) name.tail)

theorem type_proper (type : TypeRef) : Proper type.marks := by
  cases type with
  | scalar => exact proper_single rfl
  | named name => exact name_proper name

theorem size_proper (size : SizeExpr) : Proper size.marks := by
  cases size with
  | literal | power => exact proper_single rfl
  | reference name => exact name_proper name

theorem bounds_proper (bounds : Bounds) : Proper bounds.marks := by
  cases bounds with
  | fixed size => exact .append (.cons rfl (size_proper size)) (proper_single rfl)
  | range least most =>
    exact .append (.append (.cons rfl (size_proper least)) (.cons rfl (size_proper most))) (proper_single rfl)

theorem named_proper (name : Option Token) : Proper (optionalMarks (fun name => [.kept .ident name]) name) :=
  proper_optional (fun _ => proper_single rfl) name

theorem field_proper (entry : Field) : Proper entry.marks := by
  have bounds := proper_optional bounds_proper entry.bounds
  exact ((type_proper entry.type).append (.cons rfl bounds)).append (proper_single rfl)

theorem number_proper (number : Number) : Proper number.marks := .cons rfl (.cons rfl (proper_single rfl))

theorem entry_proper (entry : EnumEntry) : Proper entry.marks := .cons rfl (proper_optional number_proper entry.value)

theorem enum_proper (listing : EnumDecl) : Proper listing.marks := by
  have entries : Proper (listMarks .comma EnumEntry.marks listing.entries) := proper_list rfl entry_proper _
  have max : Proper (optionalMarks (fun number => .word .comma :: number.marks) listing.max) :=
    proper_optional (fun number => .cons rfl (number_proper number)) _
  exact .append (.append (.cons rfl (.cons rfl entries)) max) (.cons rfl (.cons rfl (proper_single rfl)))

theorem label_proper (label : Label) : Proper label.marks := .cons rfl (proper_single rfl)

theorem item_proper (item : Item) : Proper item.marks := by
  have signed : Proper (if item.signed then [.word .signedWord] else []) := by
    split
    · exact proper_single rfl
    · exact proper_nil
  have named := (signed.append (type_proper item.type)).append (named_proper item.name)
  exact (named.append (proper_optional bounds_proper item.bounds)).append (proper_single rfl)

theorem arm_proper (arm : Arm) : Proper arm.marks := by
  refine (proper_list rfl label_proper arm.labels).append ?_
  unfold itemsMarks
  split
  · exact proper_single rfl
  · exact proper_flatMap item_proper arm.items

theorem arms_proper (arms : List Arm) : Proper (armsMarks arms) := by
  induction arms with
  | nil => exact proper_nil
  | cons arm rest ih =>
    cases rest with
    | nil => exact (arm_proper arm).append (proper_single rfl)
    | cons next more => exact (arm_proper arm).append (.cons rfl ih)

theorem select_proper (choice : Select) : Proper choice.marks := by
  have selector : Proper (.word .selectWord :: .word .lParen :: choice.selector.marks) :=
    .cons rfl (.cons rfl (name_proper choice.selector))
  have arms : Proper (.word .rParen :: .kept .lBrace choice.opening :: .word .caseWord :: armsMarks choice.arms) :=
    .cons rfl (.cons rfl (.cons rfl (arms_proper choice.arms)))
  exact ((selector.append arms).append (named_proper choice.name)).append (proper_single rfl)

theorem struct_proper (inside : Proper members) (name close : Token) : Proper (structMarks members name close) := by
  have body : Proper (.word .structWord :: .word .lBrace :: members) := .cons rfl (.cons rfl inside)
  exact body.append (.cons rfl (.cons rfl (proper_single rfl)))

mutual

theorem member_proper (member : Member) : Proper member.marks := by
  cases member with
  | field entry => exact field_proper entry
  | struct members name close => exact struct_proper (members_proper members) name close
  | select choice => exact select_proper choice

theorem members_proper (members : List Member) : Proper (membersMarks members) := by
  cases members with
  | nil => exact proper_nil
  | cons member rest => exact (member_proper member).append (members_proper rest)

end

theorem decl_proper (decl : Decl) : Proper decl.marks := by
  cases decl with
  | field entry => exact field_proper entry
  | external name close => exact .cons rfl (.cons rfl (proper_single rfl))
  | enum listing => exact enum_proper listing
  | struct members name close => exact struct_proper (members_proper members) name close
  | select choice => exact select_proper choice

end Trees

end WireFormat
