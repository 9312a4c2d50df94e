import WireFormat.Proofs.LineOrder
import WireFormat.Proofs.Marks

namespace WireFormat

-- The numbers and the bounds of a schema in the order in which they are written, and what
-- is found of them. All other findings are about names.

-- The bounds of a line, with the name that messages give to the line and its semicolon.
structure Bound where
  owner : String
  bounds : Bounds
  close : Token

inductive Quantity where
  | number (number : Number)
  | bound (bound : Bound)

def SizeExpr.number? : SizeExpr → Option Number
  | .literal number | .power number => some number
  | .reference _ => none

def Bounds.numbers (bounds : Bounds) : List Number := bounds.sizes.filterMap SizeExpr.number?

namespace Quantity

def numbers : Quantity → List Number
  | .number value => [value]
  | .bound line => line.bounds.numbers

def bound? : Quantity → Option Bound
  | .number _ => none
  | .bound line => some line

end Quantity

def lineQuantities (owner : String) (close : Token) (bounds : Option Bounds) : List Quantity :=
  bounds.toList.map fun bounds => .bound ⟨owner, bounds, close⟩

def EnumDecl.quantities (listing : EnumDecl) : List Quantity :=
  (listing.entries.flatMap fun entry => entry.value.toList.map .number) ++ listing.max.toList.map .number

def Arm.quantities (arm : Arm) : List Quantity :=
  arm.items.flatMap fun item => lineQuantities item.owner item.close item.bounds

def Select.quantities (choice : Select) : List Quantity := choice.arms.flatMap Arm.quantities

mutual

def Member.quantities : Member → List Quantity
  | .field entry => lineQuantities entry.name.text entry.close entry.bounds
  | .struct members _ _ => Member.allQuantities members
  | .select choice => choice.quantities

def Member.allQuantities : List Member → List Quantity
  | [] => []
  | member :: rest => member.quantities ++ Member.allQuantities rest

end

def Decl.quantities : Decl → List Quantity
  | .field entry => lineQuantities entry.name.text entry.close entry.bounds
  | .external .. => []
  | .enum listing => listing.quantities
  | .struct members _ _ => Member.allQuantities members
  | .select choice => choice.quantities

def Cause.isMeasure : Cause → Bool
  | .emptySize _ | .invertedRange .. => true
  | _ => false

def Cause.isLiteral (cause : Cause) : Bool := cause.kind = .literal

def Cause.isQuantity (cause : Cause) : Bool := cause.isLiteral || cause.isMeasure

namespace Quantity

def findings : Quantity → List Finding
  | .number value => value.findings
  | .bound line => line.bounds.numbers.flatMap Number.findings ++ line.bounds.size.findings line.owner line.close

end Quantity

theorem number_literal (number : Number) : ∀ finding ∈ number.findings, finding.cause.isLiteral = true := by
  intro finding member
  obtain ⟨_, rfl⟩ := number.reports finding member
  rfl

theorem size_measures (size : Size) (owner : String) (close : Token) : ∀ finding ∈ size.findings owner close,
    finding.cause.isMeasure = true := by
  intro finding member
  cases size with
  | unsized | unresolved => cases member
  | fixed | range =>
    simp only [Size.findings] at member
    split at member
    · rw [List.mem_singleton.mp member]
      rfl
    · cases member

theorem quantity_number (number : Number) : findingsOf Cause.isQuantity number.findings = number.findings :=
  findingsOf_all fun finding member => Bool.or_eq_true_iff.mpr (.inl (number_literal number finding member))

theorem quantity_size (size : Size) (owner : String) (close : Token) :
    findingsOf Cause.isQuantity (size.findings owner close) = size.findings owner close :=
  findingsOf_all fun finding member => Bool.or_eq_true_iff.mpr (.inr (size_measures size owner close finding member))

namespace Place

variable (place : Place)

theorem quantity_sizeExpr (close : Token) (size : SizeExpr) :
    findingsOf Cause.isQuantity (place.sizeFindings close size) = size.number?.toList.flatMap Number.findings := by
  cases size with
  | literal number | power number =>
    rw [SizeExpr.number?, Option.toList_some, List.flatMap_singleton]
    exact quantity_number number
  | reference name => exact (place.value_lacks _ _ rfl).none

theorem quantity_bounds (owner : String) (close : Token) (bounds : Option Bounds) :
    findingsOf Cause.isQuantity (place.boundsFindings owner close bounds) =
      (lineQuantities owner close bounds).flatMap Quantity.findings := by
  cases bounds with
  | none => rfl
  | some bounds =>
    have numbers : bounds.numbers = bounds.sizes.flatMap fun size => size.number?.toList := by
      rw [Bounds.numbers, List.filterMap_eq_flatMap_toList]
    simp only [boundsFindings, findingsOf_append, findingsOf_flatMap, quantity_sizeExpr, quantity_size, lineQuantities,
      Option.toList_some, List.map_singleton, List.flatMap_singleton, Quantity.findings, numbers, List.flatMap_assoc]

theorem quantity_arm (arm : Arm) :
    findingsOf Cause.isQuantity (place.armFindings arm) = arm.quantities.flatMap Quantity.findings := by
  have labels : Lacks Cause.isQuantity arm.repeatFindings := lacks_map _ _ fun _ => rfl
  have types : Lacks Cause.isQuantity ((arm.items.filterMap fun item => place.unknownType? item.type).map fun name =>
      ⟨.unknownType name, arm.follow⟩) := lacks_map _ _ fun _ => rfl
  rw [armFindings, findingsOf_append, findingsOf_append, labels.none, types.none, findingsOf_flatMap, List.nil_append,
    List.append_nil, Arm.quantities, List.flatMap_assoc]
  simp only [quantity_bounds]

theorem quantity_select (choice : Select) :
    findingsOf Cause.isQuantity (place.selectFindings choice) = choice.quantities.flatMap Quantity.findings := by
  have selector : Lacks Cause.isQuantity (place.valueFindings .selector choice.selector
      ⟨.unknownSelector choice.selector, choice.opening⟩) := place.value_lacks _ _ rfl
  have across : Lacks Cause.isQuantity choice.acrossFindings := lacks_map _ _ fun _ => rfl
  rw [selectFindings, findingsOf_append, findingsOf_append, selector.none, across.none, findingsOf_flatMap,
    List.nil_append, List.append_nil, Select.quantities, List.flatMap_assoc]
  simp only [quantity_arm]

mutual

theorem quantity_member (place : Place) (member : Member) :
    findingsOf Cause.isQuantity (place.memberFindings member) = member.quantities.flatMap Quantity.findings := by
  cases member with
  | field entry => exact place.quantity_bounds entry.name.text entry.close entry.bounds
  | struct members name close =>
    have closing : Lacks Cause.isQuantity (place.closingFindings members name close) :=
      place.closing_lacks members name close (fun _ => rfl) fun _ => rfl
    rw [memberFindings, Member.quantities, findingsOf_append, closing.none, List.append_nil]
    exact quantity_members place [] members
  | select choice => exact place.quantity_select choice

theorem quantity_members (place : Place) (earlier members : List Member) :
    findingsOf Cause.isQuantity (place.membersFindings earlier members) =
      (Member.allQuantities members).flatMap Quantity.findings := by
  cases members with
  | nil => rfl
  | cons member rest =>
    rw [membersFindings, Member.allQuantities, findingsOf_append, List.flatMap_append, quantity_member, quantity_members]

end

end Place

namespace EnumDecl

variable (listing : EnumDecl)

theorem quantity_given (value : Option Number) :
    findingsOf Cause.isQuantity (match value with
      | none => []
      | some number => number.findings) = (value.toList.map Quantity.number).flatMap Quantity.findings := by
  cases value with
  | none => rfl
  | some number =>
    rw [Option.toList_some, List.map_singleton, List.flatMap_singleton]
    exact quantity_number number

theorem quantity_entries : findingsOf Cause.isQuantity listing.entryFindings =
    (listing.entries.flatMap fun entry => entry.value.toList.map Quantity.number).flatMap Quantity.findings := by
  have items := marked_items (·.name.text) [] listing.entries
  rw [entryFindings, findingsOf_flatMap]
  generalize marked (·.name.text) [] listing.entries = entries at items ⊢
  rw [← items, List.flatMap_map, List.flatMap_assoc]
  congr
  funext part
  obtain ⟨entry, again⟩ := part
  have name : Lacks Cause.isQuantity (if again then [⟨.duplicateEntry entry.name.text, entry.name⟩] else []) :=
    lacks_when _ rfl
  rw [findingsOf_append, name.none, List.append_nil]
  exact quantity_given entry.value

theorem quantity_values : Lacks Cause.isQuantity listing.valueFindings := by
  refine lacks_flatMap _ _ ?_
  rintro ⟨⟨entry, value⟩, again⟩ _
  refine lacks_append.mpr ⟨lacks_when _ rfl, ?_⟩
  cases listing.max with
  | none => exact lacks_nil
  | some max => exact lacks_when _ rfl

theorem quantity_findings : findingsOf Cause.isQuantity listing.findings = listing.quantities.flatMap Quantity.findings := by
  rw [findings, findingsOf_append, findingsOf_append, quantity_entries, listing.quantity_values.none, List.append_nil, quantities,
    List.flatMap_append]
  exact congrArg _ (quantity_given listing.max)

end EnumDecl

theorem Place.quantity_decl (place : Place) (decl : Decl) :
    findingsOf Cause.isQuantity (place.declFindings decl) = decl.quantities.flatMap Quantity.findings := by
  have taken (titles : List String) (name close : Token) : Lacks Cause.isQuantity (takenFindings titles name close) :=
    taken_lacks titles name close fun _ => rfl
  cases decl with
  | external name close => exact (taken _ name close).none
  | field entry =>
    have type : Lacks Cause.isQuantity ((place.unknownType? entry.type).toList.map fun name =>
        ⟨.unknownType name, entry.close⟩) := lacks_map _ _ fun _ => rfl
    rw [declFindings, findingsOf_append, findingsOf_append, (taken _ _ _).none, type.none, List.append_nil,
      List.append_nil]
    exact place.quantity_bounds entry.name.text entry.close entry.bounds
  | enum listing =>
    rw [declFindings, findingsOf_append, (taken _ _ _).none, List.append_nil]
    exact listing.quantity_findings
  | struct members name close =>
    rw [declFindings, findingsOf_append, (taken _ _ _).none, List.append_nil]
    exact quantity_member place (.struct members name close)
  | select choice =>
    have titled : Lacks Cause.isQuantity (choice.name.toList.flatMap fun name =>
        takenFindings (place.prior.filterMap Decl.globalName?) name choice.close) := titled_lacks _ choice fun _ => rfl
    rw [declFindings, findingsOf_append, titled.none, List.append_nil]
    exact place.quantity_select choice

theorem quantity_after (externs : List String) (prior decls : List Decl) :
    findingsOf Cause.isQuantity (findingsAfter externs prior decls) =
      (decls.flatMap Decl.quantities).flatMap Quantity.findings := by
  induction decls generalizing prior with
  | nil => rfl
  | cons decl rest ih =>
    rw [findingsAfter, List.flatMap_cons, List.flatMap_append, findingsOf_append, Place.quantity_decl, ih]

theorem quantity_analyze (decls : List Decl) :
    findingsOf Cause.isQuantity (analyze decls).2 = (decls.flatMap Decl.quantities).flatMap Quantity.findings := by
  rw [analyze_findings]
  exact quantity_after _ [] decls

-- The findings of a quantity are those of its numbers, and what is found of its bounds.
def Quantity.measures (quantity : Quantity) : List Finding :=
  quantity.bound?.toList.flatMap fun bound => bound.bounds.size.findings bound.owner bound.close

theorem Cause.measure_unliteral (cause : Cause) (measure : cause.isMeasure = true) : cause.isLiteral = false := by
  cases cause <;> first | rfl | cases measure

namespace Quantity

variable (quantity : Quantity)

theorem findings_parts : quantity.findings = quantity.numbers.flatMap Number.findings ++ quantity.measures := by
  cases quantity <;> simp [findings, numbers, measures, bound?]

theorem numbers_literal : ∀ finding ∈ quantity.numbers.flatMap Number.findings, finding.cause.isLiteral = true := by
  intro finding member
  obtain ⟨number, _, found⟩ := List.mem_flatMap.mp member
  exact number_literal number finding found

theorem measures_measure : ∀ finding ∈ quantity.measures, finding.cause.isMeasure = true := by
  intro finding member
  obtain ⟨bound, _, found⟩ := List.mem_flatMap.mp member
  exact size_measures _ _ _ finding found

theorem literal_findings :
    findingsOf Cause.isLiteral quantity.findings = quantity.numbers.flatMap Number.findings := by
  have none : Lacks Cause.isLiteral quantity.measures :=
    fun finding member => finding.cause.measure_unliteral (quantity.measures_measure finding member)
  rw [findings_parts, findingsOf_append, none.none, List.append_nil, findingsOf_all quantity.numbers_literal]

theorem measure_findings : findingsOf Cause.isMeasure quantity.findings = quantity.measures := by
  have none : Lacks Cause.isMeasure (quantity.numbers.flatMap Number.findings) := by
    intro finding member
    have literal := quantity.numbers_literal finding member
    cases measured : finding.cause.isMeasure with
    | false => rfl
    | true => rw [finding.cause.measure_unliteral measured] at literal; cases literal
  rw [findings_parts, findingsOf_append, none.none, List.nil_append, findingsOf_all quantity.measures_measure]

end Quantity

theorem analyze_filter (decls : List Decl) {kind : Cause → Bool}
    (about : ∀ cause, kind cause = true → cause.isQuantity = true) :
    findingsOf kind (analyze decls).2 =
      (decls.flatMap Decl.quantities).flatMap fun quantity => findingsOf kind quantity.findings := by
  rw [← findingsOf_narrow about, quantity_analyze, findingsOf_flatMap]

def Mark.numbers : Mark → List Number
  | .literal number | .power number => [number]
  | _ => []

def numerals (marks : List Mark) : List Number := marks.flatMap Mark.numbers

section Numerals

@[simp] theorem numerals_nil : numerals [] = [] := rfl

@[simp] theorem numerals_cons (mark : Mark) (rest : List Mark) :
    numerals (mark :: rest) = mark.numbers ++ numerals rest := List.flatMap_cons

@[simp] theorem numerals_append (front back : List Mark) :
    numerals (front ++ back) = numerals front ++ numerals back := List.flatMap_append

@[simp] theorem numerals_flatMap (marks : α → List Mark) (parts : List α) :
    numerals (parts.flatMap marks) = parts.flatMap fun part => numerals (marks part) := List.flatMap_assoc

@[simp] theorem numerals_word : (Mark.word kind).numbers = [] := rfl
@[simp] theorem numerals_kept : (Mark.kept kind token).numbers = [] := rfl

theorem numerals_list (marks : α → List Mark) (parts : List α) :
    numerals (listMarks joint marks parts) = parts.flatMap fun part => numerals (marks part) := by
  cases parts <;> simp [listMarks]

@[simp] theorem numerals_name (name : Name) : numerals name.marks = [] := by
  have segments (text : String) : numerals [.word .dot, .segment text] = [] := rfl
  simp [Name.marks, segments, Mark.numbers]

@[simp] theorem numerals_type (type : TypeRef) : numerals type.marks = [] := by
  cases type with
  | scalar => rfl
  | named name => exact numerals_name name

theorem numerals_size (size : SizeExpr) : numerals size.marks = size.number?.toList := by
  cases size with
  | literal | power => rfl
  | reference name => exact numerals_name name

theorem numerals_bounds (bounds : Bounds) : numerals bounds.marks = bounds.numbers := by
  cases bounds <;>
    simp [Bounds.marks, numerals_size, Bounds.numbers, Bounds.sizes, List.filterMap_eq_flatMap_toList]

theorem numerals_line (owner : String) (close : Token) (bounds : Option Bounds) :
    numerals (optionalMarks Bounds.marks bounds) = (lineQuantities owner close bounds).flatMap Quantity.numbers := by
  cases bounds with
  | none => rfl
  | some bounds => simpa [optionalMarks, lineQuantities, Quantity.numbers] using numerals_bounds bounds

theorem numerals_field (entry : Field) : numerals entry.marks =
    (lineQuantities entry.name.text entry.close entry.bounds).flatMap Quantity.numbers := by
  simp [Field.marks, numerals_line entry.name.text entry.close]

theorem numerals_item (item : Item) : numerals item.marks =
    (lineQuantities item.owner item.close item.bounds).flatMap Quantity.numbers := by
  have signed : numerals (if item.signed then [.word .signedWord] else []) = [] := by split <;> rfl
  have name : numerals (optionalMarks (fun name => [.kept .ident name]) item.name) = [] := by
    cases item.name <;> rfl
  simp [Item.marks, signed, name, numerals_line item.owner item.close]

theorem numerals_arm (arm : Arm) : numerals arm.marks = arm.quantities.flatMap Quantity.numbers := by
  have labels : numerals (listMarks .caseWord Label.marks arm.labels) = [] := by
    simp [numerals_list, Label.marks]
  rw [Arm.marks, numerals_append, labels, List.nil_append, Arm.quantities, List.flatMap_assoc]
  simp only [← numerals_item]
  unfold itemsMarks
  split
  · rename_i none
    rw [List.isEmpty_iff.mp none]
    rfl
  · exact numerals_flatMap _ _

theorem numerals_arms (arms : List Arm) :
    numerals (armsMarks arms) = (arms.flatMap Arm.quantities).flatMap Quantity.numbers := by
  induction arms with
  | nil => rfl
  | cons arm rest ih =>
    cases rest with
    | nil => simp [armsMarks, numerals_arm]
    | cons next more => simp [armsMarks, numerals_arm, ih]

theorem numerals_select (choice : Select) : numerals choice.marks = choice.quantities.flatMap Quantity.numbers := by
  have name : numerals (optionalMarks (fun name => [.kept .ident name]) choice.name) = [] := by
    cases choice.name <;> rfl
  simp [Select.marks, name, numerals_arms, Select.quantities]

theorem numerals_struct (members : List Mark) (name close : Token) :
    numerals (structMarks members name close) = numerals members := by
  simp [structMarks]

theorem numerals_enum (listing : EnumDecl) : numerals listing.marks = listing.quantities.flatMap Quantity.numbers := by
  have entry (entry : EnumEntry) :
      numerals entry.marks = (entry.value.toList.map Quantity.number).flatMap Quantity.numbers := by
    cases given : entry.value <;>
      simp [EnumEntry.marks, given, optionalMarks, Number.marks, Mark.numbers, Quantity.numbers]
  have max : numerals (optionalMarks (fun number => .word .comma :: number.marks) listing.max) =
      (listing.max.toList.map Quantity.number).flatMap Quantity.numbers := by
    cases listing.max <;> simp [optionalMarks, Number.marks, Mark.numbers, Quantity.numbers]
  rw [EnumDecl.quantities, List.flatMap_append, List.flatMap_assoc]
  simp only [← entry, ← max]
  simp [EnumDecl.marks, numerals_list]

mutual

theorem numerals_member (member : Member) : numerals member.marks = member.quantities.flatMap Quantity.numbers := by
  cases member with
  | field entry => exact numerals_field entry
  | struct members name close => exact (numerals_struct _ name close).trans (numerals_members members)
  | select choice => exact numerals_select choice

theorem numerals_members (members : List Member) :
    numerals (membersMarks members) = (Member.allQuantities members).flatMap Quantity.numbers := by
  cases members with
  | nil => rfl
  | cons member rest =>
    rw [membersMarks, Member.allQuantities, numerals_append, List.flatMap_append, numerals_member, numerals_members]

end

theorem numerals_decl (decl : Decl) : numerals decl.marks = decl.quantities.flatMap Quantity.numbers := by
  cases decl with
  | field entry => exact numerals_field entry
  | external name close => rfl
  | enum listing => exact numerals_enum listing
  | struct members name close => exact (numerals_struct _ name close).trans (numerals_members members)
  | select choice => exact numerals_select choice

end Numerals

end WireFormat
