import WireFormat.Proofs.Analyzed
import WireFormat.Proofs.Anchors
import WireFormat.Proofs.Marks
import WireFormat.Proofs.Texts

namespace WireFormat

-- The names that a message quotes are made of the texts of tokens. Where these stay on
-- their lines, so do the messages.

section Plain

variable {one two : String}

theorem plain_append : Plain (one ++ two) ↔ Plain one ∧ Plain two := by
  simp [Plain, not_or]

theorem plain_intercalate (joint : Plain sep) (all : ∀ part ∈ parts, Plain part) : Plain (sep.intercalate parts) := by
  induction parts with
  | nil => simp [Plain]
  | cons part rest ih =>
    obtain ⟨here, later⟩ := List.forall_mem_cons.mp all
    cases rest with
    | nil => simpa using here
    | cons next more =>
      rw [String.intercalate_cons_cons]
      exact plain_append.mpr ⟨plain_append.mpr ⟨here, joint⟩, ih later⟩

theorem number_text (n : Nat) : (toString n).toList = Nat.toDigits 10 n := String.toList_ofList

theorem number_digits (n : Nat) : ∀ c ∈ (toString n).toList, c.isDigit = true := by
  intro c member
  rw [number_text] at member
  exact Nat.isDigit_of_mem_toDigits (by decide) (by decide) member

theorem plain_number (n : Nat) : Plain (toString n) :=
  fun member => Bool.noConfusion (number_digits n '\n' member)

end Plain

-- What a mark knows of the text that it stands for.
def Mark.texts : Mark → List String
  | .word _ | .literal _ | .power _ => []
  | .segment text | .head text _ => [text]
  | .kept _ token => [token.text]

def Tidy (marks : List Mark) : Prop := ∀ mark ∈ marks, ∀ text ∈ mark.texts, Plain text

theorem Mark.Fits.tidy {mark : Mark} (fits : mark.Fits token) (plain : Plain token.text) :
    ∀ text ∈ mark.texts, Plain text := by
  cases mark with
  | word | literal | power => exact List.forall_mem_nil _
  | segment text => exact List.forall_mem_singleton.mpr (fits.2 ▸ plain)
  | kept kind own => exact List.forall_mem_singleton.mpr (fits.2 ▸ plain)
  | head text own => exact List.forall_mem_singleton.mpr (fits.2.2 ▸ plain)

theorem Restores.tidy (restores : Restores marks tokens) (plain : ∀ token ∈ tokens, Plain token.text) : Tidy marks := by
  induction restores with
  | nil => exact List.forall_mem_nil _
  | cons fits _ ih =>
    obtain ⟨here, later⟩ := List.forall_mem_cons.mp plain
    exact List.forall_mem_cons.mpr ⟨fits.tidy here, ih later⟩

section Tidy

@[simp] theorem tidy_nil : Tidy [] := List.forall_mem_nil _

@[simp] theorem tidy_cons : Tidy (mark :: marks) ↔ (∀ text ∈ mark.texts, Plain text) ∧ Tidy marks :=
  List.forall_mem_cons

@[simp] theorem tidy_append : Tidy (front ++ back) ↔ Tidy front ∧ Tidy back := List.forall_mem_append

@[simp] theorem tidy_kept : (∀ text ∈ (Mark.kept kind token).texts, Plain text) ↔ Plain token.text :=
  List.forall_mem_singleton

theorem tidy_flatMap {parts : List α} {marks : α → List Mark} (tidy : Tidy (parts.flatMap marks)) :
    ∀ part ∈ parts, Tidy (marks part) :=
  fun part stands mark member => tidy mark (List.mem_flatMap.mpr ⟨part, stands, member⟩)

theorem tidy_list {marks : α → List Mark} (tidy : Tidy (listMarks joint marks parts)) :
    ∀ part ∈ parts, Tidy (marks part) := fun _ stands mark member => tidy mark (list_subset stands member)

theorem tidy_optional {marks : α → List Mark} (tidy : Tidy (optionalMarks marks part)) :
    ∀ given ∈ part, Tidy (marks given) := by
  rintro given ⟨⟩
  exact tidy

theorem tidy_arms (tidy : Tidy (armsMarks arms)) : ∀ arm ∈ arms, Tidy arm.marks :=
  fun _ stands mark member => tidy mark (arms_subset stands member)

theorem tidy_name {name : Name} (tidy : Tidy name.marks) : Plain name.text := by
  obtain ⟨head, tail⟩ := tidy_cons.mp tidy
  refine plain_intercalate (by decide) (List.forall_mem_cons.mpr ⟨List.forall_mem_singleton.mp head, ?_⟩)
  intro text segment
  obtain ⟨_, here⟩ := tidy_cons.mp (tidy_flatMap tail text segment)
  exact List.forall_mem_singleton.mp (tidy_cons.mp here).1

theorem tidy_type {type : TypeRef} (tidy : Tidy type.marks) : Plain type.text := by
  cases type with
  | scalar type => cases type <;> decide
  | named name => exact tidy_name tidy

theorem tidy_unknown (tidy : Tidy (TypeRef.marks type)) : ∀ name ∈ type.name?, Plain name.text := by
  cases type with
  | scalar => exact nofun
  | named name =>
    rintro _ ⟨⟩
    exact tidy_name tidy

theorem tidy_items (tidy : Tidy (itemsMarks items)) : ∀ item ∈ items, Tidy item.marks :=
  fun _ stands mark member => tidy mark (items_subset stands member)

theorem tidy_owner (item : Item) (tidy : Tidy item.marks) : Plain item.owner := by
  obtain ⟨⟨⟨⟨_, type⟩, named⟩, _⟩, _⟩ : (((_ ∧ Tidy item.type.marks) ∧ Tidy (optionalMarks _ item.name)) ∧ _) ∧ _ := by
    simpa only [Item.marks, tidy_append] using tidy
  unfold Item.owner
  cases given : item.name with
  | none => exact tidy_type type
  | some name => exact tidy_kept.mp (tidy_cons.mp (tidy_optional named name given)).1

end Tidy

namespace Cause

def names : Cause → List String
  | .failedLiteral _ => []
  | .duplicateSymbol name | .duplicateEntry name | .repeatedValue name _ | .excessiveValue name _ _
  | .duplicateLabel name | .emptySize name | .invertedRange name _ _ => [name]
  | .duplicateItem name owner | .repeatedLabel name owner => [name, owner]
  | .unknownSize name | .unknownSelector name | .unknownType name => [name.text]

theorem message_plain (cause : Cause) (names : ∀ name ∈ cause.names, Plain name) : Plain cause.message := by
  have word (value : UInt64) : '\n' ∉ (toString value).toList := plain_number value.toNat
  cases cause with
  | failedLiteral error => cases error <;> decide
  | _ =>
    simp only [Cause.names, List.forall_mem_cons, Plain] at names
    unfold message quoted
    simp only [Plain, String.toList_append, List.mem_append, not_or, names, word, not_false_eq_true, and_true]
    decide

theorem message_unnoted (cause : Cause) : cause.message ≠ dottedNote := by
  cases cause with
  | failedLiteral error => cases error <;> decide
  | _ =>
    intro same
    have text := congrArg String.toList same
    unfold message quoted at text
    simp only [String.toList_append, List.append_assoc] at text
    exact absurd (List.prefix_iff_exists_append_eq.mpr ⟨_, text⟩) (by decide)

end Cause

-- Findings whose messages stay on their lines.
def Quoting (findings : List Finding) : Prop := ∀ finding ∈ findings, ∀ name ∈ finding.cause.names, Plain name

section Quoting

theorem quoting_nil : Quoting [] := List.forall_mem_nil _

theorem quoting_append : Quoting (front ++ back) ↔ Quoting front ∧ Quoting back := List.forall_mem_append

theorem quoting_single {token : Token} {cause : Cause} (plain : ∀ name ∈ cause.names, Plain name) :
    Quoting [⟨cause, token⟩] := List.forall_mem_singleton.mpr plain

theorem quoting_when {token : Token} (found : Prop) [Decidable found] (plain : ∀ name ∈ cause.names, Plain name) :
    Quoting (if found then [⟨cause, token⟩] else []) := every_when found plain

theorem quoting_flatMap {parts : List α} {found : α → List Finding} (each : ∀ part ∈ parts, Quoting (found part)) :
    Quoting (parts.flatMap found) := List.forall_mem_flatMap.mpr each

theorem quoting_map {parts : List α} {found : α → Finding}
    (each : ∀ part ∈ parts, ∀ name ∈ (found part).cause.names, Plain name) : Quoting (parts.map found) :=
  List.forall_mem_map.mpr each

theorem Number.quoting (number : Number) : Quoting number.findings := by
  intro finding member
  obtain ⟨_, rfl⟩ := number.reports finding member
  exact List.forall_mem_nil _

theorem Size.quoting (size : Size) (plain : Plain owner) : Quoting (size.findings owner close) := by
  have named : ∀ name ∈ [owner], Plain name := List.forall_mem_singleton.mpr plain
  cases size with
  | unsized | unresolved => exact quoting_nil
  | fixed | range => exact quoting_when _ named

end Quoting

namespace Place

variable (place : Place)

theorem value_quoting (use : Use) (name : Name) (plain : ∀ name ∈ finding.cause.names, Plain name) :
    Quoting (place.valueFindings use name finding) := by
  unfold valueFindings
  split
  · exact quoting_nil
  · exact quoting_single plain

theorem size_quoting (close : Token) (tidy : Tidy (SizeExpr.marks size)) : Quoting (place.sizeFindings close size) := by
  cases size with
  | literal number | power number => exact number.quoting
  | reference name => exact place.value_quoting _ _ (List.forall_mem_singleton.mpr (tidy_name tidy))

theorem bounds_quoting (close : Token) (plain : Plain owner) (tidy : Tidy (optionalMarks Bounds.marks bounds)) :
    Quoting (place.boundsFindings owner close bounds) := by
  cases bounds with
  | none => exact quoting_nil
  | some bounds =>
    refine quoting_append.mpr
      ⟨quoting_flatMap fun size stands => place.size_quoting close ?_, bounds.size.quoting plain⟩
    cases bounds with
    | fixed => simp_all [optionalMarks, Bounds.marks, Bounds.sizes]
    | range => rcases List.mem_pair.mp stands with rfl | rfl <;> simp_all [optionalMarks, Bounds.marks]

theorem unknown_named (type : TypeRef) : ∀ name ∈ place.unknownType? type, type.name? = some name := by
  intro name unknown
  unfold unknownType? at unknown
  split at unknown
  · cases unknown
  · exact unknown

theorem type_quoting (close : Token) (type : TypeRef) (tidy : Tidy type.marks) :
    Quoting ((place.unknownType? type).toList.map fun name => ⟨.unknownType name, close⟩) := by
  refine quoting_map fun name member => List.forall_mem_singleton.mpr ?_
  exact tidy_unknown tidy name (place.unknown_named type name (Option.mem_toList.mp member))

theorem arm_quoting (arm : Arm) (tidy : Tidy arm.marks) : Quoting (place.armFindings arm) := by
  obtain ⟨labels, items⟩ := tidy_append.mp tidy
  refine quoting_append.mpr ⟨quoting_append.mpr ⟨?_, quoting_flatMap fun item stands => ?_⟩, ?_⟩
  · refine quoting_map fun label again => List.forall_mem_singleton.mpr ?_
    exact tidy_kept.mp (tidy_cons.mp (tidy_list labels label (repeats_listed again))).1
  · have here := tidy_items items item stands
    have bounded : Tidy (optionalMarks Bounds.marks item.bounds) := by
      simp only [Item.marks, tidy_append] at here
      exact here.1.2
    exact place.bounds_quoting item.close (tidy_owner item here) bounded
  · refine quoting_map fun name member => List.forall_mem_singleton.mpr ?_
    obtain ⟨item, stands, unknown⟩ := List.mem_filterMap.mp member
    have typed : Tidy item.type.marks := by
      have here := tidy_items items item stands
      simp only [Item.marks, tidy_append] at here
      exact here.1.1.1.2
    exact tidy_unknown typed name (place.unknown_named item.type name unknown)

theorem labels_plain (arm : Arm) (tidy : Tidy arm.marks) : ∀ name ∈ arm.names, Plain name := by
  obtain ⟨labels, _⟩ := tidy_append.mp tidy
  refine List.forall_mem_map.mpr fun label first => ?_
  exact tidy_kept.mp (tidy_cons.mp (tidy_list labels label (firsts_listed first))).1

theorem select_named (choice : Select) (tidy : Tidy choice.marks) : ∀ name ∈ choice.name, Plain name.text := by
  intro name given
  simp only [Select.marks, tidy_append] at tidy
  exact tidy_kept.mp (tidy_cons.mp (tidy_optional tidy.1.2 name given)).1

theorem select_quoting (choice : Select) (tidy : Tidy choice.marks) : Quoting (place.selectFindings choice) := by
  have owner : Plain choice.owner := by
    unfold Select.owner
    cases given : choice.name with
    | none => decide
    | some name => exact select_named choice tidy name given
  simp only [Select.marks, tidy_append, tidy_cons] at tidy
  obtain ⟨⟨⟨⟨_, _, selector⟩, _, _, _, arms⟩, _⟩, _⟩ := tidy
  refine quoting_append.mpr ⟨quoting_append.mpr ⟨?_, quoting_flatMap fun arm stands => ?_⟩, ?_⟩
  · exact place.value_quoting _ _ (List.forall_mem_singleton.mpr (tidy_name selector))
  · exact place.arm_quoting arm (tidy_arms arms arm stands)
  · refine quoting_map fun name again => List.forall_mem_cons.mpr ⟨?_, List.forall_mem_singleton.mpr owner⟩
    obtain ⟨arm, stands, listed⟩ := List.mem_flatMap.mp (repeats_listed again)
    exact labels_plain arm (tidy_arms arms arm stands) name listed

theorem field_parts (entry : Field) (tidy : Tidy entry.marks) :
    Tidy entry.type.marks ∧ Plain entry.name.text ∧ Tidy (optionalMarks Bounds.marks entry.bounds) := by
  simp only [Field.marks, tidy_append, tidy_cons, tidy_kept] at tidy
  exact ⟨tidy.1.1, tidy.1.2.1, tidy.1.2.2⟩

theorem struct_parts (members : List Mark) (name close : Token) (tidy : Tidy (structMarks members name close)) :
    Tidy members ∧ Plain name.text := by
  simp only [structMarks, tidy_append, tidy_cons, tidy_kept] at tidy
  exact ⟨tidy.1.2.2, tidy.2.2.1⟩

theorem member_named (member : Member) (tidy : Tidy member.marks) : ∀ name ∈ member.itemName?, Plain name := by
  intro text given
  obtain ⟨name, own, rfl⟩ := Option.map_eq_some_iff.mp given
  cases member with
  | field entry =>
    cases own
    exact (field_parts entry tidy).2.1
  | struct members _ close =>
    cases own
    exact (struct_parts (membersMarks members) name close tidy).2
  | select choice => exact select_named choice tidy name own

theorem tidy_members (tidy : Tidy (membersMarks members)) : ∀ member ∈ members, Tidy member.marks :=
  fun _ stands mark member => tidy mark (members_subset stands member)

theorem closing_quoting (members : List Member) (name close : Token) (tidy : Tidy (membersMarks members))
    (plain : Plain name.text) : Quoting (place.closingFindings members name close) := by
  refine quoting_append.mpr ⟨quoting_map fun item again => ?_, quoting_map fun type unknown => ?_⟩
  · obtain ⟨member, stands, named⟩ := List.mem_filterMap.mp (repeats_listed again)
    exact List.forall_mem_cons.mpr ⟨member_named member (tidy_members tidy member stands) item named,
      List.forall_mem_singleton.mpr plain⟩
  · obtain ⟨member, stands, unknown⟩ := List.mem_filterMap.mp unknown
    refine List.forall_mem_singleton.mpr ?_
    cases member with
    | struct | select => cases unknown
    | field entry =>
      exact tidy_unknown (field_parts entry (tidy_members tidy _ stands)).1 type
        (place.unknown_named entry.type type unknown)

mutual

theorem member_quoting (place : Place) (member : Member) (tidy : Tidy member.marks) :
    Quoting (place.memberFindings member) := by
  cases member with
  | field entry =>
    obtain ⟨_, plain, bounded⟩ := field_parts entry tidy
    exact place.bounds_quoting entry.close plain bounded
  | struct members name close =>
    obtain ⟨inner, plain⟩ := struct_parts (membersMarks members) name close tidy
    exact quoting_append.mpr
      ⟨members_quoting place [] members inner, place.closing_quoting members name close inner plain⟩
  | select choice => exact place.select_quoting choice tidy

theorem members_quoting (place : Place) (earlier members : List Member) (tidy : Tidy (membersMarks members)) :
    Quoting (place.membersFindings earlier members) := by
  cases members with
  | nil => exact quoting_nil
  | cons member rest =>
    obtain ⟨here, later⟩ := tidy_append.mp tidy
    exact quoting_append.mpr ⟨member_quoting _ member here, members_quoting place _ rest later⟩

end

theorem taken_quoting (taken : List String) (close : Token) (plain : Plain name.text) :
    Quoting (takenFindings taken name close) := by
  exact quoting_when _ (List.forall_mem_singleton.mpr plain)

end Place

namespace EnumDecl

variable (listing : EnumDecl)

theorem entries_plain (tidy : Tidy listing.marks) : ∀ entry ∈ listing.entries, Plain entry.name.text := by
  intro entry stands
  simp only [marks, tidy_append, tidy_cons] at tidy
  exact tidy_kept.mp (tidy_cons.mp (tidy_list tidy.1.1.2.2 entry stands)).1

theorem quoting (tidy : Tidy listing.marks) : Quoting listing.findings := by
  have plain := listing.entries_plain tidy
  refine quoting_append.mpr ⟨quoting_append.mpr ⟨quoting_flatMap ?_, ?_⟩, quoting_flatMap ?_⟩
  · rintro ⟨entry, again⟩ stands
    refine quoting_append.mpr ⟨?_, ?_⟩
    · cases entry.value with
      | none => exact quoting_nil
      | some number => exact number.quoting
    · exact quoting_when _ (List.forall_mem_singleton.mpr (plain entry (marked_listed stands)))
  · unfold maxFindings
    cases listing.max with
    | none => exact quoting_nil
    | some number => exact number.quoting
  · rintro ⟨⟨entry, value⟩, again⟩ stands
    have named : ∀ name ∈ [entry.name.text], Plain name :=
      List.forall_mem_singleton.mpr (plain entry (List.of_mem_zip (marked_listed stands)).1)
    refine quoting_append.mpr ⟨quoting_when _ named, ?_⟩
    cases listing.max with
    | none => exact quoting_nil
    | some number => exact quoting_when _ named

end EnumDecl

theorem Place.decl_quoting (place : Place) (decl : Decl) (tidy : Tidy decl.marks) :
    Quoting (place.declFindings decl) := by
  cases decl with
  | external name close =>
    simp only [Decl.marks, tidy_cons, tidy_kept] at tidy
    exact taken_quoting _ close tidy.2.1
  | field entry =>
    obtain ⟨typed, plain, bounded⟩ := field_parts entry tidy
    exact quoting_append.mpr ⟨quoting_append.mpr ⟨place.bounds_quoting entry.close plain bounded,
      place.type_quoting entry.close entry.type typed⟩, taken_quoting _ entry.close plain⟩
  | enum listing =>
    refine quoting_append.mpr ⟨listing.quoting tidy, taken_quoting _ listing.close ?_⟩
    simp only [Decl.marks, EnumDecl.marks, tidy_append, tidy_cons, tidy_kept] at tidy
    exact tidy.2.2.1
  | struct members name close =>
    obtain ⟨inner, plain⟩ := struct_parts (membersMarks members) name close tidy
    exact quoting_append.mpr ⟨place.member_quoting (.struct members name close) tidy, taken_quoting _ close plain⟩
  | select choice =>
    refine quoting_append.mpr ⟨place.select_quoting choice tidy, quoting_flatMap fun name given => ?_⟩
    exact taken_quoting _ choice.close (select_named choice tidy name (Option.mem_toList.mp given))

theorem after_quoting (externs : List String) (prior decls : List Decl) (tidy : ∀ decl ∈ decls, Tidy decl.marks) :
    Quoting (findingsAfter externs prior decls) := by
  induction decls generalizing prior with
  | nil => exact quoting_nil
  | cons decl rest ih =>
    obtain ⟨here, later⟩ := List.forall_mem_cons.mp tidy
    exact quoting_append.mpr ⟨Place.decl_quoting _ decl here, ih _ later⟩

theorem spelt_tidy (spelt : List.Forall₂ DeclSpelt decls spans) (plain : ∀ token ∈ spans.flatten, Plain token.text) :
    ∀ decl ∈ decls, Tidy decl.marks := by
  induction spelt with
  | nil => exact List.forall_mem_nil _
  | @cons decl span decls spans one _ ih =>
    obtain ⟨here, later⟩ := List.forall_mem_append.mp plain
    exact List.forall_mem_cons.mpr ⟨(decl_restored decl span one).tidy here, ih later⟩

theorem analyze_quoting (spelt : List.Forall₂ DeclSpelt decls spans)
    (plain : ∀ token ∈ spans.flatten, Plain token.text) : Quoting (analyze decls).2 := by
  rw [analyze_findings]
  exact after_quoting _ [] decls (spelt_tidy spelt plain)

end WireFormat
