import WireFormat.Proofs.Kinds
import WireFormat.Proofs.Stages
import WireFormat.Proofs.Written

namespace WireFormat

-- Whatever the check of a declaration reports, it reports at a token that the
-- declaration's tree keeps, and so at one that the declaration was read from.

def Mark.token? : Mark → Option Token
  | .word _ | .segment _ => none
  | .kept _ token | .head _ token => some token
  | .literal number | .power number => some number.token

-- The tokens that a tree keeps, in the order in which it is written.
def anchors (marks : List Mark) : List Token := marks.filterMap Mark.token?

section Anchors

variable (token : Token) (number : Number) (rest : List Mark)

@[simp] theorem anchors_nil : anchors [] = [] := rfl
@[simp] theorem anchors_word : anchors (.word kind :: rest) = anchors rest := rfl
@[simp] theorem anchors_kept : anchors (.kept kind token :: rest) = token :: anchors rest := rfl
@[simp] theorem anchors_literal : anchors (.literal number :: rest) = number.token :: anchors rest := rfl

@[simp] theorem anchors_append (front back : List Mark) :
    anchors (front ++ back) = anchors front ++ anchors back := List.filterMap_append

@[simp] theorem anchors_flatMap (marks : α → List Mark) (parts : List α) :
    anchors (parts.flatMap marks) = parts.flatMap fun part => anchors (marks part) :=
  List.filterMap_flatMap

end Anchors

theorem Mark.Fits.kept {mark : Mark} (fits : mark.Fits token) : ∀ own ∈ mark.token?, own = token := by
  cases mark with
  | word | segment => exact nofun
  | kept =>
    rintro _ ⟨⟩
    exact fits.2.symm
  | head =>
    rintro _ ⟨⟩
    exact fits.2.1.symm
  | literal number | power number =>
    rintro _ ⟨⟩
    rw [fits.2]

theorem Restores.keeps (restores : Restores marks tokens) : ∀ token ∈ anchors marks, token ∈ tokens := by
  induction restores with
  | nil => exact nofun
  | @cons mark token marks tokens fits _ ih =>
    intro own kept
    obtain ⟨other, member, same⟩ := List.mem_filterMap.mp kept
    rcases List.mem_cons.mp member with rfl | later
    · rw [fits.kept own same]
      exact .head _
    · exact .tail _ (ih own (List.mem_filterMap.mpr ⟨other, later, same⟩))

theorem listMarks_keeps {marks : α → List Mark} (stands : part ∈ parts) :
    ∀ token ∈ anchors (marks part), token ∈ anchors (listMarks joint marks parts) := by
  intro token kept
  cases parts with
  | nil => cases stands
  | cons first more =>
    rw [listMarks, anchors_append, anchors_flatMap]
    rcases List.mem_cons.mp stands with rfl | later
    · exact List.mem_append_left _ kept
    · exact List.mem_append_right _ (List.mem_flatMap.mpr ⟨part, later, kept⟩)

def Within (tokens : List Token) (findings : List Finding) : Prop :=
  ∀ finding ∈ findings, finding.token ∈ tokens

section Within

variable {tokens : List Token} {first second : List Finding}

theorem within_nil : Within tokens [] := fun _ member => nomatch member

theorem within_append : Within tokens (first ++ second) ↔ Within tokens first ∧ Within tokens second :=
  List.forall_mem_append

theorem Within.mono (within : Within tokens first) (wider : ∀ token ∈ tokens, token ∈ more) :
    Within more first := fun finding member => wider _ (within finding member)

theorem within_map (kept : token ∈ tokens) (causes : List α) (cause : α → Cause) :
    Within tokens (causes.map fun item => ⟨cause item, token⟩) :=
  List.forall_mem_map.mpr fun _ _ => kept

theorem within_when (kept : token ∈ tokens) (found : Prop) [Decidable found] :
    Within tokens (if found then [⟨cause, token⟩] else []) := every_when found kept

theorem within_unless (kept : token ∈ tokens) (clear : Prop) [Decidable clear] :
    Within tokens (if clear then [] else [⟨cause, token⟩]) := every_unless clear kept

end Within

theorem Number.findings_within (number : Number) : Within [number.token] number.findings := by
  intro finding member
  obtain ⟨_, rfl⟩ := number.reports finding member
  exact .head _

theorem Size.findings_within (size : Size) (owner : String) (close : Token) :
    Within [close] (size.findings owner close) := by
  unfold findings
  split
  · exact within_when (.head _) _
  · exact within_when (.head _) _
  · exact within_nil

namespace View

variable (view : View)

theorem size_within (close : Token) (size : SizeExpr) :
    Within (close :: anchors size.marks) (view.sizeFindings close size) := by
  cases size with
  | literal number | power number => exact number.findings_within.mono fun _ => .tail _
  | reference name => exact within_unless (.head _) _

theorem sizes_marks (bounds : Bounds) : ∀ size ∈ bounds.sizes, ∀ token ∈ anchors size.marks,
    token ∈ anchors bounds.marks := by
  cases bounds with
  | fixed size => simp [Bounds.sizes, Bounds.marks]
  | range least most => simp +contextual [Bounds.sizes, Bounds.marks]

theorem bounds_within (owner : String) (close : Token) (bounds : Option Bounds) :
    Within (close :: anchors (optionalMarks Bounds.marks bounds)) (view.boundsFindings owner close bounds) := by
  cases bounds with
  | none => exact within_nil
  | some bounds =>
    refine within_append.mpr ⟨?_, (bounds.size.findings_within owner close).mono ?_⟩
    · intro finding member
      obtain ⟨size, stands, found⟩ := List.mem_flatMap.mp member
      refine (view.size_within close size).mono ?_ finding found
      have wider := sizes_marks bounds size stands
      exact List.forall_mem_cons.mpr ⟨.head _, fun token kept => .tail _ (wider token kept)⟩
    · exact List.forall_mem_singleton.mpr (.head _)

theorem item_marks (item : Item) : ∀ token ∈ item.close :: anchors (optionalMarks Bounds.marks item.bounds),
    token ∈ anchors item.marks := by
  simp +contextual [Item.marks]

theorem label_marks (arm : Arm) : ∀ label ∈ arm.labels, label.colon ∈ anchors arm.marks := by
  intro label stands
  rw [Arm.marks, anchors_append]
  exact List.mem_append_left _ (listMarks_keeps stands label.colon (by simp [Label.marks]))

theorem line_marks (arm : Arm) (stands : item ∈ arm.items) : ∀ token ∈ anchors item.marks,
    token ∈ anchors arm.marks := by
  intro token kept
  have some : arm.items.isEmpty = false := List.isEmpty_eq_false_iff_exists_mem.mpr ⟨item, stands⟩
  rw [Arm.marks, anchors_append, itemsMarks, some]
  exact List.mem_append_right _ (anchors_flatMap Item.marks _ ▸ List.mem_flatMap.mpr ⟨item, stands, kept⟩)

theorem arm_within (arm : Arm) : Within (arm.follow :: anchors arm.marks) (view.armFindings arm) := by
  refine within_append.mpr ⟨within_append.mpr ⟨?_, ?_⟩, within_map (.head _) _ _⟩
  · refine List.forall_mem_map.mpr fun label again => .tail _ (label_marks arm label ?_)
    exact repeats_listed again
  · intro finding member
    obtain ⟨item, stands, found⟩ := List.mem_flatMap.mp member
    have here := view.bounds_within item.owner item.close item.bounds finding found
    exact .tail _ (line_marks arm stands _ (item_marks item _ here))

theorem arm_marks (arms : List Arm) : ∀ arm ∈ arms, ∀ token ∈ arm.follow :: anchors arm.marks,
    token ∈ anchors (armsMarks arms) := by
  induction arms with
  | nil => exact nofun
  | cons first rest ih =>
    have split : anchors (armsMarks (first :: rest)) =
        anchors first.marks ++ first.follow :: anchors (armsMarks rest) := by
      cases rest <;> simp [armsMarks]
    rw [split]
    refine List.forall_mem_cons.mpr ⟨?_, fun arm later token kept => ?_⟩
    · exact List.forall_mem_cons.mpr ⟨by simp, fun token kept => List.mem_append_left _ kept⟩
    · exact List.mem_append_right _ (.tail _ (ih arm later token kept))

theorem select_within (choice : Select) : Within (anchors choice.marks) (view.selectFindings choice) := by
  have split : anchors choice.marks = anchors choice.selector.marks ++ choice.opening ::
      anchors (armsMarks choice.arms) ++
      (anchors (optionalMarks (fun name => [.kept .ident name]) choice.name) ++ [choice.close]) := by
    simp [Select.marks]
  rw [split]
  refine within_append.mpr ⟨within_append.mpr ⟨?_, ?_⟩, within_map (by simp) _ _⟩
  · exact within_unless (by simp) _
  · intro finding member
    obtain ⟨arm, stands, found⟩ := List.mem_flatMap.mp member
    have here := arm_marks choice.arms arm stands _ (view.arm_within arm finding found)
    simp [here]

theorem field_marks (entry : Field) : ∀ token ∈ entry.close :: anchors (optionalMarks Bounds.marks entry.bounds),
    token ∈ anchors entry.marks := by
  simp +contextual [Field.marks]

theorem struct_marks (members : List Mark) (name close : Token) :
    anchors (structMarks members name close) = anchors members ++ [name, close] := by
  simp [structMarks]

mutual

theorem member_within (view : View) (member : Member) :
    Within (anchors member.marks) (checkMember view member).findings := by
  cases member with
  | field entry =>
    exact (view.bounds_within entry.name.text entry.close entry.bounds).mono (field_marks entry)
  | struct members name close =>
    rw [Member.marks, struct_marks]
    have inside := (members_within (view.enter name.text) members).mono
      fun token kept => List.mem_append_left [name, close] kept
    exact within_append.mpr ⟨within_append.mpr ⟨inside, within_map (by simp) _ _⟩, within_map (by simp) _ _⟩
  | select choice => exact view.select_within choice

theorem members_within (view : View) (members : List Member) :
    Within (anchors (membersMarks members)) (checkMembers view members).findings := by
  cases members with
  | nil => exact within_nil
  | cons member rest =>
    rw [membersMarks, anchors_append]
    have first := (member_within view member).mono
      fun token kept => List.mem_append_left (anchors (membersMarks rest)) kept
    refine within_append.mpr ⟨first, (members_within _ rest).mono ?_⟩
    exact fun token kept => List.mem_append_right (anchors member.marks) kept

end

end View

namespace EnumDecl

variable (listing : EnumDecl)

theorem entry_marks : ∀ entry ∈ listing.entries,
    ∀ token ∈ anchors entry.marks, token ∈ anchors listing.marks := by
  intro entry stands token kept
  have listed : token ∈ anchors (listMarks .comma EnumEntry.marks listing.entries) :=
    listMarks_keeps stands token kept
  simp [EnumDecl.marks, listed]

theorem close_marks : listing.close ∈ anchors listing.marks := by
  simp [EnumDecl.marks]

theorem findings_within : Within (anchors listing.marks) listing.findings := by
  intro finding member
  cases listing.findings_report finding member with
  | @entryLiteral entry number _ stands given found =>
    rw [List.mem_singleton.mp (number.findings_within finding found)]
    refine listing.entry_marks entry stands _ ?_
    simp [EnumEntry.marks, given, optionalMarks, Number.marks]
  | @maxLiteral number _ given found =>
    rw [List.mem_singleton.mp (number.findings_within finding found)]
    simp [EnumDecl.marks, given, optionalMarks, Number.marks]
  | @duplicateEntry entry stands => exact listing.entry_marks entry stands _ (.head _)
  | repeatedValue | excessiveValue => exact listing.close_marks

end EnumDecl

namespace Resolution

variable (resolution : Resolution)

theorem declare_within (name : Token) (kind : Symbol.Kind) (size : Size) (id : Nat) (close : Token) :
    Within [close] (resolution.declare name kind size id close).2 := by
  intro finding member
  rw [declare_reports resolution name kind size id close finding member]
  exact .head _

theorem define_within (definition : Definition) (name close : Token) :
    Within [close] (resolution.define definition name close).2 := declare_within _ _ _ _ _ _

theorem checkDecl_within (reached : List String) (decl : Decl) :
    Within (anchors decl.marks) (resolution.checkDecl reached decl).2 := by
  cases decl with
  | external name close => exact within_when (by simp [Decl.marks]) _
  | field entry =>
    have close : entry.close ∈ anchors entry.marks := by simp [Field.marks]
    have bounds := (resolution.view.bounds_within entry.name.text entry.close entry.bounds).mono
      (View.field_marks entry)
    have name := (define_within resolution (resolution.fieldDefinition entry) entry.name entry.close).mono
      (List.forall_mem_singleton.mpr close)
    exact within_append.mpr ⟨within_append.mpr ⟨bounds, within_map close _ _⟩, name⟩
  | enum listing =>
    have name := (define_within resolution listing.definition listing.name listing.close).mono
      (List.forall_mem_singleton.mpr listing.close_marks)
    exact within_append.mpr ⟨listing.findings_within, name⟩
  | struct members name close =>
    refine within_append.mpr ⟨View.member_within resolution.view (.struct members name close), ?_⟩
    refine (declare_within _ _ _ _ _ _).mono (List.forall_mem_singleton.mpr ?_)
    rw [Decl.marks, View.struct_marks]
    simp
  | select choice =>
    have inside := resolution.view.select_within choice
    simp only [checkDecl]
    cases choice.name with
    | none => exact inside
    | some name =>
      refine within_append.mpr ⟨inside, (define_within _ _ _ _).mono (List.forall_mem_singleton.mpr ?_)⟩
      simp [Decl.marks, Select.marks]

end Resolution

end WireFormat
