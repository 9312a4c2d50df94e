import WireFormat.Proofs.Kinds
import WireFormat.Proofs.Linked
import WireFormat.Proofs.MovedCheck

namespace WireFormat

-- One declaration with two bodies, checked from the same tables: what its body brings
-- stays in the arena, and what is found of its name does not depend on the body.

-- The same kind of declaration under the same name, up to the same end.
inductive Decl.Rebodied : Decl → Decl → Prop where
  | enum (entries others : List EnumEntry) (max limit : Option Number) (name close : Token) :
      Rebodied (.enum ⟨entries, max, name, close⟩) (.enum ⟨others, limit, name, close⟩)
  | struct (members others : List Member) (name close : Token) :
      Rebodied (.struct members name close) (.struct others name close)
  | select (selector other : Name) (opening start : Token) (arms others : List Arm) (name : Option Token)
      (close : Token) :
      Rebodied (.select ⟨selector, opening, arms, name, close⟩) (.select ⟨other, start, others, name, close⟩)

theorem Decl.Rebodied.external? (rebodied : Decl.Rebodied decl other) :
    decl.external? = none ∧ other.external? = none := by
  cases rebodied with
  | enum | struct | select => exact ⟨rfl, rfl⟩

-- What is reported when it was there before.
inductive Repetition where
  | symbol | item | label
  deriving DecidableEq

def Cause.repetition? : Cause → Option Repetition
  | .duplicateSymbol _ => some .symbol
  | .duplicateItem .. => some .item
  | .duplicateLabel _ => some .label
  | .repeatedLabel .. => some .label
  | _ => none

def Cause.isRepeat (cause : Cause) : Bool := cause.repetition?.isSome

def Repetition.isCause (repetition : Repetition) (cause : Cause) : Bool := cause.repetition? = some repetition

theorem Repetition.cause_repeat (repetition : Repetition) (cause : Cause) (about : repetition.isCause cause = true) :
    cause.isRepeat = true := by
  rw [Cause.isRepeat, of_decide_eq_true about, Option.isSome_some]

theorem EnumDecl.findings_lack (listing : EnumDecl) : Lacks Cause.isRepeat listing.findings :=
  listing.lacks (fun _ => rfl) (fun _ => rfl) (fun _ _ => rfl) fun _ _ _ => rfl

namespace View

theorem bounds_lack (view : View) (owner : String) (close : Token) (bounds : Option Bounds) :
    Lacks Cause.isRepeat (view.boundsFindings owner close bounds) := by
  cases bounds with
  | none => exact lacks_nil
  | some bounds =>
    refine lacks_append.mpr ⟨lacks_flatMap _ _ fun size _ => ?_, bounds.size.lacks owner close rfl fun _ _ => rfl⟩
    cases size with
    | literal number | power number => exact number.lacks fun _ => rfl
    | reference name => exact lacks_unless _ rfl

theorem select_lack {repetition : Repetition} (view : View) (choice : Select) (other : repetition ≠ .label) :
    Lacks repetition.isCause (view.selectFindings choice) := by
  have clear (cause : Cause) (none : cause.repetition? = none) : repetition.isCause cause = false := by
    simp [Repetition.isCause, none]
  have label (cause : Cause) (some : cause.repetition? = some .label) : repetition.isCause cause = false := by
    simp [Repetition.isCause, some, other.symm]
  refine lacks_append.mpr ⟨lacks_append.mpr ⟨lacks_unless _ (clear _ rfl), ?_⟩, lacks_map _ _ fun _ => label _ rfl⟩
  refine lacks_flatMap _ _ fun arm _ => lacks_append.mpr ⟨lacks_append.mpr ⟨?_, ?_⟩, ?_⟩
  · exact lacks_map _ _ fun _ => label _ rfl
  · exact lacks_flatMap _ _ fun item _ => (view.bounds_lack _ _ _).mono repetition.cause_repeat
  · exact lacks_map _ _ fun _ => clear _ rfl

theorem leave_untaken {body : MembersCheck} (untaken : Lacks Repetition.symbol.isCause body.findings)
    (name close : Token) : Lacks Repetition.symbol.isCause (leave name close body).findings :=
  lacks_append.mpr ⟨lacks_append.mpr ⟨untaken, lacks_map _ _ fun _ => rfl⟩, lacks_map _ _ fun _ => rfl⟩

mutual

theorem member_untaken (view : View) (member : Member) :
    Lacks Repetition.symbol.isCause (checkMember view member).findings := by
  cases member with
  | field entry => exact (view.bounds_lack _ _ _).mono Repetition.symbol.cause_repeat
  | struct members name close => exact leave_untaken (members_untaken (view.enter name.text) members) name close
  | select choice => exact view.select_lack choice (by decide)

theorem members_untaken (view : View) (members : List Member) :
    Lacks Repetition.symbol.isCause (checkMembers view members).findings := by
  cases members with
  | nil => exact lacks_nil
  | cons member rest => exact lacks_append.mpr ⟨member_untaken view member, members_untaken _ rest⟩

end

end View

theorem Handle.Valid.moves {handle : Handle} {shift : Shift} (valid : handle.Valid externs shift.front.length) :
    handle.Moves shift handle := by
  cases handle with
  | scalar type => exact .scalar type
  | external name => exact .external name
  | declared id => exact .declared (.before valid)

theorem Scope.Linked.moves {scope externs : Scope} {shift : Shift}
    (linked : scope.Linked externs shift.front.length) : scope.Beside (Symbol.Moves shift) scope := by
  refine List.forall₂_same.mpr fun symbol member => ⟨rfl, rfl, rfl, ?_⟩
  have valid := linked symbol member
  cases typed : symbol.type with
  | none => exact .none
  | some handle => exact .some (valid handle typed).moves

namespace Resolution

variable {resolution : Resolution}

-- Two checks of the declaration that start from the same tables.
structure Met (resolution : Resolution) (shift : Shift) (one other : Resolution × List Finding) : Prop where
  front : shift.front = resolution.types.definitions.toList
  first : one.1.types.definitions.toList = shift.front ++ shift.one.nested ++ [shift.one.own]
  second : other.1.types.definitions.toList = shift.front ++ shift.other.nested ++ [shift.other.own]
  view : one.1.view.Moves shift other.1.view
  findings : ∃ within inside taken, one.2 = within ++ taken ∧ other.2 = inside ++ taken ∧
    Lacks Repetition.symbol.isCause within ∧ Lacks Repetition.symbol.isCause inside

-- An arena in which a body has added to what was there, and bound no name.
structure Bodied (resolution : Resolution) (nested : List Definition) (types : Arena) : Prop where
  definitions : types.definitions.toList = resolution.types.definitions.toList ++ nested
  bindings : types.bindings = resolution.types.bindings

theorem bodied_none : resolution.Bodied [] resolution.types := ⟨(List.append_nil _).symm, rfl⟩

theorem bodied_struct (name : Token) (members : List Member) : ∃ nested,
    resolution.Bodied nested (View.checkMembers (resolution.view.enter name.text) members).view.types := by
  have frame := View.checkMembers_frame (resolution.view.enter name.text) members
  obtain ⟨more, grown⟩ := frame.types
  refine ⟨more.toList, ?_, frame.bindings⟩
  rw [grown, Array.toList_append]
  rfl

def pushed (resolution : Resolution) (types : Arena) (definition : Definition) : Resolution :=
  { resolution with types := (types.push definition).1 }

theorem Bodied.pushed {types : Arena} (bodied : resolution.Bodied nested types) (definition : Definition) :
    (resolution.pushed types definition).types.definitions.toList =
      resolution.types.definitions.toList ++ nested ++ [definition] := by
  rw [← bodied.definitions]
  exact Array.toList_push

variable {shift : Shift} {one other : Arena}

theorem pushed_moves (linked : resolution.view.Linked) (front : shift.front = resolution.types.definitions.toList)
    (first : resolution.Bodied shift.one.nested one) (second : resolution.Bodied shift.other.nested other) :
    (resolution.pushed one shift.one.own).view.Moves shift (resolution.pushed other shift.other.own).view := by
  have size : shift.front.length = resolution.types.size := by
    rw [front, Array.length_toList, Arena.size]
  refine ⟨rfl, ?_, ⟨?_, [], [], .nil, ?_, ?_⟩, .nil⟩
  · apply Scope.Linked.moves
    rw [size]
    exact linked.globals
  · simp only [view, pushed, Arena.push, first.bindings, second.bindings]
    exact List.forall₂_same.mpr fun binding member => ⟨rfl, .before (size ▸ linked.bindings binding member)⟩
  · rw [front]
    exact first.pushed shift.one.own
  · rw [front]
    exact second.pushed shift.other.own

theorem own_moves (front : shift.front = resolution.types.definitions.toList)
    (first : resolution.Bodied shift.one.nested one) (second : resolution.Bodied shift.other.nested other) :
    shift.Moves one.size other.size := by
  rw [Arena.size, Arena.size, ← Array.length_toList, ← Array.length_toList, first.definitions, second.definitions,
    ← front, List.length_append, List.length_append]
  exact .since 0

theorem declare_met (linked : resolution.view.Linked) (front : shift.front = resolution.types.definitions.toList)
    (first : resolution.Bodied shift.one.nested one) (second : resolution.Bodied shift.other.nested other)
    (name : Token) (kind : Symbol.Kind) (size again : Size) (close : Token)
    (untaken : Lacks Repetition.symbol.isCause within) (clear : Lacks Repetition.symbol.isCause inside) :
    resolution.Met shift
      (((resolution.pushed one shift.one.own).declare name kind size one.size close).1,
        within ++ ((resolution.pushed one shift.one.own).declare name kind size one.size close).2)
      (((resolution.pushed other shift.other.own).declare name kind again other.size close).1,
        inside ++ ((resolution.pushed other shift.other.own).declare name kind again other.size close).2) := by
  obtain ⟨view, taken⟩ := declare_moves (pushed_moves linked front first second) (own_moves front first second)
    name kind size again close
  refine ⟨front, ?_, ?_, view, within, inside, _, rfl, congrArg _ taken, untaken, clear⟩
  · rw [declare_definitions, first.pushed, front]
  · rw [declare_definitions, second.pushed, front]

theorem checkDecl_met (linked : resolution.view.Linked) (rebodied : Decl.Rebodied decl again)
    (reached : List String) :
    ∃ shift, resolution.Met shift (resolution.checkDecl reached decl) (resolution.checkDecl reached again) := by
  cases rebodied with
  | enum entries others max limit name close =>
    let one : EnumDecl := ⟨entries, max, name, close⟩
    let other : EnumDecl := ⟨others, limit, name, close⟩
    have rebodied : one.definition.Rebodied other.definition := ⟨rfl, rfl, rfl, nofun⟩
    exact ⟨⟨_, ⟨[], _⟩, ⟨[], _⟩, rebodied⟩, declare_met linked rfl bodied_none bodied_none name .enum _ _ close
      (one.findings_lack.mono Repetition.symbol.cause_repeat)
      (other.findings_lack.mono Repetition.symbol.cause_repeat)⟩
  | struct members others name close =>
    obtain ⟨nested, first⟩ := resolution.bodied_struct name members
    obtain ⟨again, second⟩ := resolution.bodied_struct name others
    have rebodied : Definition.Rebodied
        ⟨name.text, .struct, name.line, .unsized,
          (View.checkMembers (resolution.view.enter name.text) members).entries⟩
        ⟨name.text, .struct, name.line, .unsized,
          (View.checkMembers (resolution.view.enter name.text) others).entries⟩ := ⟨rfl, rfl, rfl, nofun⟩
    exact ⟨⟨_, ⟨nested, _⟩, ⟨again, _⟩, rebodied⟩, declare_met linked rfl first second name .struct _ _ close
      (View.leave_untaken (View.members_untaken _ members) name close)
      (View.leave_untaken (View.members_untaken _ others) name close)⟩
  | select selector other opening start arms others name close =>
    let one : Select := ⟨selector, opening, arms, name, close⟩
    let other : Select := ⟨other, start, others, name, close⟩
    have apart : Repetition.symbol ≠ .label := by decide
    have rebodied : (resolution.view.selectDefinition one).Rebodied (resolution.view.selectDefinition other) :=
      ⟨rfl, rfl, rfl, nofun⟩
    have untaken := resolution.view.select_lack one apart
    have clear := resolution.view.select_lack other apart
    refine ⟨⟨resolution.types.definitions.toList, ⟨[], _⟩, ⟨[], _⟩, rebodied⟩, ?_⟩
    cases name with
    | none =>
      exact ⟨rfl, bodied_none.pushed _, bodied_none.pushed _, pushed_moves linked rfl bodied_none bodied_none, _, _, [],
        (List.append_nil _).symm, (List.append_nil _).symm, untaken, clear⟩
    | some name =>
      exact declare_met linked rfl bodied_none bodied_none name .select _ _ close untaken clear

end Resolution

end WireFormat
