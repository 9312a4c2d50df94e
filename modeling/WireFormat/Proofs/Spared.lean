import WireFormat.Proofs.Gains
import WireFormat.Proofs.Kinds

namespace WireFormat

-- What is found in a struct or a select with one extern more: all that was found
-- without it, but for what missed the extern's name.

variable {wanted : String}

def spared (wanted : String) (findings : List Finding) : List Finding :=
  findings.filter fun finding => !finding.misses wanted

@[simp] theorem spared_append (front back : List Finding) :
    spared wanted (front ++ back) = spared wanted front ++ spared wanted back := List.filter_append ..

theorem spared_flatMap (items : List α) (found : α → List Finding) :
    spared wanted (items.flatMap found) = items.flatMap fun item => spared wanted (found item) :=
  List.filter_flatMap ..

theorem spared_unknown (names : List Name) (token : Token) :
    spared wanted (names.map fun name => ⟨.unknownType name, token⟩) =
      (names.filter fun name => !name.isPlain wanted).map fun name => ⟨.unknownType name, token⟩ :=
  List.filter_map ..

def Cause.isUnresolved (cause : Cause) : Bool := cause.unresolved?.isSome

theorem spared_settled (settled : Lacks Cause.isUnresolved found) : spared wanted found = found := by
  refine List.filter_eq_self.mpr fun finding member => ?_
  have resolved : finding.cause.unresolved? = none := by simpa [Cause.isUnresolved] using settled finding member
  simp [Finding.misses, resolved]

-- The written types of the entries that a declaration brings to the arena: one row for
-- each definition, inner ones first.
def Select.written (choice : Select) : List (Option TypeRef) :=
  choice.arms.flatMap fun arm => arm.items.map fun item => some item.type

def Member.written? : Member → Option TypeRef
  | .field entry => some entry.type
  | _ => none

mutual

def Member.rows : Member → List (List (Option TypeRef))
  | .field _ => []
  | .struct members _ _ => Member.allRows members ++ [members.map Member.written?]
  | .select choice => [choice.written]

def Member.allRows : List Member → List (List (Option TypeRef))
  | [] => []
  | member :: rest => member.rows ++ Member.allRows rest

end

def Decl.rows : Decl → List (List (Option TypeRef))
  | .field entry => [[some entry.type]]
  | .external .. => []
  | .enum listing => [listing.definition.entries.map fun _ => none]
  | .struct members _ _ => Member.allRows members ++ [members.map Member.written?]
  | .select choice => [choice.written]

namespace View

section Findings

variable {rows : List (List (Option TypeRef))} {before after : View}

theorem Gains.sizeFindings (gains : before.Gains wanted rows after) (close : Token) (size : SizeExpr) :
    after.sizeFindings close size = spared wanted (before.sizeFindings close size) := by
  cases size with
  | literal number | power number => exact (spared_settled (number.lacks fun _ => rfl)).symm
  | reference name =>
    simp only [View.sizeFindings, gains.denotesValue]
    cases before.denotesValue .size name with
    | true => rfl
    | false => cases plain : name.isPlain wanted <;> simp [spared, Finding.misses, Cause.unresolved?, plain]

theorem Gains.boundsFindings (gains : before.Gains wanted rows after) (owner : String) (close : Token)
    (bounds : Option Bounds) :
    after.boundsFindings owner close bounds = spared wanted (before.boundsFindings owner close bounds) := by
  cases bounds with
  | none => rfl
  | some bounds =>
    have sizes := funext (gains.sizeFindings close)
    have size : Lacks Cause.isUnresolved (bounds.size.findings owner close) :=
      bounds.size.lacks owner close rfl fun _ _ => rfl
    simp only [View.boundsFindings, spared_append, spared_flatMap, sizes, spared_settled size]

theorem Gains.selectorFindings (gains : before.Gains wanted rows after) (choice : Select) :
    after.selectorFindings choice = spared wanted (before.selectorFindings choice) := by
  simp only [View.selectorFindings, gains.denotesValue]
  cases before.denotesValue .selector choice.selector with
  | true => rfl
  | false =>
    cases plain : choice.selector.isPlain wanted <;> simp [spared, Finding.misses, Cause.unresolved?, plain]

theorem Gains.unknownType_list (gains : before.Gains wanted rows after) (type : TypeRef) :
    (after.unknownType? type).toList =
      (before.unknownType? type).toList.filter fun name => !name.isPlain wanted := by
  rw [gains.unknownType?]
  cases before.unknownType? type with
  | none => rfl
  | some name => cases plain : name.isPlain wanted <;> simp [Option.filter, plain]

theorem Gains.unknownTypes (gains : before.Gains wanted rows after) (items : List Item) :
    (items.filterMap fun item => after.unknownType? item.type) =
      (items.filterMap fun item => before.unknownType? item.type).filter fun name => !name.isPlain wanted := by
  simp only [gains.unknownType?, List.filter_filterMap]

theorem Gains.armFindings (gains : before.Gains wanted rows after) (arm : Arm) :
    after.armFindings arm = spared wanted (before.armFindings arm) := by
  have labels : Lacks Cause.isUnresolved arm.repeatFindings := lacks_map _ _ fun _ => rfl
  simp only [View.armFindings, spared_append, spared_flatMap, spared_unknown, gains.boundsFindings,
    gains.unknownTypes, spared_settled labels]

theorem Gains.selectFindings (gains : before.Gains wanted rows after) (choice : Select) :
    after.selectFindings choice = spared wanted (before.selectFindings choice) := by
  have arms := funext gains.armFindings
  have across : Lacks Cause.isUnresolved choice.acrossFindings := lacks_map _ _ fun _ => rfl
  simp only [View.selectFindings, View.armsFindings, spared_append, spared_flatMap, gains.selectorFindings, arms,
    spared_settled across]

theorem select_covered (view : View) (choice : Select) :
    choice.written.length = (view.selectDefinition choice).entries.length := by
  simp [Select.written, View.selectDefinition, List.length_flatMap]

theorem Gains.selectDefinition (gains : before.Gains wanted rows after) (choice : Select) :
    after.selectDefinition choice = (before.selectDefinition choice).gain wanted choice.written := by
  simp only [View.selectDefinition, Definition.gain, Select.written, gains.type?]
  simp only [← List.map_flatMap, List.zipWith_map, List.zipWith_self]
  rfl

end Findings

section Tables

variable {rows : List (List (Option TypeRef))} {before after : View}

theorem Gains.enter (gains : before.Gains wanted rows after) (owner : String) :
    (before.enter owner).Gains wanted rows (after.enter owner) :=
  ⟨gains.externs, gains.globals, gains.types, .cons .nil gains.locals⟩

theorem Gains.pop (gains : before.Gains wanted rows after) :
    View.Gains wanted rows { before with locals := before.locals.pop.1 }
      { after with locals := after.locals.pop.1 } :=
  ⟨gains.externs, gains.globals, gains.types, ScopeStack.Beside.pop gains.locals⟩

theorem Gains.push (gains : before.Gains wanted rows after) (row : List (Option TypeRef))
    (definition : Definition) (covers : row.length = definition.entries.length) :
    View.Gains wanted (rows ++ [row]) { before with types := (before.types.push definition).1 }
      { after with types := (after.types.push (definition.gain wanted row)).1 } :=
  ⟨gains.externs, gains.globals, gains.types.push row definition covers, gains.locals⟩

theorem Gains.declareMember (gains : before.Gains wanted rows after) (name : Option Token) (line : Nat)
    (size : Size) (written : Option TypeRef) (type : Option Handle) :
    (before.declareMember name line size type).1.Gains wanted rows
        (after.declareMember name line size (gained wanted written type)).1 ∧
      (after.declareMember name line size (gained wanted written type)).2 =
        (before.declareMember name line size type).2 := by
  cases name with
  | none => exact ⟨gains, rfl⟩
  | some name =>
    have symbol : Symbol.Gains wanted ⟨name.text, .member, line, size, type⟩
        ⟨name.text, .member, line, size, gained wanted written type⟩ := ⟨written, rfl⟩
    obtain ⟨locals, accepted⟩ := ScopeStack.Beside.declare (fun _ _ => Symbol.Gains.name) gains.locals symbol
    refine ⟨⟨gains.externs, gains.globals, gains.types, locals⟩, ?_⟩
    simp only [View.declareMember, accepted]

end Tables

end View

structure MemberCheck.Gains (wanted : String) (rows : List (List (Option TypeRef))) (written : Option TypeRef)
    (before after : MemberCheck) : Prop where
  view : before.view.Gains wanted rows after.view
  type : after.type = gained wanted written before.type
  size : after.size = before.size
  line : after.line = before.line
  unknown : after.unknown = before.unknown.filter fun name => !name.isPlain wanted
  findings : after.findings = spared wanted before.findings

structure MembersCheck.Gains (wanted : String) (rows : List (List (Option TypeRef)))
    (row : List (Option TypeRef)) (before after : MembersCheck) : Prop where
  view : before.view.Gains wanted rows after.view
  covers : row.length = before.entries.length
  entries : after.entries = List.zipWith (Definition.Entry.gain wanted) row before.entries
  repeated : after.repeated = before.repeated
  unknown : after.unknown = before.unknown.filter fun name => !name.isPlain wanted
  findings : after.findings = spared wanted before.findings

namespace View

theorem leave_gains {body : MembersCheck} (gains : body.Gains wanted rows row other) (name close : Token) :
    (leave name close body).view.Gains wanted (rows ++ [row]) (leave name close other).view ∧
      (leave name close other).id = (leave name close body).id ∧
      (leave name close other).findings = spared wanted (leave name close body).findings := by
  have repeated : Lacks Cause.isUnresolved (body.repeated.map fun item => ⟨.duplicateItem item name.text, close⟩) :=
    lacks_map _ _ fun _ => rfl
  refine ⟨?_, gains.view.types.size, ?_⟩
  · have left := gains.view.pop.push row ⟨name.text, .struct, name.line, .unsized, body.entries⟩ gains.covers
    simpa only [leave, gains.entries, Definition.gain] using left
  · simp only [leave, spared_append, spared_unknown, gains.findings, gains.repeated, gains.unknown,
      spared_settled repeated]

mutual

theorem checkMember_gains {before after : View} {rows : List (List (Option TypeRef))}
    (gains : before.Gains wanted rows after) (member : Member) :
    (checkMember before member).Gains wanted (rows ++ member.rows) member.written? (checkMember after member) := by
  cases member with
  | field entry =>
    refine ⟨?_, gains.type? entry.type, rfl, rfl, ?_, gains.boundsFindings _ _ _⟩
    · rw [Member.rows, List.append_nil]
      exact gains
    · exact gains.unknownType_list entry.type
  | struct members name close =>
    obtain ⟨view, id, findings⟩ := leave_gains (checkMembers_gains (gains.enter name.text) members) name close
    refine ⟨?_, ?_, rfl, rfl, rfl, findings⟩
    · rw [Member.rows, ← List.append_assoc]
      exact view
    · simp only [checkMember, id, gained_some]
  | select choice =>
    have pushed := gains.push choice.written (before.selectDefinition choice) (select_covered before choice)
    rw [← gains.selectDefinition] at pushed
    refine ⟨pushed, ?_, rfl, rfl, rfl, gains.selectFindings choice⟩
    simp only [checkMember, Arena.push, gains.types.size, gained_some]

theorem checkMembers_gains {before after : View} {rows : List (List (Option TypeRef))}
    (gains : before.Gains wanted rows after) (members : List Member) :
    (checkMembers before members).Gains wanted (rows ++ Member.allRows members)
      (members.map Member.written?) (checkMembers after members) := by
  cases members with
  | nil =>
    rw [Member.allRows, List.append_nil]
    exact ⟨gains, rfl, rfl, rfl, rfl, rfl⟩
  | cons member rest =>
    have one := checkMember_gains gains member
    obtain ⟨declared, repeated⟩ := one.view.declareMember member.name? (checkMember before member).line
      (checkMember before member).size member.written? (checkMember before member).type
    have more := checkMembers_gains declared rest
    simp only [← one.type] at declared repeated more
    rw [Member.allRows, ← List.append_assoc]
    refine ⟨?_, ?_, ?_, ?_, ?_, ?_⟩
    · simpa only [checkMembers, one.line, one.size] using more.view
    · simp [checkMembers, more.covers]
    · simp only [checkMembers, one.line, one.size, more.entries, List.map_cons, List.zipWith_cons_cons]
      simp only [Definition.Entry.gain, one.type]
    · simp only [checkMembers, one.line, one.size, repeated, more.repeated]
    · simp only [checkMembers, one.line, one.size, one.unknown, more.unknown, List.filter_append]
    · simp only [checkMembers, one.line, one.size, one.findings, more.findings, spared_append]

end

end View

end WireFormat
