import WireFormat.Proofs.Moved

namespace WireFormat

-- What a declaration after the one with two bodies makes of either run: the same findings,
-- and definitions that have moved.

variable {shift : Shift}

namespace View.Moves

variable {one other : View}

theorem boundsFindings (moves : one.Moves shift other) : other.boundsFindings = one.boundsFindings := by
  have sizes : other.sizeFindings = one.sizeFindings := by
    funext close size
    cases size with
    | literal | power => rfl
    | reference name => simp only [View.sizeFindings, moves.denotesValue]
  funext owner close bounds
  cases bounds with
  | none => rfl
  | some bounds => simp only [View.boundsFindings, sizes]

theorem selectFindings (moves : one.Moves shift other) : other.selectFindings = one.selectFindings := by
  have arms : other.armFindings = one.armFindings := by
    funext arm
    simp only [View.armFindings, moves.boundsFindings, moves.unknownType?]
  funext choice
  simp only [View.selectFindings, View.armsFindings, View.selectorFindings, arms, moves.denotesValue]

theorem selectDefinition (moves : one.Moves shift other) (choice : Select) :
    (one.selectDefinition choice).Moves shift (other.selectDefinition choice) := by
  refine ⟨rfl, rfl, rfl, rfl, ?_⟩
  simp only [View.selectDefinition, ← List.map_flatMap]
  rw [List.forall₂_map_left_iff, List.forall₂_map_right_iff]
  exact List.forall₂_same.mpr fun item _ => ⟨rfl, moves.type? item.type, rfl⟩

theorem push (moves : one.Moves shift other) (defined : Definition.Moves shift definition moved) :
    View.Moves shift { one with types := (one.types.push definition).1 }
      { other with types := (other.types.push moved).1 } :=
  ⟨moves.externs, moves.globals, moves.types.push defined, moves.locals⟩

theorem enter (moves : one.Moves shift other) (owner : String) :
    (one.enter owner).Moves shift (other.enter owner) :=
  ⟨moves.externs, moves.globals, moves.types, .cons .nil moves.locals⟩

theorem pop (moves : one.Moves shift other) :
    View.Moves shift { one with locals := one.locals.pop.1 } { other with locals := other.locals.pop.1 } :=
  ⟨moves.externs, moves.globals, moves.types, moves.locals.pop⟩

theorem declareMember (moves : one.Moves shift other) (name : Option Token) (line : Nat) (size : Size)
    (typed : Option.Rel (Handle.Moves shift) type again) :
    (one.declareMember name line size type).1.Moves shift (other.declareMember name line size again).1 ∧
      (other.declareMember name line size again).2 = (one.declareMember name line size type).2 := by
  cases name with
  | none => exact ⟨moves, rfl⟩
  | some name =>
    have symbol : Symbol.Moves shift ⟨name.text, .member, line, size, type⟩
        ⟨name.text, .member, line, size, again⟩ := ⟨rfl, rfl, rfl, typed⟩
    obtain ⟨locals, accepted⟩ := ScopeStack.Beside.declare Symbol.Moves.named moves.locals symbol
    refine ⟨⟨moves.externs, moves.globals, moves.types, locals⟩, ?_⟩
    simp only [View.declareMember, accepted]

end View.Moves

structure MemberCheck.Moves (shift : Shift) (one other : MemberCheck) : Prop where
  view : one.view.Moves shift other.view
  type : Option.Rel (Handle.Moves shift) one.type other.type
  size : other.size = one.size
  line : other.line = one.line
  unknown : other.unknown = one.unknown
  findings : other.findings = one.findings

structure MembersCheck.Moves (shift : Shift) (one other : MembersCheck) : Prop where
  view : one.view.Moves shift other.view
  entries : List.Forall₂ (Definition.Entry.Moves shift) one.entries other.entries
  repeated : other.repeated = one.repeated
  unknown : other.unknown = one.unknown
  findings : other.findings = one.findings

structure StructCheck.Moves (shift : Shift) (one other : StructCheck) : Prop where
  view : one.view.Moves shift other.view
  id : shift.Moves one.id other.id
  findings : other.findings = one.findings

namespace View

theorem leave_moves {body again : MembersCheck} (moves : body.Moves shift again) (name close : Token) :
    (leave name close body).Moves shift (leave name close again) := by
  have defined : Definition.Moves shift ⟨name.text, .struct, name.line, .unsized, body.entries⟩
      ⟨name.text, .struct, name.line, .unsized, again.entries⟩ := ⟨rfl, rfl, rfl, rfl, moves.entries⟩
  refine ⟨moves.view.pop.push defined, moves.view.types.size, ?_⟩
  simp only [leave, moves.findings, moves.repeated, moves.unknown]

mutual

theorem checkMember_moves {one other : View} (moves : one.Moves shift other) (member : Member) :
    (checkMember one member).Moves shift (checkMember other member) := by
  cases member with
  | field entry =>
    refine ⟨moves, moves.type? entry.type, rfl, rfl, ?_, ?_⟩
    · simp only [checkMember, moves.unknownType?]
    · simp only [checkMember, moves.boundsFindings]
  | struct members name close =>
    have left := leave_moves (checkMembers_moves (moves.enter name.text) members) name close
    exact ⟨left.view, .some (.declared left.id), rfl, rfl, rfl, left.findings⟩
  | select choice =>
    refine ⟨moves.push (moves.selectDefinition choice), .some (.declared moves.types.size), rfl, rfl, rfl, ?_⟩
    simp only [checkMember, moves.selectFindings]

theorem checkMembers_moves {one other : View} (moves : one.Moves shift other) (members : List Member) :
    (checkMembers one members).Moves shift (checkMembers other members) := by
  cases members with
  | nil => exact ⟨moves, .nil, rfl, rfl, rfl⟩
  | cons member rest =>
    have first := checkMember_moves moves member
    obtain ⟨declared, repeated⟩ := first.view.declareMember member.name? (checkMember one member).line
      (checkMember one member).size first.type
    have more := checkMembers_moves declared rest
    refine ⟨?_, ?_, ?_, ?_, ?_⟩
    · simpa only [checkMembers, first.line, first.size] using more.view
    · simp only [checkMembers, first.line, first.size]
      exact .cons ⟨rfl, first.type, rfl⟩ more.entries
    · simp only [checkMembers, first.line, first.size, repeated, more.repeated]
    · simp only [checkMembers, first.line, first.size, first.unknown, more.unknown]
    · simp only [checkMembers, first.line, first.size, first.findings, more.findings]

end

end View

namespace Resolution

variable {one other : Resolution}

-- The sizes may differ, since the names do not depend on them.
theorem declare_moves (moves : one.view.Moves shift other.view) {id place : Nat} (there : shift.Moves id place)
    (name : Token) (kind : Symbol.Kind) (size again : Size) (close : Token) :
    (one.declare name kind size id close).1.view.Moves shift (other.declare name kind again place close).1.view ∧
      (other.declare name kind again place close).2 = (one.declare name kind size id close).2 := by
  have symbol : Symbol.Moves shift ⟨name.text, kind, name.line, size, some (.declared id)⟩
      ⟨name.text, kind, name.line, again, some (.declared place)⟩ := ⟨rfl, rfl, rfl, .some (.declared there)⟩
  obtain ⟨globals, accepted⟩ := Scope.Beside.declare Symbol.Moves.named moves.globals symbol
  simp only [view] at accepted
  simp only [declare, accepted]
  split
  · exact ⟨⟨moves.externs, globals, moves.types.bind name.text there, .nil⟩, rfl⟩
  · exact ⟨moves, rfl⟩

theorem define_moves (moves : one.view.Moves shift other.view) (defined : Definition.Moves shift definition moved)
    (name close : Token) :
    (one.define definition name close).1.view.Moves shift (other.define moved name close).1.view ∧
      (other.define moved name close).2 = (one.define definition name close).2 := by
  have pushed : View.Moves shift (Resolution.view { one with types := (one.types.push definition).1 })
      (Resolution.view { other with types := (other.types.push moved).1 }) := moves.push defined
  simp only [define, defined.kind]
  exact declare_moves pushed moves.types.size name _ _ _ close

theorem checkDecl_moves (moves : one.view.Moves shift other.view) (reached : List String) (decl : Decl) :
    (one.checkDecl reached decl).1.view.Moves shift (other.checkDecl reached decl).1.view ∧
      (other.checkDecl reached decl).2 = (one.checkDecl reached decl).2 := by
  cases decl with
  | external name close => exact ⟨moves, rfl⟩
  | field entry =>
    have defined : (one.fieldDefinition entry).Moves shift (other.fieldDefinition entry) :=
      ⟨rfl, rfl, rfl, rfl, .cons ⟨rfl, moves.type? entry.type, rfl⟩ .nil⟩
    obtain ⟨after, found⟩ := define_moves moves defined entry.name entry.close
    refine ⟨after, ?_⟩
    simp only [checkDecl, fieldFindings, moves.boundsFindings, moves.unknownType?, found]
  | enum listing =>
    have defined : listing.definition.Moves shift listing.definition := by
      refine ⟨rfl, rfl, rfl, rfl, List.forall₂_same.mpr ?_⟩
      intro entry member
      obtain ⟨_, _, rfl⟩ := List.mem_map.mp member
      exact ⟨rfl, .none, rfl⟩
    obtain ⟨after, found⟩ := define_moves moves defined listing.name listing.close
    refine ⟨after, ?_⟩
    simp only [checkDecl, found]
  | struct members name close =>
    have body := View.leave_moves (View.checkMembers_moves (moves.enter name.text) members) name close
    have checked : View.Moves shift
        (Resolution.view { one with types := (one.view.checkStruct members name close).view.types })
        (Resolution.view { other with types := (other.view.checkStruct members name close).view.types }) :=
      ⟨moves.externs, moves.globals, body.view.types, .nil⟩
    obtain ⟨after, found⟩ := declare_moves checked body.id name .struct .unsized .unsized close
    have inside : (other.view.checkStruct members name close).findings =
        (one.view.checkStruct members name close).findings := body.findings
    refine ⟨after, ?_⟩
    simp only [checkDecl, inside]
    exact congrArg _ found
  | select choice =>
    have defined := moves.selectDefinition choice
    simp only [checkDecl, moves.selectFindings]
    cases choice.name with
    | none => exact ⟨moves.push defined, rfl⟩
    | some name =>
      obtain ⟨after, found⟩ := define_moves moves defined name choice.close
      refine ⟨after, ?_⟩
      simp only [found]

end Resolution

end WireFormat
