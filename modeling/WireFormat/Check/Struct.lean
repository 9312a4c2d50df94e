import WireFormat.Check.Select

namespace WireFormat

-- One member checked: the view after it, what it is, and what was found. Types
-- that do not resolve wait for the end of the struct.
structure MemberCheck where
  view : View
  type : Option Handle
  size : Size
  line : Nat
  unknown : List Name
  findings : List Finding
  deriving DecidableEq, Repr

-- Members in order, with the names that an earlier one of them has taken.
structure MembersCheck where
  view : View
  entries : List Definition.Entry
  repeated : List String
  unknown : List Name
  findings : List Finding
  deriving DecidableEq, Repr

structure StructCheck where
  view : View
  id : Nat
  findings : List Finding
  deriving DecidableEq, Repr

namespace View

def enter (view : View) (owner : String) : View :=
  { view with locals := view.locals.push (.empty .struct owner) }

-- Ends a struct: its scope goes, its definition comes, and what had to wait for
-- the end is reported there.
def leave (name close : Token) (body : MembersCheck) : StructCheck :=
  let pushed := body.view.types.push ⟨name.text, .struct, name.line, .unsized, body.entries⟩
  ⟨{ body.view with types := pushed.1, locals := body.view.locals.pop.1 }, pushed.2,
    body.findings ++
    body.repeated.map (fun item => ⟨.duplicateItem item name.text, close⟩) ++
    body.unknown.map fun type => ⟨.unknownType type, close⟩⟩

-- A named member becomes visible to the members after it, unless its name is
-- taken; then the name is returned.
def declareMember (view : View) (name : Option Token) (line : Nat) (size : Size)
    (type : Option Handle) : View × List String :=
  match name with
  | none => (view, [])
  | some name =>
    let declared := view.locals.declare ⟨name.text, .member, line, size, type⟩
    ({ view with locals := declared.1 }, if declared.2 = some false then [name.text] else [])

mutual

def checkMember (view : View) : Member → MemberCheck
  | .field entry =>
    ⟨view, view.type? entry.type, .ofBounds entry.bounds, entry.name.line,
      (view.unknownType? entry.type).toList,
      view.boundsFindings entry.name.text entry.close entry.bounds⟩
  | .struct members name close =>
    let inner := leave name close (checkMembers (view.enter name.text) members)
    ⟨inner.view, some (.declared inner.id), .unsized, name.line, [], inner.findings⟩
  | .select choice =>
    let pushed := view.types.push (view.selectDefinition choice)
    ⟨{ view with types := pushed.1 }, some (.declared pushed.2), .unsized, choice.close.line, [],
      view.selectFindings choice⟩

def checkMembers (view : View) : List Member → MembersCheck
  | [] => ⟨view, [], [], [], []⟩
  | member :: rest =>
    let one := checkMember view member
    let declared := one.view.declareMember member.name? one.line one.size one.type
    let more := checkMembers declared.1 rest
    ⟨more.view, ⟨member.name?.map (·.text), one.type, one.size⟩ :: more.entries,
      declared.2 ++ more.repeated, one.unknown ++ more.unknown, one.findings ++ more.findings⟩

end

def checkStruct (view : View) (members : List Member) (name close : Token) : StructCheck :=
  leave name close (checkMembers (view.enter name.text) members)

end View

end WireFormat
