import WireFormat.Arena
import WireFormat.Finding
import WireFormat.Scope

namespace WireFormat

-- Whether a declared type holds numbers: a built-in or an enum does, and a typed
-- line does if its own type does. A type that did not resolve counts, since that
-- has been reported; so does an extern. Definitions refer to earlier ones only.
def Arena.isNumeric (types : Arena) (id : Nat) : Bool :=
  match types.get? id with
  | none => false
  | some definition =>
    match definition.kind with
    | .scalar | .enum => true
    | .typed =>
      match definition.entries.head?.bind (·.type) with
      | some (.declared next) => if next < id then types.isNumeric next else false
      | _ => true
    | _ => false
termination_by id

-- Where a name is used as a value.
inductive Use where
  | size | selector
  deriving DecidableEq, Repr

-- What names can mean at one place of a schema. Externs are those of the whole
-- schema, all else is what has been completed before the place.
structure View where
  externs : Scope
  globals : Scope
  types : Arena
  locals : ScopeStack
  deriving DecidableEq, Repr

namespace View

-- Declarations hide externs of the same name. A dotted name never resolves.
def type? (view : View) : TypeRef → Option Handle
  | .scalar type => some (.scalar type)
  | .named name =>
    if name.isDotted then none
    else match view.types.lookup name.head with
      | some id => some (.declared id)
      | none => if view.externs.contains name.head then some (.external name.head) else none

def isNumeric (view : View) : Option Handle → Bool
  | some (.declared id) => view.types.isNumeric id
  | _ => true

-- Externs come first here, then members of open structs, then globals. An enum
-- may select but not count.
def denotesValue (view : View) (use : Use) (name : Name) : Bool :=
  if name.isDotted then false
  else if view.externs.contains name.head then true
  else match (view.locals.lookup name.head).or (view.globals.lookup name.head) with
    | none => false
    | some symbol =>
      match symbol.kind with
      | .enum => use = .selector
      | .scalar | .typed | .member => view.isNumeric symbol.type
      | _ => false

-- The name of a type that does not resolve.
def unknownType? (view : View) (type : TypeRef) : Option Name :=
  if (view.type? type).isNone then type.name? else none

end View

end WireFormat
