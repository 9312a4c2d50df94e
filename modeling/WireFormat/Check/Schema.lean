import WireFormat.Check.Enum
import WireFormat.Check.Struct

namespace WireFormat

-- What a schema declares: every definition, and the names of the top level.
structure Resolution where
  types : Arena
  globals : Scope
  externs : Scope
  deriving DecidableEq, Repr

namespace Resolution

def lookup (resolution : Resolution) (name : String) : Option Definition :=
  (resolution.types.lookup name).bind resolution.types.get?

def isExtern (resolution : Resolution) (name : String) : Bool := resolution.externs.contains name

def view (resolution : Resolution) : View :=
  ⟨resolution.externs, resolution.globals, resolution.types, .empty⟩

-- A definition stays in the arena even when its name is taken.
def declare (resolution : Resolution) (name : Token) (kind : Symbol.Kind) (size : Size) (id : Nat)
    (close : Token) : Resolution × List Finding :=
  let declared := resolution.globals.declare ⟨name.text, kind, name.line, size, some (.declared id)⟩
  if declared.2 then
    ({ resolution with globals := declared.1, types := (resolution.types.bind name.text id).1 }, [])
  else (resolution, [⟨.duplicateSymbol name.text, close⟩])

-- Completes a named declaration: its definition, then its name.
def define (resolution : Resolution) (definition : Definition) (name close : Token) :
    Resolution × List Finding :=
  let pushed := resolution.types.push definition
  { resolution with types := pushed.1 }.declare name definition.kind definition.size pushed.2 close

def fieldDefinition (resolution : Resolution) (entry : Field) : Definition :=
  let size := Size.ofBounds entry.bounds
  let kind := match entry.type with
    | .scalar _ => .scalar
    | .named _ => .typed
  ⟨entry.name.text, kind, entry.name.line, size, [⟨none, resolution.view.type? entry.type, size⟩]⟩

def fieldFindings (resolution : Resolution) (entry : Field) : List Finding :=
  resolution.view.boundsFindings entry.name.text entry.close entry.bounds ++
  (resolution.view.unknownType? entry.type).toList.map fun name => ⟨.unknownType name, entry.close⟩

-- Checks one declaration. `reached` are the names of the externs before it; all
-- externs are registered beforehand, so only a repetition is found here.
def checkDecl (resolution : Resolution) (reached : List String) :
    Decl → Resolution × List Finding
  | .external name close =>
    (resolution, if reached.contains name.text then [⟨.duplicateSymbol name.text, close⟩] else [])
  | .field entry =>
    let defined := resolution.define (resolution.fieldDefinition entry) entry.name entry.close
    (defined.1, resolution.fieldFindings entry ++ defined.2)
  | .enum listing =>
    let defined := resolution.define listing.definition listing.name listing.close
    (defined.1, listing.findings ++ defined.2)
  | .struct members name close =>
    let checked := resolution.view.checkStruct members name close
    let declared :=
      { resolution with types := checked.view.types }.declare name .struct .unsized checked.id close
    (declared.1, checked.findings ++ declared.2)
  | .select choice =>
    let definition := resolution.view.selectDefinition choice
    let found := resolution.view.selectFindings choice
    match choice.name with
    | none => ({ resolution with types := (resolution.types.push definition).1 }, found)
    | some name =>
      let defined := resolution.define definition name choice.close
      (defined.1, found ++ defined.2)

def checkDecls (resolution : Resolution) (reached : List String) :
    List Decl → Resolution × List Finding
  | [] => (resolution, [])
  | decl :: rest =>
    let one := resolution.checkDecl reached decl
    let more := one.1.checkDecls (decl.external?.toList ++ reached) rest
    (more.1, one.2 ++ more.2)

end Resolution

-- Externs are known to the whole schema, before anything is checked.
def externScope (decls : List Decl) : Scope :=
  decls.foldl (fun scope decl =>
    match decl with
    | .external name _ =>
      (scope.declare ⟨name.text, .external, name.line, .unresolved, some (.external name.text)⟩).1
    | _ => scope) (.empty .external "")

-- The tables of a schema before its first declaration is checked.
def started (schema : List Decl) : Resolution := ⟨.empty, .empty .global "", externScope schema⟩

-- Declarations are checked in order, and one that fails does not stop the rest.
def analyze (decls : List Decl) : Resolution × List Finding := (started decls).checkDecls [] decls

end WireFormat
