import WireFormat.Schema

namespace WireFormat

-- A schema as indented text, one declaration, member or arm a line.

def indented (depth : Nat) (line : String) : String := "".pushn ' ' (2 * depth) ++ line

def boundsText : Option Bounds → String
  | none => ""
  | some (.fixed size) => "[" ++ size.text ++ "]"
  | some (.range low high) => "<" ++ low.text ++ ".." ++ high.text ++ ">"

def Field.text (entry : Field) : String :=
  entry.type.text ++ " " ++ entry.name.text ++ boundsText entry.bounds

def EnumEntry.text (entry : EnumEntry) : String :=
  entry.name.text ++
    match entry.value with
    | none => ""
    | some number => "(" ++ number.token.text ++ ")"

def EnumDecl.text (listing : EnumDecl) : String :=
  let max := listing.max.toList.map fun number => "(" ++ number.token.text ++ ")"
  "enum " ++ listing.name.text ++ " \x7b " ++
    ", ".intercalate (listing.entries.map EnumEntry.text ++ max) ++ " \x7d"

def Item.text (item : Item) : String :=
  (if item.signed then " digitally-signed " else " ") ++ item.type.text ++
    (match item.name with
      | none => ""
      | some name => " " ++ name.text ++ boundsText item.bounds) ++ ";"

def Arm.text (arm : Arm) : String :=
  "case " ++ ", ".intercalate (arm.labels.map (·.name.text)) ++ ":" ++
    if arm.items.isEmpty then " ;" else String.join (arm.items.map Item.text)

def Select.lines (depth : Nat) (choice : Select) : List String :=
  indented depth ("select " ++
    (match choice.name with
      | none => ""
      | some name => name.text ++ " ") ++ "(" ++ choice.selector.text ++ ")") ::
  choice.arms.map fun arm => indented (depth + 1) arm.text

mutual

def Member.lines (depth : Nat) : Member → List String
  | .field entry => [indented depth entry.text]
  | .struct members name _ =>
    indented depth ("struct " ++ name.text) :: Member.allLines (depth + 1) members
  | .select choice => choice.lines depth

def Member.allLines (depth : Nat) : List Member → List String
  | [] => []
  | member :: rest => Member.lines depth member ++ Member.allLines depth rest

end

def Decl.lines : Decl → List String
  | .field entry => [entry.text]
  | .external name _ => ["extern " ++ name.text]
  | .enum listing => [listing.text]
  | .struct members name _ => ("struct " ++ name.text) :: Member.allLines 1 members
  | .select choice => choice.lines 0

def outline (decls : List Decl) : String :=
  String.join ((decls.flatMap Decl.lines).map (· ++ "\n"))

end WireFormat
