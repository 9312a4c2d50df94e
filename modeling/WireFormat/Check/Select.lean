import WireFormat.Check.Bounds
import WireFormat.Repeats

namespace WireFormat

-- An item without a name is called by its type.
def Item.owner (item : Item) : String :=
  match item.name with
  | some name => name.text
  | none => item.type.text

def Arm.names (arm : Arm) : List String :=
  (firsts (·.name.text) arm.labels).map (·.name.text)

def Select.owner (choice : Select) : String :=
  match choice.name with
  | some name => name.text
  | none => ""

def Arm.repeatFindings (arm : Arm) : List Finding :=
  (repeats (·.name.text) arm.labels).map fun label =>
    ⟨.duplicateLabel label.name.text, label.colon⟩

-- A label of an earlier arm is reported once for each later arm that has it.
def Select.acrossFindings (choice : Select) : List Finding :=
  (repeats id (choice.arms.flatMap Arm.names)).map fun name =>
    ⟨.repeatedLabel name choice.owner, choice.close⟩

namespace View

def selectorFindings (view : View) (choice : Select) : List Finding :=
  if view.denotesValue .selector choice.selector then []
  else [⟨.unknownSelector choice.selector, choice.opening⟩]

-- Labels repeated among themselves, then the bounds of the items, then the types
-- that do not resolve; those wait for the token after the arm.
def armFindings (view : View) (arm : Arm) : List Finding :=
  arm.repeatFindings ++
  arm.items.flatMap (fun item => view.boundsFindings item.owner item.close item.bounds) ++
  (arm.items.filterMap fun item => view.unknownType? item.type).map fun name =>
    ⟨.unknownType name, arm.follow⟩

def armsFindings (view : View) (choice : Select) : List Finding :=
  view.selectorFindings choice ++ choice.arms.flatMap view.armFindings

-- Labels are compared across the arms when all arms have been read.
def selectFindings (view : View) (choice : Select) : List Finding :=
  view.armsFindings choice ++ choice.acrossFindings

def selectDefinition (view : View) (choice : Select) : Definition :=
  ⟨choice.owner, .select, choice.close.line, .unsized,
    choice.arms.flatMap fun arm => arm.items.map fun item =>
      ⟨item.name.map (·.text), view.type? item.type, .ofBounds item.bounds⟩⟩

end View

end WireFormat
