import WireFormat.Check.Enum
import WireFormat.Check.Select
import WireFormat.Proofs.Place

namespace WireFormat

-- What is wrong with a schema, said of its tree: each place judges what stands there
-- by what it can see. Nothing is carried from one declaration to the next.

namespace Place

open Classical in
noncomputable def valueFindings (place : Place) (use : Use) (name : Name) (finding : Finding) :
    List Finding :=
  if place.Admits Ending.isTolerated use name then [] else [finding]

open Classical in
noncomputable def unknownType? (place : Place) (type : TypeRef) : Option Name :=
  if place.Knows type then none else type.name?

noncomputable def sizeFindings (place : Place) (close : Token) : SizeExpr → List Finding
  | .literal number => number.findings
  | .power number => number.findings
  | .reference name => place.valueFindings .size name ⟨.unknownSize name, close⟩

noncomputable def boundsFindings (place : Place) (owner : String) (close : Token) :
    Option Bounds → List Finding
  | none => []
  | some bounds =>
    bounds.sizes.flatMap (place.sizeFindings close) ++ bounds.size.findings owner close

noncomputable def armFindings (place : Place) (arm : Arm) : List Finding :=
  arm.repeatFindings ++
  arm.items.flatMap (fun item => place.boundsFindings item.owner item.close item.bounds) ++
  (arm.items.filterMap fun item => place.unknownType? item.type).map fun name =>
    ⟨.unknownType name, arm.follow⟩

noncomputable def selectFindings (place : Place) (choice : Select) : List Finding :=
  place.valueFindings .selector choice.selector ⟨.unknownSelector choice.selector, choice.opening⟩ ++
  choice.arms.flatMap place.armFindings ++
  choice.acrossFindings

noncomputable def unknownMember? (place : Place) : Member → Option Name
  | .field entry => place.unknownType? entry.type
  | _ => none

-- Types are top-level names, so the open structs have no say.
theorem knows_within (place : Place) (earlier : List Member) (type : TypeRef) :
    (place.within earlier).Knows type ↔ place.Knows type := by
  constructor
  · intro knows
    cases knows with
    | scalar => exact .scalar
    | global simple named => exact .global simple named
    | external simple listed => exact .external simple listed
  · intro knows
    cases knows with
    | scalar => exact .scalar
    | global simple named => exact .global simple named
    | external simple listed => exact .external simple listed

theorem unknownType_within (place : Place) (earlier : List Member) (type : TypeRef) :
    (place.within earlier).unknownType? type = place.unknownType? type := by
  have same := knows_within place earlier type
  unfold unknownType?
  by_cases knows : place.Knows type
  · rw [if_pos knows, if_pos (same.mpr knows)]
  · rw [if_neg knows, if_neg fun known => knows (same.mp known)]

theorem unknownMember_within (place : Place) (earlier : List Member) (member : Member) :
    (place.within earlier).unknownMember? member = place.unknownMember? member := by
  cases member with
  | field entry => exact unknownType_within place earlier entry.type
  | struct | select => rfl

-- What the end of a struct adds to the findings of its members.
noncomputable def closingFindings (place : Place) (members : List Member) (name close : Token) :
    List Finding :=
  (repeats id (members.filterMap Member.itemName?)).map (fun item =>
    ⟨.duplicateItem item name.text, close⟩) ++
  (members.filterMap place.unknownMember?).map fun type => ⟨.unknownType type, close⟩

mutual

noncomputable def memberFindings (place : Place) : Member → List Finding
  | .field entry => place.boundsFindings entry.name.text entry.close entry.bounds
  | .struct members name close =>
    place.membersFindings [] members ++ place.closingFindings members name close
  | .select choice => place.selectFindings choice

-- Each member sees the members before it.
noncomputable def membersFindings (place : Place) (earlier : List Member) :
    List Member → List Finding
  | [] => []
  | member :: rest =>
    (place.within earlier).memberFindings member ++
      place.membersFindings (earlier ++ [member]) rest

end

def takenFindings (taken : List String) (name close : Token) : List Finding :=
  if name.text ∈ taken then [⟨.duplicateSymbol name.text, close⟩] else []

noncomputable def declFindings (place : Place) : Decl → List Finding
  | .external name close => takenFindings (place.prior.filterMap Decl.external?) name close
  | .field entry =>
    place.boundsFindings entry.name.text entry.close entry.bounds ++
    (place.unknownType? entry.type).toList.map (fun name => ⟨.unknownType name, entry.close⟩) ++
    takenFindings (place.prior.filterMap Decl.globalName?) entry.name entry.close
  | .enum listing =>
    listing.findings ++
    takenFindings (place.prior.filterMap Decl.globalName?) listing.name listing.close
  | .struct members name close =>
    place.membersFindings [] members ++ place.closingFindings members name close ++
    takenFindings (place.prior.filterMap Decl.globalName?) name close
  | .select choice =>
    place.selectFindings choice ++
    choice.name.toList.flatMap fun name =>
      takenFindings (place.prior.filterMap Decl.globalName?) name choice.close

end Place

noncomputable def findingsAfter (externs : List String) (prior : List Decl) : List Decl → List Finding
  | [] => []
  | decl :: rest =>
    Place.declFindings ⟨externs, prior, []⟩ decl ++ findingsAfter externs (prior ++ [decl]) rest

noncomputable def schemaFindings (decls : List Decl) : List Finding :=
  findingsAfter (decls.filterMap Decl.external?) [] decls

end WireFormat
