import WireFormat.Check.Bounds
import WireFormat.Proofs.Place

namespace WireFormat

-- Everything in a schema that is judged by what stands around it, in source order.
inductive Node where
  | line (type : TypeRef) (bounds : Option Bounds) (close : Token)
  | enum (listing : EnumDecl)
  | struct (members : List Member)
  | select (choice : Select)

structure Site where
  place : Place
  node : Node

def Select.sites (place : Place) (choice : Select) : List Site :=
  ⟨place, .select choice⟩ :: choice.arms.flatMap fun arm => arm.items.map fun item =>
    ⟨place, .line item.type item.bounds item.close⟩

mutual

def Member.sites (place : Place) : Member → List Site
  | .field entry => [⟨place, .line entry.type entry.bounds entry.close⟩]
  | .struct members _ _ => ⟨place, .struct members⟩ :: Member.allSites place [] members
  | .select choice => choice.sites place

-- `earlier` are the members before these in the same struct.
def Member.allSites (place : Place) (earlier : List Member) : List Member → List Site
  | [] => []
  | member :: rest =>
    Member.sites (place.within earlier) member ++ Member.allSites place (earlier ++ [member]) rest

end

def Decl.sites (place : Place) : Decl → List Site
  | .field entry => [⟨place, .line entry.type entry.bounds entry.close⟩]
  | .external .. => []
  | .enum listing => [⟨place, .enum listing⟩]
  | .struct members _ _ => ⟨place, .struct members⟩ :: Member.allSites place [] members
  | .select choice => choice.sites place

def sitesAfter (externs : List String) (prior : List Decl) : List Decl → List Site
  | [] => []
  | decl :: rest => decl.sites ⟨externs, prior, []⟩ ++ sitesAfter externs (prior ++ [decl]) rest

def sites (decls : List Decl) : List Site := sitesAfter (decls.filterMap Decl.external?) [] decls

structure Occurrence where
  place : Place
  use : Use
  name : Name
  token : Token

def SizeExpr.reference? : SizeExpr → Option Name
  | .reference name => some name
  | _ => none

def Bounds.references (bounds : Bounds) : List Name := bounds.sizes.filterMap SizeExpr.reference?

def Site.occurrences (site : Site) : List Occurrence :=
  match site.node with
  | .line _ bounds close =>
    (bounds.toList.flatMap Bounds.references).map fun name => ⟨site.place, .size, name, close⟩
  | .select choice => [⟨site.place, .selector, choice.selector, choice.opening⟩]
  | _ => []

def Occurrence.finding (occurrence : Occurrence) : Finding :=
  match occurrence.use with
  | .size => ⟨.unknownSize occurrence.name, occurrence.token⟩
  | .selector => ⟨.unknownSelector occurrence.name, occurrence.token⟩

def Occurrence.Resolves (occurrence : Occurrence) : Prop :=
  occurrence.place.Admits Ending.isTolerated occurrence.use occurrence.name

end WireFormat
