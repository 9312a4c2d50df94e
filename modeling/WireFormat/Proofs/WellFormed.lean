import WireFormat.Check.Enum
import WireFormat.Proofs.Site

namespace WireFormat

-- What makes a schema good, said of each site by itself. `allowed` are the endings
-- that a name used as a value may lead to.

section Sound

variable (allowed : Ending → Bool) (place : Place)

def Number.Evaluates (number : Number) : Prop := number.evaluated.error = none

def SizeExpr.Sound : SizeExpr → Prop
  | .literal number => number.Evaluates
  | .power number => number.Evaluates
  | .reference name => place.Admits allowed .size name

-- Only constants are compared.
def Bounds.Sound : Bounds → Prop
  | .fixed size => size.Sound allowed place ∧ ∀ value, size.value? = some value → value ≠ 0
  | .range low high => low.Sound allowed place ∧ high.Sound allowed place ∧
      ∀ least most, low.value? = some least → high.value? = some most → least ≤ most

structure EnumDecl.Sound (listing : EnumDecl) : Prop where
  numbers : ∀ entry ∈ listing.entries, ∀ number, entry.value = some number → number.Evaluates
  limit : ∀ max, listing.max = some max → max.Evaluates
  names : (listing.entries.map (·.name.text)).Nodup
  values : (EnumEntry.values 0 listing.entries).Nodup
  fits : ∀ max, listing.max = some max →
    ∀ value ∈ EnumEntry.values 0 listing.entries, value ≤ max.value

structure Select.Sound (choice : Select) : Prop where
  selector : place.Admits allowed .selector choice.selector
  labels : (choice.arms.flatMap fun arm => arm.labels.map (·.name.text)).Nodup

def Node.Sound : Node → Prop
  | .line type bounds _ => place.Knows type ∧ ∀ given, bounds = some given → given.Sound allowed place
  | .enum listing => listing.Sound
  | .struct members => (members.filterMap Member.itemName?).Nodup
  | .select choice => choice.Sound allowed place

end Sound

def Site.Sound (allowed : Ending → Bool) (site : Site) : Prop := site.node.Sound allowed site.place

-- Externs are not told apart from other declarations by their names.
structure WellFormed (decls : List Decl) : Prop where
  externs : (decls.filterMap Decl.external?).Nodup
  globals : (decls.filterMap Decl.globalName?).Nodup
  sound : ∀ site ∈ sites decls, site.Sound Ending.isNumeric

end WireFormat
