import WireFormat.Check.View

namespace WireFormat

def SizeExpr.value? : SizeExpr → Option UInt64
  | .literal number => some number.value
  | .power number => some number.value
  | .reference _ => none

def Bounds.size : Bounds → Size
  | .fixed size =>
    match size.value? with
    | some value => .fixed value
    | none => .unresolved
  | .range low high =>
    match low.value?, high.value? with
    | some low, some high => .range low high
    | _, _ => .unresolved

def Bounds.sizes : Bounds → List SizeExpr
  | .fixed size => [size]
  | .range low high => [low, high]

def Size.ofBounds : Option Bounds → Size
  | none => .unsized
  | some bounds => bounds.size

-- A literal that could not be evaluated is reported where it stands.
def Number.findings (number : Number) : List Finding :=
  match number.evaluated.error with
  | none => []
  | some error => [⟨.failedLiteral error, number.token⟩]

def View.sizeFindings (view : View) (close : Token) : SizeExpr → List Finding
  | .literal number => number.findings
  | .power number => number.findings
  | .reference name => if view.denotesValue .size name then [] else [⟨.unknownSize name, close⟩]

-- Only constant sizes are compared.
def Size.findings (owner : String) (close : Token) : Size → List Finding
  | .fixed value => if value = 0 then [⟨.emptySize owner, close⟩] else []
  | .range low high => if high < low then [⟨.invertedRange owner low high, close⟩] else []
  | _ => []

-- Each size in order, then the sizes against each other. `owner` is the name that
-- the messages give to the line.
def View.boundsFindings (view : View) (owner : String) (close : Token) :
    Option Bounds → List Finding
  | none => []
  | some bounds =>
    bounds.sizes.flatMap (view.sizeFindings close) ++ bounds.size.findings owner close

end WireFormat
