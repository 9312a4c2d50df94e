namespace WireFormat

inductive LiteralError where
  | exponentOutOfRange | badExponent | numberOutOfRange
  deriving DecidableEq, Repr

def LiteralError.message : LiteralError → String
  | .exponentOutOfRange => "Exponent out of range"
  | .badExponent => "Bad exponent"
  | .numberOutOfRange => "Number out of range"

-- A literal always has a value: one that cannot be evaluated counts as zero and
-- keeps the reason, so checks on sizes still run and show their consequence.
structure Evaluated where
  value : UInt64
  error : Option LiteralError
  deriving DecidableEq, Repr

def Evaluated.exactly (value : UInt64) : Evaluated := ⟨value, none⟩
def Evaluated.failed (error : LiteralError) : Evaluated := ⟨0, some error⟩

inductive Radix where
  | ten | sixteen
  deriving DecidableEq, Repr

def Radix.size : Radix → Nat
  | .ten => 10
  | .sixteen => 16

-- ASCII digits only; letters of either case count from ten in base sixteen.
def Radix.digit? (radix : Radix) (c : Char) : Option Nat :=
  if '0' ≤ c ∧ c ≤ '9' then some (c.toNat - '0'.toNat)
  else if radix = .sixteen ∧ 'a' ≤ c ∧ c ≤ 'f' then some (c.toNat - 'a'.toNat + 10)
  else if radix = .sixteen ∧ 'A' ≤ c ∧ c ≤ 'F' then some (c.toNat - 'A'.toNat + 10)
  else none

def Radix.digits? (radix : Radix) (value : Nat) : List Char → Option Nat
  | [] => some value
  | c :: rest =>
    match radix.digit? c with
    | none => none
    | some digit => radix.digits? (value * radix.size + digit) rest

-- A numeral is at least one digit, after at most one plus sign. Leading zeros
-- are free; only the value is limited, to 64 bits.
def Radix.numeral? (radix : Radix) (text : List Char) : Option UInt64 :=
  let digits := match text with
    | '+' :: rest => rest
    | _ => text
  if digits.isEmpty then none
  else match radix.digits? 0 digits with
    | none => none
    | some value => if value < UInt64.size then some (UInt64.ofNat value) else none

def integer? (text : String) : Option UInt64 :=
  match text.toList with
  | '0' :: 'x' :: rest => Radix.sixteen.numeral? rest
  | '0' :: 'X' :: rest => Radix.sixteen.numeral? rest
  | digits => Radix.ten.numeral? digits

def evaluateLiteral (text : String) : Evaluated :=
  match integer? text with
  | some value => .exactly value
  | none => .failed .numberOutOfRange

def maxExponent : UInt64 := 32

-- What stands before the first separator, and what stands after it if there is one.
def splitAtFirst (separator : Char) : List Char → List Char × Option (List Char)
  | [] => ([], none)
  | c :: rest =>
    if c = separator then ([], some rest)
    else
      let (before, after) := splitAtFirst separator rest
      (c :: before, after)

-- Powers are byte-aligned: base 2, an exponent up to 32 that eight divides, and
-- nothing but 1 to take away. The exponent's range is judged before all else.
def evaluatePower (text : String) : Evaluated :=
  match splitAtFirst '^' text.toList with
  | (_, none) => .failed .badExponent
  | (base, some power) =>
    let (exponent, less) := splitAtFirst '-' power
    match Radix.ten.numeral? exponent with
    | none => .failed .exponentOutOfRange
    | some e =>
      if maxExponent < e then .failed .exponentOutOfRange
      else if base ≠ ['2'] ∨ e % 8 ≠ 0 then .failed .badExponent
      else match less with
        | none => .exactly (1 <<< e)
        | some ['1'] => .exactly ((1 <<< e) - 1)
        | some _ => .failed .badExponent

end WireFormat
