import WireFormat.Token

namespace WireFormat

-- What is known of a declaration's size. `fixed` is also the value of an enum
-- entry; `unresolved` covers every size that mentions a name.
inductive Size where
  | unsized
  | unresolved
  | fixed (value : UInt64)
  | range (low high : UInt64)
  deriving DecidableEq, Repr

-- What a type resolves to. A declared type is known by its place in the arena.
inductive Handle where
  | scalar (type : Scalar)
  | declared (id : Nat)
  | external (name : String)
  deriving DecidableEq, Repr

-- `scalar` and `typed` are top-level lines with a built-in and with a named type.
inductive Symbol.Kind where
  | scalar | typed | enum | struct | select | external | member | enumValue | caseLabel
  deriving DecidableEq, Repr

structure Symbol where
  name : String
  kind : Symbol.Kind
  line : Nat
  size : Size
  type : Option Handle
  deriving DecidableEq, Repr

structure Definition.Entry where
  name : Option String
  type : Option Handle
  size : Size
  deriving DecidableEq, Repr

structure Definition where
  name : String
  kind : Symbol.Kind
  line : Nat
  size : Size
  entries : List Definition.Entry
  deriving DecidableEq, Repr

end WireFormat
