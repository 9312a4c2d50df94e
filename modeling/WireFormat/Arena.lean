import WireFormat.Symbol

namespace WireFormat

-- All definitions in the order in which they were completed, and the names bound
-- to them. A definition's place never changes, so handles stay valid.
structure Arena where
  definitions : Array Definition
  bindings : List (String × Nat)
  deriving DecidableEq, Repr

namespace Arena

def empty : Arena := ⟨#[], []⟩
def size (arena : Arena) : Nat := arena.definitions.size
def get? (arena : Arena) (id : Nat) : Option Definition := arena.definitions[id]?
def lookup (arena : Arena) (name : String) : Option Nat := arena.bindings.lookup name

-- A definition takes the next free place.
def push (arena : Arena) (definition : Definition) : Arena × Nat :=
  ({ arena with definitions := arena.definitions.push definition }, arena.size)

-- A bound name keeps its definition, and binding it again is turned down.
def bind (arena : Arena) (name : String) (id : Nat) : Arena × Bool :=
  if (arena.lookup name).isSome then (arena, false)
  else ({ arena with bindings := (name, id) :: arena.bindings }, true)

end Arena

end WireFormat
