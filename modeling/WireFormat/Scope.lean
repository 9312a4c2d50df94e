import WireFormat.Symbol

namespace WireFormat

inductive Scope.Kind where
  | global | external | struct | enum | select | arm
  deriving DecidableEq, Repr

-- Symbols in declaration order, each name once. `owner` is the name of the
-- declaration that opened the scope, empty for the global and anonymous ones.
structure Scope where
  kind : Scope.Kind
  owner : String
  symbols : List Symbol
  deriving DecidableEq, Repr

namespace Scope

def empty (kind : Kind) (owner : String) : Scope := ⟨kind, owner, []⟩

def lookup (scope : Scope) (name : String) : Option Symbol :=
  scope.symbols.find? fun symbol => symbol.name = name

def contains (scope : Scope) (name : String) : Bool :=
  scope.symbols.any fun symbol => symbol.name = name

-- Adds a symbol under a new name. The first declaration of a name stays, and a
-- later one is turned down without a change.
def declare (scope : Scope) (symbol : Symbol) : Scope × Bool :=
  if scope.contains symbol.name then (scope, false)
  else ({ scope with symbols := scope.symbols ++ [symbol] }, true)

theorem contains_exact (scope : Scope) (name : String) :
    scope.contains name = true ↔ name ∈ scope.symbols.map (·.name) := by
  simp [contains]

theorem lookup_isSome (scope : Scope) (name : String) :
    (scope.lookup name).isSome = scope.contains name := by
  rw [Bool.eq_iff_iff]
  simp [lookup, contains]

theorem declare_fresh (scope : Scope) (symbol : Symbol) (fresh : scope.contains symbol.name = false) :
    scope.declare symbol = ({ scope with symbols := scope.symbols ++ [symbol] }, true) := by
  simp [declare, fresh]

theorem declare_taken (scope : Scope) (symbol : Symbol) (taken : scope.contains symbol.name = true) :
    scope.declare symbol = (scope, false) := by
  simp [declare, taken]

end Scope

-- Open scopes, innermost first.
structure ScopeStack where
  scopes : List Scope
  deriving DecidableEq, Repr

namespace ScopeStack

def empty : ScopeStack := ⟨[]⟩

def push (stack : ScopeStack) (scope : Scope) : ScopeStack := ⟨scope :: stack.scopes⟩

-- The scope that was innermost, if one was open.
def pop (stack : ScopeStack) : ScopeStack × Option Scope := (⟨stack.scopes.tail⟩, stack.scopes.head?)

-- The nearest scope that has the name answers.
def lookup (stack : ScopeStack) (name : String) : Option Symbol :=
  stack.scopes.findSome? fun scope => scope.lookup name

-- Only the innermost scope takes declarations; there is no answer without one.
def declare (stack : ScopeStack) (symbol : Symbol) : ScopeStack × Option Bool :=
  match stack.scopes with
  | [] => (stack, none)
  | scope :: outer =>
    let (grown, accepted) := scope.declare symbol
    (⟨grown :: outer⟩, some accepted)

end ScopeStack

end WireFormat
