import Mathlib.Data.List.Forall2
import Mathlib.Data.Option.Defs
import WireFormat.Scope

namespace WireFormat

-- Scopes side by side, symbol for symbol, as two checks of related inputs have them.
-- Related symbols have the same name, so the same names are found and turned down.

theorem forall₂_get {relation : α → β → Prop} (all : List.Forall₂ relation items others) (id : Nat) :
    (items[id]? = none ∧ others[id]? = none) ∨
      ∃ item other, relation item other ∧ items[id]? = some item ∧ others[id]? = some other := by
  induction all generalizing id with
  | nil => exact .inl ⟨rfl, rfl⟩
  | @cons item other items others one _ ih =>
    cases id with
    | zero => exact .inr ⟨item, other, one, rfl, rfl⟩
    | succ id => exact ih id

def Scope.Beside (relation : Symbol → Symbol → Prop) (one other : Scope) : Prop :=
  List.Forall₂ relation one.symbols other.symbols

def ScopeStack.Beside (relation : Symbol → Symbol → Prop) (one other : ScopeStack) : Prop :=
  List.Forall₂ (Scope.Beside relation) one.scopes other.scopes

section

variable {relation : Symbol → Symbol → Prop}
variable (named : ∀ symbol other, relation symbol other → other.name = symbol.name)

include named

namespace Scope.Beside

variable {one other : Scope}

theorem contains (beside : one.Beside relation other) (name : String) :
    other.contains name = one.contains name := by
  obtain ⟨_, _, symbols⟩ := one
  obtain ⟨_, _, others⟩ := other
  change List.Forall₂ _ symbols others at beside
  change others.any _ = symbols.any _
  induction beside with
  | nil => rfl
  | cons related _ ih => rw [List.any_cons, List.any_cons, ih, named _ _ related]

theorem lookup (beside : one.Beside relation other) (name : String) :
    Option.Rel relation (one.lookup name) (other.lookup name) := by
  obtain ⟨_, _, symbols⟩ := one
  obtain ⟨_, _, others⟩ := other
  change List.Forall₂ _ symbols others at beside
  change Option.Rel _ (symbols.find? _) (others.find? _)
  induction beside with
  | nil => exact .none
  | cons related _ ih =>
    rw [List.find?_cons, List.find?_cons, named _ _ related]
    split
    · exact .some related
    · exact ih

theorem declare (beside : one.Beside relation other) (related : relation symbol fellow) :
    (one.declare symbol).1.Beside relation (other.declare fellow).1 ∧
      (other.declare fellow).2 = (one.declare symbol).2 := by
  rw [Scope.declare, Scope.declare, beside.contains named, named _ _ related]
  split
  · exact ⟨beside, rfl⟩
  · exact ⟨List.rel_append beside (.cons related .nil), rfl⟩

end Scope.Beside

namespace ScopeStack.Beside

variable {one other : ScopeStack}

theorem lookup (beside : one.Beside relation other) (name : String) :
    Option.Rel relation (one.lookup name) (other.lookup name) := by
  obtain ⟨scopes⟩ := one
  obtain ⟨others⟩ := other
  change List.Forall₂ _ scopes others at beside
  change Option.Rel _ (scopes.findSome? _) (others.findSome? _)
  induction beside with
  | nil => exact .none
  | @cons scope other _ _ inner _ ih =>
    rw [List.findSome?_cons, List.findSome?_cons]
    have found := inner.lookup named name
    generalize scope.lookup name = known at found ⊢
    generalize other.lookup name = now at found ⊢
    cases found with
    | none => exact ih
    | some symbol => exact .some symbol

theorem declare (beside : one.Beside relation other) (related : relation symbol fellow) :
    (one.declare symbol).1.Beside relation (other.declare fellow).1 ∧
      (other.declare fellow).2 = (one.declare symbol).2 := by
  obtain ⟨scopes⟩ := one
  obtain ⟨others⟩ := other
  cases beside with
  | nil => exact ⟨.nil, rfl⟩
  | cons inner outer =>
    obtain ⟨grown, accepted⟩ := inner.declare named related
    exact ⟨.cons grown outer, congrArg some accepted⟩

end ScopeStack.Beside

end

theorem ScopeStack.Beside.pop {relation : Symbol → Symbol → Prop} {one other : ScopeStack}
    (beside : one.Beside relation other) : one.pop.1.Beside relation other.pop.1 := by
  obtain ⟨scopes⟩ := one
  obtain ⟨others⟩ := other
  cases beside with
  | nil => exact .nil
  | cons _ outer => exact outer

end WireFormat
