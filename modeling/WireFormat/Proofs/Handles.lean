import WireFormat.Check.Schema
import WireFormat.Proofs.Numeric

namespace WireFormat

-- Which handles may stand where `bound` definitions come before: those of earlier
-- definitions and of registered externs.
def Handle.Valid (externs : Scope) (bound : Nat) : Handle → Prop
  | .scalar _ => True
  | .declared id => id < bound
  | .external name => externs.contains name = true

theorem Handle.Valid.mono {handle : Handle} (valid : handle.Valid externs bound) (more : bound ≤ limit) :
    handle.Valid externs limit := by
  cases handle with
  | declared id => exact Nat.lt_of_lt_of_le valid more
  | scalar | external => exact valid

def Scope.Linked (scope externs : Scope) (bound : Nat) : Prop :=
  ∀ symbol ∈ scope.symbols, ∀ handle ∈ symbol.type, handle.Valid externs bound

def Definition.Linked (definition : Definition) (externs : Scope) (bound : Nat) : Prop :=
  ∀ entry ∈ definition.entries, ∀ handle ∈ entry.type, handle.Valid externs bound

-- No handle leads out of the tables, and those of a definition lead back.
structure View.Linked (view : View) : Prop where
  externs : view.externs.Linked view.externs view.types.size
  globals : view.globals.Linked view.externs view.types.size
  locals : ∀ scope ∈ view.locals.scopes, scope.Linked view.externs view.types.size
  bindings : ∀ binding ∈ view.types.bindings, binding.2 < view.types.size
  definitions : ∀ id definition, view.types.get? id = some definition →
    definition.Linked view.externs id

namespace Scope

variable {externs scope : Scope}

theorem Linked.mono (linked : scope.Linked externs bound) (more : bound ≤ limit) :
    scope.Linked externs limit :=
  fun symbol member handle typed => (linked symbol member handle typed).mono more

theorem empty_linked (kind : Kind) (owner : String) : (Scope.empty kind owner).Linked externs bound :=
  fun _ member => nomatch member

theorem declare_linked (linked : scope.Linked externs bound) (symbol : Symbol)
    (valid : ∀ handle ∈ symbol.type, handle.Valid externs bound) :
    (scope.declare symbol).1.Linked externs bound := by
  unfold declare
  split
  · exact linked
  · intro known member
    rcases List.mem_append.mp member with old | new
    · exact linked known old
    · rw [List.mem_singleton.mp new]
      exact valid

theorem lookup_mem (found : scope.lookup name = some symbol) : symbol ∈ scope.symbols :=
  List.mem_of_find?_eq_some found

end Scope

theorem ScopeStack.lookup_mem {stack : ScopeStack} (found : stack.lookup name = some symbol) :
    ∃ scope ∈ stack.scopes, symbol ∈ scope.symbols := by
  obtain ⟨scope, member, found⟩ := List.exists_of_findSome?_eq_some found
  exact ⟨scope, member, Scope.lookup_mem found⟩

theorem Arena.lookup_mem {types : Arena} {id : Nat} (found : types.lookup name = some id) :
    (name, id) ∈ types.bindings := by
  obtain ⟨front, back, split, _⟩ := List.lookup_eq_some_iff.mp found
  rw [split]
  simp

namespace View

variable {view : View}

theorem Linked.type_valid (linked : view.Linked) (type : TypeRef) :
    ∀ handle ∈ view.type? type, handle.Valid view.externs view.types.size := by
  cases type with
  | scalar type =>
    rintro handle ⟨⟩
    trivial
  | named name =>
    intro handle resolved
    simp only [type?] at resolved
    split at resolved
    · cases resolved
    · split at resolved
      · rename_i found
        cases resolved
        exact linked.bindings _ (Arena.lookup_mem found)
      · split at resolved
        · cases resolved
          assumption
        · cases resolved

theorem Linked.symbol_valid (linked : view.Linked)
    (found : (view.locals.lookup name).or (view.globals.lookup name) = some symbol) :
    ∀ handle ∈ symbol.type, handle.Valid view.externs view.types.size := by
  rcases Option.or_eq_some_iff.mp found with inner | ⟨_, outer⟩
  · obtain ⟨scope, stands, member⟩ := ScopeStack.lookup_mem inner
    exact linked.locals scope stands symbol member
  · exact linked.globals symbol (Scope.lookup_mem outer)

theorem Linked.push (linked : view.Linked) (definition : Definition)
    (valid : definition.Linked view.externs view.types.size) :
    View.Linked { view with types := (view.types.push definition).1 } := by
  have more := (Arena.push_grows view.types definition).size
  refine ⟨linked.externs.mono more, linked.globals.mono more,
    fun scope member => (linked.locals scope member).mono more, ?_, ?_⟩
  · exact fun binding member => Nat.lt_of_lt_of_le (linked.bindings binding member) more
  · intro id found stored
    simp only [Arena.push, Arena.get?, Array.getElem?_push] at stored
    split at stored
    · rename_i last
      cases stored
      rw [last]
      exact valid
    · exact linked.definitions id found stored

theorem Linked.bind {id : Nat} (linked : view.Linked) (name : String) (valid : id < view.types.size) :
    View.Linked { view with types := (view.types.bind name id).1 } := by
  unfold Arena.bind
  split
  · exact linked
  · exact ⟨linked.externs, linked.globals, linked.locals, List.forall_mem_cons.mpr ⟨valid, linked.bindings⟩,
      linked.definitions⟩

theorem Linked.declareGlobal (linked : view.Linked) (symbol : Symbol)
    (valid : ∀ handle ∈ symbol.type, handle.Valid view.externs view.types.size) :
    View.Linked { view with globals := (view.globals.declare symbol).1 } :=
  ⟨linked.externs, Scope.declare_linked linked.globals symbol valid, linked.locals, linked.bindings,
    linked.definitions⟩

theorem Linked.enter (linked : view.Linked) (owner : String) : (view.enter owner).Linked :=
  ⟨linked.externs, linked.globals, List.forall_mem_cons.mpr ⟨Scope.empty_linked _ _, linked.locals⟩,
    linked.bindings, linked.definitions⟩

theorem Linked.pop (linked : view.Linked) : View.Linked { view with locals := view.locals.pop.1 } :=
  ⟨linked.externs, linked.globals, fun scope member => linked.locals scope (List.mem_of_mem_tail member),
    linked.bindings, linked.definitions⟩

theorem Linked.declareMember (linked : view.Linked) (name : Option Token) (line : Nat) (size : Size)
    (valid : ∀ handle ∈ type, Handle.Valid view.externs view.types.size handle) :
    (view.declareMember name line size type).1.Linked := by
  cases name with
  | none => exact linked
  | some name =>
    refine ⟨linked.externs, linked.globals, ?_, linked.bindings, linked.definitions⟩
    have locals := linked.locals
    simp only [View.declareMember, ScopeStack.declare]
    cases stack : view.locals.scopes with
    | nil =>
      simp only [stack]
      exact nofun
    | cons scope outer =>
      rw [stack] at locals
      obtain ⟨inner, others⟩ := List.forall_mem_cons.mp locals
      exact List.forall_mem_cons.mpr ⟨Scope.declare_linked inner _ valid, others⟩

end View

end WireFormat
