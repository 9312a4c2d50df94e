import WireFormat.Check.Schema
import WireFormat.Proofs.Numeric
import WireFormat.Proofs.Repeats
import WireFormat.Proofs.Verdict

namespace WireFormat

-- The tables that checking carries along, against the tree: what they must hold at a
-- place for their answers to be those of the place.

namespace Scope

-- Lookups once a symbol has been added at the end.
variable (scope : Scope) (symbol : Symbol)

theorem lookup_kept (found : scope.lookup name = some known) :
    Scope.lookup { scope with symbols := scope.symbols ++ [symbol] } name = some known := by
  unfold lookup at found ⊢
  rw [List.find?_append, found, Option.some_or]

theorem lookup_other (absent : scope.lookup name = none) (other : symbol.name ≠ name) :
    Scope.lookup { scope with symbols := scope.symbols ++ [symbol] } name = none := by
  unfold lookup at absent ⊢
  simp [List.find?_append, absent, other]

theorem lookup_added (absent : scope.lookup symbol.name = none) :
    Scope.lookup { scope with symbols := scope.symbols ++ [symbol] } symbol.name = some symbol := by
  unfold lookup at absent ⊢
  simp [List.find?_append, absent]

end Scope

-- A scope has the first member of each name, and its type tells whether it counts.
structure Scope.Shows (scope : Scope) (types : Arena) (externs : List String) (prior : List Decl)
    (members : List Member) : Prop where
  absent : ∀ name, Unnamed Member.itemName? name members → scope.lookup name = none
  present : ∀ name before member, FirstNamed Member.itemName? name members before member →
    ∃ symbol, scope.lookup name = some symbol ∧ symbol.kind = .member ∧ types.Holds symbol.type ∧
      (types.counts symbol.type = true ↔ member.Counts externs prior)

-- Open scopes stand for the open structs, innermost first.
def ScopesShow (scopes : List Scope) (types : Arena) (externs : List String) (prior : List Decl)
    (enclosing : List (List Member)) : Prop :=
  List.Forall₂ (fun scope members => scope.Shows types externs prior members) scopes enclosing

theorem locals_absent {types : Arena} (shown : ScopesShow scopes types externs prior enclosing)
    (unhidden : ∀ members ∈ enclosing, Unnamed Member.itemName? name members) :
    ScopeStack.lookup ⟨scopes⟩ name = none := by
  induction shown with
  | nil => rfl
  | cons scope _ ih =>
    obtain ⟨unnamed, rest⟩ := List.forall_mem_cons.mp unhidden
    rw [ScopeStack.lookup, List.findSome?_cons, scope.absent name unnamed]
    exact ih rest

theorem locals_nearest {types : Arena} (shown : ScopesShow scopes types externs prior enclosing)
    (nearest : Nearest enclosing name member) :
    ∃ symbol, ScopeStack.lookup ⟨scopes⟩ name = some symbol ∧ symbol.kind = .member ∧
      (types.counts symbol.type = true ↔ member.Counts externs prior) := by
  obtain ⟨inner, members, outer, before, rfl, hidden, first⟩ := nearest
  induction inner generalizing scopes with
  | nil =>
    cases shown with
    | cons scope _ =>
      obtain ⟨symbol, found, kind, _, counts⟩ := scope.present _ _ _ first
      refine ⟨symbol, ?_, kind, counts⟩
      rw [ScopeStack.lookup, List.findSome?_cons, found]
  | cons body inner ih =>
    cases shown with
    | cons scope rest =>
      obtain ⟨unnamed, hidden⟩ := List.forall_mem_cons.mp hidden
      obtain ⟨symbol, found, facts⟩ := ih rest hidden
      refine ⟨symbol, ?_, facts⟩
      rw [ScopeStack.lookup, List.findSome?_cons, scope.absent name unnamed]
      exact found

def Decl.symbolKind : Decl → Symbol.Kind
  | .field entry =>
    match entry.type with
    | .scalar _ => .scalar
    | .named _ => .typed
  | .external .. => .external
  | .enum _ => .enum
  | .struct .. => .struct
  | .select _ => .select

-- The first declaration of each name is the one that is looked up and bound.
structure GlobalsShow (globals : Scope) (types : Arena) (externs : List String)
    (prior : List Decl) : Prop where
  absent : ∀ name, Unnamed Decl.globalName? name prior →
    globals.lookup name = none ∧ types.lookup name = none
  present : ∀ name before decl, FirstNamed Decl.globalName? name prior before decl →
    ∃ symbol id, globals.lookup name = some symbol ∧ symbol.type = some (.declared id) ∧
      types.lookup name = some id ∧ id < types.size ∧ symbol.kind = decl.symbolKind ∧
      (types.isNumeric id = true ↔ decl.Counts externs before)

structure View.Shows (view : View) (place : Place) : Prop where
  externs : ∀ name, view.externs.contains name = true ↔ name ∈ place.externs
  globals : GlobalsShow view.globals view.types place.externs place.prior
  locals : ScopesShow view.locals.scopes view.types place.externs place.prior place.enclosing

theorem Scope.Shows.grow {scope : Scope} (shows : scope.Shows before externs prior members)
    (grows : before.Grows after) : scope.Shows after externs prior members := by
  refine ⟨shows.absent, ?_⟩
  intro name front member first
  obtain ⟨symbol, found, kind, holds, counts⟩ := shows.present name front member first
  exact ⟨symbol, found, kind, grows.holds holds, by rw [grows.counts holds, counts]⟩

theorem GlobalsShow.grow (shows : GlobalsShow globals before externs prior)
    (grows : before.Grows after) (bound : after.bindings = before.bindings) :
    GlobalsShow globals after externs prior := by
  have lookup : ∀ name, after.lookup name = before.lookup name := by simp [Arena.lookup, bound]
  refine ⟨?_, ?_⟩
  · intro name unnamed
    rw [lookup]
    exact shows.absent name unnamed
  · intro name front decl first
    obtain ⟨symbol, id, found, typed, stored, valid, kind, numeric⟩ :=
      shows.present name front decl first
    refine ⟨symbol, id, found, typed, ?_, Nat.lt_of_lt_of_le valid grows.size, kind, ?_⟩
    · rw [lookup, stored]
    · rw [grows.isNumeric id valid, numeric]

theorem View.Shows.grow {view : View} (shows : view.Shows place) (grows : view.types.Grows after)
    (bound : after.bindings = view.types.bindings) : View.Shows { view with types := after } place :=
  ⟨shows.externs, shows.globals.grow grows bound, List.Forall₂.imp (fun _ _ scope => scope.grow grows)
    shows.locals⟩

-- The answers for the name of a type, each with what the tree says there.
inductive View.Answers (view : View) (place : Place) (name : Name) : Option Handle → Prop where
  | dotted (dotted : name.isDotted = true) : Answers view place name none
  | declared {id : Nat} (simple : name.isDotted = false)
      (first : FirstNamed Decl.globalName? name.head place.prior before decl)
      (valid : id < view.types.size)
      (numeric : view.types.isNumeric id = true ↔ decl.Counts place.externs before) :
      Answers view place name (some (.declared id))
  | external (simple : name.isDotted = false)
      (unnamed : Unnamed Decl.globalName? name.head place.prior) (listed : name.head ∈ place.externs) :
      Answers view place name (some (.external name.head))
  | unknown (simple : name.isDotted = false)
      (unnamed : Unnamed Decl.globalName? name.head place.prior)
      (unlisted : name.head ∉ place.externs) : Answers view place name none

namespace View.Shows

variable {view : View} {place : Place}

theorem answers (shows : view.Shows place) (name : Name) :
    view.Answers place name (view.type? (.named name)) := by
  simp only [View.type?]
  by_cases dotted : name.isDotted = true
  · rw [if_pos dotted]
    exact .dotted dotted
  · rw [if_neg dotted]
    have simple : name.isDotted = false := by simpa using dotted
    rcases unnamed_or_first Decl.globalName? name.head place.prior with
      unnamed | ⟨before, decl, first⟩
    · rw [(shows.globals.absent _ unnamed).2]
      by_cases listed : name.head ∈ place.externs
      · simp only [(shows.externs _).mpr listed]
        exact .external simple unnamed listed
      · have unseen : view.externs.contains name.head = false := by
          rw [← Bool.not_eq_true, shows.externs]
          exact listed
        simp only [unseen]
        exact .unknown simple unnamed listed
    · obtain ⟨symbol, id, _, _, found, valid, _, numeric⟩ := shows.globals.present _ _ _ first
      simp only [found]
      exact .declared simple first valid numeric

theorem type_holds (shows : view.Shows place) (type : TypeRef) :
    view.types.Holds (view.type? type) := by
  intro id declared
  cases type with
  | scalar => cases declared
  | named name =>
    have answers := shows.answers name
    rw [declared] at answers
    cases answers with
    | declared _ _ valid => exact valid

theorem type_counts (shows : view.Shows place) (type : TypeRef) :
    view.types.counts (view.type? type) = true ↔ Counts place.externs place.prior type := by
  cases type with
  | scalar => exact ⟨fun _ => ⟨.scalar, .scalar, rfl⟩, fun _ => rfl⟩
  | named name =>
    have answers := shows.answers name
    generalize view.type? (.named name) = answer at answers ⊢
    cases answers with
    | dotted dotted => exact ⟨fun _ => ⟨.unresolved, .dotted dotted, rfl⟩, fun _ => rfl⟩
    | declared simple first _ numeric => rw [counts_first simple first]; exact numeric
    | external _ unnamed => exact ⟨fun _ => counts_unnamed unnamed, fun _ => rfl⟩
    | unknown _ unnamed => exact ⟨fun _ => counts_unnamed unnamed, fun _ => rfl⟩

theorem type_known (shows : view.Shows place) (type : TypeRef) :
    (view.type? type).isSome = true ↔ place.Knows type := by
  cases type with
  | scalar => exact ⟨fun _ => .scalar, fun _ => rfl⟩
  | named name =>
    have answers := shows.answers name
    generalize view.type? (.named name) = answer at answers ⊢
    cases answers with
    | dotted dotted =>
      refine ⟨nofun, ?_⟩
      intro knows
      cases knows with
      | global simple | external simple => simp [dotted] at simple
    | declared simple first => exact ⟨fun _ => .global simple first.present, fun _ => rfl⟩
    | external simple _ listed => exact ⟨fun _ => .external simple listed, fun _ => rfl⟩
    | unknown _ unnamed unlisted =>
      refine ⟨nofun, ?_⟩
      intro knows
      cases knows with
      | global _ named => exact absurd unnamed named
      | external _ listed => exact absurd listed unlisted

theorem unknownType (shows : view.Shows place) (type : TypeRef) :
    view.unknownType? type = place.unknownType? type := by
  have known := shows.type_known type
  unfold View.unknownType? Place.unknownType?
  cases answer : view.type? type with
  | none =>
    rw [answer] at known
    rw [if_neg fun knows => nomatch known.mpr knows]
    rfl
  | some handle =>
    rw [answer] at known
    rw [if_pos (known.mp rfl)]
    rfl

theorem denotes (shows : view.Shows place) (use : Use) (name : Name) :
    view.denotesValue use name = true ↔ place.Admits Ending.isTolerated use name := by
  unfold View.denotesValue
  by_cases dotted : name.isDotted = true
  · rw [if_pos dotted]
    refine ⟨nofun, ?_⟩
    intro admits
    cases admits with
    | external simple | member simple | global simple | enum simple => simp [dotted] at simple
  rw [if_neg dotted]
  have simple : name.isDotted = false := by simpa using dotted
  by_cases listed : name.head ∈ place.externs
  · rw [if_pos ((shows.externs _).mpr listed)]
    exact ⟨fun _ => .external simple listed, fun _ => rfl⟩
  rw [if_neg fun seen => listed ((shows.externs _).mp seen)]
  rcases nearest_or_none place.enclosing name.head with unhidden | ⟨member, nearest⟩
  · have absent : view.locals.lookup name.head = none := locals_absent shows.locals unhidden
    rw [absent, Option.none_or]
    rcases unnamed_or_first Decl.globalName? name.head place.prior with
      unnamed | ⟨before, decl, first⟩
    · rw [(shows.globals.absent _ unnamed).1]
      exact ⟨nofun, fun admits => absurd admits (Place.admits_nowhere listed unhidden unnamed)⟩
    · obtain ⟨symbol, id, found, typed, _, _, kind, numeric⟩ := shows.globals.present _ _ _ first
      rw [found, Place.admits_global simple listed unhidden first]
      simp only [kind, typed, View.isNumeric]
      cases decl with
      | field entry =>
        cases type : entry.type <;> simp only [Decl.symbolKind, type] <;>
          simpa only [Decl.Counts, type] using numeric
      | enum => simp [Decl.symbolKind]
      | external | struct | select => simp [Decl.symbolKind]
  · obtain ⟨symbol, found, kind, counts⟩ := locals_nearest shows.locals nearest
    have nearest_found : view.locals.lookup name.head = some symbol := found
    rw [nearest_found, Option.some_or, Place.admits_nearest simple listed nearest]
    simp only [kind, View.isNumeric_counts]
    exact counts

end View.Shows

end WireFormat
