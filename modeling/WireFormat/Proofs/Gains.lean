import WireFormat.Check.Schema
import WireFormat.Proofs.Beside

namespace WireFormat

-- Two checks side by side, where the second knows one extern more. Names written
-- without a dot as that extern is called resolve in the second; nothing else differs.

def Name.isPlain (wanted : String) (name : Name) : Bool := !name.isDotted && name.head = wanted

def TypeRef.isPlain (wanted : String) (type : TypeRef) : Bool := type.name?.any (Name.isPlain wanted)

-- Reported because the plain name does not resolve.
def Finding.misses (wanted : String) (finding : Finding) : Bool :=
  finding.cause.unresolved?.any (Name.isPlain wanted)

-- What a written type resolves to with the extern, given what it resolves to without.
def gained (wanted : String) (written : Option TypeRef) (type : Option Handle) : Option Handle :=
  if type = none ∧ written.any (TypeRef.isPlain wanted) then some (.external wanted) else type

def Definition.Entry.gain (wanted : String) (written : Option TypeRef) (entry : Definition.Entry) :
    Definition.Entry :=
  { entry with type := gained wanted written entry.type }

-- `row` has the written type of each entry, if the entry has one.
def Definition.gain (wanted : String) (row : List (Option TypeRef)) (definition : Definition) : Definition :=
  { definition with entries := List.zipWith (Entry.gain wanted) row definition.entries }

variable {wanted : String}

@[simp] theorem gained_some (written : Option TypeRef) (handle : Handle) :
    gained wanted written (some handle) = some handle := by
  simp [gained]

@[simp] theorem gained_unwritten (type : Option Handle) : gained wanted none type = type := by
  simp [gained]

theorem gain_first (wanted : String) (row : List (Option TypeRef)) (definition : Definition)
    (covers : row.length = definition.entries.length) :
    ∃ written, (definition.gain wanted row).entries.head?.bind (·.type) =
      gained wanted written (definition.entries.head?.bind (·.type)) := by
  obtain ⟨name, kind, line, size, entries⟩ := definition
  cases entries with
  | nil => exact ⟨none, by simp [Definition.gain]⟩
  | cons first rest =>
    cases row with
    | nil => cases covers
    | cons written others => exact ⟨written, rfl⟩

theorem gained_cases (wanted : String) (written : Option TypeRef) (type : Option Handle) :
    gained wanted written type = type ∨ type = none ∧ gained wanted written type = some (.external wanted) := by
  rw [gained]
  split
  · exact .inr ⟨by simp [*], rfl⟩
  · exact .inl rfl

namespace Arena

-- One row for each definition.
structure Gains (wanted : String) (rows : List (List (Option TypeRef))) (before after : Arena) : Prop where
  bindings : after.bindings = before.bindings
  covers : List.Forall₂ (fun row definition => row.length = definition.entries.length) rows
    before.definitions.toList
  definitions : after.definitions.toList =
    List.zipWith (Definition.gain wanted) rows before.definitions.toList

variable {rows : List (List (Option TypeRef))} {before after : Arena}

theorem Gains.size (gains : before.Gains wanted rows after) : after.size = before.size := by
  have same := congrArg List.length gains.definitions
  rw [List.length_zipWith, gains.covers.length_eq, Nat.min_self] at same
  rwa [Array.length_toList, Array.length_toList] at same

theorem Gains.lookup (gains : before.Gains wanted rows after) (name : String) :
    after.lookup name = before.lookup name := by
  rw [Arena.lookup, gains.bindings]
  rfl

theorem Gains.unique (one : before.Gains wanted rows after) (other : before.Gains wanted rows beside) :
    after = beside := by
  have bindings := one.bindings.trans other.bindings.symm
  have definitions := Array.toList_inj.mp (one.definitions.trans other.definitions.symm)
  obtain ⟨_, _⟩ := after
  obtain ⟨_, _⟩ := beside
  exact congr (congrArg Arena.mk definitions) bindings

theorem Gains.push (gains : before.Gains wanted rows after) (row : List (Option TypeRef))
    (definition : Definition) (covers : row.length = definition.entries.length) :
    (before.push definition).1.Gains wanted (rows ++ [row]) (after.push (definition.gain wanted row)).1 := by
  refine ⟨gains.bindings, ?_, ?_⟩
  · simpa [Arena.push] using List.rel_append gains.covers (.cons covers .nil)
  · simp [Arena.push, List.zipWith_append gains.covers.length_eq, gains.definitions]

theorem Gains.bind (gains : before.Gains wanted rows after) (name : String) (id : Nat) :
    (before.bind name id).1.Gains wanted rows (after.bind name id).1 := by
  simp only [Arena.bind, gains.lookup]
  split
  · exact gains
  · exact ⟨by simp [gains.bindings], gains.covers, gains.definitions⟩

theorem Gains.get? (gains : before.Gains wanted rows after) (id : Nat) :
    (before.get? id = none ∧ after.get? id = none) ∨
      ∃ row definition, row.length = definition.entries.length ∧ before.get? id = some definition ∧
        after.get? id = some (definition.gain wanted row) := by
  have listed : after.get? id = after.definitions.toList[id]? := Array.getElem?_toList.symm
  have known : before.get? id = before.definitions.toList[id]? := Array.getElem?_toList.symm
  rw [listed, known, gains.definitions, List.getElem?_zipWith]
  rcases forall₂_get gains.covers id with ⟨free, none⟩ | ⟨row, definition, covered, written, found⟩
  · exact .inl ⟨none, by rw [free, none]⟩
  · exact .inr ⟨row, definition, covered, found, by rw [written, found]⟩

-- A type that did not resolve counts as a number, and so does an extern.
theorem Gains.isNumeric (gains : before.Gains wanted rows after) (id : Nat) :
    after.isNumeric id = before.isNumeric id := by
  induction id using Nat.strongRecOn with
  | ind id ih =>
    rw [Arena.isNumeric, Arena.isNumeric]
    rcases gains.get? id with ⟨none, free⟩ | ⟨row, definition, covered, found, known⟩
    · rw [none, free]
    · obtain ⟨written, first⟩ := gain_first wanted row definition covered
      simp only [found, known]
      have kind : (definition.gain wanted row).kind = definition.kind := rfl
      rw [kind, first]
      cases definition.kind with
      | typed =>
        generalize definition.entries.head?.bind (·.type) = type
        rcases gained_cases wanted written type with same | ⟨rfl, now⟩
        · rw [same]
          cases type with
          | none => rfl
          | some handle =>
            cases handle with
            | scalar | external => rfl
            | declared next =>
              simp only
              split
              · exact ih next ‹_›
              · rfl
        · rw [now]
      | _ => rfl

end Arena

-- The symbol of a member carries the extern where it carried no type.
def Symbol.Gains (wanted : String) (before after : Symbol) : Prop :=
  ∃ written, after = { before with type := gained wanted written before.type }

theorem Symbol.Gains.refl (symbol : Symbol) : symbol.Gains wanted symbol := ⟨none, by rw [gained_unwritten]⟩

theorem Symbol.Gains.name {before after : Symbol} (gains : before.Gains wanted after) :
    after.name = before.name := by
  obtain ⟨written, rfl⟩ := gains
  rfl

def Scope.Gains (wanted : String) (before after : Scope) : Prop :=
  List.Forall₂ (Symbol.Gains wanted) before.symbols after.symbols

def ScopeStack.Gains (wanted : String) (before after : ScopeStack) : Prop :=
  List.Forall₂ (Scope.Gains wanted) before.scopes after.scopes

namespace View

-- The second view knows the extern as well, and its tables are those of the first but
-- for what the extern resolves.
structure Gains (wanted : String) (rows : List (List (Option TypeRef))) (before after : View) : Prop where
  externs : ∀ name, after.externs.contains name = (before.externs.contains name || name = wanted)
  globals : after.globals = before.globals
  types : before.types.Gains wanted rows after.types
  locals : before.locals.Gains wanted after.locals

variable {rows : List (List (Option TypeRef))} {before after : View}

theorem Gains.type? (gains : before.Gains wanted rows after) (type : TypeRef) :
    after.type? type = gained wanted (some type) (before.type? type) := by
  cases type with
  | scalar => rw [View.type?, View.type?, gained_some]
  | named name =>
    simp only [View.type?, gains.types.lookup, gains.externs]
    cases dotted : name.isDotted with
    | true => simp [gained, TypeRef.isPlain, TypeRef.name?, Name.isPlain, dotted]
    | false =>
      cases before.types.lookup name.head with
      | some id => simp
      | none =>
        cases before.externs.contains name.head with
        | true => simp
        | false =>
          by_cases same : name.head = wanted <;>
            simp [gained, TypeRef.isPlain, TypeRef.name?, Name.isPlain, dotted, same]

theorem Gains.unknownType? (gains : before.Gains wanted rows after) (type : TypeRef) :
    after.unknownType? type = (before.unknownType? type).filter fun name => !name.isPlain wanted := by
  rw [View.unknownType?, View.unknownType?, gains.type?]
  cases before.type? type with
  | some handle => simp
  | none =>
    cases type with
    | scalar => simp [TypeRef.name?]
    | named name =>
      cases plain : name.isPlain wanted <;>
        simp [gained, TypeRef.isPlain, TypeRef.name?, plain, Option.filter]

theorem Gains.isNumeric (gains : before.Gains wanted rows after) (written : Option TypeRef) (type : Option Handle) :
    after.isNumeric (gained wanted written type) = before.isNumeric type := by
  rcases gained_cases wanted written type with same | ⟨rfl, now⟩
  · rw [same]
    cases type with
    | none => rfl
    | some handle =>
      cases handle with
      | scalar | external => rfl
      | declared id => exact gains.types.isNumeric id
  · rw [now]
    rfl

theorem Gains.symbol (gains : before.Gains wanted rows after) (name : String) :
    Option.Rel (Symbol.Gains wanted) ((before.locals.lookup name).or (before.globals.lookup name))
      ((after.locals.lookup name).or (after.globals.lookup name)) := by
  have found := ScopeStack.Beside.lookup (fun _ _ => Symbol.Gains.name) gains.locals name
  rw [gains.globals]
  generalize before.locals.lookup name = known at found ⊢
  generalize after.locals.lookup name = now at found ⊢
  cases found with
  | some symbol => exact .some symbol
  | none =>
    cases before.globals.lookup name with
    | none => exact .none
    | some symbol => exact .some (Symbol.Gains.refl symbol)

theorem Gains.denotesValue (gains : before.Gains wanted rows after) (use : Use) (name : Name) :
    after.denotesValue use name = (before.denotesValue use name || name.isPlain wanted) := by
  simp only [View.denotesValue, Name.isPlain, gains.externs]
  cases name.isDotted with
  | true => rfl
  | false =>
    cases before.externs.contains name.head with
    | true => simp
    | false =>
      by_cases same : name.head = wanted
      · simp [same]
      · have found := gains.symbol name.head
        simp only [same, decide_false, Bool.or_self, Bool.false_eq_true, if_false, Bool.and_false, Bool.or_false]
        generalize (before.locals.lookup name.head).or _ = known at found ⊢
        generalize (after.locals.lookup name.head).or _ = now at found ⊢
        cases found with
        | none => rfl
        | @some symbol other one =>
          obtain ⟨written, rfl⟩ := one
          simp only [gains.isNumeric]

end View

end WireFormat
