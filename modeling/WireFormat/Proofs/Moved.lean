import WireFormat.Check.Schema
import WireFormat.Proofs.Beside

namespace WireFormat

-- Two checks side by side whose schemas differ in the body of one declaration. The arenas
-- agree up to it, may differ in what is nested in it, and agree again from its own
-- definition on, but for the places of definitions, which have moved.

-- What the two bodies leave of the declaration's own definition. It is no line, so what
-- it has for entries does not matter to whether its values are numbers.
structure Definition.Rebodied (one other : Definition) : Prop where
  name : other.name = one.name
  kind : other.kind = one.kind
  line : other.line = one.line
  bodied : one.kind ≠ .typed

-- What a declaration brings to the arena: the definitions nested in it, then its own.
structure Brought where
  nested : List Definition
  own : Definition

-- The definitions from before the declaration, and what its two bodies bring.
structure Shift where
  front : List Definition
  one : Brought
  other : Brought
  rebodied : one.own.Rebodied other.own

-- A place in the first arena and the same place in the second. Those of nested
-- definitions are left out, since nothing outside leads to them.
inductive Shift.Moves (shift : Shift) : Nat → Nat → Prop where
  | before {id : Nat} (early : id < shift.front.length) : Moves shift id id
  | since (later : Nat) : Moves shift (shift.front.length + shift.one.nested.length + later)
      (shift.front.length + shift.other.nested.length + later)

inductive Handle.Moves (shift : Shift) : Handle → Handle → Prop where
  | scalar (type : Scalar) : Moves shift (.scalar type) (.scalar type)
  | external (name : String) : Moves shift (.external name) (.external name)
  | declared {id place : Nat} (moves : shift.Moves id place) : Moves shift (.declared id) (.declared place)

structure Definition.Entry.Moves (shift : Shift) (one other : Definition.Entry) : Prop where
  name : other.name = one.name
  type : Option.Rel (Handle.Moves shift) one.type other.type
  size : other.size = one.size

structure Definition.Moves (shift : Shift) (one other : Definition) : Prop where
  name : other.name = one.name
  kind : other.kind = one.kind
  line : other.line = one.line
  size : other.size = one.size
  entries : List.Forall₂ (Definition.Entry.Moves shift) one.entries other.entries

-- The size of a symbol is that of its declaration, and an enum has its maximum from its body.
structure Symbol.Moves (shift : Shift) (one other : Symbol) : Prop where
  name : other.name = one.name
  kind : other.kind = one.kind
  line : other.line = one.line
  type : Option.Rel (Handle.Moves shift) one.type other.type

structure Arena.Moves (shift : Shift) (one other : Arena) : Prop where
  bindings : List.Forall₂ (fun binding moved => moved.1 = binding.1 ∧ shift.Moves binding.2 moved.2)
    one.bindings other.bindings
  definitions : ∃ later again, List.Forall₂ (Definition.Moves shift) later again ∧
    one.definitions.toList = shift.front ++ shift.one.nested ++ shift.one.own :: later ∧
    other.definitions.toList = shift.front ++ shift.other.nested ++ shift.other.own :: again

structure View.Moves (shift : Shift) (one other : View) : Prop where
  externs : other.externs = one.externs
  globals : one.globals.Beside (Symbol.Moves shift) other.globals
  types : one.types.Moves shift other.types
  locals : one.locals.Beside (Symbol.Moves shift) other.locals

variable {shift : Shift}

theorem Shift.Moves.lower {id place next target : Nat} (one : shift.Moves id place)
    (two : shift.Moves next target) : target < place ↔ next < id := by
  cases one <;> cases two <;> omega

theorem Symbol.Moves.named (symbol other : Symbol) (moves : symbol.Moves shift other) :
    other.name = symbol.name := moves.name

theorem first_moves (entries : List.Forall₂ (Definition.Entry.Moves shift) items others) :
    Option.Rel (Handle.Moves shift) (items.head?.bind (·.type)) (others.head?.bind (·.type)) := by
  cases entries with
  | nil => exact .none
  | cons one _ => exact one.type

namespace Arena.Moves

variable {one other : Arena}

theorem lookup (moves : one.Moves shift other) (name : String) :
    Option.Rel shift.Moves (one.lookup name) (other.lookup name) := by
  obtain ⟨_, bindings⟩ := one
  obtain ⟨_, others⟩ := other
  have bound := moves.bindings
  change Option.Rel _ (bindings.lookup name) (others.lookup name)
  change List.Forall₂ _ bindings others at bound
  clear moves
  induction bound with
  | nil => exact .none
  | @cons binding moved _ _ same _ ih =>
    obtain ⟨bound, id⟩ := binding
    obtain ⟨rebound, place⟩ := moved
    obtain ⟨rfl, moves⟩ := same
    rw [List.lookup_cons, List.lookup_cons]
    cases name == rebound with
    | true => exact .some moves
    | false => exact ih

theorem size (moves : one.Moves shift other) : shift.Moves one.size other.size := by
  obtain ⟨later, again, same, first, second⟩ := moves.definitions
  have counted : one.size = shift.front.length + shift.one.nested.length + (later.length + 1) := by
    rw [Arena.size, ← Array.length_toList, first]
    simp [Nat.add_assoc]
  have recounted : other.size = shift.front.length + shift.other.nested.length + (later.length + 1) := by
    rw [Arena.size, ← Array.length_toList, second, same.length_eq]
    simp [Nat.add_assoc]
  rw [counted, recounted]
  exact .since _

theorem push (moves : one.Moves shift other) (defined : Definition.Moves shift definition moved) :
    (one.push definition).1.Moves shift (other.push moved).1 := by
  obtain ⟨later, again, same, first, second⟩ := moves.definitions
  refine ⟨moves.bindings, later ++ [definition], again ++ [moved],
    List.rel_append same (.cons defined .nil), ?_, ?_⟩
  · simp [Arena.push, first]
  · simp [Arena.push, second]

theorem bind (moves : one.Moves shift other) (name : String) {id place : Nat} (there : shift.Moves id place) :
    (one.bind name id).1.Moves shift (other.bind name place).1 := by
  have found := moves.lookup name
  unfold Arena.bind
  generalize one.lookup name = known at found
  generalize other.lookup name = now at found
  cases found with
  | none => exact ⟨.cons ⟨rfl, there⟩ moves.bindings, moves.definitions⟩
  | some _ => exact moves

end Arena.Moves

-- What stands at a place that has moved: what was there before the declaration, its own
-- definition, or one that has moved along.
inductive Arena.Finds (shift : Shift) : Nat → Nat → Option Definition → Option Definition → Prop where
  | before {id : Nat} (early : id < shift.front.length) : Finds shift id id found found
  | own {id place : Nat} : Finds shift id place (some shift.one.own) (some shift.other.own)
  | after {id place : Nat} (moves : Definition.Moves shift one other) :
      Finds shift id place (some one) (some other)
  | free {id place : Nat} : Finds shift id place none none

namespace Arena.Moves

variable {one other : Arena}

theorem get? (moves : one.Moves shift other) {id place : Nat} (there : shift.Moves id place) :
    Arena.Finds shift id place (one.get? id) (other.get? place) := by
  obtain ⟨later, again, same, first, second⟩ := moves.definitions
  rw [Arena.get?, Arena.get?, ← Array.getElem?_toList, ← Array.getElem?_toList, first, second]
  cases there with
  | before early =>
    have inside : id < (shift.front ++ shift.one.nested).length := by simp; omega
    have within : id < (shift.front ++ shift.other.nested).length := by simp; omega
    rw [List.getElem?_append_left inside, List.getElem?_append_left within,
      List.getElem?_append_left early, List.getElem?_append_left early]
    exact .before early
  | since k =>
    have past (nested : List Definition) (rest : List Definition) :
        (shift.front ++ nested ++ rest)[shift.front.length + nested.length + k]? = rest[k]? := by
      rw [← List.length_append, List.getElem?_append_right (Nat.le_add_right _ _), Nat.add_sub_cancel_left]
    rw [past, past]
    cases k with
    | zero => exact .own
    | succ k =>
      rw [List.getElem?_cons_succ, List.getElem?_cons_succ]
      rcases forall₂_get same k with ⟨none, free⟩ | ⟨one, other, moved, found, now⟩
      · rw [none, free]
        exact .free
      · rw [found, now]
        exact .after moved

theorem isNumeric (moves : one.Moves shift other) {id place : Nat} (there : shift.Moves id place) :
    other.isNumeric place = one.isNumeric id := by
  induction id using Nat.strongRecOn generalizing place with
  | ind id ih =>
    have found := moves.get? there
    rw [Arena.isNumeric, Arena.isNumeric]
    generalize one.get? id = known at found
    generalize other.get? place = now at found
    cases found with
    | free => rfl
    | own =>
      simp only [shift.rebodied.kind]
      split
      · rfl
      · rfl
      · exact absurd ‹_› shift.rebodied.bodied
      · rfl
    | @after known now _ _ moved =>
      have first := first_moves moved.entries
      simp only [moved.kind]
      generalize known.entries.head?.bind (·.type) = type at first ⊢
      generalize now.entries.head?.bind (·.type) = again at first ⊢
      split
      · rfl
      · rfl
      · cases first with
        | none => rfl
        | some handle =>
          cases handle with
          | scalar | external => rfl
          | @declared next target inner =>
            simp only [there.lower inner]
            split
            · exact ih next ‹_› inner
            · rfl
      · rfl
    | before early =>
      -- Definitions from before the declaration refer to others from before it.
      split
      · rfl
      · split
        · rfl
        · rfl
        · split
          · rename_i next _
            split
            · exact ih next ‹_› (.before (Nat.lt_trans ‹_› early))
            · rfl
          · rfl
        · rfl

end Arena.Moves

namespace View.Moves

variable {one other : View}

theorem type? (moves : one.Moves shift other) (type : TypeRef) :
    Option.Rel (Handle.Moves shift) (one.type? type) (other.type? type) := by
  cases type with
  | scalar type => exact .some (.scalar type)
  | named name =>
    have found := moves.types.lookup name.head
    simp only [View.type?, moves.externs]
    generalize one.types.lookup name.head = known at found ⊢
    generalize other.types.lookup name.head = now at found ⊢
    split
    · exact .none
    · cases found with
      | some there => exact .some (.declared there)
      | none =>
        simp only
        split
        · exact .some (.external name.head)
        · exact .none

theorem unknownType? (moves : one.Moves shift other) : other.unknownType? = one.unknownType? := by
  funext type
  have found := moves.type? type
  rw [View.unknownType?, View.unknownType?]
  generalize one.type? type = known at found ⊢
  generalize other.type? type = now at found ⊢
  cases found with
  | none => rfl
  | some _ => rfl

theorem isNumeric (moves : one.Moves shift other) (typed : Option.Rel (Handle.Moves shift) type again) :
    other.isNumeric again = one.isNumeric type := by
  cases typed with
  | none => rfl
  | some handle =>
    cases handle with
    | scalar | external => rfl
    | declared there => exact moves.types.isNumeric there

theorem symbol (moves : one.Moves shift other) (name : String) :
    Option.Rel (Symbol.Moves shift) ((one.locals.lookup name).or (one.globals.lookup name))
      ((other.locals.lookup name).or (other.globals.lookup name)) := by
  have inner := ScopeStack.Beside.lookup Symbol.Moves.named moves.locals name
  have outer := Scope.Beside.lookup Symbol.Moves.named moves.globals name
  generalize one.locals.lookup name = known at inner ⊢
  generalize other.locals.lookup name = now at inner ⊢
  cases inner with
  | some symbol => exact .some symbol
  | none => exact outer

theorem denotesValue (moves : one.Moves shift other) : other.denotesValue = one.denotesValue := by
  funext use name
  have found := moves.symbol name.head
  simp only [View.denotesValue, moves.externs]
  generalize (one.locals.lookup name.head).or _ = known at found ⊢
  generalize (other.locals.lookup name.head).or _ = now at found ⊢
  cases found with
  | none => rfl
  | some symbol => simp only [symbol.kind, moves.isNumeric symbol.type]

end View.Moves

end WireFormat
