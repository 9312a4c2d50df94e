import WireFormat.Check.View

namespace WireFormat

-- What the names of a schema mean, said of its tree alone: no tables, no arena and
-- no order of checking. The modules that follow prove the analysis equal to this.

section FirstNamed

variable {nameOf : α → Option String} {name : String}

def Unnamed (nameOf : α → Option String) (name : String) (items : List α) : Prop :=
  ∀ item ∈ items, nameOf item ≠ some name

-- The first of the items with the name, and the items before it.
structure FirstNamed (nameOf : α → Option String) (name : String) (items before : List α)
    (item : α) : Prop where
  split : ∃ after, items = before ++ item :: after
  named : nameOf item = some name
  fresh : Unnamed nameOf name before

theorem unnamed_iff (items : List α) : Unnamed nameOf name items ↔ name ∉ items.filterMap nameOf := by
  simp [Unnamed, List.mem_filterMap]

theorem unnamed_append (front back : List α) :
    Unnamed nameOf name (front ++ back) ↔ Unnamed nameOf name front ∧ Unnamed nameOf name back :=
  List.forall_mem_append

theorem unnamed_single (item : α) : Unnamed nameOf name [item] ↔ nameOf item ≠ some name := by
  simp [Unnamed]

theorem FirstNamed.mem (first : FirstNamed nameOf name items before item) : item ∈ items := by
  obtain ⟨after, rfl⟩ := first.split
  simp

theorem FirstNamed.present (first : FirstNamed nameOf name items before item) :
    ¬ Unnamed nameOf name items := by
  intro unnamed
  exact unnamed item first.mem first.named

theorem FirstNamed.append (first : FirstNamed nameOf name items before item) (more : List α) :
    FirstNamed nameOf name (items ++ more) before item := by
  obtain ⟨after, rfl⟩ := first.split
  exact ⟨⟨after ++ more, by simp⟩, first.named, first.fresh⟩

theorem first_last (unnamed : Unnamed nameOf name items) (named : nameOf item = some name) :
    FirstNamed nameOf name (items ++ [item]) items item :=
  ⟨⟨[], rfl⟩, named, unnamed⟩

theorem unnamed_or_first (nameOf : α → Option String) (name : String) (items : List α) :
    Unnamed nameOf name items ∨ ∃ before item, FirstNamed nameOf name items before item := by
  induction items with
  | nil => exact .inl fun _ member => nomatch member
  | cons head rest ih =>
    by_cases named : nameOf head = some name
    · exact .inr ⟨[], head, ⟨rest, rfl⟩, named, fun _ member => nomatch member⟩
    · rcases ih with unnamed | ⟨before, item, first⟩
      · exact .inl (List.forall_mem_cons.mpr ⟨named, unnamed⟩)
      · obtain ⟨after, rfl⟩ := first.split
        exact .inr ⟨head :: before, item, ⟨after, rfl⟩, first.named,
          List.forall_mem_cons.mpr ⟨named, first.fresh⟩⟩

theorem FirstNamed.unique (one : FirstNamed nameOf name items before item)
    (other : FirstNamed nameOf name items front found) : before = front ∧ item = found := by
  obtain ⟨after, rfl⟩ := one.split
  obtain ⟨back, equal⟩ := other.split
  -- Neither split can be the longer one, since the name would stand before its item.
  rcases List.append_eq_append_iff.mp equal with ⟨between, rfl, tail⟩ | ⟨between, rfl, tail⟩
  · cases between with
    | nil => exact ⟨by simp, (List.cons.inj tail).1⟩
    | cons head rest =>
      have stands : head = item := (List.cons.inj tail).1.symm
      exact absurd one.named (stands ▸ other.fresh head (by simp))
  · cases between with
    | nil => exact ⟨by simp, (List.cons.inj tail).1.symm⟩
    | cons head rest =>
      have stands : head = found := (List.cons.inj tail).1.symm
      exact absurd other.named (stands ▸ one.fresh head (by simp))

theorem first_append_single (first : FirstNamed nameOf name (items ++ [last]) before item) :
    FirstNamed nameOf name items before item ∨
      Unnamed nameOf name items ∧ nameOf last = some name ∧ before = items ∧ item = last := by
  rcases unnamed_or_first nameOf name items with unnamed | ⟨front, found, earlier⟩
  · have named : nameOf last = some name := Decidable.byContradiction fun other =>
      first.present ((unnamed_append _ _).mpr ⟨unnamed, (unnamed_single _).mpr other⟩)
    have same := first.unique (first_last unnamed named)
    exact .inr ⟨unnamed, named, same⟩
  · obtain ⟨rfl, rfl⟩ := first.unique (earlier.append [last])
    exact .inl earlier

-- An item that has no name, or one that is taken, is the first of no name.
def NamesNothingNew (nameOf : α → Option String) (items : List α) (item : α) : Prop :=
  ∀ name, nameOf item = some name → ¬ Unnamed nameOf name items

theorem names_nothing (anonymous : nameOf item = none) : NamesNothingNew nameOf items item := by
  intro name named
  rw [anonymous] at named
  cases named

theorem FirstNamed.names_again (first : FirstNamed nameOf name items before found) (named : nameOf item = some name) :
    NamesNothingNew nameOf items item := by
  intro other again
  rw [named] at again
  obtain rfl := Option.some.inj again
  exact first.present

theorem first_append_old (old : NamesNothingNew nameOf items last)
    (first : FirstNamed nameOf name (items ++ [last]) before item) : FirstNamed nameOf name items before item := by
  rcases first_append_single first with earlier | ⟨unnamed, named, _⟩
  · exact earlier
  · exact absurd unnamed (old name named)

end FirstNamed

-- Externs have names of their own: an extern never takes the name of anything else.
def Decl.globalName? (decl : Decl) : Option String :=
  match decl with
  | .external .. => none
  | _ => decl.name?.map (·.text)

def Member.itemName? (member : Member) : Option String := member.name?.map (·.text)

-- What a place in a schema can see: the externs of the whole schema, the top-level
-- declarations completed before the one that it stands in, and for each open struct,
-- innermost first, the members completed so far.
structure Place where
  externs : List String
  prior : List Decl
  enclosing : List (List Member)

def Place.within (place : Place) (earlier : List Member) : Place :=
  { place with enclosing := earlier :: place.enclosing }

-- What a type comes to once the lines that only rename another type are followed.
inductive Ending where
  | scalar | enum | composite | external | unresolved
  deriving DecidableEq, Repr

def Decl.ending? : Decl → Option Ending
  | .enum _ => some .enum
  | .struct .. => some .composite
  | .select _ => some .composite
  | _ => none

-- A line's own type is looked up where that line stands, so each step goes back.
inductive Leads (externs : List String) : List Decl → TypeRef → Ending → Prop where
  | scalar : Leads externs prior (.scalar type) .scalar
  | dotted (dotted : name.isDotted = true) : Leads externs prior (.named name) .unresolved
  | line (simple : name.isDotted = false)
      (first : FirstNamed Decl.globalName? name.head prior before (.field entry))
      (rest : Leads externs before entry.type ending) : Leads externs prior (.named name) ending
  | stop (simple : name.isDotted = false)
      (first : FirstNamed Decl.globalName? name.head prior before decl)
      (ends : decl.ending? = some ending) : Leads externs prior (.named name) ending
  | external (simple : name.isDotted = false) (unnamed : Unnamed Decl.globalName? name.head prior)
      (listed : name.head ∈ externs) : Leads externs prior (.named name) .external
  | unknown (simple : name.isDotted = false) (unnamed : Unnamed Decl.globalName? name.head prior)
      (unlisted : name.head ∉ externs) : Leads externs prior (.named name) .unresolved

-- Which endings hold numbers. A type that does not resolve has been reported as
-- such, and is tolerated.
def Ending.isNumeric : Ending → Bool
  | .scalar | .enum | .external => true
  | .composite | .unresolved => false

def Ending.isTolerated (ending : Ending) : Bool := ending.isNumeric || ending = .unresolved

-- Whether values of a type are numbers, as far as can be told.
def Counts (externs : List String) (prior : List Decl) (type : TypeRef) : Prop :=
  ∃ ending, Leads externs prior type ending ∧ ending.isTolerated = true

def Decl.Counts (externs : List String) (prior : List Decl) : Decl → Prop
  | .field entry => WireFormat.Counts externs prior entry.type
  | .enum _ => True
  | _ => False

def Member.Counts (externs : List String) (prior : List Decl) : Member → Prop
  | .field entry => WireFormat.Counts externs prior entry.type
  | _ => False

theorem counts_first (simple : name.isDotted = false)
    (first : FirstNamed Decl.globalName? name.head prior before decl) :
    Counts externs prior (.named name) ↔ decl.Counts externs before := by
  constructor
  · intro given
    obtain ⟨ending, leads, tolerated⟩ := given
    cases leads with
    | dotted dotted => simp [simple] at dotted
    | external _ unnamed => exact absurd unnamed first.present
    | unknown _ unnamed => exact absurd unnamed first.present
    | line _ line rest =>
      obtain ⟨rfl, rfl⟩ := first.unique line
      exact ⟨ending, rest, tolerated⟩
    | stop _ stop ends =>
      obtain ⟨rfl, rfl⟩ := first.unique stop
      cases decl with
      | enum => trivial
      | field | external => cases ends
      | struct | select =>
        cases ends
        cases tolerated
  · intro counts
    cases decl with
    | field entry =>
      obtain ⟨ending, rest, tolerated⟩ := counts
      exact ⟨ending, .line simple first rest, tolerated⟩
    | enum => exact ⟨.enum, .stop simple first rfl, rfl⟩
    | external | struct | select => exact counts.elim

theorem counts_unnamed (unnamed : Unnamed Decl.globalName? name.head prior) :
    Counts externs prior (.named name) := by
  by_cases dotted : name.isDotted = true
  · exact ⟨.unresolved, .dotted dotted, rfl⟩
  · have simple : name.isDotted = false := by simpa using dotted
    by_cases listed : name.head ∈ externs
    · exact ⟨.external, .external simple unnamed listed, rfl⟩
    · exact ⟨.unresolved, .unknown simple unnamed listed, rfl⟩

-- The nearest struct that has the name answers, with its first member of that name.
def Nearest (enclosing : List (List Member)) (name : String) (member : Member) : Prop :=
  ∃ inner members outer before, enclosing = inner ++ members :: outer ∧
    (∀ hidden ∈ inner, Unnamed Member.itemName? name hidden) ∧
    FirstNamed Member.itemName? name members before member

theorem Nearest.unique (one : Nearest enclosing name member) (other : Nearest enclosing name found) :
    member = found := by
  obtain ⟨inner, members, outer, before, rfl, hidden, first⟩ := one
  obtain ⟨front, body, back, earlier, equal, covered, again⟩ := other
  rcases List.append_eq_append_iff.mp equal with ⟨between, rfl, tail⟩ | ⟨between, rfl, tail⟩
  · cases between with
    | nil =>
      obtain ⟨rfl, _⟩ := List.cons.inj tail
      exact (first.unique again).2
    | cons head rest =>
      have stands : head = members := (List.cons.inj tail).1.symm
      exact absurd (covered head (by simp)) (stands ▸ first.present)
  · cases between with
    | nil =>
      obtain ⟨rfl, _⟩ := List.cons.inj tail
      exact (first.unique again).2
    | cons head rest =>
      have stands : head = body := (List.cons.inj tail).1.symm
      exact absurd (hidden head (by simp)) (stands ▸ again.present)

theorem nearest_or_none (enclosing : List (List Member)) (name : String) :
    (∀ members ∈ enclosing, Unnamed Member.itemName? name members) ∨
      ∃ member, Nearest enclosing name member := by
  induction enclosing with
  | nil => exact .inl nofun
  | cons members outer ih =>
    rcases unnamed_or_first Member.itemName? name members with unnamed | ⟨before, member, first⟩
    · rcases ih with unhidden | ⟨member, inner, found, rest, before, rfl, hidden, first⟩
      · exact .inl (List.forall_mem_cons.mpr ⟨unnamed, unhidden⟩)
      · exact .inr ⟨member, members :: inner, found, rest, before, rfl,
          List.forall_mem_cons.mpr ⟨unnamed, hidden⟩, first⟩
    · exact .inr ⟨member, [], members, outer, before, rfl, nofun, first⟩

theorem Nearest.present (nearest : Nearest enclosing name member) :
    ∃ members ∈ enclosing, ¬ Unnamed Member.itemName? name members := by
  obtain ⟨inner, members, outer, before, rfl, _, first⟩ := nearest
  exact ⟨members, by simp, first.present⟩

-- The scoping rule for a name that is used as a value.
inductive Place.Admits (place : Place) (allowed : Ending → Bool) (use : Use) (name : Name) : Prop where
  | external (simple : name.isDotted = false) (listed : name.head ∈ place.externs)
  | member (simple : name.isDotted = false)
      (nearest : Nearest place.enclosing name.head (.field entry))
      (leads : Leads place.externs place.prior entry.type ending) (fits : allowed ending = true)
  | global (simple : name.isDotted = false)
      (unhidden : ∀ members ∈ place.enclosing, Unnamed Member.itemName? name.head members)
      (first : FirstNamed Decl.globalName? name.head place.prior before (.field entry))
      (leads : Leads place.externs before entry.type ending) (fits : allowed ending = true)
  | enum (simple : name.isDotted = false) (selects : use = .selector)
      (unhidden : ∀ members ∈ place.enclosing, Unnamed Member.itemName? name.head members)
      (first : FirstNamed Decl.globalName? name.head place.prior before (.enum listing))

namespace Place

variable {place : Place} {use : Use} {name : Name}

theorem admits_nearest (simple : name.isDotted = false) (unlisted : name.head ∉ place.externs)
    (nearest : Nearest place.enclosing name.head member) :
    place.Admits Ending.isTolerated use name ↔ member.Counts place.externs place.prior := by
  constructor
  · intro admits
    cases admits with
    | external _ listed => exact absurd listed unlisted
    | member _ found leads fits =>
      rw [nearest.unique found]
      exact ⟨_, leads, fits⟩
    | global _ unhidden | enum _ _ unhidden =>
      obtain ⟨members, stands, named⟩ := nearest.present
      exact absurd (unhidden members stands) named
  · intro counts
    cases member with
    | field entry =>
      obtain ⟨ending, leads, fits⟩ := counts
      exact .member simple nearest leads fits
    | struct | select => exact counts.elim

theorem admits_global (simple : name.isDotted = false) (unlisted : name.head ∉ place.externs)
    (unhidden : ∀ members ∈ place.enclosing, Unnamed Member.itemName? name.head members)
    (first : FirstNamed Decl.globalName? name.head place.prior before decl) :
    place.Admits Ending.isTolerated use name ↔
      match decl with
      | .field entry => Counts place.externs before entry.type
      | .enum _ => use = .selector
      | _ => False := by
  constructor
  · intro admits
    cases admits with
    | external _ listed => exact absurd listed unlisted
    | member _ nearest =>
      obtain ⟨members, stands, named⟩ := nearest.present
      exact absurd (unhidden members stands) named
    | global _ _ found leads fits =>
      obtain ⟨rfl, rfl⟩ := first.unique found
      exact ⟨_, leads, fits⟩
    | enum _ selects _ found =>
      obtain ⟨rfl, rfl⟩ := first.unique found
      exact selects
  · intro counts
    cases decl with
    | field entry =>
      obtain ⟨ending, leads, fits⟩ := counts
      exact .global simple unhidden first leads fits
    | enum => exact .enum simple counts unhidden first
    | external | struct | select => exact counts.elim

theorem admits_nowhere (unlisted : name.head ∉ place.externs)
    (unhidden : ∀ members ∈ place.enclosing, Unnamed Member.itemName? name.head members)
    (unnamed : Unnamed Decl.globalName? name.head place.prior) :
    ¬ place.Admits Ending.isTolerated use name := by
  intro admits
  cases admits with
  | external _ listed => exact unlisted listed
  | member _ nearest =>
    obtain ⟨members, stands, named⟩ := nearest.present
    exact named (unhidden members stands)
  | global _ _ first | enum _ _ _ first => exact first.present unnamed

end Place

inductive Place.Knows (place : Place) : TypeRef → Prop where
  | scalar : Knows place (.scalar type)
  | global (simple : name.isDotted = false) (named : ¬ Unnamed Decl.globalName? name.head place.prior) :
      Knows place (.named name)
  | external (simple : name.isDotted = false) (listed : name.head ∈ place.externs) :
      Knows place (.named name)

end WireFormat
