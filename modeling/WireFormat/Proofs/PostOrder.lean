import WireFormat.Proofs.Filled

namespace WireFormat

-- The arena after an analysis, said of the tree alone: which definitions there are, in
-- which order, and what each of them holds.

inductive Subject where
  | line (entry : Field)
  | enum (listing : EnumDecl)
  | struct (members : List Member) (name : Token)
  | select (choice : Select)

-- Nested ones come before the one around them, so the last one is the tree's own.
mutual

def Member.subjects : Member → List Subject
  | .field _ => []
  | .struct members name _ => Member.allSubjects members ++ [.struct members name]
  | .select choice => [.select choice]

def Member.allSubjects : List Member → List Subject
  | [] => []
  | member :: rest => member.subjects ++ Member.allSubjects rest

end

def Decl.subjects : Decl → List Subject
  | .field entry => [.line entry]
  | .external .. => []
  | .enum listing => [.enum listing]
  | .struct members name _ => Member.allSubjects members ++ [.struct members name]
  | .select choice => [.select choice]

def subjectCount (decls : List Decl) : Nat := (decls.flatMap Decl.subjects).length

structure Slot where
  place : Place
  subject : Subject

def Place.slots (place : Place) (subjects : List Subject) : List Slot := subjects.map (Slot.mk place)

def slotsAfter (externs : List String) (prior : List Decl) : List Decl → List Slot
  | [] => []
  | decl :: rest => Place.slots ⟨externs, prior, []⟩ decl.subjects ++ slotsAfter externs (prior ++ [decl]) rest

def postOrder (decls : List Decl) : List Slot := slotsAfter (decls.filterMap Decl.external?) [] decls

namespace Place

variable (place : Place)

-- What a type is at a place. A name stands for the first declaration of it so far, known by
-- the index of its own definition.
inductive Means : TypeRef → Option Handle → Prop where
  | scalar : Means (.scalar type) (some (.scalar type))
  | dotted (dotted : name.isDotted = true) : Means (.named name) none
  | declared {id : Nat} (simple : name.isDotted = false)
      (first : FirstNamed Decl.globalName? name.head place.prior before decl)
      (own : id + 1 = subjectCount (before ++ [decl])) : Means (.named name) (some (.declared id))
  | external (simple : name.isDotted = false) (unnamed : Unnamed Decl.globalName? name.head place.prior)
      (listed : name.head ∈ place.externs) : Means (.named name) (some (.external name.head))
  | unknown (simple : name.isDotted = false) (unnamed : Unnamed Decl.globalName? name.head place.prior)
      (unlisted : name.head ∉ place.externs) : Means (.named name) none

-- `next` is the index after the definitions that a member brings, its own being the last.
inductive Records (next : Nat) : Member → Definition.Entry → Prop where
  | field (means : place.Means entry.type type) :
      Records next (.field entry) ⟨some entry.name.text, type, .ofBounds entry.bounds⟩
  | struct {id : Nat} (own : id + 1 = next) :
      Records next (.struct members name close) ⟨some name.text, some (.declared id), .unsized⟩
  | select {id : Nat} (own : id + 1 = next) :
      Records next (.select choice) ⟨choice.name.map (·.text), some (.declared id), .unsized⟩

-- Members in order, each after the definitions of the members before it. The last index
-- is the one after all of them.
inductive RecordsAll : Nat → List Member → List Definition.Entry → Nat → Prop where
  | nil : RecordsAll start [] [] start
  | cons (one : place.Records (start + member.subjects.length) member entry)
      (more : RecordsAll (start + member.subjects.length) rest entries stop) :
      RecordsAll start (member :: rest) (entry :: entries) stop

structure RecordsItem (item : Item) (entry : Definition.Entry) : Prop where
  name : entry.name = item.name.map (·.text)
  type : place.Means item.type entry.type
  size : entry.size = .ofBounds item.bounds

end Place

-- A name of an enum, with the value of the first entry of that name.
inductive EnumDecl.Records (listing : EnumDecl) (name : String) : Definition.Entry → Prop where
  | first (first : FirstNamed (fun entry => some entry.name.text) name listing.entries before found)
      (valued : (EnumEntry.values 0 listing.entries)[before.length]? = some value) :
      listing.Records name ⟨some name, none, .fixed value⟩

-- The definition of a subject, which stands at index `id`.
inductive Place.Describes (place : Place) (id : Nat) : Subject → Definition → Prop where
  | line (means : place.Means entry.type type) :
      Describes place id (.line entry) ⟨entry.name.text, (Decl.field entry).symbolKind, entry.name.line,
        .ofBounds entry.bounds, [⟨none, type, .ofBounds entry.bounds⟩]⟩
  | enum (names : List.Forall₂ listing.Records (listing.entries.map (·.name.text)).eraseDups entries) :
      Describes place id (.enum listing)
        ⟨listing.name.text, .enum, listing.name.line, listing.size, entries⟩
  | struct (records : place.RecordsAll start members entries id) :
      Describes place id (.struct members name) ⟨name.text, .struct, name.line, .unsized, entries⟩
  | select (items : List.Forall₂ place.RecordsItem (choice.arms.flatMap Arm.items) entries) :
      Describes place id (.select choice) ⟨choice.owner, .select, choice.close.line, .unsized, entries⟩

-- One definition for each slot, in the same order, from an index on.
def InPlace (start : Nat) (slots : List Slot) (definitions : List Definition) : Prop :=
  List.Forall₂ (fun slot entry => slot.place.Describes entry.2 slot.subject entry.1) slots
    (definitions.zipIdx start)

theorem InPlace.length (described : InPlace start slots definitions) : definitions.length = slots.length := by
  rw [List.Forall₂.length_eq described, List.length_zipIdx]

theorem InPlace.append (one : InPlace start front definitions)
    (other : InPlace (start + definitions.length) back more) :
    InPlace start (front ++ back) (definitions ++ more) := by
  rw [InPlace, List.zipIdx_append]
  exact List.rel_append one other

namespace Arena

def Adds (before after : Arena) (slots : List Slot) : Prop :=
  ∃ more, after.definitions.toList = before.definitions.toList ++ more ∧ InPlace before.size slots more

theorem Adds.nil (types : Arena) : types.Adds types [] := ⟨[], (List.append_nil _).symm, .nil⟩

theorem Adds.size (adds : Adds before after slots) : after.size = before.size + slots.length := by
  obtain ⟨more, defined, described⟩ := adds
  rw [Arena.size, ← Array.length_toList, defined, List.length_append, Array.length_toList, described.length]
  rfl

theorem Adds.append (one : Adds before middle front) (other : Adds middle after back) :
    Adds before after (front ++ back) := by
  have size := one.size
  obtain ⟨more, defined, described⟩ := one
  obtain ⟨others, further, following⟩ := other
  rw [size, ← described.length] at following
  exact ⟨more ++ others, by rw [further, defined, List.append_assoc], described.append following⟩

theorem Adds.push {place : Place} {subject : Subject} (types : Arena)
    (describes : place.Describes types.size subject definition) :
    types.Adds (types.push definition).1 (place.slots [subject]) :=
  ⟨[definition], Array.toList_push, .cons describes .nil⟩

theorem Adds.of_definitions {other : Arena} (adds : Adds before after slots)
    (same : other.definitions = after.definitions) : Adds before other slots := by
  obtain ⟨more, defined, described⟩ := adds
  exact ⟨more, by rw [same, defined], described⟩

end Arena

namespace View

theorem Frame.type? (frame : Frame before after) (type : TypeRef) : after.type? type = before.type? type := by
  cases type with
  | scalar => rfl
  | named name => simp only [View.type?, Arena.lookup, frame.bindings, frame.externs]

theorem select_describes {view : View} {place : Place} (means : ∀ type, place.Means type (view.type? type))
    (choice : Select) (id : Nat) :
    place.Describes id (.select choice) (view.selectDefinition choice) := by
  have entries : (view.selectDefinition choice).entries = (choice.arms.flatMap Arm.items).map fun item =>
      ⟨item.name.map (·.text), view.type? item.type, .ofBounds item.bounds⟩ := by
    rw [List.map_flatMap]
    rfl
  refine .select ?_
  change List.Forall₂ _ _ (view.selectDefinition choice).entries
  rw [entries, List.forall₂_map_right_iff]
  exact List.forall₂_same.mpr fun item _ => ⟨rfl, means item.type, rfl⟩

theorem declareMember_types (view : View) (name : Option Token) (line : Nat) (size : Size) (type : Option Handle) :
    (view.declareMember name line size type).1.types = view.types := by
  cases name <;> rfl

mutual

theorem checkMember_adds {view : View} {place : Place} (means : ∀ type, place.Means type (view.type? type))
    (member : Member) :
    view.types.Adds (checkMember view member).view.types (place.slots member.subjects) ∧
      place.Records (checkMember view member).view.types.size member
        ⟨member.itemName?, (checkMember view member).type, (checkMember view member).size⟩ := by
  cases member with
  | field entry => exact ⟨.nil _, .field (means entry.type)⟩
  | struct members name close =>
    have inside : ∀ type, place.Means type ((view.enter name.text).type? type) := means
    obtain ⟨adds, records⟩ := checkMembers_adds inside members
    refine ⟨?_, .struct (Arena.push_size _ _).symm⟩
    rw [Member.subjects, Place.slots, List.map_append]
    exact adds.append (.push _ (.struct records))
  | select choice =>
    exact ⟨.push _ (select_describes means choice _), .select (Arena.push_size _ _).symm⟩

theorem checkMembers_adds {view : View} {place : Place} (means : ∀ type, place.Means type (view.type? type))
    (members : List Member) :
    view.types.Adds (checkMembers view members).view.types (place.slots (Member.allSubjects members)) ∧
      place.RecordsAll view.types.size members (checkMembers view members).entries
        (checkMembers view members).view.types.size := by
  cases members with
  | nil => exact ⟨.nil _, .nil⟩
  | cons member rest =>
    obtain ⟨added, record⟩ := checkMember_adds means member
    have kept := declareMember_types (checkMember view member).view member.name? (checkMember view member).line
      (checkMember view member).size (checkMember view member).type
    -- No name is bound on the way, so the types of the later members mean what they did before.
    have frame := (checkMember_frame view member).trans (declareMember_frame (checkMember view member).view
      member.name? (checkMember view member).line (checkMember view member).size (checkMember view member).type)
    obtain ⟨others, records⟩ := checkMembers_adds (fun type => frame.type? type ▸ means type) rest
    have next : (checkMember view member).view.types.size = view.types.size + member.subjects.length := by
      rw [added.size, Place.slots, List.length_map]
    rw [kept, next] at records
    rw [next] at record
    rw [kept] at others
    refine ⟨?_, .cons record records⟩
    rw [Member.allSubjects, Place.slots, List.map_append]
    exact added.append others

end

end View

-- The first declaration of a name is bound to the index of its own definition.
def Numbered (types : Arena) (prior : List Decl) : Prop :=
  ∀ name before decl, FirstNamed Decl.globalName? name prior before decl →
    ∃ id, types.lookup name = some id ∧ id + 1 = subjectCount (before ++ [decl])

namespace Numbered

variable {types : Arena}

theorem keep (numbered : Numbered types prior) (old : NamesNothingNew Decl.globalName? prior decl) :
    Numbered types (prior ++ [decl]) :=
  fun _ _ _ first => numbered _ _ _ (first_append_old old first)

theorem bind {id : Nat} (numbered : Numbered types prior) (named : decl.globalName? = some name)
    (unnamed : Unnamed Decl.globalName? name prior) (free : types.lookup name = none)
    (own : id + 1 = subjectCount (prior ++ [decl])) : Numbered (types.bind name id).1 (prior ++ [decl]) := by
  intro other before found first
  rw [types.bind_lookup id free]
  rcases first_append_single first with earlier | ⟨_, last, rfl, rfl⟩
  · have apart : other ≠ name := by
      rintro rfl
      exact earlier.present unnamed
    rw [if_neg apart]
    exact numbered _ _ _ earlier
  · rw [named] at last
    obtain rfl := Option.some.inj last
    exact ⟨id, if_pos rfl, own⟩

end Numbered

theorem View.Shows.means {view : View} {place : Place} (shows : view.Shows place)
    (numbered : Numbered view.types place.prior) (type : TypeRef) : place.Means type (view.type? type) := by
  cases type with
  | scalar => exact .scalar
  | named name =>
    have answers := shows.answers name
    generalize answered : view.type? (.named name) = answer at answers ⊢
    cases answers with
    | dotted dotted => exact .dotted dotted
    | external simple unnamed listed => exact .external simple unnamed listed
    | unknown simple unnamed unlisted => exact .unknown simple unnamed unlisted
    | declared simple first =>
      obtain ⟨id, found, own⟩ := numbered _ _ _ first
      have bound : view.type? (.named name) = some (.declared id) := by simp [View.type?, simple, found]
      rw [← answered, bound]
      exact .declared simple first own

theorem enum_describes (place : Place) (id : Nat) (listing : EnumDecl) :
    place.Describes id (.enum listing) listing.definition := by
  refine .enum ?_
  have names : (listing.entries.map (·.name.text)).eraseDups =
      (firsts (·.1.name.text) listing.valued).map (·.1.name.text) := by
    rw [firsts_keys, ← valued_entries, List.map_map]
    rfl
  rw [names, List.forall₂_map_left_iff, List.forall₂_map_right_iff, List.forall₂_same]
  rintro ⟨entry, value⟩ member
  obtain ⟨before, after, split, others⟩ := firsts_split _ member
  have entries : listing.entries = before.map Prod.fst ++ entry :: after.map Prod.fst := by
    rw [← valued_entries, split, List.map_append, List.map_cons]
  have values : EnumEntry.values 0 listing.entries = before.map Prod.snd ++ value :: after.map Prod.snd := by
    rw [← valued_values, split, List.map_append, List.map_cons]
  refine .first ⟨⟨_, entries⟩, rfl, ?_⟩ ?_
  · exact List.forall_mem_map.mpr fun other earlier same => others other earlier (Option.some.inj same)
  · rw [values]
    simp

theorem subjectCount_snoc (prior : List Decl) (decl : Decl) :
    subjectCount (prior ++ [decl]) = subjectCount prior + decl.subjects.length := by
  simp [subjectCount]

theorem line_describes {resolution : Resolution} {place : Place} {id : Nat}
    (means : place.Means entry.type (resolution.view.type? entry.type)) :
    place.Describes id (.line entry) (resolution.fieldDefinition entry) := by
  show place.Describes id (.line entry) ⟨entry.name.text, (resolution.fieldDefinition entry).kind, entry.name.line,
    .ofBounds entry.bounds, [⟨none, resolution.view.type? entry.type, .ofBounds entry.bounds⟩]⟩
  rw [Resolution.fieldDefinition_kind]
  exact .line means

namespace Resolution

-- Between two declarations, every index is known from the declarations before.
structure Ordered (resolution : Resolution) (externs : List String) (prior : List Decl) : Prop where
  shows : resolution.Shows externs prior
  numbered : Numbered resolution.types prior
  size : resolution.types.size = subjectCount prior

variable {resolution : Resolution} {externs : List String}

theorem declare_numbered {id : Nat} (shows : resolution.Shows externs prior)
    (numbered : Numbered resolution.types prior) (named : decl.globalName? = some name.text)
    (own : id + 1 = subjectCount (prior ++ [decl])) :
    Numbered (resolution.declare name kind size id close).1.types (prior ++ [decl]) := by
  rcases unnamed_or_first Decl.globalName? name.text prior with unnamed | ⟨before, found, first⟩
  · rw [declare_fresh resolution (shows.fresh unnamed)]
    exact numbered.bind named unnamed (shows.tables.absent _ unnamed).2 own
  · rw [declare_taken resolution (shows.used first)]
    exact numbered.keep (first.names_again named)

-- What one declaration adds to the arena, and that the indices stay known.
def Continues (resolution after : Resolution) (externs : List String) (prior : List Decl) (decl : Decl) : Prop :=
  resolution.types.Adds after.types (Place.slots ⟨externs, prior, []⟩ decl.subjects) ∧
    Numbered after.types (prior ++ [decl])

theorem Ordered.means (ordered : resolution.Ordered externs prior) (type : TypeRef) :
    Place.Means ⟨externs, prior, []⟩ type (resolution.view.type? type) :=
  ordered.shows.view.means ordered.numbered type

theorem define_continues (ordered : resolution.Ordered externs prior) (name close : Token)
    (named : decl.globalName? = some name.text) (single : decl.subjects = [subject])
    (describes : Place.Describes ⟨externs, prior, []⟩ resolution.types.size subject definition) :
    resolution.Continues (resolution.define definition name close).1 externs prior decl := by
  have pushed := ordered.shows.grow (Arena.push_grows resolution.types definition) rfl
  have own : resolution.types.size + 1 = subjectCount (prior ++ [decl]) := by
    rw [subjectCount_snoc, ordered.size, single]
    rfl
  refine ⟨?_, declare_numbered pushed ordered.numbered named own⟩
  rw [single]
  exact (Arena.Adds.push resolution.types describes).of_definitions (declare_definitions _ _ _ _ _ _)

theorem struct_continues (ordered : resolution.Ordered externs prior) (members : List Member) (name close : Token) :
    resolution.Continues (resolution.checkDecl reached (.struct members name close)).1 externs prior
      (.struct members name close) := by
  obtain ⟨adds, record⟩ := View.checkMember_adds ordered.means (.struct members name close)
  have frame := View.checkMember_frame resolution.view (.struct members name close)
  have checked := ordered.shows.grow frame.types frame.bindings
  have numbered : Numbered (View.checkMember resolution.view (.struct members name close)).view.types prior := by
    intro given before decl first
    rw [Arena.lookup, frame.bindings]
    exact ordered.numbered given before decl first
  have size := adds.size
  cases record with
  | struct own =>
    refine ⟨adds.of_definitions (declare_definitions _ _ _ _ _ _), declare_numbered checked numbered rfl ?_⟩
    rw [subjectCount_snoc, ← ordered.size]
    exact own.trans (size.trans (by rw [Place.slots, List.length_map]; rfl))

theorem checkDecl_continues (ordered : resolution.Ordered externs prior) (reached : List String) (decl : Decl) :
    resolution.Continues (resolution.checkDecl reached decl).1 externs prior decl := by
  cases decl with
  | external name close => exact ⟨.nil _, ordered.numbered.keep (names_nothing rfl)⟩
  | field entry => exact define_continues ordered _ _ rfl rfl (line_describes (ordered.means entry.type))
  | enum listing => exact define_continues ordered _ _ rfl rfl (enum_describes _ _ listing)
  | struct members name close => exact struct_continues ordered members name close
  | select choice =>
    have describes := View.select_describes ordered.means choice resolution.types.size
    simp only [checkDecl]
    cases named : choice.name with
    | none =>
      have anonymous : (Decl.select choice).globalName? = none := by simp [Decl.globalName?, Decl.name?, named]
      exact ⟨.push _ describes, ordered.numbered.keep (names_nothing anonymous)⟩
    | some name =>
      have item : (Decl.select choice).globalName? = some name.text := by
        simp [Decl.globalName?, Decl.name?, named]
      exact define_continues ordered _ _ item rfl describes

theorem checkDecl_ordered (ordered : resolution.Ordered externs prior)
    (same : ∀ name, name ∈ reached ↔ name ∈ prior.filterMap Decl.external?) (decl : Decl) :
    (resolution.checkDecl reached decl).1.Ordered externs (prior ++ [decl]) := by
  obtain ⟨adds, numbered⟩ := checkDecl_continues ordered reached decl
  have size : (resolution.checkDecl reached decl).1.types.size = subjectCount (prior ++ [decl]) := by
    rw [adds.size, ordered.size, subjectCount_snoc, Place.slots, List.length_map]
  exact ⟨(checkDecl_shows ordered.shows same decl).1, numbered, size⟩

theorem checkDecls_ordered (ordered : resolution.Ordered externs prior)
    (same : ∀ name, name ∈ reached ↔ name ∈ prior.filterMap Decl.external?) (decls : List Decl) :
    (resolution.checkDecls reached decls).1.Ordered externs (prior ++ decls) := by
  induction decls generalizing resolution reached prior with
  | nil => simpa [checkDecls] using ordered
  | cons decl rest ih =>
    simpa [checkDecls] using ih (checkDecl_ordered ordered same decl) (reached_further same decl)

theorem checkDecls_adds (ordered : resolution.Ordered externs prior)
    (same : ∀ name, name ∈ reached ↔ name ∈ prior.filterMap Decl.external?) (decls : List Decl) :
    resolution.types.Adds (resolution.checkDecls reached decls).1.types (slotsAfter externs prior decls) := by
  induction decls generalizing resolution reached prior with
  | nil => exact .nil _
  | cons decl rest ih =>
    have next := checkDecl_ordered ordered same decl
    exact (checkDecl_continues ordered reached decl).1.append (ih next (reached_further same decl))

end Resolution

theorem initial_ordered (decls : List Decl) : (started decls).Ordered (decls.filterMap Decl.external?) [] :=
  ⟨initial_shows decls, fun _ _ _ first => (nomatch first.mem), rfl⟩

theorem analyze_adds (decls : List Decl) : Arena.empty.Adds (analyze decls).1.types (postOrder decls) :=
  Resolution.checkDecls_adds (initial_ordered decls) (by simp) decls

-- After an analysis the arena holds one definition for each subject of the schema, in the
-- order in which the trees end.
theorem analyze_postOrder (decls : List Decl) :
    InPlace 0 (postOrder decls) (analyze decls).1.types.definitions.toList := by
  obtain ⟨definitions, all, described⟩ := analyze_adds decls
  rw [all]
  exact described

-- The second declaration of a name keeps its definition, which no name leads to, and the
-- name of a nested struct is no type.
example : (compile "uint8 a; uint8 a; struct { struct { a b; } c; c d; } s;" ⟨"<input>", true⟩).schema.map (fun schema =>
    schema.2.types.definitions.toList.map fun definition => (definition.name, definition.entries.map (·.type))) =
    some [("a", [some (.scalar .uint8)]), ("a", [some (.scalar .uint8)]), ("c", [some (.declared 0)]),
      ("s", [some (.declared 2), none])] := by decide +kernel

end WireFormat
