import Mathlib.Data.Option.Basic
import WireFormat.Compile
import WireFormat.Proofs.Acceptance
import WireFormat.Proofs.Linked
import WireFormat.Proofs.Parsed

namespace WireFormat

-- What nothing found wrong means for the tables: they are complete.

def Size.Sound : Size → Prop
  | .fixed value => value ≠ 0
  | .range low high => low ≤ high
  | _ => True

-- One entry for each of the enum's own, in order, and no two alike.
structure Definition.Lists (definition : Definition) (listing : EnumDecl) : Prop where
  name : definition.name = listing.name.text
  names : definition.entries.map (·.name) = listing.entries.map fun entry => some entry.name.text
  values : definition.entries.map (·.size) = (EnumEntry.values 0 listing.entries).map .fixed
  namesOnce : (definition.entries.map (·.name)).Nodup
  valuesOnce : (definition.entries.map (·.size)).Nodup
  fits : ∀ low high, definition.size = .range low high →
    low = 0 ∧ ∀ value ∈ EnumEntry.values 0 listing.entries, value ≤ high

structure Definition.Filled (definition : Definition) (decls : List Decl) : Prop where
  size : definition.size.Sound
  entries : definition.kind ≠ .enum → ∀ entry ∈ definition.entries,
    entry.type.isSome = true ∧ entry.size.Sound
  names : definition.kind = .struct → (definition.entries.filterMap (·.name)).Nodup
  listing : definition.kind = .enum → ∃ listing, .enum listing ∈ decls ∧ definition.Lists listing

def Arena.Filled (types : Arena) (decls : List Decl) : Prop :=
  ∀ definition ∈ types.definitions, definition.Filled decls

theorem Arena.Filled.push {types : Arena} (filled : types.Filled decls) (definition : Definition)
    (last : definition.Filled decls) : (types.push definition).1.Filled decls := by
  intro known member
  rcases Array.mem_push.mp member with old | rfl
  · exact filled known old
  · exact last

theorem Arena.Filled.bind {types : Arena} (filled : types.Filled decls) (name : String) (id : Nat) :
    (types.bind name id).1.Filled decls := by
  unfold Arena.bind
  split <;> exact filled

namespace View

variable {view : View}

theorem bounds_sound (clear : view.boundsFindings owner close bounds = []) :
    (Size.ofBounds bounds).Sound := by
  cases bounds with
  | none => trivial
  | some bounds =>
    have sized := (List.append_eq_nil_iff.mp clear).2
    rw [Size.ofBounds]
    cases known : bounds.size with
    | fixed value =>
      rintro rfl
      simp [known, Size.findings] at sized
    | range low high => simpa [known, Size.findings, Size.Sound] using sized
    | unsized | unresolved => trivial

theorem type_resolved (known : view.unknownType? type = none) : (view.type? type).isSome = true := by
  cases type with
  | scalar => rfl
  | named name =>
    cases resolved : view.type? (.named name) with
    | none => simp [unknownType?, resolved, TypeRef.name?] at known
    | some handle => rfl

theorem arm_clear (clear : view.armFindings arm = []) : ∀ item ∈ arm.items,
    (view.type? item.type).isSome = true ∧ (Size.ofBounds item.bounds).Sound := by
  rw [armFindings, List.append_eq_nil_iff, List.append_eq_nil_iff, List.map_eq_nil_iff,
    List.flatMap_eq_nil_iff, List.filterMap_eq_nil_iff] at clear
  obtain ⟨⟨_, bounds⟩, types⟩ := clear
  exact fun item member => ⟨type_resolved (types item member), bounds_sound (bounds item member)⟩

theorem select_filled (clear : view.selectFindings choice = []) :
    (view.selectDefinition choice).Filled decls := by
  rw [selectFindings, armsFindings, List.append_eq_nil_iff, List.append_eq_nil_iff, List.flatMap_eq_nil_iff] at clear
  refine ⟨trivial, fun _ entry member => ?_, by simp [selectDefinition], by simp [selectDefinition]⟩
  obtain ⟨arm, stands, listed⟩ := List.mem_flatMap.mp member
  obtain ⟨item, written, rfl⟩ := List.mem_map.mp listed
  exact arm_clear (clear.1.2 arm stands) item written

theorem entries_names (view : View) (members : List Member) :
    (checkMembers view members).entries.map (·.name) = members.map Member.itemName? := by
  induction members generalizing view with
  | nil => rfl
  | cons member rest ih =>
    simp only [checkMembers, List.map_cons, ih]
    rfl

theorem leave_filled {place : Place} (name close : Token) (shown : MembersShown place [] members body)
    (names : body.entries.map (·.name) = members.map Member.itemName?)
    (filled : body.view.types.Filled decls)
    (entries : ∀ entry ∈ body.entries, entry.type.isSome = true ∧ entry.size.Sound)
    (once : body.repeated = []) : (leave name close body).view.types.Filled decls := by
  refine filled.push _ ⟨trivial, fun _ => entries, fun _ => ?_, nofun⟩
  have distinct : (members.filterMap Member.itemName?).Nodup := by
    have apart := shown.repeated.symm.trans once
    rw [← List.map_id (members.filterMap Member.itemName?)]
    exact (repeats_nil id _).mp apart
  have same := congrArg (List.filterMap id) names
  rw [List.filterMap_map, List.filterMap_map] at same
  exact same ▸ distinct

mutual

theorem checkMember_filled {view : View} {place : Place} (shows : view.Shows place)
    (filled : view.types.Filled decls) (member : Member)
    (clear : (checkMember view member).findings = []) (known : (checkMember view member).unknown = []) :
    (checkMember view member).view.types.Filled decls ∧
      (checkMember view member).type.isSome = true ∧ (checkMember view member).size.Sound := by
  cases member with
  | field entry =>
    exact ⟨filled, type_resolved (Option.toList_eq_nil_iff.mp known), bounds_sound clear⟩
  | struct members name close =>
    have inside := shows.enter name.text
    simp only [checkMember, leave, List.append_eq_nil_iff, List.map_eq_nil_iff] at clear
    obtain ⟨⟨clear, once⟩, typed⟩ := clear
    obtain ⟨grown, entries⟩ := checkMembers_filled inside filled members clear typed
    have shown := checkMembers_shows inside members
    exact ⟨leave_filled name close shown (entries_names _ members) grown entries once, rfl, trivial⟩
  | select choice => exact ⟨filled.push _ (select_filled clear), rfl, trivial⟩

theorem checkMembers_filled {view : View} {place : Place} (shows : view.Shows (place.within earlier))
    (filled : view.types.Filled decls) (members : List Member)
    (clear : (checkMembers view members).findings = []) (known : (checkMembers view members).unknown = []) :
    (checkMembers view members).view.types.Filled decls ∧
      ∀ entry ∈ (checkMembers view members).entries, entry.type.isSome = true ∧ entry.size.Sound := by
  cases members with
  | nil => exact ⟨filled, nofun⟩
  | cons member rest =>
    simp only [checkMembers, List.append_eq_nil_iff] at clear known
    obtain ⟨grown, entry⟩ := checkMember_filled shows filled member clear.1 known.1
    have one := checkMember_shows shows member
    have declared := one.view.declareMember member (checkMember view member).line
      (checkMember view member).size one.holds one.counts
    have same : ((checkMember view member).view.declareMember member.name? (checkMember view member).line
        (checkMember view member).size (checkMember view member).type).1.types =
        (checkMember view member).view.types := by
      cases member.name? <;> rfl
    obtain ⟨full, others⟩ := checkMembers_filled declared.1 (same ▸ grown) rest clear.2 known.2
    exact ⟨full, List.forall_mem_cons.mpr ⟨entry, others⟩⟩

end

end View

theorem valued_entries (listing : EnumDecl) : listing.valued.map Prod.fst = listing.entries := by
  rw [EnumDecl.valued, List.map_fst_zip]
  exact Nat.le_of_eq (values_length 0 listing.entries).symm

theorem enum_lists {listing : EnumDecl} (sound : listing.Sound) : listing.definition.Lists listing := by
  have apart : (listing.valued.map (·.1.name.text)).Nodup := by
    have names := sound.names
    rwa [← valued_entries, List.map_map] at names
  have all : listing.definition.entries = listing.valued.map fun pair =>
      ⟨some pair.1.name.text, none, .fixed pair.2⟩ := by
    rw [EnumDecl.definition, firsts_distinct _ _ apart]
  have names : listing.definition.entries.map (·.name) =
      listing.entries.map fun entry => some entry.name.text := by
    rw [all, List.map_map, ← valued_entries, List.map_map]
    rfl
  have values : listing.definition.entries.map (·.size) =
      (EnumEntry.values 0 listing.entries).map .fixed := by
    rw [all, List.map_map, ← valued_values, List.map_map]
    rfl
  refine ⟨rfl, names, values, ?_, ?_, ?_⟩
  · have once := sound.names.map (Option.some_injective String)
    rw [names]
    rwa [List.map_map] at once
  · rw [values]
    exact sound.values.map fun _ _ same => Size.fixed.inj same
  · intro low high ranged
    simp only [EnumDecl.definition, EnumDecl.size] at ranged
    split at ranged
    · cases ranged
    · rename_i max given
      cases ranged
      exact ⟨rfl, sound.fits max given⟩

theorem enum_filled {listing : EnumDecl} (clear : listing.findings = [])
    (listed : .enum listing ∈ decls) : listing.definition.Filled decls := by
  have lists := enum_lists ((enum_accepted listing).mp clear)
  refine ⟨?_, fun other => absurd rfl other, nofun, fun _ => ⟨listing, listed, lists⟩⟩
  simp only [EnumDecl.definition, EnumDecl.size]
  split
  · trivial
  · exact UInt64.zero_le

namespace Resolution

-- The globals so far are those that have been declared, in their order.
structure Filled (resolution : Resolution) (decls prior : List Decl) : Prop where
  globals : resolution.globals.symbols.map (·.name) = prior.filterMap Decl.globalName?
  sizes : ∀ symbol ∈ resolution.globals.symbols, symbol.size.Sound
  types : resolution.types.Filled decls

variable {resolution : Resolution} {externs : List String}

theorem declare_filled {id : Nat} (filled : resolution.Filled decls prior) (named : decl.globalName? = some name.text)
    (sound : size.Sound) (clear : (resolution.declare name kind size id close).2 = []) :
    (resolution.declare name kind size id close).1.Filled decls (prior ++ [decl]) := by
  cases taken : resolution.globals.contains name.text with
  | true =>
    rw [declare_taken resolution taken] at clear
    cases clear
  | false =>
    rw [declare_fresh resolution taken]
    refine ⟨?_, ?_, filled.types.bind _ _⟩
    · simp [Scope.declare, taken, filled.globals, named]
    · simpa [Scope.declare, taken, or_imp, forall_and, sound] using filled.sizes

theorem define_filled {definition : Definition} (filled : resolution.Filled decls prior)
    (named : decl.globalName? = some name.text) (full : definition.Filled decls)
    (clear : (resolution.define definition name close).2 = []) :
    (resolution.define definition name close).1.Filled decls (prior ++ [decl]) := by
  have pushed : Filled { resolution with types := (resolution.types.push definition).1 } decls prior :=
    ⟨filled.globals, filled.sizes, filled.types.push definition full⟩
  exact declare_filled pushed named full.size clear

theorem field_filled {entry : Field} (clear : resolution.fieldFindings entry = []) :
    (resolution.fieldDefinition entry).Filled decls := by
  obtain ⟨bounds, type⟩ := List.append_eq_nil_iff.mp clear
  have sized := View.bounds_sound bounds
  have typed := View.type_resolved (Option.toList_eq_nil_iff.mp (List.map_eq_nil_iff.mp type))
  have line : ∀ known ∈ (resolution.fieldDefinition entry).entries,
      known.type.isSome = true ∧ known.size.Sound := List.forall_mem_singleton.mpr ⟨typed, sized⟩
  refine ⟨sized, fun _ => line, ?_, ?_⟩
  · simp only [fieldDefinition]
    split <;> simp
  · simp only [fieldDefinition]
    split <;> simp

theorem checkDecl_filled (shows : resolution.Shows externs prior) (filled : resolution.Filled decls prior)
    (listed : decl ∈ decls) (clear : (resolution.checkDecl reached decl).2 = []) :
    (resolution.checkDecl reached decl).1.Filled decls (prior ++ [decl]) := by
  cases decl with
  | external name close =>
    refine ⟨?_, filled.sizes, filled.types⟩
    simp [checkDecl, filled.globals, Decl.globalName?]
  | field entry =>
    obtain ⟨line, name⟩ := List.append_eq_nil_iff.mp clear
    exact define_filled filled rfl (field_filled line) name
  | enum listing =>
    obtain ⟨found, name⟩ := List.append_eq_nil_iff.mp clear
    exact define_filled filled rfl (enum_filled found listed) name
  | struct members name close =>
    obtain ⟨found, taken⟩ := List.append_eq_nil_iff.mp clear
    obtain ⟨types, _⟩ := View.checkMember_filled shows.view filled.types (.struct members name close) found rfl
    have inside : Filled { resolution with
        types := (resolution.view.checkStruct members name close).view.types } decls prior :=
      ⟨filled.globals, filled.sizes, types⟩
    exact declare_filled inside rfl trivial taken
  | select choice =>
    simp only [checkDecl] at clear ⊢
    cases named : choice.name with
    | none =>
      simp only [named] at clear ⊢
      have anonymous : (Decl.select choice).globalName? = none := by
        simp [Decl.globalName?, Decl.name?, named]
      refine ⟨?_, filled.sizes, filled.types.push _ (View.select_filled clear)⟩
      simp [filled.globals, anonymous]
    | some name =>
      simp only [named] at clear ⊢
      have item : (Decl.select choice).globalName? = some name.text := by
        simp [Decl.globalName?, Decl.name?, named]
      obtain ⟨found, taken⟩ := List.append_eq_nil_iff.mp clear
      exact define_filled filled item (View.select_filled found) taken

theorem checkDecls_filled (shows : resolution.Shows externs prior)
    (same : ∀ name, name ∈ reached ↔ name ∈ prior.filterMap Decl.external?)
    (filled : resolution.Filled decls prior) (rest : List Decl) (listed : ∀ decl ∈ rest, decl ∈ decls)
    (clear : (resolution.checkDecls reached rest).2 = []) :
    (resolution.checkDecls reached rest).1.Filled decls (prior ++ rest) := by
  induction rest generalizing resolution reached prior with
  | nil => simpa [checkDecls] using filled
  | cons decl rest ih =>
    simp only [checkDecls, List.append_eq_nil_iff] at clear
    obtain ⟨stands, others⟩ := List.forall_mem_cons.mp listed
    have next := checkDecl_filled shows filled stands clear.1
    have shown := (checkDecl_shows shows same decl).1
    simpa [checkDecls] using ih shown (reached_further same decl) next others clear.2

end Resolution

theorem externScope_names (decls : List Decl) (once : (decls.filterMap Decl.external?).Nodup) :
    (externScope decls).symbols.map (·.name) = decls.filterMap Decl.external? := by
  induction decls using List.reverseRecOn with
  | nil => rfl
  | append_singleton before last ih =>
    obtain ⟨apart, fresh⟩ := (fresh_distinct Decl.external? before last).mp once
    have others := ih apart
    cases last with
    | external name close =>
      have named : (Decl.external name close).external? = some name.text := rfl
      have unseen : (externScope before).contains name.text = false := by
        rw [← Bool.not_eq_true, externScope_known]
        exact (fresh_named named).mp fresh
      rw [externScope_external, Scope.declare_fresh _ (externSymbol name) unseen]
      simp [others, externSymbol, named]
    | field | enum | struct | select =>
      rw [externScope_other before rfl]
      simp [others, Decl.external?]

-- What the tables of a schema without a fault give: every name in its place, and every
-- definition with all that it refers to.
structure Resolution.Complete (resolution : Resolution) (decls : List Decl) : Prop where
  globals : resolution.globals.symbols.map (·.name) = decls.filterMap Decl.globalName?
  globalsOnce : (decls.filterMap Decl.globalName?).Nodup
  externs : resolution.externs.symbols.map (·.name) = decls.filterMap Decl.external?
  externsOnce : (decls.filterMap Decl.external?).Nodup
  sizes : ∀ symbol ∈ resolution.globals.symbols, symbol.size.Sound
  definitions : ∀ id definition, resolution.types.get? id = some definition →
    definition.Filled decls ∧ definition.Linked resolution.externs id

theorem analyze_complete (decls : List Decl) (clear : (analyze decls).2 = []) :
    (analyze decls).1.Complete decls := by
  have found := clear
  rw [analyze_findings, schemaFindings, after_accepted _ [] decls .nil .nil] at found
  obtain ⟨_, externs, globals⟩ := found
  have start : (started decls).Filled decls [] :=
    ⟨rfl, by simp [started, Scope.empty], by simp [started, Arena.Filled, Arena.empty]⟩
  have filled := Resolution.checkDecls_filled (initial_shows decls) (by simp) start decls
    (fun _ member => member) clear
  have linked := analyze_linked decls
  have same : (analyze decls).1.externs = externScope decls := Resolution.checkDecls_externs _ [] decls
  refine ⟨filled.globals, globals, ?_, externs, filled.sizes, ?_⟩
  · rw [same]
    exact externScope_names decls externs
  · intro id definition stored
    exact ⟨filled.types definition (Array.mem_of_getElem? stored), linked.definitions id definition stored⟩

-- A source that compiles without a diagnostic has been read to its end, and its tables
-- are complete.
theorem clean_complete (clean : (compile source options).diagnostics = []) :
    ∃ tokens decls resolution, tokenize source = .ok tokens ∧ parse tokens = ⟨decls, none⟩ ∧
      (compile source options).schema = some (decls, resolution) ∧ resolution.Complete decls := by
  unfold compile at clean ⊢
  cases cut : tokenize source with
  | error error => simp [cut] at clean
  | ok tokens =>
    simp only [cut, List.append_eq_nil_iff, report_nil, List.map_eq_nil_iff,
      Option.toList_eq_nil_iff] at clean
    obtain ⟨clear, read⟩ := clean
    exact ⟨tokens, _, _, rfl, parsed_whole read, rfl, analyze_complete _ clear⟩

-- An extern, an enum, and a struct of both that is sized by one of them.
def recordSource : String :=
  "enum \x7b plain(0), sealed(3), (7) \x7d kind; struct \x7b kind tag; body data<1..tag>; \x7d record; extern body;"

theorem record_complete : (compile recordSource {}).diagnostics = [] ∧
    ∃ tokens decls resolution, tokenize recordSource = .ok tokens ∧ parse tokens = ⟨decls, none⟩ ∧
      (compile recordSource {}).schema = some (decls, resolution) ∧ resolution.Complete decls := by
  have clean : (compile recordSource {}).diagnostics = [] := by decide +kernel
  exact ⟨clean, clean_complete clean⟩

end WireFormat
