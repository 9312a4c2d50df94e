import Mathlib.Data.List.Induction
import WireFormat.Proofs.Checked

namespace WireFormat

namespace GlobalsShow

variable {globals : Scope} {types : Arena}

theorem keep (shows : GlobalsShow globals types externs prior)
    (old : NamesNothingNew Decl.globalName? prior decl) : GlobalsShow globals types externs (prior ++ [decl]) :=
  ⟨fun name absent => shows.absent name ((unnamed_append _ _).mp absent).1,
    fun _ _ _ first => shows.present _ _ _ (first_append_old old first)⟩

theorem add {symbol : Symbol} {id : Nat} (shows : GlobalsShow globals types externs prior)
    (named : decl.globalName? = some symbol.name)
    (unnamed : Unnamed Decl.globalName? symbol.name prior) (kind : symbol.kind = decl.symbolKind)
    (typed : symbol.type = some (.declared id)) (valid : id < types.size)
    (numeric : types.isNumeric id = true ↔ decl.Counts externs prior) :
    GlobalsShow { globals with symbols := globals.symbols ++ [symbol] }
      (types.bind symbol.name id).1 externs (prior ++ [decl]) := by
  have grows := Arena.bind_grows types symbol.name id
  have free : types.lookup symbol.name = none := (shows.absent _ unnamed).2
  have bound := types.bind_lookup id free
  refine ⟨?_, ?_⟩
  · intro name absent
    obtain ⟨others, last⟩ := (unnamed_append _ _).mp absent
    have other : symbol.name ≠ name := by
      rintro rfl
      exact (unnamed_single decl).mp last named
    have before := shows.absent name others
    rw [bound, if_neg (Ne.symm other)]
    exact ⟨globals.lookup_other symbol before.1 other, before.2⟩
  · intro name before found first
    rcases first_append_single first with earlier | ⟨others, last, rfl, rfl⟩
    · obtain ⟨known, index, lookup, type, stored, inside, kind, counts⟩ :=
        shows.present _ _ _ earlier
      have other : name ≠ symbol.name := by
        rintro rfl
        exact earlier.present unnamed
      refine ⟨known, index, globals.lookup_kept symbol lookup, type, ?_,
        Nat.lt_of_lt_of_le inside grows.size, kind, ?_⟩
      · rw [bound, if_neg other, stored]
      · rw [grows.isNumeric index inside, counts]
    · rw [named] at last
      obtain rfl := Option.some.inj last
      have before := (shows.absent _ others).1
      refine ⟨symbol, id, globals.lookup_added symbol before, typed, ?_,
        Nat.lt_of_lt_of_le valid grows.size, kind, ?_⟩
      · rw [bound, if_pos rfl]
      · rw [grows.isNumeric id valid, numeric]

end GlobalsShow

namespace Resolution

-- Between top-level declarations no struct is open.
structure Shows (resolution : Resolution) (names : List String) (prior : List Decl) : Prop where
  known : ∀ name, resolution.externs.contains name = true ↔ name ∈ names
  tables : GlobalsShow resolution.globals resolution.types names prior

variable {resolution : Resolution} {externs : List String}

theorem Shows.view (shows : resolution.Shows externs prior) :
    resolution.view.Shows ⟨externs, prior, []⟩ :=
  ⟨shows.known, shows.tables, .nil⟩

theorem Shows.fresh (shows : resolution.Shows externs prior) (unnamed : Unnamed Decl.globalName? name prior) :
    resolution.globals.contains name = false := by
  rw [← Scope.lookup_isSome, (shows.tables.absent _ unnamed).1]
  rfl

theorem Shows.used (shows : resolution.Shows externs prior)
    (first : FirstNamed Decl.globalName? name prior before found) : resolution.globals.contains name = true := by
  obtain ⟨symbol, _, lookup, _⟩ := shows.tables.present _ _ _ first
  rw [← Scope.lookup_isSome, lookup]
  rfl

theorem declare_shows {id : Nat} (shows : resolution.Shows externs prior) (name : Token)
    (named : decl.globalName? = some name.text) (valid : id < resolution.types.size)
    (numeric : resolution.types.isNumeric id = true ↔ decl.Counts externs prior) (size : Size)
    (close : Token) :
    (resolution.declare name decl.symbolKind size id close).1.Shows externs (prior ++ [decl]) ∧
      (resolution.declare name decl.symbolKind size id close).2 =
        Place.takenFindings (prior.filterMap Decl.globalName?) name close := by
  rcases unnamed_or_first Decl.globalName? name.text prior with unnamed | ⟨before, found, first⟩
  · have fresh := shows.fresh unnamed
    simp only [declare, Scope.declare_fresh _ ⟨name.text, _, _, _, _⟩ fresh, if_true,
      Place.takenFindings, if_neg ((unnamed_iff prior).mp unnamed), and_true]
    exact ⟨shows.known, shows.tables.add named unnamed rfl rfl valid numeric⟩
  · have taken := shows.used first
    have listed : name.text ∈ prior.filterMap Decl.globalName? :=
      Decidable.byContradiction fun new => first.present ((unnamed_iff prior).mpr new)
    simp only [declare, Scope.declare_taken _ ⟨name.text, _, _, _, _⟩ taken, Bool.false_eq_true,
      if_false, Place.takenFindings, if_pos listed, and_true]
    exact ⟨shows.known, shows.tables.keep (first.names_again named)⟩

theorem Shows.grow (shows : resolution.Shows externs prior) (grows : resolution.types.Grows after)
    (bound : after.bindings = resolution.types.bindings) :
    Shows { resolution with types := after } externs prior :=
  ⟨shows.known, shows.tables.grow grows bound⟩

theorem Shows.skip (shows : resolution.Shows externs prior) (anonymous : decl.globalName? = none) :
    resolution.Shows externs (prior ++ [decl]) :=
  ⟨shows.known, shows.tables.keep (names_nothing anonymous)⟩

theorem define_shows (shows : resolution.Shows externs prior) (definition : Definition) (name : Token)
    (named : decl.globalName? = some name.text) (kind : definition.kind = decl.symbolKind)
    (numeric : (resolution.types.push definition).1.isNumeric resolution.types.size = true ↔
      decl.Counts externs prior) (close : Token) :
    (resolution.define definition name close).1.Shows externs (prior ++ [decl]) ∧
      (resolution.define definition name close).2 =
        Place.takenFindings (prior.filterMap Decl.globalName?) name close := by
  have pushed := shows.grow (Arena.push_grows resolution.types definition) rfl
  simp only [define, kind]
  refine declare_shows pushed name named ?_ numeric _ close
  rw [Arena.push_size]
  exact Nat.lt_succ_self _

theorem fieldDefinition_kind (resolution : Resolution) (entry : Field) :
    (resolution.fieldDefinition entry).kind = (Decl.field entry).symbolKind := by
  cases type : entry.type <;> simp only [fieldDefinition, Decl.symbolKind, type]

theorem fieldDefinition_numeric (shows : resolution.Shows externs prior) (entry : Field) :
    (resolution.types.push (resolution.fieldDefinition entry)).1.isNumeric resolution.types.size =
        true ↔ (Decl.field entry).Counts externs prior := by
  have holds : resolution.types.Holds (resolution.view.type? entry.type) :=
    shows.view.type_holds entry.type
  have counts : resolution.types.counts (resolution.view.type? entry.type) = true ↔
      Counts externs prior entry.type := shows.view.type_counts entry.type
  rw [Arena.push_isNumeric _ (resolution.fieldDefinition entry) holds, Decl.Counts, ← counts]
  cases type : entry.type with
  | scalar =>
    simp only [fieldDefinition, type]
    exact ⟨fun _ => rfl, fun _ => trivial⟩
  | named => simp only [fieldDefinition, type, List.head?_cons, Option.bind_some]

theorem push_composite (types : Arena) (definition : Definition)
    (composite : definition.kind = .struct ∨ definition.kind = .select) :
    (types.push definition).1.isNumeric types.size = false := by
  have counts := (View.push_counts types definition composite).2
  simpa only [Arena.counts, Arena.push] using counts

theorem struct_shows (shows : resolution.Shows externs prior) (members : List Member) (name close : Token) :
    (resolution.checkDecl reached (.struct members name close)).1.Shows externs
        (prior ++ [.struct members name close]) ∧
      (resolution.checkDecl reached (.struct members name close)).2 =
        Place.declFindings ⟨externs, prior, []⟩ (.struct members name close) := by
  have body := View.checkMembers_shows (shows.view.enter name.text) members
  obtain ⟨left, found, holds, counts⟩ := View.leave_shows name close body
  have frame := View.checkMembers_frame (resolution.view.enter name.text) members
  have checked : Shows { resolution with
      types := (resolution.view.checkStruct members name close).view.types } externs prior :=
    shows.grow (frame.types.trans (Arena.push_grows _ _)) frame.bindings
  have named : (Decl.struct members name close).globalName? = some name.text := rfl
  have numeric : (resolution.view.checkStruct members name close).view.types.isNumeric
      (resolution.view.checkStruct members name close).id = true ↔
      (Decl.struct members name close).Counts externs prior := by
    simp only [Arena.counts] at counts
    rw [View.checkStruct, counts]
    simp [Decl.Counts]
  obtain ⟨next, taken⟩ := declare_shows checked name named (holds _ rfl) numeric .unsized close
  refine ⟨next, ?_⟩
  simp only [checkDecl, Place.declFindings, ← found, ← taken]
  rfl

theorem select_shows (shows : resolution.Shows externs prior) (choice : Select) :
    (resolution.checkDecl reached (.select choice)).1.Shows externs (prior ++ [.select choice]) ∧
      (resolution.checkDecl reached (.select choice)).2 =
        Place.declFindings ⟨externs, prior, []⟩ (.select choice) := by
  have numeric : (resolution.types.push (resolution.view.selectDefinition choice)).1.isNumeric
      resolution.types.size = true ↔ (Decl.select choice).Counts externs prior := by
    rw [push_composite _ _ (.inr rfl)]
    simp [Decl.Counts]
  simp only [checkDecl, Place.declFindings, shows.view.selectFindings]
  cases named : choice.name with
  | none =>
    have anonymous : (Decl.select choice).globalName? = none := by
      simp [Decl.globalName?, Decl.name?, named]
    have pushed := shows.grow (Arena.push_grows resolution.types
      (resolution.view.selectDefinition choice)) rfl
    exact ⟨pushed.skip anonymous, by simp⟩
  | some name =>
    have item : (Decl.select choice).globalName? = some name.text := by
      simp [Decl.globalName?, Decl.name?, named]
    obtain ⟨next, found⟩ := define_shows shows (resolution.view.selectDefinition choice) name item rfl
      numeric choice.close
    exact ⟨next, by simp [found]⟩

theorem checkDecl_shows (shows : resolution.Shows externs prior)
    (same : ∀ name, name ∈ reached ↔ name ∈ prior.filterMap Decl.external?) (decl : Decl) :
    (resolution.checkDecl reached decl).1.Shows externs (prior ++ [decl]) ∧
      (resolution.checkDecl reached decl).2 = Place.declFindings ⟨externs, prior, []⟩ decl := by
  cases decl with
  | external name close =>
    refine ⟨shows.skip rfl, ?_⟩
    simp only [checkDecl, Place.declFindings, Place.takenFindings, List.contains_iff_mem, same]
  | field entry =>
    obtain ⟨next, found⟩ := define_shows shows (resolution.fieldDefinition entry) entry.name rfl
      (fieldDefinition_kind resolution entry) (fieldDefinition_numeric shows entry) entry.close
    refine ⟨next, ?_⟩
    simp only [checkDecl, fieldFindings, found, shows.view.boundsFindings, shows.view.unknownType,
      Place.declFindings]
  | enum listing =>
    have numeric : (resolution.types.push listing.definition).1.isNumeric resolution.types.size =
        true ↔ (Decl.enum listing).Counts externs prior := by
      rw [Arena.isNumeric, Arena.push_get]
      exact ⟨fun _ => trivial, fun _ => rfl⟩
    obtain ⟨next, found⟩ := define_shows shows listing.definition listing.name rfl rfl numeric listing.close
    refine ⟨next, ?_⟩
    simp only [checkDecl, found, Place.declFindings]
  | struct members name close => exact struct_shows shows members name close
  | select choice => exact select_shows shows choice

theorem reached_further (same : ∀ name, name ∈ reached ↔ name ∈ prior.filterMap Decl.external?)
    (decl : Decl) (name : String) : name ∈ decl.external?.toList ++ reached ↔
      name ∈ (prior ++ [decl]).filterMap Decl.external? := by
  cases outside : decl.external? <;> simp [List.filterMap_append, outside, same, or_comm]

theorem checkDecls_findings (shows : resolution.Shows externs prior)
    (same : ∀ name, name ∈ reached ↔ name ∈ prior.filterMap Decl.external?) (decls : List Decl) :
    (resolution.checkDecls reached decls).1.Shows externs (prior ++ decls) ∧
      (resolution.checkDecls reached decls).2 = findingsAfter externs prior decls := by
  induction decls generalizing resolution reached prior with
  | nil => exact ⟨by simpa [checkDecls] using shows, rfl⟩
  | cons decl rest ih =>
    obtain ⟨next, found⟩ := checkDecl_shows shows same decl
    obtain ⟨final, others⟩ := ih next (reached_further same decl)
    refine ⟨by simpa [checkDecls] using final, ?_⟩
    simp only [checkDecls, found, others, findingsAfter]

end Resolution

theorem Scope.declare_contains (scope : Scope) (symbol : Symbol) (name : String) :
    (scope.declare symbol).1.contains name = true ↔
      scope.contains name = true ∨ name = symbol.name := by
  cases taken : scope.contains symbol.name with
  | true =>
    rw [declare_taken _ _ taken]
    refine ⟨.inl, ?_⟩
    rintro (found | rfl)
    · exact found
    · exact taken
  | false =>
    rw [declare_fresh _ _ taken, contains_exact, contains_exact, List.map_append, List.mem_append,
      List.map_singleton, List.mem_singleton]

theorem externScope_known (decls : List Decl) (name : String) :
    (externScope decls).contains name = true ↔ name ∈ decls.filterMap Decl.external? := by
  induction decls using List.reverseRecOn with
  | nil => simp [externScope, Scope.empty, Scope.contains]
  | append_singleton before last ih =>
    rw [List.filterMap_append, List.mem_append, ← ih, externScope, List.foldl_append]
    cases last with
    | external token close =>
      simp only [List.foldl_cons, List.foldl_nil, Scope.declare_contains]
      simp [externScope, Decl.external?]
    | field | enum | struct | select => simp [externScope, Decl.external?]

theorem initial_shows (decls : List Decl) : (started decls).Shows (decls.filterMap Decl.external?) [] := by
  refine ⟨externScope_known decls, ⟨fun _ _ => ⟨rfl, rfl⟩, ?_⟩⟩
  intro name before decl first
  exact nomatch first.mem

theorem analyze_findings (decls : List Decl) : (analyze decls).2 = schemaFindings decls :=
  (Resolution.checkDecls_findings (initial_shows decls) (by simp) decls).2

end WireFormat
