import WireFormat.Proofs.Appended
import WireFormat.Proofs.LineOrder
import WireFormat.Proofs.PostOrder

namespace WireFormat

-- The names of the top level: between any two declarations the scope that lists them, the
-- arena that binds them and the declarations that they come from say the same of them.

-- The line of a declaration's name and the line of its definition. Those of a select may
-- differ, because its definition stands at its semicolon.
inductive Decl.Lines : Decl → Nat → Nat → Prop where
  | field : Lines (.field entry) entry.name.line entry.name.line
  | enum : Lines (.enum listing) listing.name.line listing.name.line
  | struct : Lines (.struct members name close) name.line name.line
  | select (named : choice.name = some name) : Lines (.select choice) name.line choice.close.line

-- A global symbol, the first declaration of its name, and the definition that the name is
-- bound to, which is that declaration's own.
structure Resolution.Denotes (resolution : Resolution) (prior : List Decl) (symbol : Symbol)
    (before : List Decl) (decl : Decl) (id : Nat) (definition : Definition) : Prop where
  first : FirstNamed Decl.globalName? symbol.name prior before decl
  own : id + 1 = subjectCount (before ++ [decl])
  type : symbol.type = some (.declared id)
  bound : resolution.types.lookup symbol.name = some id
  stored : resolution.types.get? id = some definition
  name : definition.name = symbol.name
  kind : definition.kind = symbol.kind
  size : definition.size = symbol.size
  lines : decl.Lines symbol.line definition.line

structure Resolution.Agrees (resolution : Resolution) (prior : List Decl) : Prop where
  declared : ∀ name, resolution.globals.contains name = true ↔ name ∈ prior.filterMap Decl.globalName?
  bound : ∀ name, (resolution.types.lookup name).isSome = resolution.globals.contains name
  symbols : ∀ symbol ∈ resolution.globals.symbols, ∃ before decl id definition,
    resolution.Denotes prior symbol before decl id definition

namespace Resolution

variable {resolution after : Resolution} {externs : List String}

theorem Denotes.extend {id : Nat} (denotes : resolution.Denotes prior symbol before decl id definition)
    (extension : resolution.Extends after) (more : List Decl) :
    after.Denotes (prior ++ more) symbol before decl id definition := by
  have valid : id < resolution.types.size := (Array.getElem?_eq_some_iff.mp denotes.stored).1
  refine ⟨denotes.first.append more, denotes.own, denotes.type, ?_, ?_, denotes.name, denotes.kind,
    denotes.size, denotes.lines⟩
  · exact extension.bindings _ _ denotes.bound
  · rw [extension.types.get? valid]
    exact denotes.stored

theorem Agrees.keep (agrees : resolution.Agrees prior) (extension : resolution.Extends after) (more : List Decl) :
    ∀ symbol ∈ resolution.globals.symbols, ∃ before decl id definition,
      after.Denotes (prior ++ more) symbol before decl id definition := by
  intro symbol member
  obtain ⟨before, decl, id, definition, denotes⟩ := agrees.symbols symbol member
  exact ⟨before, decl, id, definition, denotes.extend extension more⟩

theorem Agrees.grow {types : Arena} (agrees : resolution.Agrees prior) (grows : resolution.types.Grows types)
    (same : types.bindings = resolution.types.bindings) : Agrees { resolution with types := types } prior := by
  have kept := agrees.keep (resolution.grown_extends grows same) []
  rw [List.append_nil] at kept
  refine ⟨agrees.declared, fun name => ?_, kept⟩
  rw [Arena.lookup, same]
  exact agrees.bound name

theorem Agrees.anonymous (agrees : resolution.Agrees prior) (anonymous : decl.globalName? = none) :
    resolution.Agrees (prior ++ [decl]) := by
  refine ⟨fun name => ?_, agrees.bound, agrees.keep (.refl resolution) [decl]⟩
  rw [agrees.declared, List.filterMap_append, List.filterMap_cons_none anonymous, List.filterMap_nil,
    List.append_nil]

theorem declare_agrees {id : Nat} (agrees : resolution.Agrees prior) (named : decl.globalName? = some name.text)
    (own : id + 1 = subjectCount (prior ++ [decl])) (stored : resolution.types.get? id = some definition)
    (titled : definition.name = name.text) (lines : decl.Lines name.line definition.line) (close : Token) :
    (resolution.declare name definition.kind definition.size id close).1.Agrees (prior ++ [decl]) := by
  have listed : (prior ++ [decl]).filterMap Decl.globalName? =
      prior.filterMap Decl.globalName? ++ [name.text] := by
    rw [List.filterMap_append, List.filterMap_cons_some named, List.filterMap_nil]
  have old := agrees.keep (resolution.declare_extends name definition.kind definition.size id close) [decl]
  cases taken : resolution.globals.contains name.text with
  | true =>
    rw [declare_taken resolution taken] at old ⊢
    refine ⟨fun given => ?_, agrees.bound, old⟩
    rw [agrees.declared, listed, List.mem_append, List.mem_singleton, or_iff_left_of_imp]
    rintro rfl
    exact (agrees.declared _).mp taken
  | false =>
    have free : resolution.types.lookup name.text = none := by
      have unbound := (agrees.bound name.text).trans taken
      exact Option.isNone_iff_eq_none.mp (Option.isSome_eq_false_iff.mp unbound)
    have unnamed : Unnamed Decl.globalName? name.text prior := by
      rw [unnamed_iff, ← agrees.declared, taken]
      exact Bool.false_ne_true
    have bound := resolution.types.bind_lookup id free
    have grows := Arena.bind_grows resolution.types name.text id
    have valid : id < resolution.types.size := (Array.getElem?_eq_some_iff.mp stored).1
    rw [declare_fresh resolution taken] at old ⊢
    refine ⟨fun given => ?_, fun given => ?_, ?_⟩
    · rw [Scope.declare_contains, agrees.declared, listed, List.mem_append, List.mem_singleton]
    · rw [bound, Bool.eq_iff_iff, Scope.declare_contains, ← agrees.bound]
      by_cases here : given = name.text <;> simp [here]
    · rw [Scope.declare_fresh _ ⟨name.text, _, _, _, _⟩ taken] at old ⊢
      refine List.forall_mem_append.mpr ⟨old, List.forall_mem_singleton.mpr ?_⟩
      refine ⟨prior, decl, id, definition, first_last unnamed named, own, rfl, ?_, ?_, titled, rfl, rfl, lines⟩
      · rw [bound, if_pos rfl]
      · rw [grows.get? valid, stored]

theorem define_agrees (ordered : resolution.Ordered externs prior) (agrees : resolution.Agrees prior)
    (named : decl.globalName? = some name.text) (single : decl.subjects = [subject])
    (titled : definition.name = name.text) (lines : decl.Lines name.line definition.line) (close : Token) :
    (resolution.define definition name close).1.Agrees (prior ++ [decl]) := by
  have pushed := agrees.grow (Arena.push_grows resolution.types definition) rfl
  have own : resolution.types.size + 1 = subjectCount (prior ++ [decl]) := by
    rw [subjectCount_snoc, ordered.size, single]
    rfl
  exact declare_agrees pushed named own (Arena.push_get resolution.types definition) titled lines close

theorem struct_agrees (ordered : resolution.Ordered externs prior) (agrees : resolution.Agrees prior)
    (reached : List String) (members : List Member) (name close : Token) :
    (resolution.checkDecl reached (.struct members name close)).1.Agrees
      (prior ++ [.struct members name close]) := by
  have frame := View.checkMember_frame resolution.view (.struct members name close)
  have added := (checkDecl_continues ordered reached (.struct members name close)).1.size
  have own : (resolution.view.checkStruct members name close).id + 1 =
      subjectCount (prior ++ [.struct members name close]) := by
    rw [subjectCount_snoc, ← ordered.size]
    rw [Place.slots, List.length_map] at added
    rw [← added, Arena.size, checkDecl, declare_definitions]
    exact (Arena.push_size _ _).symm
  have stored := Arena.push_get (View.checkMembers (resolution.view.enter name.text) members).view.types
    ⟨name.text, .struct, name.line, .unsized, (View.checkMembers (resolution.view.enter name.text) members).entries⟩
  exact declare_agrees (agrees.grow frame.types frame.bindings) rfl own stored rfl .struct close

theorem checkDecl_agrees (ordered : resolution.Ordered externs prior) (agrees : resolution.Agrees prior)
    (reached : List String) (decl : Decl) :
    (resolution.checkDecl reached decl).1.Agrees (prior ++ [decl]) := by
  cases decl with
  | external name close => exact agrees.anonymous rfl
  | field entry => exact define_agrees ordered agrees rfl rfl rfl .field entry.close
  | enum listing => exact define_agrees ordered agrees rfl rfl rfl .enum listing.close
  | struct members name close => exact struct_agrees ordered agrees reached members name close
  | select choice =>
    simp only [checkDecl]
    cases named : choice.name with
    | none =>
      have anonymous : (Decl.select choice).globalName? = none := by simp [Decl.globalName?, Decl.name?, named]
      exact (agrees.grow (Arena.push_grows resolution.types _) rfl).anonymous anonymous
    | some name =>
      have item : (Decl.select choice).globalName? = some name.text := by simp [Decl.globalName?, Decl.name?, named]
      have titled : (resolution.view.selectDefinition choice).name = name.text := by
        simp [View.selectDefinition, Select.owner, named]
      exact define_agrees ordered agrees item rfl titled (.select named) choice.close

theorem checkDecls_agrees (ordered : resolution.Ordered externs prior) (agrees : resolution.Agrees prior)
    (same : ∀ name, name ∈ reached ↔ name ∈ prior.filterMap Decl.external?) (decls : List Decl) :
    (resolution.checkDecls reached decls).1.Agrees (prior ++ decls) := by
  induction decls generalizing resolution reached prior with
  | nil => simpa [checkDecls] using agrees
  | cons decl rest ih =>
    have next := checkDecl_agrees ordered agrees reached decl
    simpa [checkDecls] using ih (checkDecl_ordered ordered same decl) next (reached_further same decl)

end Resolution

theorem reachedBy_ordered (front back : List Decl) :
    (reachedBy front back).Ordered ((front ++ back).filterMap Decl.external?) front :=
  Resolution.checkDecls_ordered (initial_ordered _) (by simp) front

theorem initial_agrees (decls : List Decl) : (started decls).Agrees [] :=
  ⟨fun name => by simp [started, Scope.empty, Scope.contains], fun name => rfl, nofun⟩

theorem reachedBy_agrees (front back : List Decl) : (reachedBy front back).Agrees front :=
  Resolution.checkDecls_agrees (initial_ordered _) (initial_agrees _) (by simp) front

-- Only names of the top level are bound.
def View.BindsGlobals (view : View) : Prop :=
  ∀ name, (view.types.lookup name).isSome = true → view.globals.contains name = true

-- A symbol that the scope takes has a name that the arena binds.
def View.BindsDeclared (view : View) : Prop :=
  ∀ (symbol : Symbol) (id : Nat), (view.globals.declare symbol).2 = true →
    (view.types.bind symbol.name id).2 = true

namespace View

variable {view : View}

theorem BindsGlobals.free (binds : view.BindsGlobals) (fresh : view.globals.contains name = false) :
    view.types.lookup name = none := by
  cases found : view.types.lookup name with
  | none => rfl
  | some id =>
    have taken := binds name (Option.isSome_iff_exists.mpr ⟨id, found⟩)
    rw [fresh] at taken
    cases taken

theorem BindsGlobals.declared (binds : view.BindsGlobals) : view.BindsDeclared := by
  intro symbol id accepted
  cases taken : view.globals.contains symbol.name with
  | true =>
    rw [Scope.declare_taken _ _ taken] at accepted
    cases accepted
  | false => simp [Arena.bind, binds.free taken]

theorem BindsGlobals.framed (binds : view.BindsGlobals) (frame : Frame view after) : after.BindsGlobals := by
  intro name bound
  rw [Arena.lookup, frame.bindings] at bound
  rw [frame.globals]
  exact binds name bound

mutual

theorem member_bindsGlobals {view : View} (binds : view.BindsGlobals) (member : Member) :
    ∀ stage ∈ view.memberStages member, stage.BindsGlobals := by
  cases member with
  | field entry => exact List.forall_mem_singleton.mpr binds
  | struct members name close =>
    have opened : (view.enter name.text).BindsGlobals := binds
    have inside := members_bindsGlobals opened members
    have body := opened.framed (checkMembers_frame (view.enter name.text) members)
    exact List.forall_mem_cons.mpr ⟨binds, List.forall_mem_append.mpr ⟨inside,
      List.forall_mem_cons.mpr ⟨body, List.forall_mem_singleton.mpr body⟩⟩⟩
  | select choice => exact List.forall_mem_cons.mpr ⟨binds, List.forall_mem_singleton.mpr binds⟩

theorem members_bindsGlobals {view : View} (binds : view.BindsGlobals) (members : List Member) :
    ∀ stage ∈ view.membersStages members, stage.BindsGlobals := by
  cases members with
  | nil => exact List.forall_mem_singleton.mpr binds
  | cons member rest =>
    have one := binds.framed (checkMember_frame view member)
    have declared := one.framed (declareMember_frame _ member.name? (checkMember view member).line
      (checkMember view member).size (checkMember view member).type)
    exact List.forall_mem_append.mpr ⟨member_bindsGlobals binds member, members_bindsGlobals declared rest⟩

end

end View

namespace Resolution

variable {resolution : Resolution}

-- Between the two halves of a declaration its name is listed and not yet bound.
theorem declare_bindsGlobals {id : Nat} (binds : resolution.view.BindsGlobals) (name : Token) (kind : Symbol.Kind)
    (size : Size) (close : Token) :
    ∀ stage ∈ resolution.declareStages name kind size id close, stage.BindsGlobals := by
  have listed : View.BindsGlobals { resolution.view with
      globals := (resolution.globals.declare ⟨name.text, kind, name.line, size, some (.declared id)⟩).1 } :=
    fun given bound => (Scope.declare_contains _ _ _).mpr (.inl (binds given bound))
  refine List.forall_mem_cons.mpr ⟨binds, List.forall_mem_cons.mpr ⟨listed, List.forall_mem_singleton.mpr ?_⟩⟩
  cases taken : resolution.globals.contains name.text with
  | true =>
    rw [declare_taken resolution taken]
    exact binds
  | false =>
    rw [declare_fresh resolution taken]
    intro given bound
    simp only [view, resolution.types.bind_lookup id (binds.free taken)] at bound
    split at bound
    · rename_i here
      exact (Scope.declare_contains _ _ _).mpr (.inr here)
    · exact (Scope.declare_contains _ _ _).mpr (.inl (binds given bound))

theorem define_bindsGlobals (binds : resolution.view.BindsGlobals) (definition : Definition) (name close : Token) :
    ∀ stage ∈ resolution.defineStages definition name close, stage.BindsGlobals := by
  have pushed : (Resolution.view { resolution with types := (resolution.types.push definition).1 }).BindsGlobals := binds
  exact List.forall_mem_cons.mpr ⟨binds, declare_bindsGlobals pushed name _ _ close⟩

theorem decl_bindsGlobals (binds : resolution.view.BindsGlobals) (decl : Decl) :
    ∀ stage ∈ resolution.declStages decl, stage.BindsGlobals := by
  cases decl with
  | external name close => exact List.forall_mem_singleton.mpr binds
  | field entry => exact define_bindsGlobals binds _ entry.name entry.close
  | enum listing => exact define_bindsGlobals binds _ listing.name listing.close
  | struct members name close =>
    have inside := View.member_bindsGlobals binds (.struct members name close)
    have closed := inside _ (View.member_walk resolution.view (.struct members name close)).last_mem
    refine List.forall_mem_append.mpr ⟨inside, declare_bindsGlobals ?_ name .struct .unsized close⟩
    rw [← checkStruct_view]
    exact closed
  | select choice =>
    simp only [declStages]
    cases choice.name with
    | none => exact List.forall_mem_cons.mpr ⟨binds, List.forall_mem_singleton.mpr binds⟩
    | some name => exact define_bindsGlobals binds _ name choice.close

theorem decls_bindsGlobals (binds : resolution.view.BindsGlobals) (reached : List String) (decls : List Decl) :
    ∀ stage ∈ resolution.stages reached decls, stage.BindsGlobals := by
  induction decls generalizing resolution reached with
  | nil => exact List.forall_mem_singleton.mpr binds
  | cons decl rest ih =>
    have before := decl_bindsGlobals binds decl
    have after := before _ (decl_walk resolution reached decl).last_mem
    exact List.forall_mem_append.mpr ⟨before, ih after _⟩

end Resolution

theorem stages_bindsGlobals (decls : List Decl) : ∀ stage ∈ stages decls, stage.BindsGlobals :=
  List.forall_mem_append.mpr ⟨List.forall_mem_map.mpr fun _ _ => nofun,
    Resolution.decls_bindsGlobals (nofun : (started decls).view.BindsGlobals) [] decls⟩

-- After every declaration, and so at the end, what a name of the top level denotes is its
-- first declaration, in all tables alike. On the way no name that is listed fails to be bound.
theorem names_agree (front back : List Decl) :
    (analyze (front ++ back)).1 = ((reachedBy front back).checkDecls (Resolution.known front) back).1 ∧
      (reachedBy front back).Agrees front ∧ (analyze (front ++ back)).1.Agrees (front ++ back) ∧
      ∀ stage ∈ stages (front ++ back), stage.BindsDeclared := by
  refine ⟨?_, reachedBy_agrees front back, ?_, fun stage member => (stages_bindsGlobals _ stage member).declared⟩
  · have split := Resolution.checkDecls_append (started (front ++ back)) [] front back
    rw [List.append_nil] at split
    change ((started (front ++ back)).checkDecls [] (front ++ back)).1 = _
    rw [split, reachedBy]
  · exact Resolution.checkDecls_agrees (initial_ordered _) (initial_agrees _) (by simp) (front ++ back)

-- A select whose name was free, and a later line of the same name: the name keeps the select,
-- whose definition is on the line where it ends.
example : (compile "uint8 a; select (a) \x7b case x: ; \x7d b\n; opaque b;" ⟨"<input>", true⟩).schema.map (fun schema =>
    (schema.2.types.bindings, schema.2.types.definitions.toList.map fun known => (known.name, known.line))) =
    some ([("b", 1), ("a", 0)], [("a", 1), ("b", 2), ("b", 2)]) := by decide +kernel

end WireFormat
