import Mathlib.Data.List.Induction
import Mathlib.Data.List.Infix
import WireFormat.Proofs.Stages

namespace WireFormat

namespace View

theorem select_linked {view : View} (linked : view.Linked) (choice : Select) :
    (view.selectDefinition choice).Linked view.externs view.types.size := by
  intro entry member
  obtain ⟨arm, _, listed⟩ := List.mem_flatMap.mp member
  obtain ⟨item, _, rfl⟩ := List.mem_map.mp listed
  exact linked.type_valid item.type

theorem pushed_valid (view : View) (definition : Definition) (externs : Scope) :
    ∀ handle ∈ some (Handle.declared view.types.size),
      handle.Valid externs (view.types.push definition).1.size := by
  rintro handle ⟨⟩
  rw [Handle.Valid, Arena.push_size]
  exact Nat.lt_succ_self _

mutual

theorem checkMember_linked {view : View} (linked : view.Linked) (member : Member) :
    (∀ stage ∈ view.memberStages member, stage.Linked) ∧
      ∀ handle ∈ (checkMember view member).type,
        handle.Valid view.externs (checkMember view member).view.types.size := by
  cases member with
  | field entry => exact ⟨List.forall_mem_singleton.mpr linked, linked.type_valid entry.type⟩
  | struct members name close =>
    obtain ⟨inside, valid⟩ := checkMembers_linked (linked.enter name.text) members
    have body := inside _ (members_walk (view.enter name.text) members).last_mem
    have externs := (checkMembers_frame (view.enter name.text) members).externs
    have left := body.pop.push ⟨name.text, .struct, name.line, .unsized, _⟩ (externs ▸ valid)
    refine ⟨?_, pushed_valid _ _ _⟩
    exact List.forall_mem_cons.mpr ⟨linked, List.forall_mem_append.mpr ⟨inside,
      List.forall_mem_cons.mpr ⟨body.pop, List.forall_mem_singleton.mpr left⟩⟩⟩
  | select choice =>
    have after := linked.push (view.selectDefinition choice) (select_linked linked choice)
    exact ⟨List.forall_mem_cons.mpr ⟨linked, List.forall_mem_singleton.mpr after⟩, pushed_valid _ _ _⟩

theorem checkMembers_linked {view : View} (linked : view.Linked) (members : List Member) :
    (∀ stage ∈ view.membersStages members, stage.Linked) ∧
      ∀ entry ∈ (checkMembers view members).entries, ∀ handle ∈ entry.type,
        handle.Valid view.externs (checkMembers view members).view.types.size := by
  cases members with
  | nil => exact ⟨List.forall_mem_singleton.mpr linked, nofun⟩
  | cons member rest =>
    obtain ⟨before, valid⟩ := checkMember_linked linked member
    have one := before _ (member_walk view member).last_mem
    have same := (checkMember_frame view member).externs
    have declared := one.declareMember member.name? (checkMember view member).line
      (checkMember view member).size (same ▸ valid)
    obtain ⟨after, others⟩ := checkMembers_linked declared rest
    have frame := declareMember_frame (checkMember view member).view member.name?
      (checkMember view member).line (checkMember view member).size (checkMember view member).type
    have further := frame.trans (checkMembers_frame _ rest)
    refine ⟨List.forall_mem_append.mpr ⟨before, after⟩, List.forall_mem_cons.mpr ⟨?_, ?_⟩⟩
    · exact fun handle typed => (valid handle typed).mono further.types.size
    · rw [frame.externs, same] at others
      exact others

end

end View

namespace Resolution

variable {resolution : Resolution}

theorem declare_linked {id : Nat} (linked : resolution.view.Linked) (valid : id < resolution.types.size)
    (name : Token) (kind : Symbol.Kind) (size : Size) (close : Token) :
    ∀ stage ∈ resolution.declareStages name kind size id close, stage.Linked := by
  have known : ∀ handle ∈ some (Handle.declared id),
      handle.Valid resolution.view.externs resolution.view.types.size := by
    rintro handle ⟨⟩
    exact valid
  have declared := linked.declareGlobal ⟨name.text, kind, name.line, size, some (.declared id)⟩ known
  refine List.forall_mem_cons.mpr ⟨linked, List.forall_mem_cons.mpr ⟨declared,
    List.forall_mem_singleton.mpr ?_⟩⟩
  cases taken : resolution.globals.contains name.text with
  | true =>
    rw [declare_taken resolution taken]
    exact linked
  | false =>
    rw [declare_fresh resolution taken]
    exact declared.bind name.text valid

theorem define_linked (linked : resolution.view.Linked) (definition : Definition)
    (valid : definition.Linked resolution.externs resolution.types.size) (name close : Token) :
    ∀ stage ∈ resolution.defineStages definition name close, stage.Linked := by
  have last : resolution.types.size < (resolution.types.push definition).1.size := by
    rw [Arena.push_size]
    exact Nat.lt_succ_self _
  have pushed : (Resolution.view { resolution with types := (resolution.types.push definition).1 }).Linked :=
    linked.push definition valid
  exact List.forall_mem_cons.mpr ⟨linked, declare_linked pushed last _ _ _ _⟩

-- Enum entries have no types, and a line's type is looked up before the line is there.
theorem decl_linked (linked : resolution.view.Linked) (decl : Decl) :
    ∀ stage ∈ resolution.declStages decl, stage.Linked := by
  cases decl with
  | external name close => exact List.forall_mem_singleton.mpr linked
  | field entry =>
    have valid : (resolution.fieldDefinition entry).Linked resolution.externs resolution.types.size :=
      List.forall_mem_singleton.mpr (linked.type_valid entry.type)
    exact define_linked linked _ valid entry.name entry.close
  | enum listing =>
    refine define_linked linked _ ?_ _ _
    intro entry member
    obtain ⟨_, _, rfl⟩ := List.mem_map.mp member
    exact nofun
  | struct members name close =>
    obtain ⟨inside, valid⟩ := View.checkMember_linked linked (.struct members name close)
    have closed := inside _ (View.member_walk resolution.view (.struct members name close)).last_mem
    refine List.forall_mem_append.mpr ⟨inside, declare_linked ?_ (valid _ rfl) _ _ _ _⟩
    rw [← checkStruct_view]
    exact closed
  | select choice =>
    simp only [declStages]
    cases choice.name with
    | none =>
      have after := linked.push _ (View.select_linked linked choice)
      exact List.forall_mem_cons.mpr ⟨linked, List.forall_mem_singleton.mpr after⟩
    | some name => exact define_linked linked _ (View.select_linked linked choice) name choice.close

theorem decls_linked (linked : resolution.view.Linked) (reached : List String) (decls : List Decl) :
    ∀ stage ∈ resolution.stages reached decls, stage.Linked := by
  induction decls generalizing resolution reached with
  | nil => exact List.forall_mem_singleton.mpr linked
  | cons decl rest ih =>
    have before := decl_linked linked decl
    have after := before _ (decl_walk resolution reached decl).last_mem
    exact List.forall_mem_append.mpr ⟨before, ih after _⟩

theorem checkDecls_linked (linked : resolution.view.Linked) (reached : List String) (decls : List Decl) :
    (resolution.checkDecls reached decls).1.view.Linked :=
  decls_linked linked reached decls _ (decls_walk resolution reached decls).last_mem

end Resolution

def externSymbol (name : Token) : Symbol :=
  ⟨name.text, .external, name.line, .unresolved, some (.external name.text)⟩

theorem externScope_external (before : List Decl) (name close : Token) :
    externScope (before ++ [.external name close]) =
      ((externScope before).declare (externSymbol name)).1 := by
  rw [externScope, List.foldl_append]
  rfl

theorem externScope_other (before : List Decl) (other : decl.external? = none) :
    externScope (before ++ [decl]) = externScope before := by
  rw [externScope, List.foldl_append]
  cases decl with
  | external => cases other
  | field | enum | struct | select => rfl

theorem externScope_types (decls : List Decl) :
    ∀ symbol ∈ (externScope decls).symbols, symbol.type = some (.external symbol.name) := by
  induction decls using List.reverseRecOn with
  | nil => exact nofun
  | append_singleton before last ih =>
    cases last with
    | external name close =>
      rw [externScope_external, Scope.declare]
      split
      · exact ih
      · exact List.forall_mem_append.mpr ⟨ih, List.forall_mem_singleton.mpr rfl⟩
    | field | enum | struct | select => rwa [externScope_other before rfl]

-- The tables when the externs of some declarations are known and nothing else is.
def registered (decls : List Decl) : View := (started decls).view

theorem registered_other (before : List Decl) (other : decl.external? = none) :
    registered (before ++ [decl]) = registered before := by
  simp only [registered, started, externScope_other before other]

theorem registered_linked (decls : List Decl) : (registered decls).Linked := by
  refine ⟨?_, nofun, nofun, nofun, ?_⟩
  · intro symbol member handle typed
    rw [externScope_types decls symbol member] at typed
    cases typed
    rw [Handle.Valid, Scope.contains_exact]
    exact List.mem_map_of_mem member
  · intro id definition found
    simp [registered, started, Resolution.view, Arena.get?, Arena.empty] at found

theorem registered_walk (decls : List Decl) :
    Walk (registered []) (decls.inits.map registered) (registered decls) := by
  induction decls using List.reverseRecOn with
  | nil => exact .here
  | append_singleton before last ih =>
    have next : (registered before).Step (registered (before ++ [last])) := by
      cases last with
      | external name close =>
        simp only [registered, started, externScope_external]
        exact .register (externSymbol name)
      | field | enum | struct | select =>
        rw [registered_other before rfl]
        exact .stay
    simpa [List.inits_append] using ih.snoc next

-- All tables of an analysis: first those of the externs, one declaration after the
-- other, then those of each declaration.
def stages (decls : List Decl) : List View :=
  decls.inits.map registered ++ (started decls).stages [] decls

theorem analyze_linked (decls : List Decl) : (analyze decls).1.view.Linked :=
  Resolution.checkDecls_linked (registered_linked decls) [] decls

-- Following a handle to whether its values are numbers. Each definition is fetched
-- where the handle points: no rule is for a handle that points nowhere, and none ends
-- a chain that leads back into itself.
inductive Arena.Settles (types : Arena) : Option Handle → Bool → Prop where
  | unresolved : Settles types none true
  | scalar : Settles types (some (.scalar type)) true
  | external : Settles types (some (.external name)) true
  | number {id : Nat} (found : types.get? id = some definition)
      (kind : definition.kind = .scalar ∨ definition.kind = .enum) :
      Settles types (some (.declared id)) true
  | line {id : Nat} (found : types.get? id = some definition) (kind : definition.kind = .typed)
      (rest : Settles types (definition.entries.head?.bind (·.type)) verdict) :
      Settles types (some (.declared id)) verdict
  | other {id : Nat} (found : types.get? id = some definition)
      (kind : definition.kind ∉ [.scalar, .enum, .typed]) : Settles types (some (.declared id)) false

theorem View.Linked.declared_settles {view : View} (linked : view.Linked) (id : Nat)
    (valid : id < view.types.size) :
    view.types.Settles (some (.declared id)) (view.types.isNumeric id) := by
  induction id using Nat.strongRecOn with
  | ind id ih =>
    have found : view.types.get? id = some view.types.definitions[id] := Array.getElem?_eq_getElem valid
    have back := linked.definitions id _ found
    generalize view.types.definitions[id] = definition at found back
    rw [Arena.isNumeric, found]
    cases kind : definition.kind with
    | scalar => simpa only [kind] using Arena.Settles.number found (.inl kind)
    | enum => simpa only [kind] using Arena.Settles.number found (.inr kind)
    | typed =>
      refine .line found kind ?_
      simp only [kind]
      cases first : definition.entries.head?.bind (·.type) with
      | none => exact .unresolved
      | some handle =>
        cases handle with
        | scalar => exact .scalar
        | external => exact .external
        | declared next =>
          -- Handles of definitions lead back, so the chain goes on at a lower index.
          obtain ⟨entry, leads, typed⟩ := Option.bind_eq_some_iff.mp first
          have lower : next < id := back entry (List.mem_of_head? leads) _ typed
          simp only [if_pos lower]
          exact ih next lower (Nat.lt_trans lower valid)
    | _ => simpa only [kind] using Arena.Settles.other found (by simp [kind])

theorem View.Linked.settles {view : View} (linked : view.Linked)
    (valid : ∀ handle ∈ type, Handle.Valid view.externs view.types.size handle) :
    view.types.Settles type (view.isNumeric type) := by
  cases type with
  | none => exact .unresolved
  | some handle =>
    cases handle with
    | scalar => exact .scalar
    | external => exact .external
    | declared id => exact linked.declared_settles id (valid _ rfl)

-- At no point of an analysis does a handle lead out of the tables or round in a circle,
-- so whether a name that is looked up counts is always settled, and what has just been
-- defined is found again.
theorem stages_linked (decls : List Decl) :
    Walk (registered []) (stages decls) (analyze decls).1.view ∧
      ∀ stage ∈ stages decls, stage.Linked ∧
        (∀ name symbol, (stage.locals.lookup name).or (stage.globals.lookup name) = some symbol →
          stage.types.Settles symbol.type (stage.isNumeric symbol.type)) ∧
        ∀ definition, (stage.types.push definition).1.get? (stage.types.push definition).2 =
          some definition := by
  constructor
  · exact (registered_walk decls).append .stay (Resolution.decls_walk (started decls) [] decls)
  · have all : ∀ stage ∈ stages decls, stage.Linked :=
      List.forall_mem_append.mpr ⟨List.forall_mem_map.mpr fun front _ => registered_linked front,
        Resolution.decls_linked (registered_linked decls) [] decls⟩
    intro stage member
    have linked := all stage member
    exact ⟨linked, fun name symbol found => linked.settles (linked.symbol_valid found),
      Arena.push_get stage.types⟩

end WireFormat
