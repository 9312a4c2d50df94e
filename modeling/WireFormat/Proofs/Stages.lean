import WireFormat.Proofs.Checked
import WireFormat.Proofs.Handles

namespace WireFormat

-- The tables on their way through an analysis, from empty ones to the result.

-- One operation on them. Nothing else ever writes to them.
inductive View.Step : View → View → Prop where
  | stay : Step view view
  | register (symbol : Symbol) : Step view { view with externs := (view.externs.declare symbol).1 }
  | global (symbol : Symbol) : Step view { view with globals := (view.globals.declare symbol).1 }
  | member (symbol : Symbol) : Step view { view with locals := (view.locals.declare symbol).1 }
  | enter (scope : Scope) : Step view { view with locals := view.locals.push scope }
  | leave : Step view { view with locals := view.locals.pop.1 }
  | define (definition : Definition) : Step view { view with types := (view.types.push definition).1 }
  | bind (name : String) (id : Nat) : Step view { view with types := (view.types.bind name id).1 }

-- A run in stages, each one operation after the one before.
inductive Walk : View → List View → View → Prop where
  | here : Walk view [view] view
  | step (next : View.Step before middle) (more : Walk middle stages after) :
      Walk before (before :: stages) after

theorem Walk.append (one : Walk before front middle) (next : middle.Step other)
    (two : Walk other back after) : Walk before (front ++ back) after := by
  induction one with
  | here => exact .step next two
  | step first _ ih => exact .step first (ih next)

theorem Walk.snoc (one : Walk before stages middle) (next : middle.Step after) :
    Walk before (stages ++ [after]) after := one.append next .here

theorem Walk.last_mem (walk : Walk before stages after) : after ∈ stages := by
  induction walk with
  | here => exact List.mem_singleton_self _
  | step _ _ ih => exact List.mem_cons_of_mem _ ih

namespace View

def pushed (view : View) (definition : Definition) : View :=
  { view with types := (view.types.push definition).1 }

mutual

def memberStages (view : View) : Member → List View
  | .field _ => [view]
  | .struct members name close =>
    let body := checkMembers (view.enter name.text) members
    view :: membersStages (view.enter name.text) members ++
      [{ body.view with locals := body.view.locals.pop.1 }, (leave name close body).view]
  | .select choice => [view, view.pushed (view.selectDefinition choice)]

def membersStages (view : View) : List Member → List View
  | [] => [view]
  | member :: rest =>
    let one := checkMember view member
    memberStages view member ++
      membersStages (one.view.declareMember member.name? one.line one.size one.type).1 rest

end

theorem declareMember_step (view : View) (name : Option Token) (line : Nat) (size : Size)
    (type : Option Handle) : view.Step (view.declareMember name line size type).1 := by
  cases name with
  | none => exact .stay
  | some name => exact .member _

mutual

theorem member_walk (view : View) (member : Member) :
    Walk view (view.memberStages member) (checkMember view member).view := by
  cases member with
  | field entry => exact .here
  | struct members name close =>
    have body := members_walk (view.enter name.text) members
    exact .step (.enter _) (body.append .leave (.step (.define _) .here))
  | select choice => exact .step (.define _) .here

theorem members_walk (view : View) (members : List Member) :
    Walk view (view.membersStages members) (checkMembers view members).view := by
  cases members with
  | nil => exact .here
  | cons member rest =>
    exact (member_walk view member).append (declareMember_step _ _ _ _ _) (members_walk _ rest)

end

theorem declareMember_outer (view : View) (name : Option Token) (line : Nat) (size : Size)
    (type : Option Handle) :
    (view.declareMember name line size type).1.locals.pop.1 = view.locals.pop.1 := by
  cases name with
  | none => rfl
  | some name =>
    simp only [declareMember, ScopeStack.declare]
    split
    · rfl
    · simp [ScopeStack.pop, *]

mutual

theorem checkMember_locals (view : View) (member : Member) :
    (checkMember view member).view.locals = view.locals := by
  cases member with
  | field | select => rfl
  | struct members name close => exact checkMembers_outer (view.enter name.text) members

theorem checkMembers_outer (view : View) (members : List Member) :
    (checkMembers view members).view.locals.pop.1 = view.locals.pop.1 := by
  cases members with
  | nil => rfl
  | cons member rest =>
    have one := checkMember_locals view member
    exact (checkMembers_outer _ rest).trans ((declareMember_outer _ _ _ _ _).trans (by rw [one]))

end

end View

namespace Resolution

variable (resolution : Resolution)

-- A name is declared first and bound afterwards, if it was free.
def declareStages (name : Token) (kind : Symbol.Kind) (size : Size) (id : Nat) (close : Token) :
    List View :=
  let declared := resolution.globals.declare ⟨name.text, kind, name.line, size, some (.declared id)⟩
  [resolution.view, { resolution.view with globals := declared.1 },
    (resolution.declare name kind size id close).1.view]

def defineStages (definition : Definition) (name close : Token) : List View :=
  let pushed := resolution.types.push definition
  resolution.view :: { resolution with types := pushed.1 }.declareStages name definition.kind
    definition.size pushed.2 close

def declStages : Decl → List View
  | .external .. => [resolution.view]
  | .field entry =>
    resolution.defineStages (resolution.fieldDefinition entry) entry.name entry.close
  | .enum listing => resolution.defineStages listing.definition listing.name listing.close
  | .struct members name close =>
    let checked := resolution.view.checkStruct members name close
    resolution.view.memberStages (.struct members name close) ++
      { resolution with types := checked.view.types }.declareStages name .struct .unsized checked.id close
  | .select choice =>
    let definition := resolution.view.selectDefinition choice
    match choice.name with
    | none => [resolution.view, resolution.view.pushed definition]
    | some name => resolution.defineStages definition name choice.close

def stages (resolution : Resolution) (reached : List String) : List Decl → List View
  | [] => [resolution.view]
  | decl :: rest =>
    resolution.declStages decl ++
      (resolution.checkDecl reached decl).1.stages (decl.external?.toList ++ reached) rest

theorem declare_taken {id : Nat} (taken : resolution.globals.contains name.text = true) :
    resolution.declare name kind size id close = (resolution, [⟨.duplicateSymbol name.text, close⟩]) := by
  simp [declare, Scope.declare_taken _ ⟨name.text, _, _, _, _⟩ taken]

theorem declare_fresh {id : Nat} (fresh : resolution.globals.contains name.text = false) :
    resolution.declare name kind size id close =
      ({ resolution with
          globals := (resolution.globals.declare ⟨name.text, kind, name.line, size, some (.declared id)⟩).1
          types := (resolution.types.bind name.text id).1 }, []) := by
  simp [declare, Scope.declare_fresh _ ⟨name.text, _, _, _, _⟩ fresh]

theorem declare_externs (name : Token) (kind : Symbol.Kind) (size : Size) (id : Nat) (close : Token) :
    (resolution.declare name kind size id close).1.externs = resolution.externs := by
  cases taken : resolution.globals.contains name.text with
  | true => rw [declare_taken resolution taken]
  | false => rw [declare_fresh resolution taken]

theorem declare_definitions (name : Token) (kind : Symbol.Kind) (size : Size) (id : Nat) (close : Token) :
    (resolution.declare name kind size id close).1.types.definitions = resolution.types.definitions := by
  cases taken : resolution.globals.contains name.text with
  | true => rw [declare_taken resolution taken]
  | false =>
    rw [declare_fresh resolution taken, Arena.bind]
    split <;> rfl

theorem checkDecl_externs (reached : List String) (decl : Decl) :
    (resolution.checkDecl reached decl).1.externs = resolution.externs := by
  cases decl with
  | external => rfl
  | field | enum | struct => exact declare_externs _ _ _ _ _ _
  | select choice =>
    simp only [checkDecl]
    cases choice.name with
    | none => rfl
    | some name => exact declare_externs _ _ _ _ _ _

theorem checkDecls_externs (resolution : Resolution) (reached : List String) (decls : List Decl) :
    (resolution.checkDecls reached decls).1.externs = resolution.externs := by
  induction decls generalizing resolution reached with
  | nil => rfl
  | cons decl rest ih => exact (ih _ _).trans (checkDecl_externs resolution reached decl)

theorem declare_walk (name : Token) (kind : Symbol.Kind) (size : Size) (id : Nat) (close : Token) :
    Walk resolution.view (resolution.declareStages name kind size id close)
      (resolution.declare name kind size id close).1.view := by
  refine .step (.global _) (.step ?_ .here)
  cases taken : resolution.globals.contains name.text with
  | true =>
    have kept := Scope.declare_taken resolution.globals
      ⟨name.text, kind, name.line, size, some (.declared id)⟩ taken
    simp only [declare_taken resolution taken, view, kept]
    exact .stay
  | false =>
    rw [declare_fresh resolution taken]
    exact .bind name.text id

theorem define_walk (definition : Definition) (name close : Token) :
    Walk resolution.view (resolution.defineStages definition name close)
      (resolution.define definition name close).1.view := by
  have declared := declare_walk { resolution with types := (resolution.types.push definition).1 } name
    definition.kind definition.size (resolution.types.push definition).2 close
  exact .step (.define definition) declared

theorem checkStruct_view (members : List Member) (name close : Token) :
    (resolution.view.checkStruct members name close).view =
      { resolution with types := (resolution.view.checkStruct members name close).view.types }.view := by
  have frame := View.checkMember_frame resolution.view (.struct members name close)
  have locals := View.checkMember_locals resolution.view (.struct members name close)
  obtain ⟨externs, globals, _, _⟩ := frame
  simp only [View.checkMember] at externs globals locals
  rw [View.mk.injEq]
  exact ⟨externs, globals, rfl, locals⟩

theorem decl_walk (reached : List String) (decl : Decl) :
    Walk resolution.view (resolution.declStages decl) (resolution.checkDecl reached decl).1.view := by
  cases decl with
  | external name close => exact .here
  | field entry => exact define_walk resolution _ _ _
  | enum listing => exact define_walk resolution _ _ _
  | struct members name close =>
    have body := View.member_walk resolution.view (.struct members name close)
    have closed := checkStruct_view resolution members name close
    refine body.append ?_ (declare_walk _ _ _ _ _ _)
    rw [← closed]
    exact .stay
  | select choice =>
    simp only [declStages, checkDecl]
    cases choice.name with
    | none => exact .step (.define (resolution.view.selectDefinition choice)) .here
    | some name => exact define_walk resolution _ name choice.close

theorem decls_walk (resolution : Resolution) (reached : List String) (decls : List Decl) :
    Walk resolution.view (resolution.stages reached decls) (resolution.checkDecls reached decls).1.view := by
  induction decls generalizing resolution reached with
  | nil => exact .here
  | cons decl rest ih => exact (decl_walk resolution reached decl).append .stay (ih _ _)

end Resolution

end WireFormat
