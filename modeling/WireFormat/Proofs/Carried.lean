import WireFormat.Proofs.Repeats
import WireFormat.Proofs.Stages

namespace WireFormat

-- One stack of open structs, carried through all of a schema. What is to be done where no
-- struct is open is left open, because it makes no difference.

-- Whether a member that no scope can take counts as declared, and what a struct whose scope
-- is missing in the end is called.
structure Fallback where
  declared : Bool
  owner : String → String

namespace View

section Carried

variable (fallback : Fallback)

def carryDeclared (view : View) (name : Option Token) (line : Nat) (size : Size) (type : Option Handle) :
    View × List String :=
  match name with
  | none => (view, [])
  | some name =>
    let declared := view.locals.declare ⟨name.text, .member, line, size, type⟩
    ({ view with locals := declared.1 }, if declared.2.getD fallback.declared then [] else [name.text])

-- Ends a struct. Its repeated members are reported under the owner of the scope that goes.
def carryLeft (name close : Token) (body : MembersCheck) : StructCheck :=
  let popped := body.view.locals.pop
  let owner := (popped.2.map (·.owner)).getD (fallback.owner name.text)
  let pushed := body.view.types.push ⟨name.text, .struct, name.line, .unsized, body.entries⟩
  ⟨{ body.view with types := pushed.1, locals := popped.1 }, pushed.2,
    body.findings ++
    body.repeated.map (fun item => ⟨.duplicateItem item owner, close⟩) ++
    body.unknown.map fun type => ⟨.unknownType type, close⟩⟩

mutual

def carryMember (view : View) : Member → MemberCheck
  | .field entry => checkMember view (.field entry)
  | .struct members name close =>
    let inner := carryLeft fallback name close (carryMembers (view.enter name.text) members)
    ⟨inner.view, some (.declared inner.id), .unsized, name.line, [], inner.findings⟩
  | .select choice => checkMember view (.select choice)

def carryMembers (view : View) : List Member → MembersCheck
  | [] => ⟨view, [], [], [], []⟩
  | member :: rest =>
    let one := carryMember view member
    let declared := carryDeclared fallback one.view member.name? one.line one.size one.type
    let more := carryMembers declared.1 rest
    ⟨more.view, ⟨member.name?.map (·.text), one.type, one.size⟩ :: more.entries,
      declared.2 ++ more.repeated, one.unknown ++ more.unknown, one.findings ++ more.findings⟩

end

def carryStruct (view : View) (members : List Member) (name close : Token) : StructCheck :=
  carryLeft fallback name close (carryMembers fallback (view.enter name.text) members)

-- All that a view shows but the open structs.
def tables (view : View) : Resolution := ⟨view.types, view.globals, view.externs⟩

def carryTables (view : View) (tables : Resolution) : View :=
  { view with types := tables.types, globals := tables.globals, externs := tables.externs }

def carryDecl (view : View) (reached : List String) : Decl → View × List Finding
  | .external name close =>
    (view, if reached.contains name.text then [⟨.duplicateSymbol name.text, close⟩] else [])
  | .field entry =>
    let found := view.boundsFindings entry.name.text entry.close entry.bounds ++
      (view.unknownType? entry.type).toList.map fun name => ⟨.unknownType name, entry.close⟩
    let defined := view.tables.define (view.tables.fieldDefinition entry) entry.name entry.close
    (view.carryTables defined.1, found ++ defined.2)
  | .enum listing =>
    let defined := view.tables.define listing.definition listing.name listing.close
    (view.carryTables defined.1, listing.findings ++ defined.2)
  | .struct members name close =>
    let checked := carryStruct fallback view members name close
    let declared := checked.view.tables.declare name .struct .unsized checked.id close
    (checked.view.carryTables declared.1, checked.findings ++ declared.2)
  | .select choice =>
    let found := view.selectFindings choice
    match choice.name with
    | none => (view.pushed (view.selectDefinition choice), found)
    | some name =>
      let defined := view.tables.define (view.selectDefinition choice) name choice.close
      (view.carryTables defined.1, found ++ defined.2)

def carryDecls (view : View) (reached : List String) : List Decl → View × List Finding
  | [] => (view, [])
  | decl :: rest =>
    let one := carryDecl fallback view reached decl
    let more := carryDecls one.1 (decl.external?.toList ++ reached) rest
    (more.1, one.2 ++ more.2)

end Carried

end View

def Member.line : Member → Nat
  | .field entry => entry.name.line
  | .struct _ name _ => name.line
  | .select choice => choice.close.line

def Member.symbol? (member : Member) (entry : Definition.Entry) : Option Symbol :=
  member.name?.map fun name => ⟨name.text, .member, member.line, entry.size, entry.type⟩

-- What the named members among these have declared, in order and with repetitions.
def declaredSymbols (members : List Member) (entries : List Definition.Entry) : List Symbol :=
  (List.zipWith Member.symbol? members entries).flatMap Option.toList

theorem declaredSymbols_cons (member : Member) (rest : List Member) (entry : Definition.Entry)
    (entries : List Definition.Entry) : declaredSymbols (member :: rest) (entry :: entries) =
      (member.symbol? entry).toList ++ declaredSymbols rest entries := by
  rw [declaredSymbols, List.zipWith_cons_cons, List.flatMap_cons]
  rfl

def MembersCheck.followed (first more : MembersCheck) : MembersCheck :=
  ⟨more.view, first.entries ++ more.entries, first.repeated ++ more.repeated, first.unknown ++ more.unknown,
    first.findings ++ more.findings⟩

def structScope (owner : String) (symbols : List Symbol) : Scope := ⟨.struct, owner, firsts (·.name) symbols⟩

theorem structScope_declare (outer : ScopeStack) (owner : String) (symbols : List Symbol) (symbol : Symbol) :
    (outer.push (structScope owner symbols)).declare symbol =
      (outer.push (structScope owner (symbols ++ [symbol])), some (decide (symbol.name ∉ symbols.map (·.name)))) := by
  have held : (structScope owner symbols).contains symbol.name = true ↔ symbol.name ∈ symbols.map (·.name) := by
    rw [Scope.contains_exact, structScope, firsts_keys, List.mem_eraseDups]
  have grown : structScope owner (symbols ++ [symbol]) = ⟨.struct, owner, firsts (·.name) symbols ++
      if symbol.name ∈ symbols.map (·.name) then [] else [symbol]⟩ := by
    rw [structScope, firsts_snoc]
  rw [grown]
  by_cases taken : symbol.name ∈ symbols.map (·.name)
  · simp only [ScopeStack.declare, ScopeStack.push, Scope.declare_taken _ _ (held.mpr taken), if_pos taken]
    simp [structScope, taken]
  · simp only [ScopeStack.declare, ScopeStack.push, Scope.declare_fresh _ _ (Bool.eq_false_iff.mpr (mt held.mp taken)),
      if_neg taken]
    simp [structScope, taken]

namespace View

theorem checkMember_line (view : View) (member : Member) : (checkMember view member).line = member.line := by
  cases member <;> rfl

variable {outer : ScopeStack} {owner : String} {symbols : List Symbol}

theorem declareMember_scope {view : View} (stack : view.locals = outer.push (structScope owner symbols))
    (member : Member) (entry : Definition.Entry) :
    (view.declareMember member.name? member.line entry.size entry.type).1.locals =
      outer.push (structScope owner (symbols ++ (member.symbol? entry).toList)) := by
  unfold Member.symbol?
  cases member.name? with
  | none => simpa [declareMember] using stack
  | some name =>
    rw [declareMember, stack, structScope_declare]
    rfl

theorem checkMembers_scope {view : View} (stack : view.locals = outer.push (structScope owner symbols))
    (members : List Member) : (checkMembers view members).view.locals = outer.push
      (structScope owner (symbols ++ declaredSymbols members (checkMembers view members).entries)) := by
  induction members generalizing view symbols with
  | nil => simpa [checkMembers, declaredSymbols] using stack
  | cons member rest ih =>
    have one := (checkMember_locals view member).trans stack
    have declared := declareMember_scope one member ⟨member.name?.map (·.text), (checkMember view member).type,
      (checkMember view member).size⟩
    rw [← checkMember_line view member] at declared
    rw [checkMembers, declaredSymbols_cons, ← List.append_assoc]
    exact ih declared

theorem checkMembers_left (view : View) (owner : String) (members : List Member) :
    (checkMembers (view.enter owner) members).view.locals.pop = (view.locals, some (structScope owner
      (declaredSymbols members (checkMembers (view.enter owner) members).entries))) := by
  have empty : (view.enter owner).locals = view.locals.push (structScope owner []) := rfl
  rw [checkMembers_scope empty]
  rfl

section Carried

variable (fallback : Fallback)

theorem carryDeclared_same {view : View} (inside : view.locals.scopes ≠ []) (name : Option Token) (line : Nat)
    (size : Size) (type : Option Handle) :
    carryDeclared fallback view name line size type = view.declareMember name line size type := by
  cases name with
  | none => rfl
  | some name =>
    obtain ⟨scope, outer, scopes⟩ := List.exists_cons_of_ne_nil inside
    simp only [carryDeclared, declareMember, ScopeStack.declare, scopes]
    cases (scope.declare ⟨name.text, .member, line, size, type⟩).2 <;> rfl

theorem declareMember_inside {view : View} (inside : view.locals.scopes ≠ []) (name : Option Token) (line : Nat)
    (size : Size) (type : Option Handle) : (view.declareMember name line size type).1.locals.scopes ≠ [] := by
  cases name with
  | none => exact inside
  | some name =>
    obtain ⟨scope, outer, scopes⟩ := List.exists_cons_of_ne_nil inside
    simp [declareMember, ScopeStack.declare, scopes]

theorem carryLeft_same (view : View) (members : List Member) (name close : Token) :
    carryLeft fallback name close (checkMembers (view.enter name.text) members) =
      leave name close (checkMembers (view.enter name.text) members) := by
  rw [carryLeft, checkMembers_left, leave, checkMembers_left]
  rfl

mutual

theorem carryMember_same (view : View) (member : Member) :
    carryMember fallback view member = checkMember view member := by
  cases member with
  | field | select => rfl
  | struct members name close =>
    have body := carryMembers_same (view.enter name.text) members (List.cons_ne_nil _ _)
    rw [carryMember, checkMember, body, carryLeft_same]

theorem carryMembers_same (view : View) (members : List Member) (inside : view.locals.scopes ≠ []) :
    carryMembers fallback view members = checkMembers view members := by
  cases members with
  | nil => rfl
  | cons member rest =>
    have open_scope : (checkMember view member).view.locals.scopes ≠ [] := (checkMember_locals view member) ▸ inside
    rw [carryMembers, checkMembers, carryMember_same view member, carryDeclared_same fallback open_scope,
      carryMembers_same _ rest (declareMember_inside open_scope _ _ _ _)]

end

theorem carryStruct_same (view : View) (members : List Member) (name close : Token) :
    carryStruct fallback view members name close = checkStruct view members name close := by
  rw [carryStruct, carryMembers_same fallback _ members (List.cons_ne_nil _ _), carryLeft_same]
  rfl

theorem carryMembers_scope (view : View) (owner : String) (members : List Member) :
    (carryMembers fallback (view.enter owner) members).view.locals = view.locals.push
      (structScope owner (declaredSymbols members (carryMembers fallback (view.enter owner) members).entries)) := by
  rw [carryMembers_same fallback _ members (List.cons_ne_nil _ _)]
  have empty : (view.enter owner).locals = view.locals.push (structScope owner []) := rfl
  exact checkMembers_scope empty members

theorem carryMembers_names (view : View) (members : List Member) :
    (declaredSymbols members (carryMembers fallback view members).entries).map (·.name) =
      members.filterMap Member.itemName? := by
  induction members generalizing view with
  | nil => rfl
  | cons member rest ih =>
    rw [carryMembers, declaredSymbols_cons, List.map_append, ih, List.filterMap_cons, Member.symbol?, Member.itemName?]
    cases member.name? <;> rfl

theorem carryMembers_append (view : View) (front back : List Member) :
    carryMembers fallback view (front ++ back) = (carryMembers fallback view front).followed
      (carryMembers fallback (carryMembers fallback view front).view back) := by
  induction front generalizing view with
  | nil => rfl
  | cons member rest ih =>
    rw [List.cons_append, carryMembers, carryMembers, ih]
    simp [MembersCheck.followed]

theorem carryMember_locals (view : View) (member : Member) :
    (carryMember fallback view member).view.locals = view.locals := by
  rw [carryMember_same]
  exact checkMember_locals view member

theorem carryDecl_locals (view : View) (reached : List String) (decl : Decl) :
    (carryDecl fallback view reached decl).1.locals = view.locals := by
  cases decl with
  | external | field | enum => rfl
  | struct members name close =>
    show (carryStruct fallback view members name close).view.locals = _
    rw [carryStruct_same]
    exact checkMember_locals view (.struct members name close)
  | select choice =>
    simp only [carryDecl]
    cases choice.name <;> rfl

theorem carryDecls_locals (view : View) (reached : List String) (decls : List Decl) :
    (carryDecls fallback view reached decls).1.locals = view.locals := by
  induction decls generalizing view reached with
  | nil => rfl
  | cons decl rest ih => exact (ih _ _).trans (carryDecl_locals fallback view reached decl)

theorem carryTables_view {view : View} (outside : view.locals = .empty) (tables : Resolution) :
    view.carryTables tables = tables.view := by
  rw [carryTables, outside]
  rfl

theorem carryDecl_same (resolution : Resolution) (reached : List String) (decl : Decl) :
    carryDecl fallback resolution.view reached decl =
      ((resolution.checkDecl reached decl).1.view, (resolution.checkDecl reached decl).2) := by
  cases decl with
  | external | field | enum => rfl
  | struct members name close =>
    have shut := resolution.checkStruct_view members name close
    simp only [carryDecl, Resolution.checkDecl, carryStruct_same]
    rw [carryTables_view (congrArg View.locals shut)]
    have tables : tables (resolution.view.checkStruct members name close).view =
        { resolution with types := (resolution.view.checkStruct members name close).view.types } :=
      congrArg tables shut
    rw [tables]
  | select choice =>
    simp only [carryDecl, Resolution.checkDecl]
    cases choice.name <;> rfl

theorem carryDecls_same (resolution : Resolution) (reached : List String) (decls : List Decl) :
    carryDecls fallback resolution.view reached decls =
      ((resolution.checkDecls reached decls).1.view, (resolution.checkDecls reached decls).2) := by
  induction decls generalizing resolution reached with
  | nil => rfl
  | cons decl rest ih => rw [carryDecls, carryDecl_same, ih, Resolution.checkDecls]

theorem carryDecls_append (view : View) (reached : List String) (front back : List Decl) :
    carryDecls fallback view reached (front ++ back) =
      let before := carryDecls fallback view reached front
      let after := carryDecls fallback before.1 ((front.filterMap Decl.external?).reverse ++ reached) back
      (after.1, before.2 ++ after.2) := by
  induction front generalizing view reached with
  | nil => rfl
  | cons decl rest ih =>
    rw [List.cons_append, carryDecls, ih, carryDecls]
    cases named : decl.external? <;> simp [named]

end Carried

-- Structs and selects leave the stack of open structs as they find it, wherever they stand.
-- A member is declared in the scope that its own struct has opened, which holds the first
-- symbol under each name of the members before it. So there is a scope for every member and
-- for every struct that ends, what stands in for a missing one is never used, and at top
-- level no struct is open.
theorem scopes_balanced (fallback : Fallback) :
    (∀ view member, (carryMember fallback view member).view.locals = view.locals) ∧
    (∀ view reached decl, (carryDecl fallback view reached decl).1.locals = view.locals) ∧
    (∀ (view : View) (name : Token) done member rest,
      let body := carryMembers fallback (view.enter name.text) done
      let one := carryMember fallback body.view member
      let symbols := declaredSymbols done body.entries
      one.view.locals = view.locals.push ⟨.struct, name.text, firsts (·.name) symbols⟩ ∧
      symbols.map (·.name) = done.filterMap Member.itemName? ∧
      (∀ symbol, (one.view.locals.declare symbol).2 = some (decide (symbol.name ∉ symbols.map (·.name)))) ∧
      carryMembers fallback (view.enter name.text) (done ++ member :: rest) =
        body.followed (carryMembers fallback body.view (member :: rest))) ∧
    (∀ (view : View) (name : Token) members,
      let body := carryMembers fallback (view.enter name.text) members
      body.view.locals.pop =
        (view.locals, some ⟨.struct, name.text, firsts (·.name) (declaredSymbols members body.entries)⟩)) ∧
    (∀ decls, carryDecls fallback (started decls).view [] decls = ((analyze decls).1.view, (analyze decls).2)) ∧
    ∀ front back,
      let before := carryDecls fallback (started (front ++ back)).view [] front
      let after := carryDecls fallback before.1 (front.filterMap Decl.external?).reverse back
      before.1.locals = .empty ∧
        carryDecls fallback (started (front ++ back)).view [] (front ++ back) = (after.1, before.2 ++ after.2) := by
  refine ⟨carryMember_locals fallback, carryDecl_locals fallback, fun view name done member rest => ?_,
    fun view name members => ?_,
    fun decls => carryDecls_same fallback (started decls) [] decls,
    fun front back => ⟨carryDecls_locals fallback _ _ front, ?_⟩⟩
  · intro body one symbols
    have stack : one.view.locals = view.locals.push (structScope name.text symbols) :=
      (carryMember_locals fallback body.view member).trans (carryMembers_scope fallback view name.text done)
    refine ⟨stack, carryMembers_names fallback _ done, fun symbol => ?_,
      carryMembers_append fallback _ done (member :: rest)⟩
    rw [stack, structScope_declare]
  · intro body
    rw [carryMembers_scope fallback view name.text members]
    rfl
  · have whole := carryDecls_append fallback (started (front ++ back)).view [] front back
    rwa [List.append_nil] at whole

end View

end WireFormat
