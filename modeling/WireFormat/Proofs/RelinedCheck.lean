import Mathlib.Data.List.Basic
import WireFormat.Compile
import WireFormat.Outline
import WireFormat.Proofs.Relined

namespace WireFormat

-- The same for the analysis: tables and findings keep lines, and nothing is decided by one.

variable (lines : Nat → Nat)

@[simps]
def Symbol.reline (symbol : Symbol) : Symbol := { symbol with line := lines symbol.line }

@[simps]
def Definition.reline (definition : Definition) : Definition :=
  { definition with line := lines definition.line }

@[simps]
def Scope.reline (scope : Scope) : Scope := { scope with symbols := scope.symbols.map (Symbol.reline lines) }

@[simps]
def ScopeStack.reline (stack : ScopeStack) : ScopeStack := ⟨stack.scopes.map (Scope.reline lines)⟩

@[simps]
def Arena.reline (types : Arena) : Arena :=
  { types with definitions := types.definitions.map (Definition.reline lines) }

@[simps]
def View.reline (view : View) : View :=
  ⟨view.externs.reline lines, view.globals.reline lines, view.types.reline lines, view.locals.reline lines⟩

@[simps]
def Resolution.reline (resolution : Resolution) : Resolution :=
  ⟨resolution.types.reline lines, resolution.globals.reline lines, resolution.externs.reline lines⟩

def Cause.reline : Cause → Cause
  | .unknownSize name => .unknownSize (name.reline lines)
  | .unknownSelector name => .unknownSelector (name.reline lines)
  | .unknownType name => .unknownType (name.reline lines)
  | cause => cause

@[simps]
def Finding.reline (finding : Finding) : Finding :=
  ⟨finding.cause.reline lines, finding.token.reline lines⟩

@[simps]
def Diagnostic.reline (diagnostic : Diagnostic) : Diagnostic :=
  { diagnostic with line := lines diagnostic.line }

@[simps]
def MemberCheck.reline (check : MemberCheck) : MemberCheck :=
  ⟨check.view.reline lines, check.type, check.size, lines check.line, check.unknown.map (Name.reline lines),
    check.findings.map (Finding.reline lines)⟩

@[simps]
def MembersCheck.reline (check : MembersCheck) : MembersCheck :=
  ⟨check.view.reline lines, check.entries, check.repeated, check.unknown.map (Name.reline lines),
    check.findings.map (Finding.reline lines)⟩

@[simps]
def StructCheck.reline (check : StructCheck) : StructCheck :=
  ⟨check.view.reline lines, check.id, check.findings.map (Finding.reline lines)⟩

@[simp] theorem Name.isDotted_relined (name : Name) : (name.reline lines).isDotted = name.isDotted := rfl

@[simp] theorem Name.text_relined (name : Name) : (name.reline lines).text = name.text := rfl

@[simp] theorem TypeRef.text_relined (type : TypeRef) : (type.reline lines).text = type.text := by
  cases type <;> rfl

@[simp] theorem TypeRef.name_relined (type : TypeRef) :
    (type.reline lines).name? = type.name?.map (Name.reline lines) := by
  cases type <;> rfl

@[simp] theorem Number.value_relined (number : Number) : (number.reline lines).value = number.value := rfl

@[simp] theorem SizeExpr.text_relined (size : SizeExpr) : (size.reline lines).text = size.text := by
  cases size <;> rfl

@[simp] theorem SizeExpr.value_relined (size : SizeExpr) : (size.reline lines).value? = size.value? := by
  cases size <;> rfl

@[simp] theorem Bounds.size_relined (bounds : Bounds) : (bounds.reline lines).size = bounds.size := by
  cases bounds <;> simp [Bounds.reline, Bounds.size]

@[simp] theorem Bounds.sizes_relined (bounds : Bounds) :
    (bounds.reline lines).sizes = bounds.sizes.map (SizeExpr.reline lines) := by
  cases bounds <;> rfl

@[simp] theorem Size.ofBounds_relined (bounds : Option Bounds) :
    Size.ofBounds (bounds.map (Bounds.reline lines)) = Size.ofBounds bounds := by
  cases bounds <;> simp [Size.ofBounds]

@[simp] theorem Item.owner_relined (item : Item) : (item.reline lines).owner = item.owner := by
  obtain ⟨signed, type, name, bounds, close⟩ := item
  cases name <;> simp [Item.owner]

@[simp] theorem Select.owner_relined (choice : Select) : (choice.reline lines).owner = choice.owner := by
  obtain ⟨selector, opening, arms, name, close⟩ := choice
  cases name <;> simp [Select.owner]

-- Tables.
namespace Scope

variable (scope : Scope)

@[simp] theorem contains_relined (name : String) : (scope.reline lines).contains name = scope.contains name := by
  simp [contains, Function.comp_def]

@[simp] theorem lookup_relined (name : String) :
    (scope.reline lines).lookup name = (scope.lookup name).map (Symbol.reline lines) := by
  rw [lookup, reline_symbols, List.find?_map]
  rfl

@[simp] theorem declare_relined (symbol : Symbol) : (scope.reline lines).declare (symbol.reline lines) =
    ((scope.declare symbol).1.reline lines, (scope.declare symbol).2) := by
  unfold declare
  rw [contains_relined, Symbol.reline_name]
  split <;> simp [Scope.reline]

end Scope

namespace ScopeStack

variable (stack : ScopeStack)

@[simp] theorem lookup_relined (name : String) :
    (stack.reline lines).lookup name = (stack.lookup name).map (Symbol.reline lines) := by
  simp [lookup, List.findSome?_map, Function.comp_def]

@[simp] theorem declare_relined (symbol : Symbol) : (stack.reline lines).declare (symbol.reline lines) =
    ((stack.declare symbol).1.reline lines, (stack.declare symbol).2) := by
  obtain ⟨scopes⟩ := stack
  cases scopes <;> simp [declare, ScopeStack.reline]

@[simp] theorem push_relined (scope : Scope) :
    (stack.reline lines).push (scope.reline lines) = (stack.push scope).reline lines := rfl

@[simp] theorem pop_relined : (stack.reline lines).pop.1 = stack.pop.1.reline lines := by
  simp [pop, ScopeStack.reline]

end ScopeStack

namespace Arena

variable (types : Arena)

@[simp] theorem get_relined (id : Nat) : (types.reline lines).get? id = (types.get? id).map (Definition.reline lines) := by
  simp [get?]

@[simp] theorem size_relined : (types.reline lines).size = types.size := by
  simp [size]

@[simp] theorem lookup_relined (name : String) : (types.reline lines).lookup name = types.lookup name := rfl

@[simp] theorem push_relined (definition : Definition) : (types.reline lines).push (definition.reline lines) =
    ((types.push definition).1.reline lines, (types.push definition).2) := by
  simp [push, Arena.reline, size]

@[simp] theorem bind_relined (name : String) (id : Nat) :
    (types.reline lines).bind name id = ((types.bind name id).1.reline lines, (types.bind name id).2) := by
  unfold bind
  rw [lookup_relined]
  split <;> rfl

@[simp] theorem isNumeric_relined (id : Nat) : (types.reline lines).isNumeric id = types.isNumeric id := by
  induction id using Nat.strongRecOn with
  | ind id ih =>
    rw [isNumeric, isNumeric.eq_def types id, get_relined]
    cases types.get? id with
    | none => rfl
    | some definition =>
      simp only [Option.map_some, Definition.reline_kind, Definition.reline_entries]
      cases definition.kind with
      | typed =>
        simp only
        cases definition.entries.head?.bind (·.type) with
        | none => rfl
        | some handle =>
          cases handle with
          | scalar | external => rfl
          | declared next =>
            simp only
            by_cases lower : next < id
            · rw [if_pos lower, if_pos lower, ih next lower]
            · rw [if_neg lower, if_neg lower]
      | _ => rfl

end Arena

namespace View

variable (view : View)

@[simp] theorem type_relined (type : TypeRef) : (view.reline lines).type? (type.reline lines) = view.type? type := by
  cases type <;> simp [TypeRef.reline, type?]

@[simp] theorem isNumeric_relined (type : Option Handle) : (view.reline lines).isNumeric type = view.isNumeric type := by
  unfold isNumeric
  split <;> simp

@[simp] theorem denotesValue_relined (use : Use) (name : Name) :
    (view.reline lines).denotesValue use (name.reline lines) = view.denotesValue use name := by
  simp only [denotesValue, Name.isDotted_relined, Name.reline_head, View.reline_externs, View.reline_globals,
    View.reline_locals, Scope.contains_relined, Scope.lookup_relined, ScopeStack.lookup_relined, ← Option.map_or]
  cases (view.locals.lookup name.head).or (view.globals.lookup name.head) with
  | none => rfl
  | some symbol => simp

@[simp] theorem unknownType_relined (type : TypeRef) :
    (view.reline lines).unknownType? (type.reline lines) = (view.unknownType? type).map (Name.reline lines) := by
  unfold unknownType?
  rw [type_relined, TypeRef.name_relined]
  split <;> rfl

end View

@[simp] theorem Number.findings_relined (number : Number) :
    (number.reline lines).findings = number.findings.map (Finding.reline lines) := by
  unfold findings
  rw [reline_evaluated]
  cases number.evaluated.error <;> rfl

@[simp] theorem Size.findings_relined (size : Size) (owner : String) (close : Token) :
    size.findings owner (close.reline lines) = (size.findings owner close).map (Finding.reline lines) := by
  unfold findings
  split
  · split <;> rfl
  · split <;> rfl
  · rfl

namespace View

variable (view : View)

@[simp] theorem sizeFindings_relined (close : Token) (size : SizeExpr) :
    (view.reline lines).sizeFindings (close.reline lines) (size.reline lines) =
      (view.sizeFindings close size).map (Finding.reline lines) := by
  cases size with
  | literal number | power number => exact number.findings_relined lines
  | reference name =>
    rw [SizeExpr.reline, sizeFindings, sizeFindings, denotesValue_relined]
    split <;> rfl

@[simp] theorem boundsFindings_relined (owner : String) (close : Token) (bounds : Option Bounds) :
    (view.reline lines).boundsFindings owner (close.reline lines) (bounds.map (Bounds.reline lines)) =
      (view.boundsFindings owner close bounds).map (Finding.reline lines) := by
  cases bounds with
  | none => rfl
  | some bounds => simp [boundsFindings, List.flatMap_map, List.map_flatMap]

end View

theorem marked_map [BEq β] (key : α → β) (onto : γ → α) (seen : List β) (items : List γ) :
    marked key seen (items.map onto) = (marked (key ∘ onto) seen items).map (Prod.map onto id) := by
  induction items generalizing seen with
  | nil => rfl
  | cons item rest ih => simp [marked, ih]

theorem firsts_map [BEq β] (key : α → β) (onto : γ → α) (items : List γ) :
    firsts key (items.map onto) = (firsts (key ∘ onto) items).map onto := by
  rw [firsts, firstsAfter, marked_map, firsts, firstsAfter, List.filter_map, List.map_map, List.map_map]
  rfl

theorem repeats_map [BEq β] (key : α → β) (onto : γ → α) (items : List γ) :
    repeats key (items.map onto) = (repeats (key ∘ onto) items).map onto := by
  rw [repeats, repeatsAfter, marked_map, repeats, repeatsAfter, List.filter_map, List.map_map, List.map_map]
  rfl

namespace EnumDecl

variable (listing : EnumDecl)

theorem values_relined (next : UInt64) (entries : List EnumEntry) :
    EnumEntry.values next (entries.map (EnumEntry.reline lines)) = EnumEntry.values next entries := by
  induction entries generalizing next with
  | nil => rfl
  | cons entry rest ih =>
    obtain ⟨name, value⟩ := entry
    cases value <;> simp [EnumEntry.values, ih, EnumEntry.reline, Number.value]

theorem valued_relined :
    (listing.reline lines).valued = listing.valued.map (Prod.map (EnumEntry.reline lines) id) := by
  rw [valued, reline_entries, values_relined, valued, ← List.map_id (EnumEntry.values 0 listing.entries),
    List.zip_map]
  simp

theorem entryFindings_relined :
    (listing.reline lines).entryFindings = listing.entryFindings.map (Finding.reline lines) := by
  rw [entryFindings, reline_entries, marked_map, List.flatMap_map, entryFindings, List.map_flatMap]
  apply List.flatMap_congr
  intro marked _
  obtain ⟨⟨name, value⟩, again⟩ := marked
  cases value <;> cases again <;> simp [EnumEntry.reline, Finding.reline, Cause.reline]

theorem maxFindings_relined :
    (listing.reline lines).maxFindings = listing.maxFindings.map (Finding.reline lines) := by
  unfold maxFindings
  rw [reline_max]
  cases listing.max <;> simp

theorem valueFindings_relined :
    (listing.reline lines).valueFindings = listing.valueFindings.map (Finding.reline lines) := by
  rw [valueFindings, valued_relined, marked_map, List.flatMap_map, valueFindings, List.map_flatMap]
  apply List.flatMap_congr
  intro marked _
  obtain ⟨⟨entry, value⟩, again⟩ := marked
  rw [reline_max]
  cases listing.max with
  | none => cases again <;> simp [Finding.reline, Cause.reline]
  | some max =>
    by_cases large : max.value < value
    · cases again <;> simp [Finding.reline, Cause.reline, large]
    · cases again <;> simp [Finding.reline, Cause.reline, large]

theorem findings_relined : (listing.reline lines).findings = listing.findings.map (Finding.reline lines) := by
  rw [findings, entryFindings_relined, maxFindings_relined, valueFindings_relined, findings, List.map_append,
    List.map_append]

theorem definition_relined : (listing.reline lines).definition = listing.definition.reline lines := by
  have size : (listing.reline lines).size = listing.size := by
    unfold EnumDecl.size
    rw [reline_max]
    cases listing.max <;> rfl
  rw [definition, size, valued_relined, firsts_map, List.map_map]
  rfl

end EnumDecl

namespace View

variable (view : View)

theorem names_relined (arm : Arm) : (arm.reline lines).names = arm.names := by
  rw [Arm.names, Arm.reline_labels, firsts_map, List.map_map]
  rfl

theorem repeatFindings_relined (arm : Arm) :
    (arm.reline lines).repeatFindings = arm.repeatFindings.map (Finding.reline lines) := by
  rw [Arm.repeatFindings, Arm.reline_labels, repeats_map, List.map_map, Arm.repeatFindings, List.map_map]
  rfl

theorem acrossFindings_relined (choice : Select) :
    (choice.reline lines).acrossFindings = choice.acrossFindings.map (Finding.reline lines) := by
  simp only [Select.acrossFindings, Select.reline_arms, Select.reline_close, Select.owner_relined, List.flatMap_map,
    names_relined, List.map_map]
  rfl

theorem armFindings_relined (arm : Arm) :
    (view.reline lines).armFindings (arm.reline lines) = (view.armFindings arm).map (Finding.reline lines) := by
  have types : ((arm.items.map (Item.reline lines)).filterMap fun item =>
      (view.reline lines).unknownType? item.type) =
      (arm.items.filterMap fun item => view.unknownType? item.type).map (Name.reline lines) := by
    rw [List.filterMap_map, List.map_filterMap]
    simp
  simp only [armFindings, repeatFindings_relined, Arm.reline_items, Arm.reline_follow, types, List.map_append]
  congr 1
  · congr 1
    rw [List.flatMap_map, List.map_flatMap]
    simp
  · rw [List.map_map, List.map_map]
    rfl

theorem selectFindings_relined (choice : Select) :
    (view.reline lines).selectFindings (choice.reline lines) =
      (view.selectFindings choice).map (Finding.reline lines) := by
  have selector : (view.reline lines).selectorFindings (choice.reline lines) =
      (view.selectorFindings choice).map (Finding.reline lines) := by
    rw [selectorFindings, Select.reline_selector, denotesValue_relined, selectorFindings]
    split <;> rfl
  simp only [selectFindings, armsFindings, selector, Select.reline_arms, acrossFindings_relined, List.map_append,
    List.flatMap_map, List.map_flatMap, armFindings_relined]

theorem selectDefinition_relined (choice : Select) :
    (view.reline lines).selectDefinition (choice.reline lines) = (view.selectDefinition choice).reline lines := by
  simp [selectDefinition, List.flatMap_map, Definition.reline, Function.comp_def]

theorem declareMember_relined (name : Option Token) (line : Nat) (size : Size) (type : Option Handle) :
    (view.reline lines).declareMember (name.map (Token.reline lines)) (lines line) size type =
      ((view.declareMember name line size type).1.reline lines, (view.declareMember name line size type).2) := by
  cases name with
  | none => rfl
  | some name =>
    have declared := view.locals.declare_relined lines ⟨name.text, .member, line, size, type⟩
    rw [Symbol.reline] at declared
    simp [declareMember, declared, View.reline]

theorem enter_relined (owner : String) : (view.reline lines).enter owner = (view.enter owner).reline lines := rfl

theorem leave_relined (name close : Token) (body : MembersCheck) :
    leave (name.reline lines) (close.reline lines) (body.reline lines) = (leave name close body).reline lines := by
  have pushed := body.view.types.push_relined lines ⟨name.text, .struct, name.line, .unsized, body.entries⟩
  rw [Definition.reline] at pushed
  simp only [leave, MembersCheck.reline, View.reline, Token.reline_text, Token.reline_line, pushed,
    ScopeStack.pop_relined, StructCheck.reline, List.map_append, List.map_map]
  rfl

theorem name_relined (member : Member) : (member.reline lines).name? = member.name?.map (Token.reline lines) := by
  cases member <;> rfl

mutual

theorem checkMember_relined (view : View) (member : Member) :
    checkMember (view.reline lines) (member.reline lines) = (checkMember view member).reline lines := by
  cases member with
  | field entry =>
    simp only [Member.reline, checkMember, Field.reline_type, Field.reline_bounds, Field.reline_name, Field.reline_close,
      type_relined, Size.ofBounds_relined, Token.reline_line, Token.reline_text, unknownType_relined, boundsFindings_relined,
      MemberCheck.reline, Option.toList_map]
  | struct members name close =>
    have inner := checkMembers_relined (view.enter name.text) members
    have left := leave_relined lines name close (checkMembers (view.enter name.text) members)
    rw [Member.reline, relineAll_map, checkMember, Token.reline_text, enter_relined, inner, left]
    rfl
  | select choice =>
    have pushed := view.types.push_relined lines (view.selectDefinition choice)
    simp only [Member.reline, checkMember, selectDefinition_relined, View.reline_types, pushed, selectFindings_relined]
    rfl

theorem checkMembers_relined (view : View) (members : List Member) :
    checkMembers (view.reline lines) (members.map (Member.reline lines)) = (checkMembers view members).reline lines := by
  cases members with
  | nil => rfl
  | cons member rest =>
    have one := checkMember_relined view member
    have declared := declareMember_relined lines (checkMember view member).view member.name?
      (checkMember view member).line (checkMember view member).size (checkMember view member).type
    have more := checkMembers_relined ((checkMember view member).view.declareMember member.name?
      (checkMember view member).line (checkMember view member).size (checkMember view member).type).1 rest
    simp only [List.map_cons, checkMembers, one, MemberCheck.reline, name_relined, declared, more, MembersCheck.reline,
      List.map_append, Option.map_map]
    rfl

end

theorem checkStruct_relined (members : List Member) (name close : Token) :
    (view.reline lines).checkStruct (members.map (Member.reline lines)) (name.reline lines) (close.reline lines) =
      (view.checkStruct members name close).reline lines := by
  rw [checkStruct, Token.reline_text, enter_relined, checkMembers_relined, leave_relined, checkStruct]

end View

namespace Resolution

variable (resolution : Resolution)

theorem declare_relined (name : Token) (kind : Symbol.Kind) (size : Size) (id : Nat) (close : Token) :
    (resolution.reline lines).declare (name.reline lines) kind size id (close.reline lines) =
      ((resolution.declare name kind size id close).1.reline lines,
        (resolution.declare name kind size id close).2.map (Finding.reline lines)) := by
  have declared := resolution.globals.declare_relined lines ⟨name.text, kind, name.line, size, some (.declared id)⟩
  rw [Symbol.reline] at declared
  simp only [declare, Resolution.reline, Token.reline_text, Token.reline_line, declared, Arena.bind_relined]
  split <;> rfl

theorem define_relined (definition : Definition) (name close : Token) :
    (resolution.reline lines).define (definition.reline lines) (name.reline lines) (close.reline lines) =
      ((resolution.define definition name close).1.reline lines,
        (resolution.define definition name close).2.map (Finding.reline lines)) := by
  have pushed := resolution.types.push_relined lines definition
  have declared := declare_relined lines { resolution with types := (resolution.types.push definition).1 } name
    definition.kind definition.size (resolution.types.push definition).2 close
  simp only [define, Resolution.reline_types, pushed, Definition.reline_kind, Definition.reline_size]
  exact declared

theorem view_relined : (resolution.reline lines).view = resolution.view.reline lines := rfl

theorem fieldDefinition_relined (entry : Field) :
    (resolution.reline lines).fieldDefinition (entry.reline lines) = (resolution.fieldDefinition entry).reline lines := by
  simp only [fieldDefinition, view_relined, Field.reline_type, Field.reline_bounds, Field.reline_name,
    View.type_relined, Size.ofBounds_relined, Token.reline_text, Token.reline_line, Definition.reline]
  cases entry.type <;> rfl

theorem fieldFindings_relined (entry : Field) :
    (resolution.reline lines).fieldFindings (entry.reline lines) =
      (resolution.fieldFindings entry).map (Finding.reline lines) := by
  simp only [fieldFindings, view_relined, Field.reline_type, Field.reline_bounds, Field.reline_name, Field.reline_close,
    Token.reline_text, View.boundsFindings_relined, View.unknownType_relined, List.map_append]
  cases resolution.view.unknownType? entry.type <;> rfl

theorem checkDecl_relined (reached : List String) (decl : Decl) :
    (resolution.reline lines).checkDecl reached (decl.reline lines) =
      ((resolution.checkDecl reached decl).1.reline lines,
        (resolution.checkDecl reached decl).2.map (Finding.reline lines)) := by
  cases decl with
  | external name close =>
    simp only [Decl.reline, checkDecl, Token.reline_text]
    split <;> rfl
  | field entry =>
    simp only [Decl.reline, checkDecl, fieldDefinition_relined, fieldFindings_relined, Field.reline_name,
      Field.reline_close, define_relined, List.map_append]
  | enum listing =>
    simp only [Decl.reline, checkDecl, EnumDecl.definition_relined, EnumDecl.findings_relined, EnumDecl.reline_name,
      EnumDecl.reline_close, define_relined, List.map_append]
  | struct members name close =>
    have checked := resolution.view.checkStruct_relined lines members name close
    have declared := declare_relined lines
      { resolution with types := (resolution.view.checkStruct members name close).view.types } name .struct .unsized
      (resolution.view.checkStruct members name close).id close
    rw [Resolution.reline] at declared
    simp only [Decl.reline, checkDecl, view_relined, checked, StructCheck.reline, View.reline_types,
      Resolution.reline_globals, Resolution.reline_externs, declared, List.map_append]
  | select choice =>
    have pushed := resolution.types.push_relined lines (resolution.view.selectDefinition choice)
    simp only [Decl.reline, checkDecl, view_relined, View.selectDefinition_relined, View.selectFindings_relined,
      Select.reline_name, Select.reline_close]
    cases choice.name with
    | none => simp only [Option.map_none, pushed, Resolution.reline]
    | some name => simp only [Option.map_some, define_relined, List.map_append]

theorem checkDecls_relined (reached : List String) (decls : List Decl) :
    (resolution.reline lines).checkDecls reached (decls.map (Decl.reline lines)) =
      ((resolution.checkDecls reached decls).1.reline lines,
        (resolution.checkDecls reached decls).2.map (Finding.reline lines)) := by
  induction decls generalizing resolution reached with
  | nil => rfl
  | cons decl rest ih =>
    have outside : (decl.reline lines).external? = decl.external? := by cases decl <;> rfl
    simp only [List.map_cons, checkDecls, checkDecl_relined, outside, ih, List.map_append]

end Resolution

theorem externScope_relined (decls : List Decl) :
    externScope (decls.map (Decl.reline lines)) = (externScope decls).reline lines := by
  have empty : Scope.empty .external "" = (Scope.empty .external "").reline lines := rfl
  rw [externScope, List.foldl_map, empty, externScope]
  apply List.foldl_hom
  intro scope decl
  cases decl with
  | external name close =>
    have declared := scope.declare_relined lines
      ⟨name.text, .external, name.line, .unresolved, some (.external name.text)⟩
    rw [Symbol.reline] at declared
    simp only [Decl.reline, Token.reline_text, Token.reline_line, declared]
  | field | enum | struct | select => rfl

theorem analyze_relined (decls : List Decl) :
    analyze (decls.map (Decl.reline lines)) =
      ((analyze decls).1.reline lines, (analyze decls).2.map (Finding.reline lines)) := by
  have start : started (decls.map (Decl.reline lines)) = (started decls).reline lines := by
    rw [started, externScope_relined]
    simp [started, Resolution.reline, Arena.reline, Arena.empty, Scope.reline, Scope.empty]
  rw [analyze, start, Resolution.checkDecls_relined, analyze]

theorem message_relined (cause : Cause) : (cause.reline lines).message = cause.message := by
  cases cause <;> rfl

theorem kind_relined (cause : Cause) : (cause.reline lines).kind = cause.kind := by
  cases cause <;> rfl

theorem isDotted_relined (cause : Cause) : (cause.reline lines).isDotted = cause.isDotted := by
  cases cause <;> rfl

theorem diagnostic_relined (finding : Finding) (noted : Bool) :
    (finding.reline lines).diagnostic noted = (finding.diagnostic noted).reline lines := by
  simp only [Finding.diagnostic, Diagnostic.reported, Finding.reline, message_relined, kind_relined, Token.reline_text,
    Token.reline_line, Diagnostic.reline]

theorem report_relined (once noted : Bool) (findings : List Finding) :
    report once noted (findings.map (Finding.reline lines)) = (report once noted findings).map (Diagnostic.reline lines) := by
  induction findings generalizing noted with
  | nil => rfl
  | cons finding rest ih =>
    simp only [List.map_cons, report, ih, diagnostic_relined, Finding.reline_cause, isDotted_relined]

@[simp] theorem boundsText_relined (bounds : Option Bounds) :
    boundsText (bounds.map (Bounds.reline lines)) = boundsText bounds := by
  cases bounds with
  | none => rfl
  | some bounds => cases bounds <;> simp [Bounds.reline, boundsText]

@[simp] theorem Field.text_relined (entry : Field) : (entry.reline lines).text = entry.text := by
  simp [text]

@[simp] theorem EnumEntry.text_relined (entry : EnumEntry) : (entry.reline lines).text = entry.text := by
  obtain ⟨name, value⟩ := entry
  cases value <;> simp [text]

@[simp] theorem EnumDecl.text_relined (listing : EnumDecl) : (listing.reline lines).text = listing.text := by
  obtain ⟨entries, max, name, close⟩ := listing
  cases max <;> simp [text, Function.comp_def]

@[simp] theorem Item.text_relined (item : Item) : (item.reline lines).text = item.text := by
  obtain ⟨signed, type, name, bounds, close⟩ := item
  cases name <;> simp [text]

@[simp] theorem Arm.text_relined (arm : Arm) : (arm.reline lines).text = arm.text := by
  simp [text, Function.comp_def]

@[simp] theorem Select.lines_relined (depth : Nat) (choice : Select) :
    (choice.reline lines).lines depth = choice.lines depth := by
  obtain ⟨selector, opening, arms, name, close⟩ := choice
  cases name <;> simp [Select.lines, Function.comp_def]

mutual

theorem member_lines_relined (depth : Nat) (member : Member) :
    Member.lines depth (member.reline lines) = Member.lines depth member := by
  cases member with
  | field entry => simp [Member.reline, Member.lines]
  | struct members name close =>
    simp only [Member.reline, relineAll_map, Member.lines, Token.reline_text, members_lines_relined]
  | select choice => simp [Member.reline, Member.lines]

theorem members_lines_relined (depth : Nat) (members : List Member) :
    Member.allLines depth (members.map (Member.reline lines)) = Member.allLines depth members := by
  cases members with
  | nil => rfl
  | cons member rest =>
    simp only [List.map_cons, Member.allLines, member_lines_relined, members_lines_relined]

end

theorem decl_lines_relined (decl : Decl) : (decl.reline lines).lines = decl.lines := by
  cases decl <;> simp [Decl.reline, Decl.lines, members_lines_relined]

theorem outline_relined (decls : List Decl) : outline (decls.map (Decl.reline lines)) = outline decls := by
  simp [outline, List.flatMap_map, decl_lines_relined]

end WireFormat
