import WireFormat.Proofs.Gained
import WireFormat.Proofs.Stream

namespace WireFormat

-- Declarations that come later add to what is known and change none of it.

def Scope.Grows (before after : Scope) : Prop :=
  ∃ more, after = { before with symbols := before.symbols ++ more }

def Arena.Binds (before after : Arena) : Prop :=
  ∀ name id, before.lookup name = some id → after.lookup name = some id

-- Tables in which everything stands where it stood.
structure Resolution.Extends (before after : Resolution) : Prop where
  externs : after.externs = before.externs
  globals : before.globals.Grows after.globals
  types : before.types.Grows after.types
  bindings : before.types.Binds after.types

namespace Scope

theorem Grows.refl (scope : Scope) : scope.Grows scope := ⟨[], by simp⟩

theorem Grows.trans (one : Grows before middle) (other : Grows middle after) : Grows before after := by
  obtain ⟨more, rfl⟩ := one
  obtain ⟨rest, rfl⟩ := other
  exact ⟨more ++ rest, by simp⟩

theorem declare_grows (scope : Scope) (symbol : Symbol) : scope.Grows (scope.declare symbol).1 := by
  cases taken : scope.contains symbol.name with
  | true =>
    rw [declare_taken scope symbol taken]
    exact .refl scope
  | false =>
    rw [declare_fresh scope symbol taken]
    exact ⟨[symbol], rfl⟩

end Scope

theorem Arena.bind_binds (types : Arena) (name : String) (id : Nat) : types.Binds (types.bind name id).1 := by
  intro other bound found
  cases free : types.lookup name with
  | some taken =>
    have kept : types.bind name id = (types, false) := by simp [bind, free]
    rw [kept]
    exact found
  | none =>
    have apart : other ≠ name := by
      rintro rfl
      rw [free] at found
      cases found
    rw [bind_lookup types id free, if_neg apart]
    exact found

namespace Resolution

theorem Extends.refl (resolution : Resolution) : resolution.Extends resolution :=
  ⟨rfl, .refl _, .refl _, fun _ _ found => found⟩

theorem Extends.trans (one : Extends before middle) (other : Extends middle after) : Extends before after :=
  ⟨other.externs.trans one.externs, one.globals.trans other.globals, one.types.trans other.types,
    fun name id found => other.bindings name id (one.bindings name id found)⟩

variable (resolution : Resolution)

theorem grown_extends {after : Arena} (grows : resolution.types.Grows after)
    (same : after.bindings = resolution.types.bindings) : resolution.Extends { resolution with types := after } := by
  refine ⟨rfl, .refl _, grows, fun name id found => ?_⟩
  rwa [Arena.lookup, same]

theorem push_extends (definition : Definition) :
    resolution.Extends { resolution with types := (resolution.types.push definition).1 } :=
  resolution.grown_extends (Arena.push_grows _ _) rfl

theorem declare_extends (name : Token) (kind : Symbol.Kind) (size : Size) (id : Nat) (close : Token) :
    resolution.Extends (resolution.declare name kind size id close).1 := by
  cases taken : resolution.globals.contains name.text with
  | true =>
    rw [declare_taken resolution taken]
    exact .refl resolution
  | false =>
    rw [declare_fresh resolution taken]
    exact ⟨rfl, Scope.declare_grows _ _, Arena.bind_grows _ _ _, Arena.bind_binds _ _ _⟩

theorem define_extends (definition : Definition) (name close : Token) :
    resolution.Extends (resolution.define definition name close).1 :=
  (resolution.push_extends definition).trans (declare_extends _ _ _ _ _ _)

theorem checkDecl_extends (reached : List String) (decl : Decl) :
    resolution.Extends (resolution.checkDecl reached decl).1 := by
  cases decl with
  | external name close => exact .refl resolution
  | field entry => exact define_extends resolution _ _ _
  | enum listing => exact define_extends resolution _ _ _
  | struct members name close =>
    have inside := View.checkMember_frame resolution.view (.struct members name close)
    exact (resolution.grown_extends inside.types inside.bindings).trans (declare_extends _ _ _ _ _ _)
  | select choice =>
    simp only [checkDecl]
    cases choice.name with
    | none => exact resolution.push_extends _
    | some name => exact define_extends resolution _ _ _

theorem checkDecls_extends (resolution : Resolution) (reached : List String) (decls : List Decl) :
    resolution.Extends (resolution.checkDecls reached decls).1 := by
  induction decls generalizing resolution reached with
  | nil => exact .refl resolution
  | cons decl rest ih => exact (resolution.checkDecl_extends reached decl).trans (ih _ _)

end Resolution

theorem externScope_appended (front back : List Decl)
    (known : ∀ name ∈ back.filterMap Decl.external?, name ∈ front.filterMap Decl.external?) :
    externScope (front ++ back) = externScope front := by
  induction back using List.reverseRecOn with
  | nil => rw [List.append_nil]
  | append_singleton back last ih =>
    rw [List.filterMap_append, List.forall_mem_append] at known
    rw [← List.append_assoc]
    cases last with
    | external name close =>
      have listed : name.text ∈ front.filterMap Decl.external? := known.2 name.text (List.mem_singleton_self _)
      have taken := (externScope_known front name.text).mpr listed
      rw [externScope_external, ih known.1, Scope.declare_taken _ (externSymbol name) taken]
    | field | enum | struct | select =>
      rw [externScope_other _ rfl]
      exact ih known.1

-- Declarations can be appended, whatever they declare: ids, definitions, names and reports
-- of those before them stay, and more of each may follow. Only a new extern would reach back.
theorem analyze_appended (front back : List Decl)
    (known : ∀ name ∈ back.filterMap Decl.external?, name ∈ front.filterMap Decl.external?) :
    (analyze front).1.Extends (analyze (front ++ back)).1 ∧
      ∀ once, report once false (analyze front).2 <+: report once false (analyze (front ++ back)).2 := by
  have start : started (front ++ back) = started front := by
    rw [started, externScope_appended front back known, started]
  rw [analyze, analyze, start, Resolution.checkDecls_append]
  refine ⟨Resolution.checkDecls_extends _ _ back, fun once => ?_⟩
  rw [report_append]
  exact List.prefix_append _ _

-- A record with a struct in it, and after it its name and its extern once more.
def partName : Token := ⟨.ident, "part", 1⟩

def partRecord : List Decl :=
  let tag : Member := .field ⟨.scalar .uint8, ⟨.ident, "tag", 2⟩, none, ⟨.semi, ";", 2⟩⟩
  let rest : Member := .field ⟨.named (.simple partName), ⟨.ident, "rest", 3⟩, none, ⟨.semi, ";", 3⟩⟩
  [.external partName ⟨.semi, ";", 1⟩,
   .struct [.struct [tag] ⟨.ident, "kind", 2⟩ ⟨.semi, ";", 2⟩, rest] ⟨.ident, "record", 4⟩ ⟨.semi, ";", 4⟩]

def partRepeats : List Decl :=
  [.external partName ⟨.semi, ";", 5⟩, .field ⟨.scalar .bytes, ⟨.ident, "record", 6⟩, none, ⟨.semi, ";", 6⟩⟩]

theorem part_appended :
    (∀ name ∈ partRepeats.filterMap Decl.external?, name ∈ partRecord.filterMap Decl.external?) ∧
      (analyze partRecord).1.Extends (analyze (partRecord ++ partRepeats)).1 ∧
        ∀ once, report once false (analyze partRecord).2 <+:
          report once false (analyze (partRecord ++ partRepeats)).2 := by
  have known : ∀ name ∈ partRepeats.filterMap Decl.external?, name ∈ partRecord.filterMap Decl.external? := by decide
  exact ⟨known, analyze_appended partRecord partRepeats known⟩

end WireFormat
