import WireFormat.Proofs.Analyzed
import WireFormat.Proofs.Linked
import WireFormat.Proofs.Spared

namespace WireFormat

-- What another extern does to an analysis: nothing but to resolve its own name.

variable {wanted : String}

theorem enum_gain (listing : EnumDecl) :
    listing.definition.gain wanted (listing.definition.entries.map fun _ => none) = listing.definition := by
  have unwritten : ∀ entry : Definition.Entry, entry.gain wanted none = entry := fun entry => by
    rw [Definition.Entry.gain, gained_unwritten]
  simp only [Definition.gain, List.zipWith_map_left, List.zipWith_self, unwritten, List.map_id']

namespace Resolution

variable {before after : Resolution} {rows : List (List (Option TypeRef))}

theorem declare_gains (gains : before.view.Gains wanted rows after.view) (name : Token) (kind : Symbol.Kind)
    (size : Size) (id : Nat) (close : Token) :
    (before.declare name kind size id close).1.view.Gains wanted rows
        (after.declare name kind size id close).1.view ∧
      (after.declare name kind size id close).2 = spared wanted (before.declare name kind size id close).2 := by
  rw [spared_settled (before.declare_lacks name kind size id close fun _ => rfl)]
  have same : after.globals = before.globals := gains.globals
  cases taken : before.globals.contains name.text with
  | true =>
    rw [declare_taken before taken, declare_taken after (same ▸ taken)]
    exact ⟨gains, rfl⟩
  | false =>
    rw [declare_fresh before taken, declare_fresh after (same ▸ taken)]
    have grown := congrArg (fun scope : Scope =>
      (scope.declare ⟨name.text, kind, name.line, size, some (.declared id)⟩).1) same
    exact ⟨⟨gains.externs, grown, gains.types.bind name.text id, .nil⟩, rfl⟩

theorem define_gains (gains : before.view.Gains wanted rows after.view) (row : List (Option TypeRef))
    (definition : Definition) (covers : row.length = definition.entries.length) (name close : Token) :
    (before.define definition name close).1.view.Gains wanted (rows ++ [row])
        (after.define (definition.gain wanted row) name close).1.view ∧
      (after.define (definition.gain wanted row) name close).2 =
        spared wanted (before.define definition name close).2 := by
  have pushed : View.Gains wanted (rows ++ [row])
      (Resolution.view { before with types := (before.types.push definition).1 })
      (Resolution.view { after with types := (after.types.push (definition.gain wanted row)).1 }) :=
    gains.push row definition covers
  have place : (after.types.push (definition.gain wanted row)).2 = (before.types.push definition).2 :=
    gains.types.size
  simp only [define, place]
  exact declare_gains pushed name _ _ _ close

theorem fieldDefinition_gains (gains : before.view.Gains wanted rows after.view) (entry : Field) :
    after.fieldDefinition entry = (before.fieldDefinition entry).gain wanted [some entry.type] := by
  simp only [fieldDefinition, gains.type?]
  rfl

theorem fieldFindings_gains (gains : before.view.Gains wanted rows after.view) (entry : Field) :
    after.fieldFindings entry = spared wanted (before.fieldFindings entry) := by
  simp only [fieldFindings, spared_append, spared_unknown, gains.boundsFindings, gains.unknownType_list]

theorem checkDecl_gains (gains : before.view.Gains wanted rows after.view) (decl : Decl)
    (same : ∀ name, name ≠ wanted → (name ∈ later ↔ name ∈ reached)) (other : decl.external? ≠ some wanted) :
    (before.checkDecl reached decl).1.view.Gains wanted (rows ++ decl.rows) (after.checkDecl later decl).1.view ∧
      (after.checkDecl later decl).2 = spared wanted (before.checkDecl reached decl).2 := by
  cases decl with
  | external name close =>
    have apart : name.text ≠ wanted := fun equal => other (congrArg some equal)
    have again : later.contains name.text = reached.contains name.text := by
      rw [Bool.eq_iff_iff, List.contains_iff_mem, List.contains_iff_mem]
      exact same name.text apart
    rw [Decl.rows, List.append_nil]
    refine ⟨gains, ?_⟩
    simp only [checkDecl, again]
    split
    · exact (spared_settled (List.forall_mem_singleton.mpr rfl)).symm
    · rfl
  | field entry =>
    obtain ⟨defined, found⟩ := define_gains gains [some entry.type] (before.fieldDefinition entry) rfl
      entry.name entry.close
    rw [← fieldDefinition_gains gains] at defined found
    refine ⟨defined, ?_⟩
    simp only [checkDecl, spared_append, fieldFindings_gains gains, found]
  | enum listing =>
    have row : (listing.definition.entries.map fun _ => (none : Option TypeRef)).length =
        listing.definition.entries.length := List.length_map _
    obtain ⟨defined, found⟩ := define_gains gains _ listing.definition row listing.name listing.close
    rw [enum_gain] at defined found
    refine ⟨defined, ?_⟩
    have own : Lacks Cause.isUnresolved listing.findings :=
      listing.lacks (fun _ => rfl) (fun _ => rfl) (fun _ _ => rfl) fun _ _ _ => rfl
    simp only [checkDecl, spared_append, spared_settled own, found]
  | struct members name close =>
    have body := View.checkMembers_gains (gains.enter name.text) members
    obtain ⟨left, id, found⟩ := View.leave_gains body name close
    have inside : View.Gains wanted (rows ++ Member.allRows members ++ [members.map Member.written?])
        (Resolution.view { before with types := (before.view.checkStruct members name close).view.types })
        (Resolution.view { after with types := (after.view.checkStruct members name close).view.types }) :=
      ⟨gains.externs, gains.globals, left.types, .nil⟩
    obtain ⟨declared, taken⟩ := declare_gains inside name .struct .unsized
      (before.view.checkStruct members name close).id close
    have place : (after.view.checkStruct members name close).id =
        (before.view.checkStruct members name close).id := id
    have findings : (after.view.checkStruct members name close).findings =
        spared wanted (before.view.checkStruct members name close).findings := found
    refine ⟨?_, by simp only [checkDecl, place, findings, spared_append, taken]⟩
    rw [Decl.rows, ← List.append_assoc]
    simp only [checkDecl, place]
    exact declared
  | select choice =>
    have row := View.select_covered before.view choice
    have definition := gains.selectDefinition choice
    simp only [checkDecl]
    cases choice.name with
    | none =>
      refine ⟨?_, gains.selectFindings choice⟩
      rw [definition]
      exact gains.push choice.written _ row
    | some name =>
      obtain ⟨defined, found⟩ := define_gains gains choice.written _ row name choice.close
      rw [← definition] at defined found
      refine ⟨defined, ?_⟩
      simp only [spared_append, gains.selectFindings, found]

theorem checkDecls_gains (gains : before.view.Gains wanted rows after.view) (decls : List Decl)
    (same : ∀ name, name ≠ wanted → (name ∈ later ↔ name ∈ reached))
    (fresh : wanted ∉ decls.filterMap Decl.external?) :
    (before.checkDecls reached decls).1.view.Gains wanted (rows ++ decls.flatMap Decl.rows)
        (after.checkDecls later decls).1.view ∧
      (after.checkDecls later decls).2 = spared wanted (before.checkDecls reached decls).2 := by
  induction decls generalizing before after rows reached later with
  | nil =>
    refine ⟨?_, rfl⟩
    rw [List.flatMap_nil, List.append_nil]
    exact gains
  | cons decl rest ih =>
    obtain ⟨apart, others⟩ : decl.external? ≠ some wanted ∧ wanted ∉ rest.filterMap Decl.external? := by
      simpa [List.mem_filterMap] using fresh
    obtain ⟨one, found⟩ := checkDecl_gains gains decl same apart
    have further : ∀ name, name ≠ wanted → (name ∈ decl.external?.toList ++ later ↔
        name ∈ decl.external?.toList ++ reached) := by
      intro name unlike
      rw [List.mem_append, List.mem_append, same name unlike]
    obtain ⟨more, rest⟩ := ih one further others
    refine ⟨?_, by simp only [checkDecls, spared_append, found, rest]⟩
    rw [List.flatMap_cons, ← List.append_assoc]
    exact more

-- The names of the externs before a place, the last one first.
def known (front : List Decl) : List String := (front.filterMap Decl.external?).reverse

theorem known_cons (decl : Decl) (front : List Decl) :
    known (decl :: front) = known front ++ decl.external?.toList := by
  cases named : decl.external? <;> simp [known, named]

theorem checkDecls_append (resolution : Resolution) (reached : List String) (front back : List Decl) :
    resolution.checkDecls reached (front ++ back) =
      (((resolution.checkDecls reached front).1.checkDecls (known front ++ reached) back).1,
        (resolution.checkDecls reached front).2 ++
          ((resolution.checkDecls reached front).1.checkDecls (known front ++ reached) back).2) := by
  induction front generalizing resolution reached with
  | nil => rfl
  | cons decl front ih => simp only [List.cons_append, checkDecls, ih, known_cons, List.append_assoc]

theorem inserted_gains (gains : before.view.Gains name.text rows after.view) (front back : List Decl)
    (close : Token) (fresh : name.text ∉ (front ++ back).filterMap Decl.external?) :
    (before.checkDecls [] (front ++ back)).1.view.Gains name.text (rows ++ (front ++ back).flatMap Decl.rows)
        (after.checkDecls [] (front ++ .external name close :: back)).1.view ∧
      (after.checkDecls [] (front ++ .external name close :: back)).2 =
        spared name.text (before.checkDecls [] (front ++ back)).2 := by
  rw [List.filterMap_append, List.mem_append, not_or] at fresh
  have unseen : name.text ∉ known front ++ [] := by simpa [known] using fresh.1
  have further : ∀ other, other ≠ name.text →
      (other ∈ (Decl.external name close).external?.toList ++ (known front ++ []) ↔
        other ∈ known front ++ []) := by
    intro other unlike
    simp [Decl.external?, unlike]
  have same : ∀ other, other ≠ name.text → (other ∈ ([] : List String) ↔ other ∈ ([] : List String)) :=
    fun _ _ => Iff.rfl
  obtain ⟨start, found⟩ := checkDecls_gains gains front same fresh.1
  obtain ⟨rest, more⟩ := checkDecls_gains start back further fresh.2
  have passed : (after.checkDecls [] front).1.checkDecl (known front ++ []) (.external name close) =
      ((after.checkDecls [] front).1, []) := by
    rw [checkDecl, if_neg (by rwa [List.contains_iff_mem])]
  rw [List.flatMap_append, ← List.append_assoc]
  simp only [checkDecls_append, checkDecls, passed, List.nil_append, spared_append, found, more]
  exact ⟨rest, trivial⟩

end Resolution

theorem externScope_inserted (front back : List Decl) (name close : Token)
    (fresh : name.text ∉ (front ++ back).filterMap Decl.external?) :
    ∃ later, externScope (front ++ back) =
        { externScope front with symbols := (externScope front).symbols ++ later } ∧
      externScope (front ++ .external name close :: back) =
        { externScope front with symbols := (externScope front).symbols ++ externSymbol name :: later } := by
  induction back using List.reverseRecOn with
  | nil =>
    have unseen : (externScope front).contains name.text = false := by
      rw [← Bool.not_eq_true, externScope_known]
      simpa using fresh
    refine ⟨[], by simp, ?_⟩
    rw [externScope_external, Scope.declare_fresh _ (externSymbol name) unseen]
  | append_singleton back last ih =>
    rw [← List.append_assoc, List.filterMap_append, List.mem_append, not_or] at fresh
    obtain ⟨later, without, within⟩ := ih fresh.1
    rw [← List.append_assoc, ← List.cons_append, ← List.append_assoc]
    cases last with
    | external other ends =>
      have unlike : name.text ≠ other.text := by simpa [Decl.external?] using fresh.2
      rw [externScope_external, externScope_external, without, within]
      generalize externScope front = scope
      have same : Scope.contains { scope with symbols := scope.symbols ++ externSymbol name :: later } other.text =
          Scope.contains { scope with symbols := scope.symbols ++ later } other.text := by
        simp [Scope.contains, externSymbol, unlike]
      cases taken : Scope.contains { scope with symbols := scope.symbols ++ later } other.text with
      | true =>
        rw [Scope.declare_taken _ (externSymbol other) taken,
          Scope.declare_taken _ (externSymbol other) (same.trans taken)]
        exact ⟨later, rfl, rfl⟩
      | false =>
        rw [Scope.declare_fresh _ (externSymbol other) taken,
          Scope.declare_fresh _ (externSymbol other) (same.trans taken)]
        exact ⟨later ++ [externSymbol other], by simp, by simp⟩
    | field | enum | struct | select =>
      rw [externScope_other _ rfl, externScope_other _ rfl]
      exact ⟨later, without, within⟩

-- A name without a dot gives no note, so without it the others keep theirs.
theorem misses_plain {finding : Finding} (missed : finding.misses wanted = true) :
    finding.cause.isDotted = false := by
  rw [Finding.misses] at missed
  rw [Cause.isDotted]
  cases named : finding.cause.unresolved? with
  | none => rfl
  | some name =>
    simp only [named, Option.any_some, Name.isPlain, Bool.and_eq_true, Bool.not_eq_true'] at missed
    exact missed.1

theorem report_spared (once noted : Bool) (findings : List Finding) :
    report once noted (spared wanted findings) =
      ((findings.zip (report once noted findings)).filter fun pair => !pair.1.misses wanted).map Prod.snd := by
  induction findings generalizing noted with
  | nil => rfl
  | cons finding rest ih =>
    cases missed : finding.misses wanted with
    | true => simpa [spared, report, missed, misses_plain missed] using ih noted
    | false => simpa [spared, report, missed] using ih _

theorem report_length (once noted : Bool) (findings : List Finding) :
    (report once noted findings).length = findings.length := by
  induction findings generalizing noted with
  | nil => rfl
  | cons finding rest ih => rw [report, List.length_cons, List.length_cons, ih]

-- An analysis with the extern beside one without it. Each finding has its diagnostic.
structure Gained (name : Token) (decls : List Decl) (before after : Resolution × List Finding) : Prop where
  findings : after.2 = spared name.text before.2
  paired : ∀ once, (report once false before.2).length = before.2.length
  reports : ∀ once, report once false after.2 =
    ((before.2.zip (report once false before.2)).filter fun pair => !pair.1.misses name.text).map Prod.snd
  globals : after.1.globals = before.1.globals
  types : before.1.types.Gains name.text (decls.flatMap Decl.rows) after.1.types
  externs : ∃ earlier later, before.1.externs.symbols = earlier ++ later ∧
    after.1.externs = { before.1.externs with symbols := earlier ++ externSymbol name :: later }

structure Alike (one other : Resolution × List Finding) : Prop where
  findings : one.2 = other.2
  globals : one.1.globals = other.1.globals
  types : one.1.types = other.1.types
  externs : one.1.externs.symbols.Perm other.1.externs.symbols

theorem analyze_gained (front back : List Decl) (name close : Token)
    (fresh : name.text ∉ (front ++ back).filterMap Decl.external?) :
    Gained name (front ++ back) (analyze (front ++ back)) (analyze (front ++ .external name close :: back)) := by
  have start : View.Gains name.text [] (started (front ++ back)).view
      (started (front ++ .external name close :: back)).view := by
    refine ⟨fun other => ?_, rfl, ⟨rfl, .nil, rfl⟩, .nil⟩
    have named : (Decl.external name close).external? = some name.text := rfl
    rw [Bool.eq_iff_iff, Bool.or_eq_true, decide_eq_true_iff]
    simp only [Resolution.view, started, externScope_known, List.filterMap_append, List.filterMap_cons_some named,
      List.mem_append, List.mem_cons]
    rw [or_left_comm, or_comm]
  obtain ⟨gains, found⟩ := Resolution.inserted_gains start front back close fresh
  obtain ⟨later, without, within⟩ := externScope_inserted front back name close fresh
  refine ⟨found, fun once => report_length once false _, fun once => ?_, gains.globals, gains.types,
    (externScope front).symbols, later, ?_, ?_⟩
  · rw [analyze, found]
    exact report_spared once false _
  · rw [analyze, Resolution.checkDecls_externs, started, without]
  · rw [analyze, analyze, Resolution.checkDecls_externs, Resolution.checkDecls_externs, started, started, without, within]

theorem Gained.alike {before one other : Resolution × List Finding} (first : Gained name decls before one)
    (second : Gained name decls before other) : Alike one other := by
  refine ⟨first.findings.trans second.findings.symm, first.globals.trans second.globals.symm,
    first.types.unique second.types, ?_⟩
  obtain ⟨front, back, split, same⟩ := first.externs
  obtain ⟨earlier, later, cut, also⟩ := second.externs
  rw [same, also]
  have whole : front ++ back = earlier ++ later := split.symm.trans cut
  have moved : (front ++ externSymbol name :: back).Perm (externSymbol name :: (front ++ back)) := List.perm_middle
  rw [whole] at moved
  exact moved.trans List.perm_middle.symm

-- An extern can stand anywhere. It resolves its own name where that was missed, and
-- nothing else comes, goes or changes.
theorem extern_gained (front back : List Decl) (name close : Token)
    (fresh : name.text ∉ (front ++ back).filterMap Decl.external?) :
    Gained name (front ++ back) (analyze (front ++ back)) (analyze (front ++ .external name close :: back)) ∧
      ∀ other rest, other ++ rest = front ++ back →
        Alike (analyze (other ++ .external name close :: rest))
          (analyze (front ++ .external name close :: back)) := by
  have here := analyze_gained front back name close fresh
  refine ⟨here, fun other rest same => ?_⟩
  have there := analyze_gained other rest name close (same ▸ fresh)
  rw [same] at there
  exact there.alike here

-- A line of a type that only an extern after it declares.
def bodyLine : Decl :=
  .field ⟨.named (.simple ⟨.ident, "body", 1⟩), ⟨.ident, "data", 1⟩, none, ⟨.semi, ";", 1⟩⟩

def bodyName : Token := ⟨.ident, "body", 2⟩

theorem body_gained : bodyName.text ∉ ([bodyLine] ++ []).filterMap Decl.external? ∧
    Gained bodyName ([bodyLine] ++ []) (analyze ([bodyLine] ++ []))
      (analyze ([bodyLine] ++ .external bodyName ⟨.semi, ";", 2⟩ :: [])) ∧
    ∀ other rest, other ++ rest = [bodyLine] ++ [] →
      Alike (analyze (other ++ .external bodyName ⟨.semi, ";", 2⟩ :: rest))
        (analyze ([bodyLine] ++ .external bodyName ⟨.semi, ";", 2⟩ :: [])) := by
  have fresh : bodyName.text ∉ ([bodyLine] ++ []).filterMap Decl.external? := by decide
  exact ⟨fresh, extern_gained [bodyLine] [] bodyName ⟨.semi, ";", 2⟩ fresh⟩

end WireFormat
