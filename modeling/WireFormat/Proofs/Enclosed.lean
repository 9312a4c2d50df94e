import WireFormat.Proofs.Dotted
import WireFormat.Proofs.Gained
import WireFormat.Proofs.Rebodied
import WireFormat.Proofs.Stream

namespace WireFormat

-- What the inside of a declaration changes in the rest of a schema: where definitions
-- stand, and with the note for the first dotted name only, where that note stands.

namespace Resolution

variable {shift : Shift} {one other : Resolution}

theorem checkDecls_moves (moves : one.view.Moves shift other.view) (reached : List String) (decls : List Decl) :
    (one.checkDecls reached decls).1.view.Moves shift (other.checkDecls reached decls).1.view ∧
      other.foundEach reached decls = one.foundEach reached decls := by
  induction decls generalizing one other reached with
  | nil => exact ⟨moves, rfl⟩
  | cons decl rest ih =>
    obtain ⟨next, found⟩ := checkDecl_moves moves reached decl
    obtain ⟨after, others⟩ := ih next (decl.external?.toList ++ reached)
    refine ⟨after, ?_⟩
    simp only [foundEach, found, others]

theorem foundEach_append (resolution : Resolution) (reached : List String) (front back : List Decl) :
    resolution.foundEach reached (front ++ back) = resolution.foundEach reached front ++
      (resolution.checkDecls reached front).1.foundEach (known front ++ reached) back := by
  induction front generalizing resolution reached with
  | nil => rfl
  | cons decl front ih => simp only [List.cons_append, foundEach, checkDecls, ih, known_cons, List.append_assoc]

theorem foundEach_length (resolution : Resolution) (reached : List String) (decls : List Decl) :
    (resolution.foundEach reached decls).length = decls.length := by
  induction decls generalizing resolution reached with
  | nil => rfl
  | cons decl rest ih => rw [foundEach, List.length_cons, List.length_cons, ih]

end Resolution

section Reports

variable {within inside : List Finding}

theorem reportEach_append (once noted : Bool) (front back : List (List Finding)) :
    reportEach once noted (front ++ back) = reportEach once noted front ++
      reportEach once (noted || front.flatten.any fun finding => finding.cause.isDotted) back := by
  induction front generalizing noted with
  | nil => simp [reportEach]
  | cons found rest ih => simp only [List.cons_append, reportEach, ih, List.flatten_cons, List.any_append, Bool.or_assoc]

theorem reportEach_length (once noted : Bool) (blocks : List (List Finding)) :
    (reportEach once noted blocks).length = blocks.length := by
  induction blocks generalizing noted with
  | nil => rfl
  | cons found rest ih => rw [reportEach, List.length_cons, List.length_cons, ih]

theorem reportEach_every (noted : Bool) (blocks : List (List Finding)) :
    reportEach false noted blocks =
      blocks.map fun found => found.map fun finding => finding.diagnostic finding.cause.isDotted := by
  induction blocks generalizing noted with
  | nil => rfl
  | cons found rest ih => rw [reportEach, report_every, ih, List.map_cons]

theorem reportEach_unnoted (once noted : Bool) (blocks : List (List Finding)) :
    (reportEach once noted blocks).map (·.map Diagnostic.unnoted) =
      blocks.map fun found => found.map (·.diagnostic false) := by
  induction blocks generalizing noted with
  | nil => rfl
  | cons found rest ih => rw [reportEach, List.map_cons, report_unnoted, ih, List.map_cons]

theorem noted_dotted (found : List Finding) :
    (notedDiagnostics (report true false found)).isEmpty = !found.any fun finding => finding.cause.isDotted := by
  rw [(report_first found).noted_one, List.isEmpty_map]
  cases dotted : findingsOf Cause.isDotted found with
  | nil =>
    have none : (found.any fun finding => finding.cause.isDotted) = false :=
      List.any_eq_false.mpr (List.filter_eq_nil_iff.mp dotted)
    rw [none]
    rfl
  | cons first rest =>
    have member : first ∈ findingsOf Cause.isDotted found := dotted ▸ List.mem_cons_self
    rw [List.any_eq_true.mpr ⟨first, List.mem_filter.mp member⟩]
    rfl

-- What is reported later depends on a declaration in one thing: whether it has given the
-- note that is given once.
theorem reportEach_later (once noted : Bool) (blocks : List (List Finding))
    (same : once = false ∨ (notedDiagnostics (report once noted within)).isEmpty =
      (notedDiagnostics (report once noted inside)).isEmpty) :
    reportEach once (noted || within.any fun finding => finding.cause.isDotted) blocks =
      reportEach once (noted || inside.any fun finding => finding.cause.isDotted) blocks := by
  cases once with
  | false => rw [reportEach_every, reportEach_every]
  | true =>
    cases noted with
    | true => simp only [Bool.true_or]
    | false =>
      rcases same with every | same
      · cases every
      · rw [noted_dotted, noted_dotted, Bool.not_inj_iff] at same
        rw [same]

def Repetition.opening : Repetition → String
  | .symbol => "Duplicate symbol "
  | .item => "Duplicate item "
  | .label => "Duplicate case "

def Repetition.reports (repetition : Repetition) (message : String) : Bool :=
  repetition.opening.toList.isPrefixOf message.toList

def Repetition.diagnostics (repetition : Repetition) (diagnostics : List Diagnostic) : List Diagnostic :=
  diagnostics.filter fun diagnostic => repetition.reports diagnostic.message

theorem Repetition.reports_exact (repetition : Repetition) (cause : Cause) :
    repetition.reports cause.message = repetition.isCause cause := by
  cases cause with
  | failedLiteral error => cases repetition <;> cases error <;> decide
  | _ =>
    cases repetition <;> unfold Cause.message <;>
      simp [reports, opening, isCause, Cause.repetition?, Cause.quoted, String.toList_append, List.isPrefixOf]

theorem Cause.repeat_undotted (cause : Cause) (again : cause.isRepeat = true) : cause.isDotted = false := by
  cases cause <;> first | rfl | cases again

theorem report_filter {about : Diagnostic → Bool} {kind : Cause → Bool}
    (tells : ∀ finding noted, about (Finding.diagnostic finding noted) = kind finding.cause)
    (undotted : ∀ cause, kind cause = true → cause.isDotted = false) (once noted : Bool) (findings : List Finding) :
    (report once noted findings).filter about = (findingsOf kind findings).map (·.diagnostic false) := by
  induction findings generalizing noted with
  | nil => rfl
  | cons finding rest ih =>
    rw [report, List.filter_cons, tells, ih]
    cases told : kind finding.cause with
    | false => rw [findingsOf_skip told, if_neg Bool.false_ne_true]
    | true => rw [findingsOf_cons told, if_pos rfl, undotted _ told, Bool.false_and, List.map_cons]

theorem Repetition.report_exact (repetition : Repetition) (once noted : Bool) (findings : List Finding) :
    repetition.diagnostics (report once noted findings) =
      (findingsOf repetition.isCause findings).map (·.diagnostic false) :=
  report_filter (fun finding _ => repetition.reports_exact finding.cause)
    (fun cause about => cause.repeat_undotted (repetition.cause_repeat cause about)) once noted findings

theorem Repetition.report_after {repetition : Repetition} (lacks : Lacks repetition.isCause within)
    (once noted : Bool) (found : List Finding) :
    repetition.diagnostics (report once noted (within ++ found)) =
      (findingsOf repetition.isCause found).map (·.diagnostic false) := by
  rw [repetition.report_exact, findingsOf_append, lacks.none, List.nil_append]

end Reports

-- All definitions there are when the first declarations of a schema have been checked.
def definedBy (schema front : List Decl) : List Definition :=
  ((started schema).checkDecls [] front).1.types.definitions.toList

-- What a schema reports, one list for each of its declarations.
structure Reports (once : Bool) (schema : List Decl) (blocks : List (List Diagnostic)) : Prop where
  each : reportDecls once schema = blocks
  whole : blocks.flatten = report once false (analyze schema).2

theorem Reports.of_each (each : reportDecls once schema = blocks) : Reports once schema blocks :=
  ⟨each, each ▸ reportDecls_flatten once schema⟩

-- The reports of a declaration with two bodies and of those after it. Where one body gives
-- the one note and the other does not, a later declaration may give it.
structure Apart (once : Bool) (own its : List Diagnostic) (after again : List (List Diagnostic)) : Prop where
  taken : Repetition.symbol.diagnostics its = Repetition.symbol.diagnostics own
  unnoted : again.map (·.map Diagnostic.unnoted) = after.map (·.map Diagnostic.unnoted)
  noted : once = false ∨ (notedDiagnostics own).isEmpty = (notedDiagnostics its).isEmpty → again = after

theorem Scope.Beside.kinds {shift : Shift} {one other : Scope} (beside : one.Beside (Symbol.Moves shift) other) :
    other.symbols.map (fun symbol => (symbol.name, symbol.kind)) =
      one.symbols.map fun symbol => (symbol.name, symbol.kind) := by
  obtain ⟨_, _, symbols⟩ := one
  obtain ⟨_, _, others⟩ := other
  change List.Forall₂ _ symbols others at beside
  induction beside with
  | nil => rfl
  | cons symbol _ ih =>
    simp only at ih
    simp only [List.map_cons, symbol.name, symbol.kind, ih]

-- Two schemas that differ in the body of one declaration. All but what the bodies bring is
-- in both arenas, and no name, no top-level symbol and no later definition leads into a body.
structure Enclosed (shift : Shift) (front : List Decl) (decl other : Decl) (back : List Decl) : Prop where
  reports : ∀ once, ∃ before own its after again,
    before.length = front.length ∧ after.length = back.length ∧
    Reports once (front ++ decl :: back) (before ++ own :: after) ∧
    Reports once (front ++ other :: back) (before ++ its :: again) ∧ Apart once own its after again
  names : (analyze (front ++ other :: back)).1.globals.symbols.map (fun symbol => (symbol.name, symbol.kind)) =
    (analyze (front ++ decl :: back)).1.globals.symbols.map fun symbol => (symbol.name, symbol.kind)
  view : (analyze (front ++ decl :: back)).1.view.Moves shift (analyze (front ++ other :: back)).1.view
  shared : definedBy (front ++ decl :: back) front = shift.front ∧
    definedBy (front ++ other :: back) front = shift.front
  brought : definedBy (front ++ decl :: back) (front ++ [decl]) =
    shift.front ++ shift.one.nested ++ [shift.one.own]
  replaced : definedBy (front ++ other :: back) (front ++ [other]) =
    shift.front ++ shift.other.nested ++ [shift.other.own]

section Outside

variable (front back : List Decl)

-- What is known where the declaration stands, which it does not decide.
def reachedBy : Resolution := ((started (front ++ back)).checkDecls [] front).1

theorem reachedBy_linked : (reachedBy front back).view.Linked := by
  have start : (started (front ++ back)).view.Linked := registered_linked _
  exact Resolution.checkDecls_linked start [] front

theorem started_outside (outside : decl.external? = none) :
    started (front ++ decl :: back) = started (front ++ back) := by
  have kept : externScope (front ++ [decl]) = externScope front := externScope_other front outside
  have split : front ++ decl :: back = front ++ [decl] ++ back := by simp
  have scope : externScope (front ++ decl :: back) = externScope (front ++ back) := by
    rw [split, externScope, List.foldl_append, ← externScope, kept, externScope, externScope, List.foldl_append]
  rw [started, scope, started]

theorem checkDecls_outside (resolution : Resolution) (outside : decl.external? = none) :
    (resolution.checkDecls [] (front ++ decl :: back)).1 =
      (((resolution.checkDecls [] front).1.checkDecl (Resolution.known front) decl).1.checkDecls
        (Resolution.known front) back).1 := by
  rw [Resolution.checkDecls_append, List.append_nil, Resolution.checkDecls, outside]
  rfl

theorem analyze_outside (outside : decl.external? = none) :
    (analyze (front ++ decl :: back)).1 =
      (((reachedBy front back).checkDecl (Resolution.known front) decl).1.checkDecls
        (Resolution.known front) back).1 := by
  have start := started_outside front back outside
  have split := checkDecls_outside front back (started (front ++ decl :: back)) outside
  rw [start] at split
  rw [reachedBy, ← split, ← start]
  rfl

theorem definedBy_front (outside : decl.external? = none) :
    definedBy (front ++ decl :: back) front = (reachedBy front back).types.definitions.toList := by
  rw [definedBy, started_outside front back outside, reachedBy]

theorem definedBy_outside (outside : decl.external? = none) :
    definedBy (front ++ decl :: back) (front ++ [decl]) =
      ((reachedBy front back).checkDecl (Resolution.known front) decl).1.types.definitions.toList := by
  rw [definedBy, checkDecls_outside front [] _ outside, started_outside front back outside]
  rfl

def foundBefore : List (List Finding) := (started (front ++ back)).foundEach [] front

theorem reports_outside (once : Bool) (outside : decl.external? = none) :
    let checked := (reachedBy front back).checkDecl (Resolution.known front) decl
    let noted := (foundBefore front back).flatten.any fun finding => finding.cause.isDotted
    Reports once (front ++ decl :: back) (reportEach once false (foundBefore front back) ++
      report once noted checked.2 ::
        reportEach once (noted || checked.2.any fun finding => finding.cause.isDotted)
          (checked.1.foundEach (Resolution.known front) back)) := by
  intro checked noted
  apply Reports.of_each
  have start := started_outside front back outside
  rw [reportDecls, start, Resolution.foundEach_append, reportEach_append, Bool.false_or, List.append_nil,
    Resolution.foundEach, reportEach, outside]
  rfl

end Outside

theorem Resolution.Met.apart {resolution : Resolution} {shift : Shift} {one other : Resolution × List Finding}
    (met : resolution.Met shift one other) (once noted : Bool) (reached : List String) (back : List Decl) :
    Apart once (report once noted one.2) (report once noted other.2)
      (reportEach once (noted || one.2.any fun finding => finding.cause.isDotted) (one.1.foundEach reached back))
      (reportEach once (noted || other.2.any fun finding => finding.cause.isDotted)
        (other.1.foundEach reached back)) := by
  have later := (Resolution.checkDecls_moves met.view reached back).2
  obtain ⟨within, inside, taken, first, second, untaken, clear⟩ := met.findings
  refine ⟨?_, ?_, fun same => ?_⟩
  · rw [first, second, Repetition.report_after untaken, Repetition.report_after clear]
  · rw [reportEach_unnoted, reportEach_unnoted, later]
  · rw [later]
    exact (reportEach_later once noted _ same).symm

-- A declaration can be given any other body without a trace in the rest of the schema,
-- but for the places of definitions and the one note that a report of its own may take.
theorem body_enclosed (front back : List Decl) (rebodied : Decl.Rebodied decl other) :
    ∃ shift, Enclosed shift front decl other back := by
  obtain ⟨outside, also⟩ := rebodied.external?
  obtain ⟨shift, met⟩ := Resolution.checkDecl_met (reachedBy_linked front back) rebodied (Resolution.known front)
  have view := (Resolution.checkDecls_moves met.view (Resolution.known front) back).1
  rw [← analyze_outside front back outside, ← analyze_outside front back also] at view
  refine ⟨shift, ?_, ?_, view, ⟨?_, ?_⟩, ?_, ?_⟩
  · intro once
    refine ⟨_, _, _, _, _, ?_, ?_, reports_outside front back once outside,
      reports_outside front back once also, met.apart once _ _ back⟩
    · rw [reportEach_length, foundBefore, Resolution.foundEach_length]
    · rw [reportEach_length, Resolution.foundEach_length]
  · exact view.globals.kinds
  · rw [definedBy_front front back outside, met.front]
  · rw [definedBy_front front back also, met.front]
  · rw [definedBy_outside front back outside, met.first]
  · rw [definedBy_outside front back also, met.second]

-- A struct with and without another struct in it, and a line of it after both.
def headerName : Token := ⟨.ident, "header", 3⟩
def tagLine : Member := .field ⟨.scalar .uint8, ⟨.ident, "tag", 2⟩, none, ⟨.semi, ";", 2⟩⟩
def flatHeader : Decl := .struct [tagLine] headerName ⟨.semi, ";", 3⟩
def nestedHeader : Decl :=
  .struct [.struct [tagLine] ⟨.ident, "kind", 2⟩ ⟨.semi, ";", 2⟩, tagLine] headerName ⟨.semi, ";", 3⟩
def headerLine : Decl := .field ⟨.named (.simple headerName), ⟨.ident, "first", 4⟩, none, ⟨.semi, ";", 4⟩⟩

theorem header_enclosed : flatHeader.Rebodied nestedHeader ∧
    ∃ shift, Enclosed shift [] flatHeader nestedHeader [headerLine] := by
  have rebodied : flatHeader.Rebodied nestedHeader := .struct _ _ _ _
  exact ⟨rebodied, body_enclosed [] [headerLine] rebodied⟩

end WireFormat
