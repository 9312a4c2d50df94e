import WireFormat.Compile
import WireFormat.Proofs.Spared
import WireFormat.Proofs.ValueNames

namespace WireFormat

-- Names of more than one segment: none of them ever resolves, so each is reported where
-- it is written, and only such a report carries the note.

inductive Role where
  | type | size | selector
  deriving DecidableEq, Repr

-- A name that is written somewhere, and the token at which it is reported if it fails.
structure Mention where
  role : Role
  name : Name
  token : Token
  deriving DecidableEq, Repr

namespace Mention

def cause (mention : Mention) : Cause :=
  match mention.role with
  | .type => .unknownType mention.name
  | .size => .unknownSize mention.name
  | .selector => .unknownSelector mention.name

def finding (mention : Mention) : Finding := ⟨mention.cause, mention.token⟩

def diagnostic (mention : Mention) : Diagnostic :=
  let what := match mention.role with
    | .type => "Unknown member type "
    | .size => "Unknown size reference "
    | .selector => "Unknown variant selector "
  ⟨.semantic, mention.token.line, mention.token.text,
    what ++ Cause.quoted (".".intercalate mention.name.segments), some "Note: cannot resolve dotted items."⟩

end Mention

-- All names that a tree writes, in the order in which their failures are reported: the
-- types of an arm wait for the end of the arm, those of a struct for the end of the struct.
def boundsMentions (close : Token) (bounds : Option Bounds) : List Mention :=
  (bounds.toList.flatMap Bounds.references).map fun name => ⟨.size, name, close⟩

def typeMentions (token : Token) (type : TypeRef) : List Mention :=
  type.name?.toList.map fun name => ⟨.type, name, token⟩

def Arm.mentions (arm : Arm) : List Mention :=
  arm.items.flatMap (fun item => boundsMentions item.close item.bounds) ++
    arm.items.flatMap fun item => typeMentions arm.follow item.type

def Select.mentions (choice : Select) : List Mention :=
  ⟨.selector, choice.selector, choice.opening⟩ :: choice.arms.flatMap Arm.mentions

def Member.typeMentions (close : Token) : Member → List Mention
  | .field entry => WireFormat.typeMentions close entry.type
  | _ => []

mutual

def Member.mentions : Member → List Mention
  | .field entry => boundsMentions entry.close entry.bounds
  | .struct members _ close => Member.allMentions members ++ members.flatMap (Member.typeMentions close)
  | .select choice => choice.mentions

def Member.allMentions : List Member → List Mention
  | [] => []
  | member :: rest => member.mentions ++ Member.allMentions rest

end

def Decl.mentions : Decl → List Mention
  | .field entry => boundsMentions entry.close entry.bounds ++ typeMentions entry.close entry.type
  | .external .. => []
  | .enum _ => []
  | .struct members _ close => Member.allMentions members ++ members.flatMap (Member.typeMentions close)
  | .select choice => choice.mentions

def dottedReports (mentions : List Mention) : List Finding :=
  (mentions.filter fun mention => mention.name.isDotted).map Mention.finding

section Lists

@[simp] theorem dottedReports_append (front back : List Mention) :
    dottedReports (front ++ back) = dottedReports front ++ dottedReports back := by
  rw [dottedReports, List.filter_append, List.map_append]
  rfl

theorem dottedReports_flatMap (items : List α) (mentions : α → List Mention) :
    dottedReports (items.flatMap mentions) = items.flatMap fun item => dottedReports (mentions item) := by
  simp only [dottedReports, List.filter_flatMap, List.map_flatMap]

theorem dotted_mention (mention : Mention) : mention.finding.cause.isDotted = mention.name.isDotted := by
  obtain ⟨role, name, token⟩ := mention
  cases role <;> simp [Mention.finding, Mention.cause, Cause.isDotted, Cause.unresolved?]

end Lists

theorem Place.admits_simple {place : Place} (admits : place.Admits allowed use name) : name.isDotted = false := by
  cases admits with
  | external simple | member simple | global simple | enum simple => exact simple

theorem Place.knows_simple {place : Place} (knows : place.Knows (.named name)) : name.isDotted = false := by
  cases knows with
  | global simple | external simple => exact simple

namespace Place

variable (place : Place)

theorem dotted_value (use : Use) (mention : Mention) :
    findingsOf Cause.isDotted (place.valueFindings use mention.name mention.finding) = dottedReports [mention] := by
  have same := dotted_mention mention
  by_cases admits : place.Admits Ending.isTolerated use mention.name
  · rw [valueFindings, if_pos admits]
    simp [findingsOf, dottedReports, admits_simple admits]
  · rw [valueFindings, if_neg admits]
    cases dotted : mention.name.isDotted <;> simp [findingsOf, dottedReports, same, dotted]

theorem dotted_type (token : Token) (type : TypeRef) :
    findingsOf Cause.isDotted ((place.unknownType? type).toList.map fun name => ⟨.unknownType name, token⟩) =
      dottedReports (typeMentions token type) := by
  cases type with
  | scalar type =>
    rw [unknownType?]
    split <;> rfl
  | named name =>
    have same := dotted_mention ⟨.type, name, token⟩
    by_cases knows : place.Knows (.named name)
    · rw [unknownType?, if_pos knows]
      simp [findingsOf, dottedReports, typeMentions, TypeRef.name?, knows_simple knows]
    · rw [unknownType?, if_neg knows]
      cases dotted : name.isDotted <;>
        simp_all [findingsOf, dottedReports, typeMentions, TypeRef.name?, Mention.finding, Mention.cause]

theorem dotted_size (close : Token) (size : SizeExpr) :
    findingsOf Cause.isDotted (place.sizeFindings close size) =
      dottedReports (size.reference?.toList.map fun name => ⟨.size, name, close⟩) := by
  cases size with
  | literal number | power number => exact (number.lacks fun _ => rfl).none
  | reference name => exact place.dotted_value .size ⟨.size, name, close⟩

theorem dotted_bounds (owner : String) (close : Token) (bounds : Option Bounds) :
    findingsOf Cause.isDotted (place.boundsFindings owner close bounds) = dottedReports (boundsMentions close bounds) := by
  cases bounds with
  | none => rfl
  | some bounds =>
    have sizes : boundsMentions close (some bounds) = bounds.sizes.flatMap fun size =>
        size.reference?.toList.map fun name => ⟨.size, name, close⟩ := by
      rw [boundsMentions, Option.toList_some, List.flatMap_singleton, Bounds.references,
        List.filterMap_eq_flatMap_toList, List.map_flatMap]
    have clear : Lacks Cause.isDotted (bounds.size.findings owner close) :=
      bounds.size.lacks owner close rfl fun _ _ => rfl
    rw [boundsFindings, findingsOf_append, findingsOf_flatMap, clear.none, List.append_nil, sizes,
      dottedReports_flatMap]
    simp only [dotted_size]

theorem dotted_types (token : Token) (parts : List α) (type : α → Option Name)
    (mentions : α → List Mention)
    (each : ∀ part, findingsOf Cause.isDotted ((type part).toList.map fun name => ⟨.unknownType name, token⟩) =
      dottedReports (mentions part)) :
    findingsOf Cause.isDotted ((parts.filterMap type).map fun name => ⟨.unknownType name, token⟩) =
      dottedReports (parts.flatMap mentions) := by
  rw [List.filterMap_eq_flatMap_toList, List.map_flatMap, findingsOf_flatMap, dottedReports_flatMap]
  simp only [each]

theorem dotted_arm (arm : Arm) : findingsOf Cause.isDotted (place.armFindings arm) = dottedReports arm.mentions := by
  have types := dotted_types arm.follow arm.items (fun item => place.unknownType? item.type) _
    fun item => place.dotted_type arm.follow item.type
  have labels : Lacks Cause.isDotted arm.repeatFindings := lacks_map _ _ fun _ => rfl
  rw [armFindings, findingsOf_append, findingsOf_append, labels.none, List.nil_append, types,
    findingsOf_flatMap, Arm.mentions, dottedReports_append]
  simp only [dotted_bounds, dottedReports_flatMap]

theorem dotted_select (choice : Select) :
    findingsOf Cause.isDotted (place.selectFindings choice) = dottedReports choice.mentions := by
  have selector := place.dotted_value .selector ⟨.selector, choice.selector, choice.opening⟩
  have across : Lacks Cause.isDotted choice.acrossFindings := lacks_map _ _ fun _ => rfl
  rw [selectFindings, findingsOf_append, findingsOf_append, across.none, List.append_nil,
    findingsOf_flatMap, Select.mentions, ← List.singleton_append, dottedReports_append,
    dottedReports_flatMap, ← selector]
  simp only [dotted_arm]
  rfl

theorem dotted_member (close : Token) (member : Member) :
    findingsOf Cause.isDotted ((place.unknownMember? member).toList.map fun name => ⟨.unknownType name, close⟩) =
      dottedReports (member.typeMentions close) := by
  cases member with
  | field entry => exact place.dotted_type close entry.type
  | struct | select => rfl

theorem dotted_closing (members : List Member) (name close : Token) :
    findingsOf Cause.isDotted (place.closingFindings members name close) =
      dottedReports (members.flatMap (Member.typeMentions close)) := by
  have repeated : Lacks Cause.isDotted ((repeats id (members.filterMap Member.itemName?)).map fun item =>
      ⟨.duplicateItem item name.text, close⟩) := lacks_map _ _ fun _ => rfl
  rw [closingFindings, findingsOf_append, repeated.none, List.nil_append]
  exact dotted_types close members _ _ (place.dotted_member close)

end Place

mutual

theorem member_dotted (place : Place) (member : Member) :
    findingsOf Cause.isDotted (place.memberFindings member) = dottedReports member.mentions := by
  cases member with
  | field entry => exact place.dotted_bounds entry.name.text entry.close entry.bounds
  | struct members name close =>
    rw [Place.memberFindings, Member.mentions, findingsOf_append, dottedReports_append,
      members_dotted, place.dotted_closing]
  | select choice =>
    rw [Place.memberFindings, Member.mentions, place.dotted_select]

theorem members_dotted (place : Place) (earlier members : List Member) :
    findingsOf Cause.isDotted (place.membersFindings earlier members) = dottedReports (Member.allMentions members) := by
  cases members with
  | nil => rfl
  | cons member rest =>
    rw [Place.membersFindings, Member.allMentions, findingsOf_append, dottedReports_append,
      member_dotted, members_dotted]

end

theorem decl_dotted (place : Place) (decl : Decl) :
    findingsOf Cause.isDotted (place.declFindings decl) = dottedReports decl.mentions := by
  have taken (titles : List String) (name close : Token) :
      Lacks Cause.isDotted (Place.takenFindings titles name close) :=
    Place.taken_lacks titles name close fun _ => rfl
  cases decl with
  | external name close => exact (taken _ name close).none
  | field entry =>
    rw [Place.declFindings, findingsOf_append, findingsOf_append, (taken _ _ _).none,
      List.append_nil, place.dotted_bounds, place.dotted_type, Decl.mentions, dottedReports_append]
  | enum listing =>
    rw [Place.declFindings, findingsOf_append, (taken _ _ _).none, List.append_nil]
    exact (listing.lacks (fun _ => rfl) (fun _ => rfl) (fun _ _ => rfl) fun _ _ _ => rfl).none
  | struct members name close =>
    rw [Place.declFindings, findingsOf_append, (taken _ _ _).none, List.append_nil]
    exact member_dotted place (.struct members name close)
  | select choice =>
    have titled : Lacks Cause.isDotted (choice.name.toList.flatMap fun name =>
        Place.takenFindings (place.prior.filterMap Decl.globalName?) name choice.close) :=
      Place.titled_lacks _ choice fun _ => rfl
    rw [Place.declFindings, findingsOf_append, titled.none, List.append_nil, place.dotted_select, Decl.mentions]

theorem after_dotted (externs : List String) (prior decls : List Decl) :
    findingsOf Cause.isDotted (findingsAfter externs prior decls) = dottedReports (decls.flatMap Decl.mentions) := by
  induction decls generalizing prior with
  | nil => rfl
  | cons decl rest ih =>
    rw [findingsAfter, findingsOf_append, decl_dotted, ih, List.flatMap_cons, dottedReports_append]

theorem analyze_dotted (decls : List Decl) :
    findingsOf Cause.isDotted (analyze decls).2 = dottedReports (decls.flatMap Decl.mentions) := by
  rw [analyze_findings]
  exact after_dotted _ [] decls

-- A report in which the first finding about a dotted name, and no other, has the note.
inductive FirstNoted : List Finding → List Diagnostic → Prop where
  | nil : FirstNoted [] []
  | plain (undotted : finding.cause.isDotted = false) (rest : FirstNoted findings diagnostics) :
      FirstNoted (finding :: findings) (finding.diagnostic false :: diagnostics)
  | noted (dotted : finding.cause.isDotted = true) :
      FirstNoted (finding :: findings) (finding.diagnostic true :: findings.map (·.diagnostic false))

theorem report_every (noted : Bool) (findings : List Finding) :
    report false noted findings = findings.map fun finding => finding.diagnostic finding.cause.isDotted := by
  induction findings generalizing noted with
  | nil => rfl
  | cons finding rest ih => simp [report, ih]

theorem report_noted (findings : List Finding) :
    report true true findings = findings.map (·.diagnostic false) := by
  induction findings with
  | nil => rfl
  | cons finding rest ih => simp [report, ih]

theorem report_first (findings : List Finding) : FirstNoted findings (report true false findings) := by
  induction findings with
  | nil => exact .nil
  | cons finding rest ih =>
    rw [report]
    cases dotted : finding.cause.isDotted with
    | true =>
      rw [Bool.true_and, Bool.and_false, Bool.not_false, Bool.or_true, report_noted]
      exact .noted dotted
    | false =>
      rw [Bool.false_and, Bool.or_false]
      exact .plain dotted ih

theorem report_unnoted (once noted : Bool) (findings : List Finding) :
    (report once noted findings).map Diagnostic.unnoted = findings.map (·.diagnostic false) := by
  induction findings generalizing noted with
  | nil => rfl
  | cons finding rest ih =>
    rw [report, List.map_cons, List.map_cons, ih]
    rfl

def notedDiagnostics (diagnostics : List Diagnostic) : List Diagnostic :=
  diagnostics.filter fun diagnostic => diagnostic.note.isSome

@[simp] theorem noted_append (front back : List Diagnostic) :
    notedDiagnostics (front ++ back) = notedDiagnostics front ++ notedDiagnostics back := List.filter_append ..

theorem noted_cons (finding : Finding) (rest : List Diagnostic) :
    notedDiagnostics (finding.diagnostic true :: rest) = finding.diagnostic true :: notedDiagnostics rest := rfl

theorem unnoted_cons (finding : Finding) (rest : List Diagnostic) :
    notedDiagnostics (finding.diagnostic false :: rest) = notedDiagnostics rest := rfl

theorem noted_none (findings : List Finding) : notedDiagnostics (findings.map (·.diagnostic false)) = [] :=
  List.filter_eq_nil_iff.mpr (List.forall_mem_map.mpr fun _ _ => nofun)

theorem noted_every (findings : List Finding) :
    notedDiagnostics (findings.map fun finding => finding.diagnostic finding.cause.isDotted) =
      (findingsOf Cause.isDotted findings).map (·.diagnostic true) := by
  induction findings with
  | nil => rfl
  | cons finding rest ih =>
    cases dotted : finding.cause.isDotted with
    | true => rw [List.map_cons, dotted, noted_cons, ih, findingsOf_cons dotted, List.map_cons]
    | false => rw [List.map_cons, dotted, unnoted_cons, ih, findingsOf_skip dotted]

theorem FirstNoted.noted_one (one : FirstNoted findings diagnostics) :
    notedDiagnostics diagnostics = ((findingsOf Cause.isDotted findings).take 1).map (·.diagnostic true) := by
  induction one with
  | nil => rfl
  | plain undotted rest ih => rw [unnoted_cons, ih, findingsOf_skip undotted]
  | noted dotted =>
    rw [noted_cons, noted_none, findingsOf_cons dotted, List.take_succ_cons, List.take_zero, List.map_singleton]

theorem mention_diagnostic (mention : Mention) : mention.finding.diagnostic true = mention.diagnostic := by
  obtain ⟨role, name, token⟩ := mention
  cases role <;> rfl

def dottedMentions (decls : List Decl) : List Mention :=
  (decls.flatMap Decl.mentions).filter fun mention => mention.name.isDotted

-- What becomes of a schema's dotted names, with the note at each of them and at the first.
structure DottedReported (decls : List Decl) (findings : List Finding) (atEach atFirst : List Diagnostic) : Prop where
  found : findingsOf Cause.isDotted findings = (dottedMentions decls).map Mention.finding
  each : atEach = findings.map fun finding => finding.diagnostic finding.cause.isDotted
  first : FirstNoted findings atFirst
  same : atEach.map Diagnostic.unnoted = atFirst.map Diagnostic.unnoted
  eachNoted : notedDiagnostics atEach = (dottedMentions decls).map Mention.diagnostic
  firstNoted : notedDiagnostics atFirst = ((dottedMentions decls).take 1).map Mention.diagnostic

theorem analyze_reported (decls : List Decl) : DottedReported decls (analyze decls).2
    (report false false (analyze decls).2) (report true false (analyze decls).2) := by
  have found : findingsOf Cause.isDotted (analyze decls).2 = (dottedMentions decls).map Mention.finding := analyze_dotted decls
  have shown (mentions : List Mention) :
      (mentions.map Mention.finding).map (·.diagnostic true) = mentions.map Mention.diagnostic := by
    rw [List.map_map]
    exact List.map_congr_left fun mention _ => mention_diagnostic mention
  have first := report_first (analyze decls).2
  refine ⟨found, report_every false _, first, ?_, ?_, ?_⟩
  · rw [report_unnoted, report_unnoted]
  · rw [report_every, noted_every, found, shown]
  · rw [first.noted_one, found, ← List.map_take, shown]

def Compilation.dotted (compilation : Compilation) : List Mention :=
  compilation.schema.elim [] fun read => dottedMentions read.1

-- Two results that differ in nothing but which reports of dotted names have the note.
structure NotesAlone (atEach atFirst : Compilation) : Prop where
  label : atEach.label = atFirst.label
  schema : atEach.schema = atFirst.schema
  diagnostics : atEach.diagnostics.map Diagnostic.unnoted = atFirst.diagnostics.map Diagnostic.unnoted
  eachNoted : notedDiagnostics atEach.diagnostics = atEach.dotted.map Mention.diagnostic
  firstNoted : notedDiagnostics atFirst.diagnostics = (atFirst.dotted.take 1).map Mention.diagnostic

-- Every dotted name fails, whatever is declared, and is reported once. The option decides
-- over nothing but which of these reports carry the note, and no other report has one.
theorem dotted_reported (source label : String) (decls : List Decl) :
    DottedReported decls (analyze decls).2 (report false false (analyze decls).2)
        (report true false (analyze decls).2) ∧
      NotesAlone (compile source ⟨label, false⟩) (compile source ⟨label, true⟩) := by
  refine ⟨analyze_reported decls, ?_⟩
  unfold compile
  cases tokenize source with
  | error error => exact ⟨rfl, rfl, rfl, rfl, rfl⟩
  | ok tokens =>
    have reported := analyze_reported (parse tokens).decls
    have stopped : notedDiagnostics ((parse tokens).error.toList.map SyntaxError.diagnostic) = [] :=
      List.filter_eq_nil_iff.mpr (List.forall_mem_map.mpr fun _ _ => nofun)
    refine ⟨rfl, rfl, ?_, ?_, ?_⟩
    · rw [List.map_append, List.map_append, reported.same]
    · rw [noted_append, reported.eachNoted, stopped, List.append_nil]
      rfl
    · rw [noted_append, reported.firstNoted, stopped, List.append_nil]
      rfl

end WireFormat
