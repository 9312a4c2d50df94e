import WireFormat.Proofs.PostOrder
import WireFormat.Proofs.Quantities
import WireFormat.Proofs.Relaid

namespace WireFormat

-- What becomes of the numbers of a source: which of them are reported, and which sizes are
-- recorded and judged.

def Token.evaluated? (token : Token) : Option Evaluated :=
  match token.kind with
  | .number => some (evaluateLiteral token.text)
  | .power => some (evaluatePower token.text)
  | _ => none

-- A number that cannot be evaluated counts as zero.
def Evaluated.counted (evaluated : Evaluated) : UInt64 := if evaluated.error.isSome then 0 else evaluated.value

def Token.failures (token : Token) : List Diagnostic :=
  (token.evaluated?.bind Evaluated.error).toList.map fun error =>
    ⟨.literal, token.line, token.text, error.message, none⟩

def SizeExpr.counted? : SizeExpr → Option UInt64
  | .literal number | .power number => number.token.evaluated?.map Evaluated.counted
  | .reference _ => none

-- What is recorded of bounds: their values, if both have one.
def Bounds.recorded : Bounds → Size
  | .fixed size =>
    match size.counted? with
    | some value => .fixed value
    | none => .unresolved
  | .range low high =>
    match low.counted?, high.counted? with
    | some low, some high => .range low high
    | _, _ => .unresolved

def recordedSize (bounds : Option Bounds) : Size := bounds.elim .unsized Bounds.recorded

namespace Bound

def diagnostic (bound : Bound) (text : String) : Diagnostic :=
  ⟨.semantic, bound.close.line, bound.close.text, "``" ++ bound.owner ++ "''" ++ text, none⟩

def reports (bound : Bound) : List Diagnostic :=
  match bound.bounds.recorded with
  | .fixed value => if value = 0 then [bound.diagnostic " size (0) is not positive"] else []
  | .range low high =>
    if high < low then [bound.diagnostic (" range " ++ toString low ++ " less than " ++ toString high)] else []
  | _ => []

end Bound

def Decl.bounded (decl : Decl) : List Bound := decl.quantities.filterMap Quantity.bound?

-- Bounds among the tokens of which they are made, with no value when a name stands in them.
structure Bound.Stands (tokens : List Token) (bound : Bound) : Prop where
  close : bound.close ∈ tokens ∧ bound.close.kind = .semi
  unresolved : bound.bounds.recorded = .unresolved ↔ bound.bounds.references ≠ []

def Member.bounds? : Member → Option Bounds
  | .field entry => entry.bounds
  | _ => none

-- What a definition records of the bounds that it is made from.
inductive Subject.Sized : Subject → Definition → Prop where
  | line (own : definition.size = recordedSize entry.bounds)
      (inner : definition.entries.map (·.size) = [recordedSize entry.bounds]) : Sized (.line entry) definition
  | enum : Sized (.enum listing) definition
  | struct {members : List Member}
      (fields : definition.entries.map (·.size) = members.map fun member => recordedSize member.bounds?) :
      Sized (.struct members name) definition
  | select (items : definition.entries.map (·.size) =
      (choice.arms.flatMap Arm.items).map fun item => recordedSize item.bounds) : Sized (.select choice) definition

theorem literal_counted (text : String) : (evaluateLiteral text).counted = (evaluateLiteral text).value := by
  unfold evaluateLiteral
  split <;> rfl

theorem power_counted (text : String) : (evaluatePower text).counted = (evaluatePower text).value := by
  unfold evaluatePower
  repeat' split
  all_goals rfl

def Genuine (marks : List Mark) : Prop := ∀ mark ∈ marks, ∃ token, mark.Fits token

theorem Restores.fits (restores : Restores marks tokens) : ∀ mark ∈ marks, ∃ token ∈ tokens, mark.Fits token := by
  induction restores with
  | nil => exact List.forall_mem_nil _
  | @cons mark token marks tokens fits _ ih =>
    refine List.forall_mem_cons.mpr ⟨⟨token, .head _, fits⟩, fun mark member => ?_⟩
    obtain ⟨token, later, fits⟩ := ih mark member
    exact ⟨token, .tail _ later, fits⟩

-- The tree keeps what evaluation makes of its numbers.
structure Number.Kept (number : Number) : Prop where
  evaluated : number.token.evaluated? = some number.evaluated
  counted : number.evaluated.counted = number.value

theorem Mark.Fits.numbers {mark : Mark} (fits : mark.Fits token) :
    ∀ number ∈ mark.numbers, number.token = token ∧ number.Kept := by
  cases mark with
  | word | segment | kept | head => exact List.forall_mem_nil _
  | literal number =>
    obtain ⟨kind, rfl⟩ := fits
    exact List.forall_mem_singleton.mpr ⟨rfl, by simp [Token.evaluated?, kind], literal_counted _⟩
  | power number =>
    obtain ⟨kind, rfl⟩ := fits
    exact List.forall_mem_singleton.mpr ⟨rfl, by simp [Token.evaluated?, kind], power_counted _⟩

theorem Number.Kept.failures {number : Number} (kept : number.Kept) :
    number.token.failures = number.findings.map (·.diagnostic false) := by
  rw [Token.failures, kept.evaluated, Option.bind_some, Number.findings]
  cases number.evaluated.error <;> rfl

theorem failures_none {token : Token} (number : token.kind ≠ .number) (power : token.kind ≠ .power) :
    token.failures = [] := by
  have none : token.evaluated? = none := by
    unfold Token.evaluated?
    split
    · exact absurd ‹_› number
    · exact absurd ‹_› power
    · rfl
  rw [Token.failures, none]
  rfl

theorem Mark.Fits.failures {mark : Mark} (fits : mark.Fits token) (proper : mark.isProper = true) :
    token.failures = mark.numbers.flatMap fun number => number.findings.map (·.diagnostic false) := by
  have kind := fits.kind
  cases mark with
  | literal number | power number =>
    obtain ⟨rfl, kept⟩ := fits.numbers number (.head _)
    rw [Mark.numbers, List.flatMap_singleton, kept.failures]
  | segment | head => exact failures_none (by simp [kind, Mark.kind]) (by simp [kind, Mark.kind])
  | word own | kept own =>
    have apart : own ≠ .number ∧ own ≠ .power := by
      constructor <;> rintro rfl <;> simp [isProper, Token.Kind.isFixed] at proper
    exact failures_none (kind.trans_ne apart.1) (kind.trans_ne apart.2)

theorem Restores.failures (restores : Restores marks tokens) (proper : Proper marks) :
    tokens.flatMap Token.failures =
      (numerals marks).flatMap fun number => number.findings.map (·.diagnostic false) := by
  induction restores with
  | nil => rfl
  | cons fits _ ih =>
    obtain ⟨first, others⟩ := proper_cons.mp proper
    rw [List.flatMap_cons, numerals_cons, List.flatMap_append, fits.failures first, ih others]

theorem SizeExpr.counted_value {size : SizeExpr} (genuine : Genuine size.marks) : size.counted? = size.value? := by
  cases size with
  | reference name => rfl
  | literal number | power number =>
    obtain ⟨token, fits⟩ := genuine _ (.head _)
    obtain ⟨_, kept⟩ := fits.numbers number (.head _)
    simp [counted?, value?, kept.evaluated, kept.counted]

theorem Bounds.recorded_size {bounds : Bounds} (genuine : Genuine bounds.marks) : bounds.size = bounds.recorded := by
  have part (size : SizeExpr) (stands : size ∈ bounds.sizes) : size.counted? = size.value? := by
    refine size.counted_value fun mark member => genuine mark ?_
    cases bounds with
    | fixed => simp_all [Bounds.sizes, Bounds.marks]
    | range => rcases List.mem_pair.mp stands with rfl | rfl <;> simp [Bounds.marks, member]
  cases bounds with
  | fixed size =>
    cases value : size.value? <;> simp [Bounds.size, recorded, part size (.head _), value]
  | range low high =>
    cases least : low.value? <;> cases most : high.value? <;>
      simp [Bounds.size, recorded, part low (.head _), part high (.tail _ (.head _)), least, most]

theorem Bounds.recorded_unresolved {bounds : Bounds} (genuine : Genuine bounds.marks) :
    bounds.recorded = .unresolved ↔ bounds.references ≠ [] := by
  rw [← recorded_size genuine]
  cases bounds with
  | fixed size => cases size <;> simp [Bounds.size, references, sizes, SizeExpr.value?, SizeExpr.reference?]
  | range low high =>
    cases low <;> cases high <;> simp [Bounds.size, references, sizes, SizeExpr.value?, SizeExpr.reference?]

def Bounded (marks : List Mark) (quantities : List Quantity) : Prop :=
  ∀ quantity ∈ quantities, ∀ bound ∈ quantity.bound?,
    ∀ mark ∈ Mark.kept .semi bound.close :: bound.bounds.marks, mark ∈ marks

section Bounded

variable {marks more : List Mark}

theorem bounded_nil : Bounded marks [] := List.forall_mem_nil _

theorem Bounded.mono (bounded : Bounded marks quantities) (wider : ∀ mark ∈ marks, mark ∈ more) :
    Bounded more quantities :=
  fun quantity stands bound given mark member => wider mark (bounded quantity stands bound given mark member)

theorem bounded_append (front : Bounded marks quantities) (back : Bounded more others) :
    Bounded (marks ++ more) (quantities ++ others) :=
  List.forall_mem_append.mpr
    ⟨front.mono fun _ => List.mem_append_left more, back.mono fun _ => List.mem_append_right marks⟩

theorem bounded_flatMap {parts : List α} {found : α → List Quantity}
    (each : ∀ part ∈ parts, Bounded marks (found part)) : Bounded marks (parts.flatMap found) := by
  intro quantity member
  obtain ⟨part, stands, here⟩ := List.mem_flatMap.mp member
  exact each part stands quantity here

theorem bounded_line (owner : String) (close : Token) (bounds : Option Bounds) :
    Bounded (.kept .semi close :: optionalMarks Bounds.marks bounds) (lineQuantities owner close bounds) := by
  cases bounds with
  | none => exact bounded_nil
  | some bounds =>
    refine List.forall_mem_singleton.mpr ?_
    rintro _ ⟨⟩
    exact fun mark => id

theorem bounded_field (entry : Field) :
    Bounded entry.marks (lineQuantities entry.name.text entry.close entry.bounds) := by
  refine (bounded_line _ _ _).mono (List.forall_mem_cons.mpr ⟨by simp [Field.marks], fun mark member => ?_⟩)
  simp [Field.marks, member]

theorem bounded_item (item : Item) : Bounded item.marks (lineQuantities item.owner item.close item.bounds) := by
  refine (bounded_line _ _ _).mono (List.forall_mem_cons.mpr ⟨by simp [Item.marks], fun mark member => ?_⟩)
  simp [Item.marks, member]

theorem bounded_arm (arm : Arm) : Bounded arm.marks arm.quantities := by
  refine bounded_flatMap fun item stands => (bounded_item item).mono fun mark member => ?_
  exact List.mem_append_right _ (items_subset stands member)

theorem bounded_arms (arms : List Arm) : Bounded (armsMarks arms) (arms.flatMap Arm.quantities) :=
  bounded_flatMap fun arm stands => (bounded_arm arm).mono fun _ member => arms_subset stands member

theorem bounded_select (choice : Select) : Bounded choice.marks choice.quantities := by
  refine (bounded_arms choice.arms).mono fun mark member => ?_
  simp [Select.marks, member]

theorem bounded_struct (inside : Bounded marks quantities) (name close : Token) :
    Bounded (structMarks marks name close) quantities :=
  inside.mono fun mark member => by simp [structMarks, member]

mutual

theorem bounded_member (member : Member) : Bounded member.marks member.quantities := by
  cases member with
  | field entry => exact bounded_field entry
  | struct members name close => exact bounded_struct (bounded_members members) name close
  | select choice => exact bounded_select choice

theorem bounded_members (members : List Member) : Bounded (membersMarks members) (Member.allQuantities members) := by
  cases members with
  | nil => exact bounded_nil
  | cons member rest => exact bounded_append (bounded_member member) (bounded_members rest)

end

theorem bounded_decl (decl : Decl) : Bounded decl.marks decl.quantities := by
  cases decl with
  | field entry => exact bounded_field entry
  | external => exact bounded_nil
  | enum listing =>
    have numbers (value : Option Number) : Bounded listing.marks (value.toList.map .number) := by
      cases value <;> simp [Bounded, Quantity.bound?]
    exact List.forall_mem_append.mpr ⟨bounded_flatMap fun entry _ => numbers entry.value, numbers listing.max⟩
  | struct members name close => exact bounded_struct (bounded_members members) name close
  | select choice => exact bounded_select choice

end Bounded

theorem bound_stands {decl : Decl} (restores : Restores decl.marks tokens) :
    ∀ bound ∈ decl.bounded, bound.Stands tokens ∧ bound.bounds.size = bound.bounds.recorded := by
  intro bound member
  obtain ⟨quantity, stands, own⟩ := List.mem_filterMap.mp member
  obtain ⟨semi, marks⟩ := List.forall_mem_cons.mp (bounded_decl decl quantity stands bound own)
  have genuine : Genuine bound.bounds.marks := by
    intro mark listed
    obtain ⟨token, _, fits⟩ := restores.fits mark (marks mark listed)
    exact ⟨token, fits⟩
  obtain ⟨close, listed, kind, same⟩ := restores.fits _ semi
  exact ⟨⟨⟨same ▸ listed, same ▸ kind⟩, Bounds.recorded_unresolved genuine⟩, Bounds.recorded_size genuine⟩

def Subject.lines : Subject → List (Option Bounds)
  | .line entry => [entry.bounds]
  | .enum _ => []
  | .struct members _ => members.map Member.bounds?
  | .select choice => (choice.arms.flatMap Arm.items).map Item.bounds

def Listed (quantities : List Quantity) (subjects : List Subject) : Prop :=
  ∀ subject ∈ subjects, ∀ bounds, some bounds ∈ subject.lines →
    ∃ owner close, .bound ⟨owner, bounds, close⟩ ∈ quantities

section Listed

variable {quantities others : List Quantity} {subjects more : List Subject}

theorem Listed.mono (listed : Listed quantities subjects) (wider : ∀ quantity ∈ quantities, quantity ∈ others) :
    Listed others subjects := by
  intro subject stands bounds given
  obtain ⟨owner, close, listed⟩ := listed subject stands bounds given
  exact ⟨owner, close, wider _ listed⟩

theorem listed_append (front : Listed quantities subjects) (back : Listed quantities more) :
    Listed quantities (subjects ++ more) := List.forall_mem_append.mpr ⟨front, back⟩

theorem line_listed (owner : String) (close : Token) (given : bounds? = some bounds) :
    .bound ⟨owner, bounds, close⟩ ∈ lineQuantities owner close bounds? := by
  rw [given]
  exact .head _

theorem members_listed (stands : member ∈ members) : ∀ quantity ∈ Member.quantities member,
    quantity ∈ Member.allQuantities members := by
  intro quantity listed
  induction members with
  | nil => cases stands
  | cons first rest ih =>
    rw [Member.allQuantities]
    rcases List.mem_cons.mp stands with rfl | later
    · exact List.mem_append_left _ listed
    · exact List.mem_append_right _ (ih later)

theorem select_lines (choice : Select) : Listed choice.quantities [.select choice] := by
  refine List.forall_mem_singleton.mpr fun bounds given => ?_
  obtain ⟨item, stands, own⟩ := List.mem_map.mp given
  obtain ⟨arm, among, listed⟩ := List.mem_flatMap.mp stands
  refine ⟨item.owner, item.close, List.mem_flatMap.mpr ⟨arm, among, List.mem_flatMap.mpr ⟨item, listed, ?_⟩⟩⟩
  exact line_listed item.owner item.close own

theorem struct_lines (members : List Member) (name : Token) :
    Listed (Member.allQuantities members) [.struct members name] := by
  refine List.forall_mem_singleton.mpr fun bounds given => ?_
  obtain ⟨member, stands, own⟩ := List.mem_map.mp given
  cases member with
  | struct | select => cases own
  | field entry =>
    exact ⟨entry.name.text, entry.close, members_listed stands _ (line_listed entry.name.text entry.close own)⟩

mutual

theorem member_lines (member : Member) : Listed member.quantities member.subjects := by
  cases member with
  | field entry => exact List.forall_mem_nil _
  | struct members name close => exact listed_append (members_lines members) (struct_lines members name)
  | select choice => exact select_lines choice

theorem members_lines (members : List Member) : Listed (Member.allQuantities members) (Member.allSubjects members) := by
  cases members with
  | nil => exact List.forall_mem_nil _
  | cons member rest =>
    exact listed_append ((member_lines member).mono fun _ => List.mem_append_left _)
      ((members_lines rest).mono fun _ => List.mem_append_right _)

end

theorem decl_lines (decl : Decl) : Listed decl.quantities decl.subjects := by
  cases decl with
  | field entry =>
    refine List.forall_mem_singleton.mpr fun bounds given => ⟨entry.name.text, entry.close, ?_⟩
    exact line_listed entry.name.text entry.close (List.mem_singleton.mp given).symm
  | external => exact List.forall_mem_nil _
  | enum listing => exact List.forall_mem_singleton.mpr fun _ given => absurd given List.not_mem_nil
  | struct members name close => exact listed_append (members_lines members) (struct_lines members name)
  | select choice => exact select_lines choice

end Listed

def Known (lines : List (Option Bounds)) : Prop := ∀ bounds, some bounds ∈ lines → bounds.size = bounds.recorded

theorem known_line (known : Known lines) (stands : bounds ∈ lines) : Size.ofBounds bounds = recordedSize bounds := by
  cases bounds with
  | none => rfl
  | some bounds => exact known bounds stands

theorem records_sizes {place : Place} (records : place.RecordsAll start members entries stop) :
    entries.map (·.size) = members.map fun member => Size.ofBounds member.bounds? := by
  induction records with
  | nil => rfl
  | cons one _ ih =>
    rw [List.map_cons, List.map_cons, ih]
    cases one <;> rfl

theorem items_sizes {place : Place} (items : List.Forall₂ place.RecordsItem lines entries) :
    entries.map (·.size) = lines.map fun item => Size.ofBounds item.bounds := by
  induction items with
  | nil => rfl
  | cons one _ ih => rw [List.map_cons, List.map_cons, ih, one.size]

theorem describes_sized {place : Place} {index : Nat} (describes : place.Describes index subject definition)
    (known : Known subject.lines) : subject.Sized definition := by
  cases describes with
  | line means =>
    have size := known_line known (.head _)
    exact .line size (congrArg ([·]) size)
  | enum => exact .enum
  | struct records =>
    refine .struct ((records_sizes records).trans (List.map_congr_left fun member stands => ?_))
    exact known_line known (List.mem_map_of_mem stands)
  | select items =>
    refine .select ((items_sizes items).trans (List.map_congr_left fun item stands => ?_))
    exact known_line known (List.mem_map_of_mem stands)

theorem slots_subjects (externs : List String) (prior decls : List Decl) :
    (slotsAfter externs prior decls).map Slot.subject = decls.flatMap Decl.subjects := by
  induction decls generalizing prior with
  | nil => rfl
  | cons decl rest ih =>
    have own : (Place.slots ⟨externs, prior, []⟩ decl.subjects).map Slot.subject = decl.subjects := by
      rw [Place.slots, List.map_map]
      exact List.map_id' _
    rw [slotsAfter, List.map_append, ih, own, List.flatMap_cons]

theorem analyze_sized {decls : List Decl} (known : ∀ decl ∈ decls, ∀ subject ∈ decl.subjects, Known subject.lines) :
    List.Forall₂ Subject.Sized (decls.flatMap Decl.subjects) (analyze decls).1.types.definitions.toList := by
  obtain ⟨definitions, all, described⟩ := analyze_adds decls
  have each : ∀ slot ∈ postOrder decls, Known slot.subject.lines := by
    intro slot member
    have listed : slot.subject ∈ decls.flatMap Decl.subjects :=
      slots_subjects _ [] decls ▸ List.mem_map_of_mem member
    obtain ⟨decl, stands, own⟩ := List.mem_flatMap.mp listed
    exact known decl stands slot.subject own
  have firsts : definitions = (definitions.zipIdx 0).map Prod.fst := (List.zipIdx_map_fst 0 definitions).symm
  have described : InPlace 0 (postOrder decls) definitions := described
  have sized := (List.forall₂_and_left _ _).mpr ⟨each, described⟩
  rw [all, firsts, ← slots_subjects _ [] decls]
  change List.Forall₂ Subject.Sized _ (List.map _ _)
  rw [List.forall₂_map_left_iff, List.forall₂_map_right_iff]
  exact sized.imp fun slot entry given => describes_sized given.2 given.1

def literalDiagnostics (diagnostics : List Diagnostic) : List Diagnostic :=
  diagnostics.filter fun diagnostic => diagnostic.kind = .literal

-- Reports about sizes that are empty and ranges that are inverted.
def measureDiagnostics (diagnostics : List Diagnostic) : List Diagnostic :=
  diagnostics.filter fun diagnostic => diagnostic.topic? = some .measure

theorem Cause.quantity_undotted (cause : Cause) (about : cause.isQuantity = true) : cause.isDotted = false := by
  cases cause <;> first | rfl | cases about

theorem report_literals (once noted : Bool) (findings : List Finding) :
    literalDiagnostics (report once noted findings) =
      (findingsOf Cause.isLiteral findings).map (·.diagnostic false) :=
  report_filter (fun _ _ => rfl) (fun cause about => cause.quantity_undotted (Bool.or_eq_true_iff.mpr (.inl about)))
    once noted findings

theorem Cause.topic_measure (cause : Cause) : decide (cause.topic? = some .measure) = cause.isMeasure := by
  cases cause <;> rfl

theorem report_measures (once noted : Bool) (findings : List Finding) :
    measureDiagnostics (report once noted findings) =
      (findingsOf Cause.isMeasure findings).map (·.diagnostic false) := by
  refine report_filter (fun finding noted => ?_)
    (fun cause about => cause.quantity_undotted (Bool.or_eq_true_iff.mpr (.inr about))) once noted findings
  rw [topic_exact]
  exact finding.cause.topic_measure

theorem syntax_untold (error : SyntaxError) : error.diagnostic.topic? = none := by
  have message : Topic.ofMessage? error.message = none := by
    unfold SyntaxError.message Topic.ofMessage? Topic.openings
    cases error.refusal with
    | tooDeep =>
      simp only [String.toList_append]
      rfl
    | unexpected expected =>
      simp only [String.toList_append, List.append_assoc]
      rfl
  exact message

theorem syntax_literals (error : Option SyntaxError) :
    literalDiagnostics (error.toList.map SyntaxError.diagnostic) = [] := by
  cases error <;> rfl

theorem syntax_measures (error : Option SyntaxError) :
    measureDiagnostics (error.toList.map SyntaxError.diagnostic) = [] := by
  cases error with
  | none => rfl
  | some error => simp [measureDiagnostics, syntax_untold]

theorem Bound.reports_size {bound : Bound} (same : bound.bounds.size = bound.bounds.recorded) :
    (bound.bounds.size.findings bound.owner bound.close).map (·.diagnostic false) = bound.reports := by
  rw [same, reports]
  cases bound.bounds.recorded with
  | unsized | unresolved => rfl
  | fixed value =>
    simp only [Size.findings]
    split <;> rfl
  | range low high =>
    have text : (Cause.invertedRange bound.owner low high).message =
        "``" ++ bound.owner ++ "''" ++ (" range " ++ toString low ++ " less than " ++ toString high) := by
      unfold Cause.message Cause.quoted
      simp only [String.append_assoc]
    simp only [Size.findings]
    split
    · rw [Bound.diagnostic, ← text]
      rfl
    · rfl

theorem measures_reports (quantities : List Quantity)
    (same : ∀ bound ∈ quantities.filterMap Quantity.bound?, bound.bounds.size = bound.bounds.recorded) :
    (quantities.flatMap fun quantity => quantity.measures.map (·.diagnostic false)) =
      (quantities.filterMap Quantity.bound?).flatMap Bound.reports := by
  induction quantities with
  | nil => rfl
  | cons quantity rest ih =>
    cases quantity with
    | number value => exact ih same
    | bound line =>
      obtain ⟨own, others⟩ := List.forall_mem_cons.mp same
      have here : (Quantity.bound line).measures.map (·.diagnostic false) = line.reports := by
        rw [Quantity.measures, Quantity.bound?, Option.toList_some, List.flatMap_singleton, Bound.reports_size own]
      rw [List.flatMap_cons, here, ih others]
      rfl

theorem Bound.Stands.mono {bound : Bound} (stands : bound.Stands tokens) (wider : ∀ token ∈ tokens, token ∈ more) :
    bound.Stands more := ⟨⟨wider _ stands.close.1, stands.close.2⟩, stands.unresolved⟩

theorem spelt_failures (spelt : List.Forall₂ DeclSpelt decls spans) : spans.flatten.flatMap Token.failures =
    (decls.flatMap Decl.quantities).flatMap fun quantity =>
      (quantity.numbers.flatMap Number.findings).map (·.diagnostic false) := by
  induction spelt with
  | nil => rfl
  | @cons decl span decls spans one _ ih =>
    rw [List.flatten_cons, List.flatMap_append, List.flatMap_cons, List.flatMap_append, ih,
      (decl_restored decl span one).failures (decl_proper decl), numerals_decl, List.flatMap_assoc]
    simp only [List.map_flatMap]

theorem spelt_stands (spelt : List.Forall₂ DeclSpelt decls spans) : ∀ bound ∈ decls.flatMap Decl.bounded,
    bound.Stands spans.flatten ∧ bound.bounds.size = bound.bounds.recorded := by
  induction spelt with
  | nil => exact List.forall_mem_nil _
  | @cons decl span decls spans one _ ih =>
    refine List.forall_mem_append.mpr ⟨fun bound member => ?_, fun bound member => ?_⟩
    · obtain ⟨stands, same⟩ := bound_stands (decl_restored decl span one) bound member
      exact ⟨stands.mono fun _ => List.mem_append_left _, same⟩
    · obtain ⟨stands, same⟩ := ih bound member
      exact ⟨stands.mono fun _ => List.mem_append_right _, same⟩

-- The numbers of a source that has tokens, from the tokens to the tables.
structure Reckoned (tokens : List Token) (compilation : Compilation) (spans : List (List Token)) (rest : List Token)
    (resolution : Resolution) : Prop where
  parted : Parted tokens (parse tokens) spans rest
  schema : compilation.schema = some ((parse tokens).decls, resolution)
  -- Of the declarations that were completed, each number that fails is reported where it stands.
  literals : literalDiagnostics compilation.diagnostics = spans.flatten.flatMap Token.failures
  measures : measureDiagnostics compilation.diagnostics =
    ((parse tokens).decls.flatMap Decl.bounded).flatMap Bound.reports
  bounds : ∀ bound ∈ (parse tokens).decls.flatMap Decl.bounded, bound.Stands spans.flatten
  recorded : List.Forall₂ Subject.Sized ((parse tokens).decls.flatMap Decl.subjects) resolution.types.definitions.toList

-- A literal that fails is reported once and then counts as zero: bounds are recorded and
-- judged by the values of their numbers, or not at all when a name stands in them.
theorem compile_reckoned (cut : tokenize source = .ok tokens) (options : Options) :
    ∃ spans rest resolution, Reckoned tokens (compile source options) spans rest resolution := by
  obtain ⟨spans, rest, parted⟩ := parse_parted (laid_end (tokenize_laid cut))
  have stands := spelt_stands parted.spelt
  have bounded : (parse tokens).decls.flatMap Decl.bounded =
      ((parse tokens).decls.flatMap Decl.quantities).filterMap Quantity.bound? := List.filterMap_flatMap.symm
  rw [compile_read options cut, compiled]
  refine ⟨spans, rest, _, parted, rfl, ?_, ?_, fun bound member => (stands bound member).1, analyze_sized ?_⟩
  · rw [literalDiagnostics, List.filter_append, ← literalDiagnostics, ← literalDiagnostics, syntax_literals,
      List.append_nil, report_literals, analyze_filter, spelt_failures parted.spelt, List.map_flatMap]
    · simp only [Quantity.literal_findings]
    · exact fun cause about => Bool.or_eq_true_iff.mpr (.inl about)
  · rw [measureDiagnostics, List.filter_append, ← measureDiagnostics, ← measureDiagnostics, syntax_measures,
      List.append_nil, report_measures, analyze_filter, List.map_flatMap]
    · simp only [Quantity.measure_findings]
      rw [bounded]
      exact measures_reports _ (bounded ▸ fun bound member => (stands bound member).2)
    · exact fun cause about => Bool.or_eq_true_iff.mpr (.inr about)
  · intro decl among subject own bounds given
    obtain ⟨owner, close, listed⟩ := decl_lines decl subject own bounds given
    have member : ⟨owner, bounds, close⟩ ∈ decl.bounded := List.mem_filterMap.mpr ⟨_, listed, rfl⟩
    exact (stands _ (List.mem_flatMap.mpr ⟨decl, among, member⟩)).2

def failedTokens : List Token :=
  [⟨.scalar .uint8, "uint8", 1⟩, ⟨.ident, "a", 1⟩, ⟨.lBracket, "[", 1⟩, ⟨.power, "2^33", 1⟩, ⟨.rBracket, "]", 1⟩,
   ⟨.semi, ";", 1⟩, ⟨.scalar .bytes, "opaque", 1⟩, ⟨.ident, "b", 1⟩, ⟨.less, "<", 1⟩, ⟨.number, "5", 1⟩,
   ⟨.dots, "..", 1⟩, ⟨.power, "3^8", 1⟩, ⟨.greater, ">", 1⟩, ⟨.semi, ";", 1⟩, .endAt 1]

theorem compile_reckoned_failed : tokenize "uint8 a[2^33]; opaque b<5..3^8>;" = .ok failedTokens ∧
    ∃ spans rest resolution,
      Reckoned failedTokens (compile "uint8 a[2^33]; opaque b<5..3^8>;" ⟨"<input>", true⟩) spans rest resolution := by
  have cut : tokenize "uint8 a[2^33]; opaque b<5..3^8>;" = .ok failedTokens := by decide +kernel
  exact ⟨cut, compile_reckoned cut _⟩

example : (compile "uint8 a[2^33]; opaque b<5..3^8>;" ⟨"<input>", true⟩).diagnostics.map (fun diagnostic =>
    (diagnostic.near, diagnostic.message)) =
    [("2^33", "Exponent out of range"), (";", "``a'' size (0) is not positive"), ("3^8", "Bad exponent"),
      (";", "``b'' range 5 less than 0")] := by decide +kernel

end WireFormat
