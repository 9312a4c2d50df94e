import WireFormat.Proofs.Analyzed
import WireFormat.Proofs.Kinds
import WireFormat.Proofs.Site

namespace WireFormat

def Cause.isUnknownValue : Cause → Bool
  | .unknownSize _ => true
  | .unknownSelector _ => true
  | _ => false

open Classical in
noncomputable def Occurrence.failures (occurrence : Occurrence) : List Finding :=
  if occurrence.Resolves then [] else [occurrence.finding]

noncomputable def Site.failures (site : Site) : List Finding :=
  site.occurrences.flatMap Occurrence.failures

theorem valueNames_failures (occurrence : Occurrence) :
    findingsOf Cause.isUnknownValue occurrence.failures = occurrence.failures := by
  unfold Occurrence.failures
  split
  · rfl
  · obtain ⟨place, use, name, token⟩ := occurrence
    cases use <;> rfl

theorem valueNames_sizeExpr (place : Place) (close : Token) (size : SizeExpr) :
    findingsOf Cause.isUnknownValue (place.sizeFindings close size) =
      (size.reference?.toList.map (Occurrence.mk place .size · close)).flatMap Occurrence.failures := by
  cases size with
  | literal number | power number => exact (number.lacks fun _ => rfl).none
  | reference name =>
    rw [SizeExpr.reference?, Option.toList_some, List.map_singleton, List.flatMap_singleton]
    exact valueNames_failures ⟨place, .size, name, close⟩

theorem valueNames_bounds (place : Place) (owner : String) (type : TypeRef) (bounds : Option Bounds)
    (close : Token) :
    findingsOf Cause.isUnknownValue (place.boundsFindings owner close bounds) =
      Site.failures ⟨place, .line type bounds close⟩ := by
  cases bounds with
  | none => rfl
  | some bounds =>
    have sizes : bounds.references = bounds.sizes.flatMap (·.reference?.toList) := by
      rw [Bounds.references, List.filterMap_eq_flatMap_toList]
    have size : Lacks Cause.isUnknownValue (bounds.size.findings owner close) :=
      bounds.size.lacks owner close rfl fun _ _ => rfl
    simp only [Place.boundsFindings, findingsOf_append, findingsOf_flatMap, size.none, List.append_nil,
      Site.failures, Site.occurrences, Option.toList_some, List.flatMap_singleton, sizes,
      List.map_flatMap, List.flatMap_assoc, valueNames_sizeExpr]

theorem valueNames_arm (place : Place) (arm : Arm) :
    findingsOf Cause.isUnknownValue (place.armFindings arm) =
      (arm.items.map fun item => (⟨place, .line item.type item.bounds item.close⟩ : Site)).flatMap
        Site.failures := by
  have labels : Lacks Cause.isUnknownValue arm.repeatFindings := lacks_map _ _ fun _ => rfl
  have types : Lacks Cause.isUnknownValue ((arm.items.filterMap fun item => place.unknownType? item.type).map
      fun name => ⟨.unknownType name, arm.follow⟩) := lacks_map _ _ fun _ => rfl
  rw [Place.armFindings, findingsOf_append, findingsOf_append, labels.none, types.none, findingsOf_flatMap,
    List.nil_append, List.append_nil, List.flatMap_map]
  congr
  funext item
  exact valueNames_bounds place item.owner item.type item.bounds item.close

theorem valueNames_select (place : Place) (choice : Select) :
    findingsOf Cause.isUnknownValue (place.selectFindings choice) =
      (choice.sites place).flatMap Site.failures := by
  have across : Lacks Cause.isUnknownValue choice.acrossFindings := lacks_map _ _ fun _ => rfl
  have selector : Site.failures ⟨place, .select choice⟩ =
      Occurrence.failures ⟨place, .selector, choice.selector, choice.opening⟩ :=
    List.flatMap_singleton _ _
  have kept := valueNames_failures ⟨place, .selector, choice.selector, choice.opening⟩
  rw [Select.sites, List.flatMap_cons, List.flatMap_assoc, selector, ← kept, Place.selectFindings,
    findingsOf_append, findingsOf_append, across.none, findingsOf_flatMap, List.append_nil]
  simp only [valueNames_arm]
  rfl

mutual

theorem valueNames_member (place : Place) (member : Member) :
    findingsOf Cause.isUnknownValue (place.memberFindings member) =
      (member.sites place).flatMap Site.failures := by
  cases member with
  | field entry =>
    rw [Place.memberFindings, Member.sites, List.flatMap_singleton]
    exact valueNames_bounds place entry.name.text entry.type entry.bounds entry.close
  | struct members name close =>
    have closing : Lacks Cause.isUnknownValue (place.closingFindings members name close) :=
      place.closing_lacks members name close (fun _ => rfl) fun _ => rfl
    rw [Place.memberFindings, Member.sites, findingsOf_append, closing.none, List.append_nil]
    exact valueNames_members place [] members
  | select choice =>
    rw [Place.memberFindings, Member.sites]
    exact valueNames_select place choice

theorem valueNames_members (place : Place) (earlier members : List Member) :
    findingsOf Cause.isUnknownValue (place.membersFindings earlier members) =
      (Member.allSites place earlier members).flatMap Site.failures := by
  cases members with
  | nil => rfl
  | cons member rest =>
    rw [Place.membersFindings, Member.allSites, findingsOf_append, List.flatMap_append,
      valueNames_member, valueNames_members]

end

theorem valueNames_decl (place : Place) (decl : Decl) :
    findingsOf Cause.isUnknownValue (place.declFindings decl) = (decl.sites place).flatMap Site.failures := by
  have taken (titles : List String) (name close : Token) :
      Lacks Cause.isUnknownValue (Place.takenFindings titles name close) :=
    Place.taken_lacks titles name close fun _ => rfl
  cases decl with
  | external name close => exact (taken _ name close).none
  | field entry =>
    have type : Lacks Cause.isUnknownValue ((place.unknownType? entry.type).toList.map fun name =>
        ⟨.unknownType name, entry.close⟩) := lacks_map _ _ fun _ => rfl
    rw [Place.declFindings, findingsOf_append, findingsOf_append, (taken _ _ _).none, type.none,
      List.append_nil, List.append_nil, Decl.sites, List.flatMap_singleton]
    exact valueNames_bounds place entry.name.text entry.type entry.bounds entry.close
  | enum listing =>
    have own : Lacks Cause.isUnknownValue listing.findings :=
      listing.lacks (fun _ => rfl) (fun _ => rfl) (fun _ _ => rfl) fun _ _ _ => rfl
    exact (lacks_append.mpr ⟨own, taken _ _ _⟩).none
  | struct members name close =>
    rw [Place.declFindings, findingsOf_append, (taken _ _ _).none, List.append_nil]
    exact valueNames_member place (.struct members name close)
  | select choice =>
    have titled : Lacks Cause.isUnknownValue (choice.name.toList.flatMap fun name =>
        Place.takenFindings (place.prior.filterMap Decl.globalName?) name choice.close) :=
      Place.titled_lacks _ choice fun _ => rfl
    rw [Place.declFindings, findingsOf_append, titled.none, List.append_nil]
    exact valueNames_select place choice

theorem valueNames_after (externs : List String) (prior decls : List Decl) :
    findingsOf Cause.isUnknownValue (findingsAfter externs prior decls) =
      (sitesAfter externs prior decls).flatMap Site.failures := by
  induction decls generalizing prior with
  | nil => rfl
  | cons decl rest ih =>
    rw [findingsAfter, sitesAfter, findingsOf_append, List.flatMap_append, valueNames_decl, ih]

def Diagnostic.unnoted (diagnostic : Diagnostic) : Diagnostic := { diagnostic with note := none }

-- The two reports are told from all others by how they begin.
def reportsUnknownValue (message : String) : Bool :=
  "Unknown size reference ".toList.isPrefixOf message.toList ||
    "Unknown variant selector ".toList.isPrefixOf message.toList

theorem begins_append (start rest : String) : start.toList.isPrefixOf (start ++ rest).toList = true := by
  rw [String.toList_append, List.isPrefixOf_iff_prefix]
  exact List.prefix_append _ _

theorem reportsUnknownValue_exact (cause : Cause) : reportsUnknownValue cause.message = cause.isUnknownValue := by
  cases cause with
  | unknownSize name =>
    have begins := begins_append "Unknown size reference " (Cause.quoted name.text)
    unfold Cause.message
    rw [reportsUnknownValue, begins, Bool.true_or, Cause.isUnknownValue]
  | unknownSelector name =>
    have begins := begins_append "Unknown variant selector " (Cause.quoted name.text)
    unfold Cause.message
    rw [reportsUnknownValue, begins, Bool.or_true, Cause.isUnknownValue]
  | failedLiteral error => cases error <;> decide
  | _ =>
    unfold Cause.message
    simp [reportsUnknownValue, Cause.quoted, Cause.isUnknownValue, String.toList_append, List.isPrefixOf]

theorem report_valueNames (once noted : Bool) (findings : List Finding) :
    ((report once noted findings).filter fun diagnostic =>
      reportsUnknownValue diagnostic.message).map Diagnostic.unnoted =
        (findingsOf Cause.isUnknownValue findings).map (·.diagnostic false) := by
  induction findings generalizing noted with
  | nil => rfl
  | cons finding rest ih =>
    have tells (withNote : Bool) : reportsUnknownValue (finding.diagnostic withNote).message =
        finding.cause.isUnknownValue := reportsUnknownValue_exact finding.cause
    rw [report, List.filter_cons, findingsOf, List.filter_cons, tells]
    cases finding.cause.isUnknownValue with
    | false => exact ih _
    | true =>
      rw [if_pos rfl, if_pos rfl, List.map_cons, List.map_cons, ih]
      rfl

-- What the diagnostic for a failed use says, but for the note.
def Occurrence.diagnostic (occurrence : Occurrence) : Diagnostic :=
  let what := match occurrence.use with
    | .size => "Unknown size reference "
    | .selector => "Unknown variant selector "
  ⟨.semantic, occurrence.token.line, occurrence.token.text,
    what ++ Cause.quoted occurrence.name.text, none⟩

theorem Occurrence.finding_diagnostic (occurrence : Occurrence) :
    occurrence.finding.diagnostic false = occurrence.diagnostic := by
  obtain ⟨place, use, name, token⟩ := occurrence
  cases use <;> rfl

open Classical in
theorem failures_filter (occurrences : List Occurrence) :
    occurrences.flatMap Occurrence.failures =
      (occurrences.filter fun occurrence => ¬ occurrence.Resolves).map Occurrence.finding := by
  induction occurrences with
  | nil => rfl
  | cons occurrence rest ih =>
    rw [List.flatMap_cons, ih, Occurrence.failures]
    by_cases resolves : occurrence.Resolves
    · simp [resolves]
    · simp [resolves]

open Classical in
-- A use of a name as a value is reported where the scoping rule fails it, once, and
-- nowhere else, whatever else is wrong with the schema.
theorem unknown_values_exact (decls : List Decl) (once : Bool) :
    ((report once false (analyze decls).2).filter fun diagnostic =>
      reportsUnknownValue diagnostic.message).map Diagnostic.unnoted =
        (((sites decls).flatMap Site.occurrences).filter fun occurrence =>
          ¬ occurrence.Resolves).map Occurrence.diagnostic := by
  have failures : (sites decls).flatMap Site.failures =
      ((sites decls).flatMap Site.occurrences).flatMap Occurrence.failures :=
    List.flatMap_assoc.symm
  have named := valueNames_after (decls.filterMap Decl.external?) [] decls
  rw [report_valueNames, analyze_findings, schemaFindings, named]
  rw [sites] at failures
  rw [failures, failures_filter, List.map_map]
  exact List.map_congr_left fun occurrence _ => occurrence.finding_diagnostic

end WireFormat
