import WireFormat.Check.Schema
import WireFormat.Proofs.Repeats
import WireFormat.Proofs.Verdict

namespace WireFormat

-- Findings by the kind of their cause, and which causes the parts of a check can report.

def findingsOf (kind : Cause → Bool) (findings : List Finding) : List Finding :=
  findings.filter fun finding => kind finding.cause

def Lacks (kind : Cause → Bool) (findings : List Finding) : Prop := ∀ finding ∈ findings, kind finding.cause = false

section Kinds

variable {kind narrow : Cause → Bool} {front back found : List Finding}

theorem every_when {holds : Finding → Prop} (found : Prop) [Decidable found] (one : holds finding) :
    ∀ each ∈ if found then [finding] else [], holds each := by
  split
  · exact List.forall_mem_singleton.mpr one
  · exact List.forall_mem_nil _

theorem every_unless {holds : Finding → Prop} (clear : Prop) [Decidable clear] (one : holds finding) :
    ∀ each ∈ if clear then [] else [finding], holds each := by
  split
  · exact List.forall_mem_nil _
  · exact List.forall_mem_singleton.mpr one

theorem lacks_nil : Lacks kind [] := fun _ member => nomatch member

theorem lacks_append : Lacks kind (front ++ back) ↔ Lacks kind front ∧ Lacks kind back := List.forall_mem_append

theorem lacks_flatMap (items : List α) (found : α → List Finding) (each : ∀ item ∈ items, Lacks kind (found item)) :
    Lacks kind (items.flatMap found) := List.forall_mem_flatMap.mpr each

theorem lacks_map (items : List α) (found : α → Finding) (each : ∀ item, kind (found item).cause = false) :
    Lacks kind (items.map found) := List.forall_mem_map.mpr fun item _ => each item

theorem lacks_unless (clear : Prop) [Decidable clear] (other : kind finding.cause = false) :
    Lacks kind (if clear then [] else [finding]) := every_unless clear other

theorem lacks_when (found : Prop) [Decidable found] (other : kind finding.cause = false) :
    Lacks kind (if found then [finding] else []) := every_when found other

theorem Lacks.mono (lacks : Lacks kind found) (within : ∀ cause, narrow cause = true → kind cause = true) :
    Lacks narrow found := by
  intro finding member
  rw [← Bool.not_eq_true]
  intro told
  have clear := lacks finding member
  rw [within _ told] at clear
  cases clear

theorem Lacks.none (lacks : Lacks kind found) : findingsOf kind found = [] :=
  List.filter_eq_nil_iff.mpr fun finding member => by simp [lacks finding member]

theorem findingsOf_all (all : ∀ finding ∈ found, kind finding.cause = true) : findingsOf kind found = found :=
  List.filter_eq_self.mpr all

@[simp] theorem findingsOf_append (kind : Cause → Bool) (front back : List Finding) :
    findingsOf kind (front ++ back) = findingsOf kind front ++ findingsOf kind back := List.filter_append _ _

theorem findingsOf_flatMap (kind : Cause → Bool) (items : List α) (found : α → List Finding) :
    findingsOf kind (items.flatMap found) = items.flatMap fun item => findingsOf kind (found item) :=
  List.filter_flatMap

theorem findingsOf_cons (told : kind finding.cause = true) (rest : List Finding) :
    findingsOf kind (finding :: rest) = finding :: findingsOf kind rest := List.filter_cons_of_pos told

theorem findingsOf_skip (other : kind finding.cause = false) (rest : List Finding) :
    findingsOf kind (finding :: rest) = findingsOf kind rest :=
  List.filter_cons_of_neg (by rw [other]; exact Bool.false_ne_true)

theorem findingsOf_narrow (within : ∀ cause, narrow cause = true → kind cause = true) (found : List Finding) :
    findingsOf narrow (findingsOf kind found) = findingsOf narrow found := by
  rw [findingsOf, findingsOf, List.filter_filter]
  refine List.filter_congr fun finding _ => ?_
  cases told : narrow finding.cause with
  | false => rfl
  | true =>
    rw [within _ told]
    rfl

theorem Number.reports (number : Number) :
    ∀ finding ∈ number.findings, ∃ error, finding = ⟨.failedLiteral error, number.token⟩ := by
  intro finding member
  rw [findings] at member
  cases failed : number.evaluated.error with
  | none => simp [failed] at member
  | some error =>
    simp only [failed] at member
    exact ⟨error, List.mem_singleton.mp member⟩

theorem Number.lacks (number : Number) (literals : ∀ error, kind (.failedLiteral error) = false) :
    Lacks kind number.findings := by
  intro finding member
  obtain ⟨error, rfl⟩ := number.reports finding member
  exact literals error

theorem Size.lacks (size : Size) (owner : String) (close : Token) (empty : kind (.emptySize owner) = false)
    (inverted : ∀ low high, kind (.invertedRange owner low high) = false) :
    Lacks kind (size.findings owner close) := by
  unfold findings
  split
  · exact lacks_when _ empty
  · exact lacks_when _ (inverted _ _)
  · exact lacks_nil

end Kinds

-- What is reported about an enum: literals and names where they stand, and values at
-- the semicolon.
inductive EnumDecl.Reports (listing : EnumDecl) : Finding → Prop where
  | entryLiteral (stands : entry ∈ listing.entries) (given : entry.value = some number)
      (found : finding ∈ number.findings) : Reports listing finding
  | maxLiteral (given : listing.max = some number) (found : finding ∈ number.findings) : Reports listing finding
  | duplicateEntry (stands : entry ∈ listing.entries) :
      Reports listing ⟨.duplicateEntry entry.name.text, entry.name⟩
  | repeatedValue : Reports listing ⟨.repeatedValue owner value, listing.close⟩
  | excessiveValue : Reports listing ⟨.excessiveValue owner value limit, listing.close⟩

namespace EnumDecl

variable (listing : EnumDecl)

theorem entries_report : ∀ finding ∈ listing.entryFindings, listing.Reports finding := by
  intro finding member
  obtain ⟨⟨entry, again⟩, marked, found⟩ := List.mem_flatMap.mp member
  have stands := marked_listed marked
  rcases List.mem_append.mp found with literal | repeated
  · cases given : entry.value with
    | none => simp [given] at literal
    | some number =>
      simp only [given] at literal
      exact .entryLiteral stands given literal
  · split at repeated
    · obtain rfl := List.mem_singleton.mp repeated
      exact .duplicateEntry stands
    · cases repeated

theorem max_reports : ∀ finding ∈ listing.maxFindings, listing.Reports finding := by
  intro finding member
  rw [maxFindings] at member
  cases given : listing.max with
  | none => simp [given] at member
  | some number =>
    simp only [given] at member
    exact .maxLiteral given member

theorem values_report : ∀ finding ∈ listing.valueFindings, listing.Reports finding := by
  intro finding member
  obtain ⟨⟨⟨entry, value⟩, again⟩, _, found⟩ := List.mem_flatMap.mp member
  rcases List.mem_append.mp found with repeated | excessive
  · split at repeated
    · obtain rfl := List.mem_singleton.mp repeated
      exact .repeatedValue
    · cases repeated
  · cases given : listing.max with
    | none => simp [given] at excessive
    | some max =>
      simp only [given] at excessive
      split at excessive
      · obtain rfl := List.mem_singleton.mp excessive
        exact .excessiveValue
      · cases excessive

theorem findings_report : ∀ finding ∈ listing.findings, listing.Reports finding :=
  List.forall_mem_append.mpr ⟨List.forall_mem_append.mpr
    ⟨listing.entries_report, listing.max_reports⟩, listing.values_report⟩

theorem lacks (literals : ∀ error, kind (.failedLiteral error) = false)
    (names : ∀ name, kind (.duplicateEntry name) = false) (values : ∀ name value, kind (.repeatedValue name value) = false)
    (limits : ∀ name value max, kind (.excessiveValue name value max) = false) : Lacks kind listing.findings := by
  intro finding member
  cases listing.findings_report finding member with
  | @entryLiteral _ number _ _ _ found | @maxLiteral number _ _ found => exact number.lacks literals finding found
  | duplicateEntry => exact names _
  | repeatedValue => exact values _ _
  | excessiveValue => exact limits _ _ _

end EnumDecl

namespace Resolution

variable (resolution : Resolution)

theorem declare_reports (name : Token) (kind : Symbol.Kind) (size : Size) (id : Nat) (close : Token) :
    ∀ finding ∈ (resolution.declare name kind size id close).2,
      finding = ⟨.duplicateSymbol name.text, close⟩ := by
  unfold declare
  dsimp only
  split
  · exact List.forall_mem_nil _
  · exact List.forall_mem_singleton.mpr rfl

theorem declare_lacks (name : Token) (sort : Symbol.Kind) (size : Size) (id : Nat) (close : Token)
    (other : ∀ name, kind (.duplicateSymbol name) = false) :
    Lacks kind (resolution.declare name sort size id close).2 := by
  intro finding member
  rw [resolution.declare_reports name sort size id close finding member]
  exact other name.text

end Resolution

namespace Place

variable {kind : Cause → Bool} (place : Place)

theorem value_lacks (use : Use) (name : Name) (other : kind finding.cause = false) :
    Lacks kind (place.valueFindings use name finding) := by
  unfold valueFindings
  split
  · exact lacks_nil
  · exact List.forall_mem_singleton.mpr other

theorem closing_lacks (members : List Member) (name close : Token)
    (items : ∀ item, kind (.duplicateItem item name.text) = false) (types : ∀ type, kind (.unknownType type) = false) :
    Lacks kind (place.closingFindings members name close) :=
  lacks_append.mpr ⟨lacks_map _ _ items, lacks_map _ _ types⟩

theorem taken_lacks (taken : List String) (name close : Token) (other : ∀ name, kind (.duplicateSymbol name) = false) :
    Lacks kind (takenFindings taken name close) := lacks_when _ (other name.text)

theorem titled_lacks (taken : List String) (choice : Select) (other : ∀ name, kind (.duplicateSymbol name) = false) :
    Lacks kind (choice.name.toList.flatMap fun name => takenFindings taken name choice.close) :=
  lacks_flatMap _ _ fun name _ => taken_lacks taken name choice.close other

end Place

end WireFormat
