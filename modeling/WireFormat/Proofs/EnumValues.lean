import WireFormat.Proofs.Agreed
import WireFormat.Proofs.Duplicates

namespace WireFormat

-- The values of an enum in plain arithmetic, and what follows from them: the reports of the
-- enum and its definition.

namespace EnumDecl

variable (listing : EnumDecl)

-- The value that is written at an entry, if there is one. A literal has a value even when
-- it failed.
def given? (i : Nat) : Option Nat := (listing.entries[i]?.bind (·.value)).map (·.value.toNat)

-- Without one, an entry continues from the entry before as far as 64 bits go.
def valueAt : Nat → Nat
  | 0 => (listing.given? 0).getD 0
  | i + 1 => (listing.given? (i + 1)).getD (min (valueAt i + 1) (2 ^ 64 - 1))

def literalReport : Option Number → List Diagnostic
  | none => []
  | some number =>
    match number.evaluated.error with
    | none => []
    | some error => [⟨.literal, number.token.line, number.token.text, error.message, none⟩]

-- Of each entry its literal, and its name if an earlier entry has it.
def entryReport : List Diagnostic := listing.entries.zipIdx.flatMap fun (entry, i) =>
  literalReport entry.value ++
  if ∃ earlier ∈ listing.entries.take i, earlier.name.text = entry.name.text then
    [⟨.semantic, entry.name.line, entry.name.text, "Duplicate " ++ Cause.quoted entry.name.text ++ " in enum", none⟩]
  else []

def valueDiagnostic (message : String) : Diagnostic :=
  ⟨.semantic, listing.close.line, listing.close.text, message, none⟩

-- Values are compared whatever the names of their entries are.
def repeatedReport (entry : EnumEntry) (i : Nat) : List Diagnostic :=
  if ∃ j < i, listing.valueAt j = listing.valueAt i then
    [listing.valueDiagnostic
      ("Enum " ++ Cause.quoted entry.name.text ++ " duplicates value " ++ toString (listing.valueAt i))]
  else []

def excessReport (entry : EnumEntry) (i : Nat) : List Diagnostic :=
  match listing.max with
  | none => []
  | some max =>
    if max.value.toNat < listing.valueAt i then
      [listing.valueDiagnostic ("Value for " ++ Cause.quoted entry.name.text ++ " is too big (" ++
        toString (listing.valueAt i) ++ " > " ++ toString max.value.toNat ++ ")")]
    else []

def valueReport : List Diagnostic := listing.entries.zipIdx.flatMap fun (entry, i) =>
  listing.repeatedReport entry i ++ listing.excessReport entry i

-- The entries that an enum keeps: the first of each name, with its value.
def kept : List Definition.Entry :=
  (listing.entries.zipIdx.filter fun (entry, i) =>
    ¬∃ earlier ∈ listing.entries.take i, earlier.name.text = entry.name.text).map fun (entry, i) =>
      ⟨some entry.name.text, none, .fixed (UInt64.ofNat (listing.valueAt i))⟩

theorem given_lt (i : Nat) (bound : otherwise < 2 ^ 64) : (listing.given? i).getD otherwise < 2 ^ 64 := by
  unfold given?
  cases listing.entries[i]?.bind (·.value) with
  | none => exact bound
  | some number => exact number.value.toNat_lt

theorem valueAt_lt (i : Nat) : listing.valueAt i < 2 ^ 64 := by
  cases i with
  | zero => exact listing.given_lt 0 (by decide)
  | succ i => exact listing.given_lt (i + 1) (by omega)

theorem word_exact (i : Nat) : (UInt64.ofNat (listing.valueAt i)).toNat = listing.valueAt i :=
  UInt64.toNat_ofNat_of_lt (listing.valueAt_lt i)

end EnumDecl

theorem successor_exact (value : UInt64) : (successor value).toNat = min (value.toNat + 1) (2 ^ 64 - 1) := by
  have bound := value.toNat_lt
  have sum : (value + 1).toNat = (value.toNat + 1) % 2 ^ 64 := UInt64.toNat_add value 1
  unfold successor
  split
  · rename_i wraps
    rw [wraps] at sum
    change 0 = _ at sum
    omega
  · rename_i stays
    have positive : (value + 1).toNat ≠ 0 := fun zero => stays (UInt64.toNat_inj.mp zero)
    omega

theorem values_next {next : UInt64} {entries : List EnumEntry} {i : Nat}
    (here : (EnumEntry.values next entries)[i]? = some value) :
    (EnumEntry.values next entries)[i + 1]? =
      entries[i + 1]?.map fun entry => (entry.value.map (·.value)).getD (successor value) := by
  induction i generalizing next entries with
  | zero =>
    cases entries with
    | nil => cases here
    | cons entry rest =>
      obtain rfl := Option.some.inj here
      cases rest with
      | nil => rfl
      | cons second rest => cases given : second.value <;> simp [EnumEntry.values, given]
  | succ i ih =>
    cases entries with
    | nil => cases here
    | cons entry rest => exact ih here

namespace EnumDecl

variable (listing : EnumDecl)

theorem values_exact (i : Nat) : (EnumEntry.values 0 listing.entries)[i]? =
    listing.entries[i]?.map fun _ => UInt64.ofNat (listing.valueAt i) := by
  induction i with
  | zero =>
    cases entries : listing.entries with
    | nil => rfl
    | cons entry rest => cases given : entry.value <;> simp [EnumEntry.values, valueAt, given?, entries, given]
  | succ i ih =>
    cases here : listing.entries[i]? with
    | none =>
      have ended := List.getElem?_eq_none_iff.mp here
      rw [List.getElem?_eq_none (by rw [values_length]; omega), List.getElem?_eq_none (by omega)]
      rfl
    | some entry =>
      rw [here] at ih
      rw [values_next ih]
      cases stands : listing.entries[i + 1]? with
      | none => rfl
      | some after =>
        cases given : after.value with
        | some number => simp [valueAt, given?, stands, given]
        | none =>
          have follows := congrArg UInt64.ofNat (successor_exact (UInt64.ofNat (listing.valueAt i)))
          rw [UInt64.ofNat_toNat, word_exact] at follows
          simp [valueAt, given?, stands, given, follows]

def valuedAt (stands : EnumEntry × Nat) : EnumEntry × UInt64 := (stands.1, UInt64.ofNat (listing.valueAt stands.2))

theorem valued_exact : listing.valued = listing.entries.zipIdx.map listing.valuedAt := by
  refine List.ext_getElem? fun i => ?_
  rw [valued, List.zip, List.getElem?_zipWith, values_exact, List.getElem?_map, List.getElem?_zipIdx]
  cases listing.entries[i]? with
  | none => rfl
  | some entry => simp [valuedAt]

end EnumDecl

theorem zipIdx_preceded (items : List α) :
    preceded items.zipIdx = items.zipIdx.map fun (item, i) => (items.zipIdx.take i, (item, i)) := by
  refine List.ext_getElem? fun i => ?_
  simp only [preceded, List.getElem?_map, List.getElem?_zipIdx]
  cases items[i]? <;> simp

theorem zipIdx_take (items : List α) (inside : i ≤ items.length) (holds : Nat → Prop) :
    (∃ pair ∈ items.zipIdx.take i, holds pair.2) ↔ ∃ j < i, holds j := by
  constructor
  · intro given
    obtain ⟨pair, member, found⟩ := given
    obtain ⟨j, before, rfl⟩ := List.mem_take_iff_getElem.mp member
    rw [List.getElem_zipIdx, Nat.zero_add] at found
    exact ⟨j, by omega, found⟩
  · intro given
    obtain ⟨j, before, found⟩ := given
    have stands : j < items.length := by omega
    exact ⟨(items[j], j), List.mem_take_iff_getElem.mpr ⟨j, by simp; omega, by simp⟩, found⟩

namespace EnumDecl

variable (listing : EnumDecl)

theorem valued_preceded : preceded listing.valued = listing.entries.zipIdx.map fun stands =>
    ((listing.entries.zipIdx.take stands.2).map listing.valuedAt, listing.valuedAt stands) := by
  rw [valued_exact, preceded_map, zipIdx_preceded, List.map_map]
  rfl

theorem number_report (number : Number) :
    number.findings.map (·.diagnostic false) = literalReport (some number) := by
  simp only [Number.findings, literalReport]
  cases number.evaluated.error <;> rfl

theorem entryFindings_report : listing.entryFindings.map (·.diagnostic false) = listing.entryReport := by
  rw [entryFindings, entryReport, marked_each, List.map_flatMap, preceded, List.flatMap_map]
  refine List.flatMap_congr fun pair _ => ?_
  obtain ⟨entry, i⟩ := pair
  simp only [List.map_append, List.mem_map, decide_eq_true_eq]
  congr 1
  · cases entry.value with
    | none => rfl
    | some number => exact number_report number
  · split <;> rfl

theorem maxFindings_report : listing.maxFindings.map (·.diagnostic false) = literalReport listing.max := by
  unfold maxFindings
  cases listing.max with
  | none => rfl
  | some max => exact number_report max

theorem value_again (inside : i < listing.entries.length) :
    UInt64.ofNat (listing.valueAt i) ∈ ((listing.entries.zipIdx.take i).map listing.valuedAt).map Prod.snd ↔
      ∃ j < i, listing.valueAt j = listing.valueAt i := by
  have same (j : Nat) : UInt64.ofNat (listing.valueAt j) = UInt64.ofNat (listing.valueAt i) ↔
      listing.valueAt j = listing.valueAt i := by
    rw [← UInt64.toNat_inj, word_exact, word_exact]
  rw [List.map_map, List.mem_map, ← zipIdx_take listing.entries (Nat.le_of_lt inside)]
  simp only [Function.comp_def, valuedAt, same]

theorem valueFindings_report : listing.valueFindings.map (·.diagnostic false) = listing.valueReport := by
  rw [valueFindings, valueReport, marked_each, valued_preceded, List.map_flatMap, List.flatMap_map]
  refine List.flatMap_congr fun pair member => ?_
  obtain ⟨entry, i⟩ := pair
  have shown : toString (UInt64.ofNat (listing.valueAt i)) = toString (listing.valueAt i) :=
    congrArg toString (listing.word_exact i)
  have again := listing.value_again (List.snd_lt_of_mem_zipIdx member)
  simp only [valuedAt] at again ⊢
  simp only [List.map_append, again, decide_eq_true_eq, repeatedReport, excessReport]
  congr 1
  · split
    · rw [← shown]
      rfl
    · rfl
  · cases listing.max with
    | none => rfl
    | some max =>
      simp only [UInt64.lt_iff_toNat_lt, word_exact]
      split
      · rw [← shown]
        rfl
      · rfl

theorem name_again (name : String) (i : Nat) :
    name ∈ ((listing.entries.zipIdx.take i).map listing.valuedAt).map (·.1.name.text) ↔
      ∃ earlier ∈ listing.entries.take i, earlier.name.text = name := by
  have names : ((listing.entries.zipIdx.take i).map listing.valuedAt).map (·.1.name.text) =
      (listing.entries.take i).map (·.name.text) := by
    conv => rhs; rw [← List.zipIdx_map_fst 0 listing.entries]
    rw [List.map_map, ← List.map_take, List.map_map]
    rfl
  rw [names, List.mem_map]

theorem definition_exact : listing.definition =
    ⟨listing.name.text, .enum, listing.name.line, listing.size, listing.kept⟩ := by
  have entries : listing.definition.entries = listing.kept := by
    rw [definition, firsts_preceded, valued_preceded, kept, List.filter_map, List.map_map, List.map_map]
    simp only [Function.comp_def, name_again]
    rfl
  rw [← entries]
  rfl

variable {listing}

theorem last_repeated (last : listing.valueAt i = 2 ^ 64 - 1) (stands : listing.entries[i + 1]? = some entry)
    (implicit : entry.value = none) : listing.valueDiagnostic
      ("Enum " ++ Cause.quoted entry.name.text ++ " duplicates value " ++ toString (2 ^ 64 - 1)) ∈
        listing.valueReport := by
  have next : listing.valueAt (i + 1) = 2 ^ 64 - 1 := by simp [valueAt, given?, stands, implicit, last]
  have again : ∃ j < i + 1, listing.valueAt j = listing.valueAt (i + 1) := ⟨i, Nat.lt_succ_self i, last.trans next.symm⟩
  refine List.mem_flatMap.mpr ⟨(entry, i + 1), List.mk_mem_zipIdx_iff_getElem?.mpr stands, List.mem_append_left _ ?_⟩
  rw [repeatedReport, if_pos again, next]
  exact List.mem_singleton_self _

theorem implicit_values (implicit : ∀ entry ∈ listing.entries, entry.value = none) (small : i < 2 ^ 64) :
    listing.valueAt i = i := by
  have none_given (i : Nat) : listing.given? i = none := by
    cases stands : listing.entries[i]? with
    | none => simp [given?, stands]
    | some entry => simp [given?, stands, implicit entry (List.mem_of_getElem? stands)]
  induction i with
  | zero => rw [valueAt, none_given, Option.getD_none]
  | succ i ih =>
    rw [valueAt, none_given, Option.getD_none, ih (by omega)]
    omega

theorem implicit_report (implicit : ∀ entry ∈ listing.entries, entry.value = none)
    (small : listing.entries.length < 2 ^ 64) :
    listing.valueReport = listing.entries.zipIdx.flatMap fun (entry, i) => listing.excessReport entry i := by
  refine List.flatMap_congr fun pair member => ?_
  obtain ⟨entry, i⟩ := pair
  have inside := List.snd_lt_of_mem_zipIdx member
  have fresh : ¬∃ j < i, listing.valueAt j = listing.valueAt i := by
    rintro ⟨j, before, same⟩
    rw [implicit_values implicit (by omega), implicit_values implicit (by omega)] at same
    omega
  show listing.repeatedReport entry i ++ _ = _
  rw [repeatedReport, if_neg fresh, List.nil_append]

end EnumDecl

theorem enum_reported (front back : List Decl) (listing : EnumDecl) (once : Bool) :
    ∃ before after, before.length = front.length ∧ after.length = back.length ∧
      Reports once (front ++ .enum listing :: back) (before ++ (listing.entryReport ++
        EnumDecl.literalReport listing.max ++ listing.valueReport ++ Decl.nameReport front (.enum listing)) :: after) := by
  have shows := reachedBy_shows front (.enum listing :: back)
  obtain ⟨before, after, noted, preceding, following, reports⟩ := reports_between front back (.enum listing) once
  refine ⟨before, after, preceding, following, ?_⟩
  have found : ((reachedBy front (.enum listing :: back)).checkDecl (Resolution.known front) (.enum listing)).2 =
      listing.findings ++ Decl.nameFindings front (.enum listing) := by
    rw [Decl.nameFindings_global (.enum listing) rfl]
    exact congrArg (_ ++ ·) (shows.declare_found _ _ _ _ _ _)
  have own : Lacks Cause.isDotted listing.findings :=
    listing.lacks (fun _ => rfl) (fun _ => rfl) (fun _ _ => rfl) fun _ _ _ => rfl
  have name : Lacks Cause.isDotted (Decl.nameFindings front (.enum listing)) := lacks_when _ rfl
  rw [found, report_undotted (lacks_append.mpr ⟨own, name⟩), List.map_append, EnumDecl.findings, List.map_append, List.map_append,
    listing.entryFindings_report, listing.maxFindings_report, listing.valueFindings_report,
    Decl.nameFindings_report] at reports
  exact reports

theorem enum_defined (front back : List Decl) (listing : EnumDecl) :
    (analyze (front ++ .enum listing :: back)).1.types.get? (subjectCount front) = some listing.definition := by
  have checked : ((reachedBy front back).checkDecl (Resolution.known front) (.enum listing)).1.types.definitions =
      ((reachedBy front back).types.push listing.definition).1.definitions :=
    Resolution.declare_definitions _ _ _ _ _ _
  have stored := Arena.push_get (reachedBy front back).types listing.definition
  rw [Arena.get?, ← checked, (reachedBy_ordered front back).size] at stored
  rw [analyze_outside front back rfl]
  exact ((Resolution.checkDecls_extends _ _ back).types.get? (Array.getElem?_eq_some_iff.mp stored).1).trans stored

-- An enum in any schema: its reports, its definition, and that counting never wraps.
theorem enum_exact (front back : List Decl) (listing : EnumDecl) (once : Bool) :
    (∃ before after, before.length = front.length ∧ after.length = back.length ∧
      Reports once (front ++ .enum listing :: back) (before ++ (listing.entryReport ++
        EnumDecl.literalReport listing.max ++ listing.valueReport ++ Decl.nameReport front (.enum listing)) :: after)) ∧
    (analyze (front ++ .enum listing :: back)).1.types.get? (subjectCount front) =
      some ⟨listing.name.text, .enum, listing.name.line,
        (match listing.max with | none => .unsized | some max => .range 0 max.value), listing.kept⟩ ∧
    (∀ i, listing.valueAt i < 2 ^ 64) ∧
    (∀ i entry, listing.valueAt i = 2 ^ 64 - 1 → listing.entries[i + 1]? = some entry → entry.value = none →
      listing.valueDiagnostic ("Enum " ++ Cause.quoted entry.name.text ++ " duplicates value " ++ toString (2 ^ 64 - 1)) ∈
        listing.valueReport) ∧
    ((∀ entry ∈ listing.entries, entry.value = none) → listing.entries.length < 2 ^ 64 →
      (∀ i < listing.entries.length, listing.valueAt i = i) ∧
      listing.valueReport = listing.entries.zipIdx.flatMap fun (entry, i) => listing.excessReport entry i) := by
  refine ⟨enum_reported front back listing once, ?_, listing.valueAt_lt, fun i entry => EnumDecl.last_repeated,
    fun implicit small => ⟨fun i inside => EnumDecl.implicit_values implicit (by omega), ?_⟩⟩
  · rw [enum_defined, listing.definition_exact]
    rfl
  · exact EnumDecl.implicit_report implicit small

-- An enum that begins at the largest value, and one without any value.
def overEntry : EnumEntry := ⟨⟨.ident, "over", 1⟩, none⟩
def fullEnum : EnumDecl :=
  ⟨[⟨⟨.ident, "top", 1⟩, some (.literal ⟨.number, "0xffffffffffffffff", 1⟩)⟩, overEntry], none,
    ⟨.ident, "full", 1⟩, ⟨.semi, ";", 1⟩⟩
def plainEnum : EnumDecl :=
  ⟨[⟨⟨.ident, "none", 2⟩, none⟩, overEntry], some (.literal ⟨.number, "0", 2⟩),
    ⟨.ident, "plain", 2⟩, ⟨.semi, ";", 2⟩⟩

theorem enum_exact_full :
    (fullEnum.valueAt 0 = 2 ^ 64 - 1 ∧ fullEnum.entries[1]? = some overEntry ∧ overEntry.value = none ∧
      fullEnum.valueDiagnostic ("Enum " ++ Cause.quoted "over" ++ " duplicates value " ++ toString (2 ^ 64 - 1)) ∈
        fullEnum.valueReport) ∧
    (∀ entry ∈ plainEnum.entries, entry.value = none) ∧ plainEnum.entries.length < 2 ^ 64 ∧
      plainEnum.valueReport = plainEnum.entries.zipIdx.flatMap fun (entry, i) => plainEnum.excessReport entry i := by
  have last : fullEnum.valueAt 0 = 2 ^ 64 - 1 := by decide +kernel
  have implicit : ∀ entry ∈ plainEnum.entries, entry.value = none := by decide
  have small : plainEnum.entries.length < 2 ^ 64 := by decide
  obtain ⟨_, _, _, full, _⟩ := enum_exact [] [.enum plainEnum] fullEnum true
  obtain ⟨_, _, _, _, plain⟩ := enum_exact [.enum fullEnum] [] plainEnum true
  exact ⟨⟨last, rfl, rfl, full 0 overEntry last rfl rfl⟩, implicit, small, (plain implicit small).2⟩

end WireFormat
