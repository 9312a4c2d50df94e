import WireFormat.Proofs.Analyzed
import WireFormat.Proofs.Repeats
import WireFormat.Proofs.Strict

namespace WireFormat

-- Each part of the verdict is empty exactly when its site is sound.

theorem number_accepted (number : Number) : number.findings = [] ↔ number.Evaluates := by
  unfold Number.findings Number.Evaluates
  cases number.evaluated.error <;> simp

theorem value_accepted (place : Place) (use : Use) (name : Name) (finding : Finding) :
    place.valueFindings use name finding = [] ↔ place.Admits Ending.isTolerated use name := by
  unfold Place.valueFindings
  split <;> simp [*]

theorem type_accepted (place : Place) (type : TypeRef) :
    place.unknownType? type = none ↔ place.Knows type := by
  unfold Place.unknownType?
  split
  · simp [*]
  · cases type with
    | scalar => exact absurd Place.Knows.scalar ‹_›
    | named name => simp [TypeRef.name?, *]

theorem size_accepted (place : Place) (close : Token) (size : SizeExpr) :
    place.sizeFindings close size = [] ↔ size.Sound Ending.isTolerated place := by
  cases size with
  | literal number | power number => exact number_accepted number
  | reference name => exact value_accepted place .size name _

theorem bounds_accepted (place : Place) (owner : String) (close : Token) (bounds : Bounds) :
    place.boundsFindings owner close (some bounds) = [] ↔ bounds.Sound Ending.isTolerated place := by
  rw [Place.boundsFindings, List.append_eq_nil_iff, List.flatMap_eq_nil_iff]
  cases bounds with
  | fixed size =>
    have given : Size.findings owner close (Bounds.fixed size).size = [] ↔
        ∀ value, size.value? = some value → value ≠ 0 := by
      cases known : size.value? <;> simp [Bounds.size, Size.findings, known]
    simp only [Bounds.sizes, List.forall_mem_singleton, size_accepted, given, Bounds.Sound]
  | range low high =>
    have given : Size.findings owner close (Bounds.range low high).size = [] ↔
        ∀ least most, low.value? = some least → high.value? = some most → least ≤ most := by
      cases least : low.value? <;> cases most : high.value? <;>
        simp [Bounds.size, Size.findings, least, most]
    rw [Bounds.sizes, List.forall_mem_cons, List.forall_mem_singleton, size_accepted, size_accepted,
      given, Bounds.Sound, and_assoc]

theorem line_accepted (place : Place) (owner : String) (close : Token) (type : TypeRef)
    (bounds : Option Bounds) :
    place.boundsFindings owner close bounds = [] ∧ place.unknownType? type = none ↔
      Site.Sound Ending.isTolerated ⟨place, .line type bounds close⟩ := by
  rw [type_accepted, and_comm, Site.Sound, Node.Sound]
  apply and_congr_right
  intro _
  cases bounds with
  | none => simp [Place.boundsFindings]
  | some bounds => simp [bounds_accepted]

theorem number_optional (number : Option Number) :
    (match number with | none => [] | some given => given.findings) = [] ↔
      ∀ given, number = some given → given.Evaluates := by
  cases number with
  | none => simp
  | some given => simp [number_accepted]

theorem entries_accepted (listing : EnumDecl) :
    listing.entryFindings = [] ↔
      (∀ entry ∈ listing.entries, ∀ number, entry.value = some number → number.Evaluates) ∧
        (listing.entries.map (·.name.text)).Nodup := by
  rw [EnumDecl.entryFindings, List.flatMap_eq_nil_iff, ← marked_accepted]
  apply forall₂_congr
  intro entry _
  rw [List.append_eq_nil_iff]
  apply and_congr (number_optional _)
  cases entry.2 <;> simp

theorem values_length (next : UInt64) (entries : List EnumEntry) :
    (EnumEntry.values next entries).length = entries.length := by
  induction entries generalizing next with
  | nil => rfl
  | cons entry rest ih => rw [EnumEntry.values, List.length_cons, List.length_cons, ih]

theorem valued_values (listing : EnumDecl) :
    listing.valued.map Prod.snd = EnumEntry.values 0 listing.entries := by
  rw [EnumDecl.valued, List.map_snd_zip]
  exact Nat.le_of_eq (values_length 0 listing.entries)

theorem values_accepted (listing : EnumDecl) :
    listing.valueFindings = [] ↔
      (∀ max, listing.max = some max →
        ∀ value ∈ EnumEntry.values 0 listing.entries, value ≤ max.value) ∧
      (EnumEntry.values 0 listing.entries).Nodup := by
  have fits : (∀ entry ∈ listing.valued, ∀ max, listing.max = some max → entry.2 ≤ max.value) ↔
      ∀ max, listing.max = some max →
        ∀ value ∈ EnumEntry.values 0 listing.entries, value ≤ max.value := by
    rw [← valued_values]
    constructor
    · intro fits max given
      exact List.forall_mem_map.mpr fun entry member => fits entry member max given
    · intro fits entry member max given
      exact fits max given entry.2 (List.mem_map_of_mem member)
  rw [EnumDecl.valueFindings, List.flatMap_eq_nil_iff, ← fits, ← valued_values, ← marked_accepted]
  apply forall₂_congr
  intro entry _
  rw [List.append_eq_nil_iff, and_comm]
  apply and_congr
  · cases listing.max with
    | none => simp
    | some max => simp
  · cases entry.2 <;> simp

theorem enum_accepted (listing : EnumDecl) : listing.findings = [] ↔ listing.Sound := by
  have limit : listing.maxFindings = [] ↔ ∀ max, listing.max = some max → max.Evaluates :=
    number_optional listing.max
  rw [EnumDecl.findings, List.append_eq_nil_iff, List.append_eq_nil_iff, entries_accepted, limit,
    values_accepted]
  constructor
  · intro given
    obtain ⟨⟨⟨numbers, names⟩, limit⟩, fits, values⟩ := given
    exact ⟨numbers, limit, names, values, fits⟩
  · intro given
    obtain ⟨numbers, limit, names, values, fits⟩ := given
    exact ⟨⟨⟨numbers, names⟩, limit⟩, fits, values⟩

theorem arm_names (arm : Arm) (distinct : (arm.labels.map (·.name.text)).Nodup) :
    arm.names = arm.labels.map (·.name.text) := by
  rw [Arm.names, firsts_distinct _ _ distinct]

theorem arm_accepted (place : Place) (arm : Arm) :
    place.armFindings arm = [] ↔ (arm.labels.map (·.name.text)).Nodup ∧
      ∀ item ∈ arm.items, Site.Sound Ending.isTolerated ⟨place, .line item.type item.bounds item.close⟩ := by
  rw [Place.armFindings, List.append_eq_nil_iff, List.append_eq_nil_iff, Arm.repeatFindings, List.map_eq_nil_iff,
    List.map_eq_nil_iff, repeats_nil, List.flatMap_eq_nil_iff, List.filterMap_eq_nil_iff, and_assoc,
    ← forall₂_and]
  simp only [line_accepted]

theorem labels_accepted (arms : List Arm) :
    ((∀ arm ∈ arms, (arm.labels.map (·.name.text)).Nodup) ∧ (arms.flatMap Arm.names).Nodup) ↔
      (arms.flatMap fun arm => arm.labels.map (·.name.text)).Nodup := by
  have listed (distinct : ∀ arm ∈ arms, (arm.labels.map (·.name.text)).Nodup) :
      arms.flatMap Arm.names = arms.flatMap fun arm => arm.labels.map (·.name.text) :=
    List.flatMap_congr fun arm member => arm_names arm (distinct arm member)
  constructor
  · intro given
    obtain ⟨each, all⟩ := given
    rwa [← listed each]
  · intro all
    have each := (List.nodup_flatMap.mp all).1
    exact ⟨each, by rwa [listed each]⟩

theorem select_accepted (place : Place) (choice : Select) :
    place.selectFindings choice = [] ↔
      ∀ site ∈ choice.sites place, site.Sound Ending.isTolerated := by
  have arms : (∀ arm ∈ choice.arms, place.armFindings arm = []) ↔
      (∀ arm ∈ choice.arms, (arm.labels.map (·.name.text)).Nodup) ∧
        ∀ arm ∈ choice.arms, ∀ item ∈ arm.items,
          Site.Sound Ending.isTolerated ⟨place, .line item.type item.bounds item.close⟩ := by
    simp only [arm_accepted]
    exact forall₂_and
  have choice_sound : Site.Sound Ending.isTolerated ⟨place, .select choice⟩ ↔
      place.Admits Ending.isTolerated .selector choice.selector ∧
        (choice.arms.flatMap fun arm => arm.labels.map (·.name.text)).Nodup :=
    ⟨fun sound => ⟨sound.selector, sound.labels⟩, fun sound => ⟨sound.1, sound.2⟩⟩
  rw [Place.selectFindings, Select.sites, List.forall_mem_cons, List.append_eq_nil_iff,
    List.append_eq_nil_iff, value_accepted, Select.acrossFindings, List.map_eq_nil_iff, repeats_nil, List.map_id,
    List.flatMap_eq_nil_iff, arms, choice_sound, ← labels_accepted]
  simp only [List.mem_flatMap, List.mem_map, forall_exists_index, and_imp]
  constructor
  · intro given
    obtain ⟨⟨selector, labels, items⟩, distinct⟩ := given
    refine ⟨⟨selector, labels, distinct⟩, ?_⟩
    rintro _ arm member item listed rfl
    exact items arm member item listed
  · intro given
    obtain ⟨⟨selector, labels, distinct⟩, items⟩ := given
    exact ⟨⟨selector, labels, fun arm member item listed => items _ arm member item listed rfl⟩, distinct⟩

theorem closing_accepted (place : Place) (members : List Member) (name close : Token) :
    place.closingFindings members name close = [] ↔
      (members.filterMap Member.itemName?).Nodup ∧
        ∀ member ∈ members, place.unknownMember? member = none := by
  rw [Place.closingFindings, List.append_eq_nil_iff, List.map_eq_nil_iff, List.map_eq_nil_iff,
    repeats_nil, List.map_id, List.filterMap_eq_nil_iff]

mutual

-- The type of a field waits for the end of the struct, so it stands beside the rest.
theorem member_accepted (place : Place) (member : Member) :
    place.memberFindings member = [] ∧ place.unknownMember? member = none ↔
      ∀ site ∈ member.sites place, site.Sound Ending.isTolerated := by
  cases member with
  | field entry =>
    rw [Place.memberFindings, Place.unknownMember?, Member.sites, List.forall_mem_singleton]
    exact line_accepted place entry.name.text entry.close entry.type entry.bounds
  | struct members name close =>
    have body := members_accepted place [] members
    rw [Place.memberFindings, Member.sites, List.append_eq_nil_iff, closing_accepted, List.forall_mem_cons,
      ← body]
    constructor
    · intro given
      obtain ⟨⟨findings, names, types⟩, _⟩ := given
      exact ⟨names, findings, types⟩
    · intro given
      obtain ⟨names, findings, types⟩ := given
      exact ⟨⟨findings, names, types⟩, rfl⟩
  | select choice =>
    rw [Place.memberFindings, Member.sites, ← select_accepted]
    exact and_iff_left rfl

theorem members_accepted (place : Place) (earlier members : List Member) :
    (place.membersFindings earlier members = [] ∧
      ∀ member ∈ members, place.unknownMember? member = none) ↔
        ∀ site ∈ Member.allSites place earlier members, site.Sound Ending.isTolerated := by
  cases members with
  | nil => simp [Place.membersFindings, Member.allSites]
  | cons member rest =>
    have head := member_accepted (place.within earlier) member
    have tail := members_accepted place (earlier ++ [member]) rest
    rw [Place.membersFindings, Member.allSites, List.append_eq_nil_iff, List.forall_mem_append,
      List.forall_mem_cons, ← head, ← tail, Place.unknownMember_within]
    exact and_and_and_comm

end

def Fresh (nameOf : Decl → Option String) (prior : List Decl) (decl : Decl) : Prop :=
  ∀ name, nameOf decl = some name → name ∉ prior.filterMap nameOf

theorem fresh_named (named : nameOf decl = some name) :
    Fresh nameOf prior decl ↔ name ∉ prior.filterMap nameOf := by
  constructor
  · exact fun fresh => fresh name named
  · intro fresh other given
    rw [named] at given
    exact Option.some.inj given ▸ fresh

theorem fresh_anonymous (anonymous : nameOf decl = none) : Fresh nameOf prior decl := by
  intro name named
  rw [anonymous] at named
  cases named

theorem fresh_distinct (nameOf : Decl → Option String) (prior : List Decl) (decl : Decl) :
    ((prior ++ [decl]).filterMap nameOf).Nodup ↔
      (prior.filterMap nameOf).Nodup ∧ Fresh nameOf prior decl := by
  rw [List.filterMap_append]
  cases named : nameOf decl with
  | none =>
    rw [List.filterMap_cons_none named, List.filterMap_nil, List.append_nil]
    exact (and_iff_left (fresh_anonymous named)).symm
  | some name =>
    rw [List.filterMap_cons_some named, List.filterMap_nil, ← List.concat_eq_append,
      List.nodup_concat, fresh_named named, and_comm]

theorem taken_accepted (taken : List String) (name close : Token) :
    Place.takenFindings taken name close = [] ↔ name.text ∉ taken := by
  unfold Place.takenFindings
  split <;> simp [*]

theorem decl_accepted (externs : List String) (prior : List Decl) (decl : Decl) :
    Place.declFindings ⟨externs, prior, []⟩ decl = [] ↔
      (∀ site ∈ decl.sites ⟨externs, prior, []⟩, site.Sound Ending.isTolerated) ∧
        Fresh Decl.external? prior decl ∧ Fresh Decl.globalName? prior decl := by
  cases decl with
  | external name close =>
    have named : (Decl.external name close).external? = some name.text := rfl
    have apart : Fresh Decl.globalName? prior (.external name close) := fresh_anonymous rfl
    rw [Place.declFindings, taken_accepted, fresh_named named, Decl.sites]
    simp [apart]
  | field entry =>
    have apart : Fresh Decl.external? prior (.field entry) := fresh_anonymous rfl
    have named : (Decl.field entry).globalName? = some entry.name.text := rfl
    have line := line_accepted ⟨externs, prior, []⟩ entry.name.text entry.close entry.type entry.bounds
    rw [Place.declFindings, List.append_eq_nil_iff, List.append_eq_nil_iff, taken_accepted,
      List.map_eq_nil_iff, Option.toList_eq_nil_iff, line, fresh_named named, Decl.sites,
      List.forall_mem_singleton]
    exact and_congr_right fun _ => (and_iff_right apart).symm
  | enum listing =>
    have apart : Fresh Decl.external? prior (.enum listing) := fresh_anonymous rfl
    have named : (Decl.enum listing).globalName? = some listing.name.text := rfl
    rw [Place.declFindings, List.append_eq_nil_iff, taken_accepted, enum_accepted, fresh_named named,
      Decl.sites, List.forall_mem_singleton]
    exact and_congr_right fun _ => (and_iff_right apart).symm
  | struct members name close =>
    have apart : Fresh Decl.external? prior (.struct members name close) := fresh_anonymous rfl
    have named : (Decl.struct members name close).globalName? = some name.text := rfl
    have body := (member_accepted ⟨externs, prior, []⟩ (.struct members name close)).symm.trans
      (and_iff_left rfl)
    rw [Place.memberFindings, Member.sites] at body
    rw [Place.declFindings, List.append_eq_nil_iff, taken_accepted, ← body, fresh_named named, Decl.sites]
    exact and_congr_right fun _ => (and_iff_right apart).symm
  | select choice =>
    have apart : Fresh Decl.external? prior (.select choice) := fresh_anonymous rfl
    have taken : (choice.name.toList.flatMap fun name =>
        Place.takenFindings (prior.filterMap Decl.globalName?) name choice.close) = [] ↔
        Fresh Decl.globalName? prior (.select choice) := by
      cases named : choice.name with
      | none =>
        have anonymous : (Decl.select choice).globalName? = none := by
          simp [Decl.globalName?, Decl.name?, named]
        simp [fresh_anonymous anonymous]
      | some name =>
        have item : (Decl.select choice).globalName? = some name.text := by
          simp [Decl.globalName?, Decl.name?, named]
        rw [fresh_named item, Option.toList_some, List.flatMap_singleton, taken_accepted]
    rw [Place.declFindings, List.append_eq_nil_iff, select_accepted, taken, Decl.sites]
    exact and_congr_right fun _ => (and_iff_right apart).symm

theorem after_accepted (externs : List String) (prior decls : List Decl)
    (external : (prior.filterMap Decl.external?).Nodup)
    (global : (prior.filterMap Decl.globalName?).Nodup) :
    findingsAfter externs prior decls = [] ↔
      (∀ site ∈ sitesAfter externs prior decls, site.Sound Ending.isTolerated) ∧
        ((prior ++ decls).filterMap Decl.external?).Nodup ∧
        ((prior ++ decls).filterMap Decl.globalName?).Nodup := by
  induction decls generalizing prior with
  | nil => simp [findingsAfter, sitesAfter, external, global]
  | cons decl rest ih =>
    rw [findingsAfter, sitesAfter, List.append_eq_nil_iff, List.forall_mem_append, decl_accepted,
      List.append_cons prior decl rest]
    constructor
    · intro given
      obtain ⟨⟨sound, listed, named⟩, others⟩ := given
      have more := (ih (prior ++ [decl]) ((fresh_distinct _ _ _).mpr ⟨external, listed⟩)
        ((fresh_distinct _ _ _).mpr ⟨global, named⟩)).mp others
      exact ⟨⟨sound, more.1⟩, more.2⟩
    · intro given
      obtain ⟨⟨sound, others⟩, externs, globals⟩ := given
      have listed := (fresh_distinct _ _ _).mp
        (List.Nodup.sublist ((List.sublist_append_left _ rest).filterMap _) externs)
      have named := (fresh_distinct _ _ _).mp
        (List.Nodup.sublist ((List.sublist_append_left _ rest).filterMap _) globals)
      exact ⟨⟨sound, listed.2, named.2⟩, (ih (prior ++ [decl]) ((fresh_distinct _ _ _).mpr listed)
        ((fresh_distinct _ _ _).mpr named)).mpr ⟨others, externs, globals⟩⟩

theorem report_nil (once noted : Bool) (findings : List Finding) :
    report once noted findings = [] ↔ findings = [] := by
  cases findings <;> simp [report]

-- A schema is accepted exactly when it is well-formed; noting once or always makes
-- no difference to that.
theorem accepted_iff_wellFormed (decls : List Decl) (once : Bool) :
    report once false (analyze decls).2 = [] ↔ WellFormed decls := by
  rw [report_nil, analyze_findings, schemaFindings, after_accepted _ [] decls .nil .nil, sites_strict]
  constructor
  · intro given
    obtain ⟨sound, externs, globals⟩ := given
    exact ⟨externs, globals, sound⟩
  · intro given
    obtain ⟨externs, globals, sound⟩ := given
    exact ⟨sound, externs, globals⟩

end WireFormat
