import WireFormat.Proofs.Shown

namespace WireFormat

namespace View.Shows

variable {view : View} {place : Place}

theorem sizeFindings (shows : view.Shows place) (close : Token) (size : SizeExpr) :
    view.sizeFindings close size = place.sizeFindings close size := by
  cases size with
  | literal | power => rfl
  | reference name =>
    have denotes := shows.denotes .size name
    simp only [View.sizeFindings, Place.sizeFindings, Place.valueFindings]
    by_cases admits : place.Admits Ending.isTolerated .size name
    · rw [if_pos admits, if_pos (denotes.mpr admits)]
    · rw [if_neg admits, if_neg (fun found => admits (denotes.mp found))]

theorem boundsFindings (shows : view.Shows place) (owner : String) (close : Token)
    (bounds : Option Bounds) :
    view.boundsFindings owner close bounds = place.boundsFindings owner close bounds := by
  cases bounds with
  | none => rfl
  | some bounds =>
    have same : view.sizeFindings close = place.sizeFindings close :=
      funext fun size => shows.sizeFindings close size
    simp only [View.boundsFindings, Place.boundsFindings, same]

theorem selectorFindings (shows : view.Shows place) (choice : Select) :
    view.selectorFindings choice = place.valueFindings .selector choice.selector
      ⟨.unknownSelector choice.selector, choice.opening⟩ := by
  have denotes := shows.denotes .selector choice.selector
  unfold View.selectorFindings Place.valueFindings
  by_cases admits : place.Admits Ending.isTolerated .selector choice.selector
  · rw [if_pos admits, if_pos (denotes.mpr admits)]
  · rw [if_neg admits, if_neg (fun found => admits (denotes.mp found))]

theorem armFindings (shows : view.Shows place) (arm : Arm) :
    view.armFindings arm = place.armFindings arm := by
  simp only [View.armFindings, Place.armFindings, shows.boundsFindings, shows.unknownType]

theorem selectFindings (shows : view.Shows place) (choice : Select) :
    view.selectFindings choice = place.selectFindings choice := by
  have same : view.armFindings = place.armFindings := funext fun arm => shows.armFindings arm
  simp only [View.selectFindings, View.armsFindings, Place.selectFindings, shows.selectorFindings, same]

theorem enter (shows : view.Shows place) (owner : String) :
    (view.enter owner).Shows (place.within []) := by
  refine ⟨shows.externs, shows.globals, .cons ⟨fun _ _ => rfl, ?_⟩ shows.locals⟩
  intro name before member first
  exact nomatch first.mem

theorem pop (shows : view.Shows (place.within members)) :
    View.Shows { view with locals := view.locals.pop.1 } place := by
  refine ⟨shows.externs, shows.globals, ?_⟩
  have locals := shows.locals
  simp only [Place.within] at locals
  unfold ScopesShow at locals ⊢
  simp only [ScopeStack.pop]
  generalize view.locals.scopes = scopes at locals
  cases locals with
  | cons _ rest => exact rest

end View.Shows

theorem Scope.Shows.keep {scope : Scope} (shows : scope.Shows types externs prior members)
    (old : NamesNothingNew Member.itemName? members member) :
    scope.Shows types externs prior (members ++ [member]) :=
  ⟨fun name absent => shows.absent name ((unnamed_append _ _).mp absent).1,
    fun _ _ _ first => shows.present _ _ _ (first_append_old old first)⟩

theorem Scope.Shows.declare {scope : Scope} {types : Arena}
    (shows : scope.Shows types externs prior members) (symbol : Symbol)
    (named : member.itemName? = some symbol.name) (kind : symbol.kind = .member)
    (holds : types.Holds symbol.type)
    (counts : types.counts symbol.type = true ↔ member.Counts externs prior) :
    (scope.declare symbol).1.Shows types externs prior (members ++ [member]) ∧
      ((scope.declare symbol).2 = false ↔ symbol.name ∈ members.filterMap Member.itemName?) := by
  rcases unnamed_or_first Member.itemName? symbol.name members with unnamed | ⟨before, found, first⟩
  · have fresh : scope.contains symbol.name = false := by
      rw [← Scope.lookup_isSome, shows.absent _ unnamed]
      rfl
    rw [Scope.declare_fresh _ _ fresh]
    refine ⟨⟨?_, ?_⟩, by simpa using (unnamed_iff members).mp unnamed⟩
    · intro name absent
      obtain ⟨others, last⟩ := (unnamed_append _ _).mp absent
      have other : symbol.name ≠ name := by
        rintro rfl
        exact (unnamed_single member).mp last named
      exact scope.lookup_other symbol (shows.absent name others) other
    · intro name before found first
      rcases first_append_single first with earlier | ⟨others, last, rfl, rfl⟩
      · obtain ⟨known, lookup, facts⟩ := shows.present _ _ _ earlier
        exact ⟨known, scope.lookup_kept symbol lookup, facts⟩
      · rw [named] at last
        obtain rfl := Option.some.inj last
        exact ⟨symbol, scope.lookup_added symbol (shows.absent _ others), kind, holds, counts⟩
  · have taken : scope.contains symbol.name = true := by
      obtain ⟨known, lookup, _⟩ := shows.present _ _ _ first
      rw [← Scope.lookup_isSome, lookup]
      rfl
    have listed : symbol.name ∈ members.filterMap Member.itemName? :=
      Decidable.byContradiction fun new => first.present ((unnamed_iff members).mpr new)
    rw [Scope.declare_taken _ _ taken]
    exact ⟨shows.keep (first.names_again named), by simpa using listed⟩

namespace View

variable {view : View} {place : Place} {type : Option Handle}

theorem Shows.declareMember (shows : view.Shows (place.within earlier)) (member : Member)
    (line : Nat) (size : Size) (holds : view.types.Holds type)
    (counts : view.types.counts type = true ↔ member.Counts place.externs place.prior) :
    (view.declareMember member.name? line size type).1.Shows (place.within (earlier ++ [member])) ∧
      (view.declareMember member.name? line size type).2 =
        member.itemName?.toList.filter fun name => (earlier.filterMap Member.itemName?).contains name := by
  have locals := shows.locals
  simp only [Place.within] at locals
  unfold ScopesShow at locals
  cases stack : view.locals.scopes with
  | nil =>
    rw [stack] at locals
    cases locals
  | cons scope outer =>
    rw [stack] at locals
    obtain ⟨innermost, rest⟩ := List.forall₂_cons.mp locals
    cases named : member.name? with
    | none =>
      have anonymous : member.itemName? = none := by simp [Member.itemName?, named]
      refine ⟨⟨shows.externs, shows.globals, ?_⟩, by simp [View.declareMember, anonymous]⟩
      simp only [View.declareMember, Place.within, ScopesShow, stack]
      exact .cons (innermost.keep (names_nothing anonymous)) rest
    | some token =>
      have item : member.itemName? = some token.text := by simp [Member.itemName?, named]
      obtain ⟨grown, taken⟩ := innermost.declare
        ⟨token.text, .member, line, size, type⟩ item rfl holds counts
      simp only [View.declareMember, ScopeStack.declare, stack, item, Option.toList_some]
      refine ⟨⟨shows.externs, shows.globals, .cons grown rest⟩, ?_⟩
      by_cases listed : token.text ∈ earlier.filterMap Member.itemName?
      · have contains := List.contains_iff_mem.mpr listed
        simp only [taken.mpr listed, List.filter_cons, contains, List.filter_nil, if_true]
      · have fresh : (scope.declare ⟨token.text, .member, line, size, type⟩).2 = true := by
          rw [← Bool.not_eq_false]
          exact fun refused => listed (taken.mp refused)
        have missing : (earlier.filterMap Member.itemName?).contains token.text = false := by
          rw [← Bool.not_eq_true, List.contains_iff_mem]
          exact listed
        simp only [fresh, List.filter_cons, missing, List.filter_nil]
        rfl

end View

namespace View

-- What checking inside a struct never touches.
structure Frame (before after : View) : Prop where
  externs : after.externs = before.externs
  globals : after.globals = before.globals
  bindings : after.types.bindings = before.types.bindings
  types : before.types.Grows after.types

theorem Frame.trans (one : Frame before middle) (other : Frame middle after) : Frame before after :=
  ⟨other.externs.trans one.externs, other.globals.trans one.globals,
    other.bindings.trans one.bindings, one.types.trans other.types⟩

theorem declareMember_frame (view : View) (name : Option Token) (line : Nat) (size : Size)
    (type : Option Handle) : Frame view (view.declareMember name line size type).1 := by
  cases name with
  | none => exact ⟨rfl, rfl, rfl, .refl _⟩
  | some => exact ⟨rfl, rfl, rfl, .refl _⟩

mutual

theorem checkMember_frame (view : View) (member : Member) : Frame view (checkMember view member).view := by
  cases member with
  | field entry => exact ⟨rfl, rfl, rfl, .refl _⟩
  | struct members name close =>
    have body := checkMembers_frame (view.enter name.text) members
    exact ⟨body.externs, body.globals, body.bindings, body.types.trans (Arena.push_grows _ _)⟩
  | select choice => exact ⟨rfl, rfl, rfl, Arena.push_grows _ _⟩

theorem checkMembers_frame (view : View) (members : List Member) :
    Frame view (checkMembers view members).view := by
  cases members with
  | nil => exact ⟨rfl, rfl, rfl, .refl _⟩
  | cons member rest =>
    have declared := declareMember_frame (checkMember view member).view member.name?
      (checkMember view member).line (checkMember view member).size (checkMember view member).type
    exact ((checkMember_frame view member).trans declared).trans (checkMembers_frame _ rest)

end

structure MemberShown (place : Place) (member : Member) (check : MemberCheck) : Prop where
  view : check.view.Shows place
  findings : check.findings = place.memberFindings member
  unknown : check.unknown = (place.unknownMember? member).toList
  holds : check.view.types.Holds check.type
  counts : check.view.types.counts check.type = true ↔ member.Counts place.externs place.prior

structure MembersShown (place : Place) (earlier members : List Member) (check : MembersCheck) :
    Prop where
  view : check.view.Shows (place.within (earlier ++ members))
  findings : check.findings = place.membersFindings earlier members
  unknown : check.unknown = members.filterMap place.unknownMember?
  repeated : check.repeated =
    repeatsAfter id (earlier.filterMap Member.itemName?) (members.filterMap Member.itemName?)

theorem push_counts (types : Arena) (definition : Definition)
    (composite : definition.kind = .struct ∨ definition.kind = .select) :
    (types.push definition).1.Holds (some (.declared (types.push definition).2)) ∧
      (types.push definition).1.counts (some (.declared (types.push definition).2)) = false := by
  constructor
  · intro id declared
    cases declared
    rw [Arena.push_size]
    exact Nat.lt_succ_self _
  · simp only [Arena.counts, Arena.push]
    rw [Arena.isNumeric]
    have stored := Arena.push_get types definition
    simp only [Arena.push] at stored
    rw [stored]
    rcases composite with kind | kind <;> simp only [kind]

theorem leave_shows {place : Place} (name close : Token) {body : MembersCheck}
    (shown : MembersShown place [] members body) :
    (leave name close body).view.Shows place ∧
      (leave name close body).findings =
        place.membersFindings [] members ++ place.closingFindings members name close ∧
      (leave name close body).view.types.Holds (some (.declared (leave name close body).id)) ∧
      (leave name close body).view.types.counts (some (.declared (leave name close body).id)) =
        false := by
  have pushed := push_counts body.view.types
    ⟨name.text, .struct, name.line, .unsized, body.entries⟩ (.inl rfl)
  refine ⟨shown.view.pop.grow (Arena.push_grows _ _) rfl, ?_, pushed⟩
  simp only [leave, shown.findings, shown.repeated, shown.unknown, Place.closingFindings,
    List.append_assoc]
  rfl

theorem repeated_cons (earlier : List Member) (member : Member) (rest : List Member) :
    (member.itemName?.toList.filter fun name => (earlier.filterMap Member.itemName?).contains name) ++
      repeatsAfter id ((earlier ++ [member]).filterMap Member.itemName?)
        (rest.filterMap Member.itemName?) =
    repeatsAfter id (earlier.filterMap Member.itemName?)
      ((member :: rest).filterMap Member.itemName?) := by
  cases named : member.itemName? with
  | none => simp [named]
  | some name =>
    have same : ∀ k, k ∈ (earlier ++ [member]).filterMap Member.itemName? ↔
        k ∈ name :: earlier.filterMap Member.itemName? := by
      simp [List.filterMap_append, named, or_comm]
    rw [repeatsAfter_congr id same, List.filterMap_cons, named]
    simp only [repeatsAfter_cons, id_eq, Option.toList_some, List.filter_cons, List.filter_nil]

mutual

theorem checkMember_shows {view : View} {place : Place} (shows : view.Shows place) (member : Member) :
    MemberShown place member (checkMember view member) := by
  cases member with
  | field entry =>
    refine ⟨shows, shows.boundsFindings _ _ _, ?_, shows.type_holds _, shows.type_counts _⟩
    simp only [checkMember, Place.unknownMember?, shows.unknownType]
  | struct members name close =>
    have body := checkMembers_shows (shows.enter name.text) members
    obtain ⟨left, found, holds, counts⟩ := leave_shows name close body
    refine ⟨left, found, rfl, holds, ?_⟩
    simp only [checkMember, counts, Member.Counts]
    simp
  | select choice =>
    obtain ⟨holds, counts⟩ := push_counts view.types (view.selectDefinition choice) (.inr rfl)
    refine ⟨shows.grow (Arena.push_grows _ _) rfl, shows.selectFindings choice, rfl, holds, ?_⟩
    simp only [checkMember, counts, Member.Counts]
    simp

theorem checkMembers_shows {view : View} {place : Place} {earlier : List Member}
    (shows : view.Shows (place.within earlier)) (members : List Member) :
    MembersShown place earlier members (checkMembers view members) := by
  cases members with
  | nil => exact ⟨by simpa [checkMembers] using shows, rfl, rfl, rfl⟩
  | cons member rest =>
    have one := checkMember_shows shows member
    have declared := one.view.declareMember member (checkMember view member).line
      (checkMember view member).size one.holds one.counts
    have more := checkMembers_shows declared.1 rest
    refine ⟨?_, ?_, ?_, ?_⟩
    · simpa [checkMembers] using more.view
    · simp only [checkMembers, one.findings, more.findings, Place.membersFindings]
    · simp only [checkMembers, one.unknown, more.unknown, Place.unknownMember_within]
      cases found : place.unknownMember? member <;> simp [found]
    · simp only [checkMembers, declared.2, more.repeated]
      exact repeated_cons earlier member rest

end

end View

end WireFormat
