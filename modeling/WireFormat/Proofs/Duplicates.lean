import WireFormat.Proofs.Bodies

namespace WireFormat

-- Which names of a schema repeat an earlier one, said of the tree, and that just these are
-- reported.

-- Externs have names of their own, and all other declarations share theirs.
def Decl.title? (decl : Decl) : Option (Bool × String) :=
  decl.name?.map fun name => (decl.external?.isSome, name.text)

def Decl.close : Decl → Token
  | .field entry => entry.close
  | .external _ close => close
  | .enum listing => listing.close
  | .struct _ _ close => close
  | .select choice => choice.close

def Decl.nameReport (prior : List Decl) (decl : Decl) : List Diagnostic :=
  match decl.title? with
  | none => []
  | some title =>
    if ∃ earlier ∈ prior, earlier.title? = some title then
      [⟨.semantic, decl.close.line, decl.close.text, "Duplicate symbol " ++ Cause.quoted title.2 ++ " found", none⟩]
    else []

-- The reports of a struct about the names in it. Names inside of a member are not its own.
def Body.itemReport : Body → List Diagnostic
  | .struct members name close => (preceded members).flatMap fun (earlier, member) =>
    match member.itemName? with
    | none => []
    | some item =>
      if ∃ other ∈ earlier, other.itemName? = some item then
        [⟨.semantic, close.line, close.text,
          "Duplicate item " ++ Cause.quoted item ++ " in " ++ Cause.quoted name.text, none⟩]
      else []
  | .select _ => []

theorem repeats_items (members : List Member) : repeats id (members.filterMap Member.itemName?) =
    (preceded members).flatMap fun pair => pair.2.itemName?.toList.filter fun item =>
      ∃ other ∈ pair.1, other.itemName? = some item := by
  rw [repeats, repeatsAfter_named]
  simp only [List.mem_map, List.not_mem_nil, or_false]

def Body.itemFindings : Body → List Finding
  | .struct members name close =>
    (repeats id (members.filterMap Member.itemName?)).map fun item => ⟨.duplicateItem item name.text, close⟩
  | .select _ => []

theorem Body.itemFindings_report (body : Body) : body.itemFindings.map (·.diagnostic false) = body.itemReport := by
  cases body with
  | select choice => rfl
  | struct members name close =>
    rw [itemFindings, itemReport, repeats_items, List.map_map, List.map_flatMap]
    refine List.flatMap_congr fun pair _ => ?_
    obtain ⟨earlier, member⟩ := pair
    cases named : member.itemName? with
    | none => simp only [named, Option.toList_none, List.filter_nil, List.map_nil]
    | some item =>
      by_cases again : ∃ other ∈ earlier, other.itemName? = some item
      · simp only [named, if_pos again, Option.toList_some, List.filter_singleton, decide_eq_true again, cond_true]
        rfl
      · simp only [named, if_neg again, Option.toList_some, List.filter_singleton, decide_eq_false again, cond_false]
        rfl

theorem Comprises.itemReport (comprises : Comprises bodies found) (once noted : Bool) :
    Repetition.item.diagnostics (report once noted found) = bodies.flatMap Body.itemReport := by
  have items : findingsOf Repetition.item.isCause found = bodies.flatMap Body.itemFindings := by
    refine comprises.filter (by decide) (fun members name close => ?_) fun view choice => ?_
    · exact findingsOf_all (List.forall_mem_map.mpr fun _ _ => rfl)
    · exact (view.select_lack choice (by decide)).none
  rw [Repetition.report_exact, items, List.map_flatMap]
  exact List.flatMap_congr fun body _ => body.itemFindings_report

theorem Decl.title_global (decl : Decl) : decl.title? = some (false, name) ↔ decl.globalName? = some name := by
  cases decl <;> simp [title?, globalName?, external?, Decl.name?]

theorem Decl.title_external (decl : Decl) : decl.title? = some (true, name) ↔ decl.external? = some name := by
  cases decl <;> simp [title?, external?, Decl.name?]

def Decl.nameFindings (prior : List Decl) (decl : Decl) : List Finding :=
  match decl.title? with
  | none => []
  | some title =>
    if ∃ earlier ∈ prior, earlier.title? = some title then [⟨.duplicateSymbol title.2, decl.close⟩] else []

theorem Decl.nameFindings_report (prior : List Decl) (decl : Decl) :
    (decl.nameFindings prior).map (·.diagnostic false) = decl.nameReport prior := by
  unfold nameFindings nameReport
  split
  · rfl
  · split <;> rfl

theorem Decl.nameFindings_taken (prior : List Decl) (decl : Decl) :
    findingsOf Repetition.symbol.isCause (decl.nameFindings prior) = decl.nameFindings prior := by
  unfold nameFindings
  split
  · rfl
  · split <;> rfl

theorem Decl.nameFindings_global (decl : Decl) (named : decl.globalName? = some name.text) (prior : List Decl) :
    decl.nameFindings prior = Place.takenFindings (prior.filterMap Decl.globalName?) name decl.close := by
  have title := decl.title_global.mpr named
  simp only [nameFindings, title, title_global, Place.takenFindings, List.mem_filterMap]

theorem Decl.nameFindings_external (decl : Decl) (external : decl.external? = some name.text) (prior : List Decl) :
    decl.nameFindings prior = Place.takenFindings (prior.filterMap Decl.external?) name decl.close := by
  have title := decl.title_external.mpr external
  simp only [nameFindings, title, title_external, Place.takenFindings, List.mem_filterMap]

theorem Decl.nameFindings_anonymous {decl : Decl} (anonymous : decl.title? = none) (prior : List Decl) :
    decl.nameFindings prior = [] := by simp only [nameFindings, anonymous]

namespace Resolution

variable {resolution : Resolution} {externs : List String}

theorem Shows.contains (shows : resolution.Shows externs prior) (name : String) :
    resolution.globals.contains name = true ↔ name ∈ prior.filterMap Decl.globalName? := by
  rcases unnamed_or_first Decl.globalName? name prior with unnamed | ⟨before, found, first⟩
  · simp [shows.fresh unnamed, (unnamed_iff prior).mp unnamed]
  · have listed : name ∈ prior.filterMap Decl.globalName? :=
      Decidable.byContradiction fun new => first.present ((unnamed_iff prior).mpr new)
    simp only [shows.used first, listed]

theorem Shows.declare_found (shows : resolution.Shows externs prior) (types : Arena) (name : Token)
    (kind : Symbol.Kind) (size : Size) (id : Nat) (close : Token) :
    (declare { resolution with types := types } name kind size id close).2 =
      Place.takenFindings (prior.filterMap Decl.globalName?) name close := by
  cases taken : resolution.globals.contains name.text with
  | true =>
    rw [declare_taken { resolution with types := types } taken, Place.takenFindings,
      if_pos ((shows.contains name.text).mp taken)]
  | false =>
    have new : name.text ∉ prior.filterMap Decl.globalName? := by
      rw [← shows.contains, taken]
      exact Bool.false_ne_true
    rw [declare_fresh { resolution with types := types } taken, Place.takenFindings, if_neg new]

theorem checkDecl_named (shows : resolution.Shows externs prior)
    (same : ∀ name, name ∈ reached ↔ name ∈ prior.filterMap Decl.external?) (decl : Decl) :
    ∃ within, Lacks Repetition.symbol.isCause within ∧
      (resolution.checkDecl reached decl).2 = within ++ decl.nameFindings prior := by
  cases decl with
  | external name close =>
    refine ⟨[], lacks_nil, ?_⟩
    rw [(checkDecl_shows shows same (.external name close)).2, Decl.nameFindings_external (.external name close) rfl]
    rfl
  | field entry =>
    refine ⟨resolution.fieldFindings entry, ?_, ?_⟩
    · exact lacks_append.mpr ⟨(View.bounds_lack _ _ _ _).mono Repetition.symbol.cause_repeat,
        lacks_map _ _ fun _ => rfl⟩
    · rw [Decl.nameFindings_global (.field entry) rfl]
      exact congrArg (_ ++ ·) (shows.declare_found _ _ _ _ _ _)
  | enum listing =>
    refine ⟨listing.findings, listing.findings_lack.mono Repetition.symbol.cause_repeat, ?_⟩
    rw [Decl.nameFindings_global (.enum listing) rfl]
    exact congrArg (_ ++ ·) (shows.declare_found _ _ _ _ _ _)
  | struct members name close =>
    refine ⟨_, View.member_untaken resolution.view (.struct members name close), ?_⟩
    rw [Decl.nameFindings_global (.struct members name close) rfl]
    exact congrArg (_ ++ ·) (shows.declare_found _ _ _ _ _ _)
  | select choice =>
    refine ⟨_, resolution.view.select_lack choice (by decide), ?_⟩
    simp only [checkDecl]
    cases named : choice.name with
    | none => rw [Decl.nameFindings_anonymous (by simp [Decl.title?, Decl.name?, named]), List.append_nil]
    | some name =>
      have item : (Decl.select choice).globalName? = some name.text := by simp [Decl.globalName?, Decl.name?, named]
      rw [Decl.nameFindings_global (.select choice) item]
      exact congrArg (_ ++ ·) (shows.declare_found _ _ _ _ _ _)

end Resolution

-- Of a declaration in any schema, its own name is reported once if an earlier declaration of
-- its kind has it, and the structs in it report each member that repeats one of its own struct.
theorem duplicates_exact (front back : List Decl) (decl : Decl) (once : Bool) :
    ∃ before own after, before.length = front.length ∧ after.length = back.length ∧
      Reports once (front ++ decl :: back) (before ++ own :: after) ∧
      Repetition.symbol.diagnostics own = decl.nameReport front ∧
      Repetition.item.diagnostics own = decl.bodies.flatMap Body.itemReport := by
  have same : ∀ name, name ∈ Resolution.known front ↔ name ∈ front.filterMap Decl.external? := by
    simp [Resolution.known]
  have shows := reachedBy_shows front (decl :: back)
  obtain ⟨before, after, noted, preceding, following, reports⟩ := reports_between front back decl once
  obtain ⟨within, untaken, found⟩ := Resolution.checkDecl_named shows same decl
  refine ⟨before, _, after, preceding, following, reports, ?_, ?_⟩
  · rw [found, Repetition.report_after untaken, decl.nameFindings_taken, decl.nameFindings_report]
  · exact (Resolution.checkDecl_comprises shows (Resolution.known front) decl).itemReport once noted

-- A member that repeats one of its own struct and a nested one that does not.
example : (compile "uint8 s; struct { uint8 a; struct { uint8 a; } b; uint16 a; } s;" ⟨"<input>", true⟩).diagnostics.map
    (·.message) = ["Duplicate item ``a'' in ``s''", "Duplicate symbol ``s'' found"] := by decide +kernel

end WireFormat
