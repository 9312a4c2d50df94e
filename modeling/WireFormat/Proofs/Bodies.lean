import WireFormat.Proofs.LineOrder

namespace WireFormat

-- What a schema reports, traced to the declaration that it is about, and to the struct or
-- select of the declaration.

theorem reports_between (front back : List Decl) (decl : Decl) (once : Bool) :
    ∃ before after noted, before.length = front.length ∧ after.length = back.length ∧
      Reports once (front ++ decl :: back) (before ++ report once noted
        ((reachedBy front (decl :: back)).checkDecl (Resolution.known front) decl).2 :: after) := by
  have split := Resolution.foundEach_append (started (front ++ decl :: back)) [] front (decl :: back)
  rw [Resolution.foundEach, List.append_nil, ← reachedBy] at split
  have each := congrArg (reportEach once false) split
  rw [reportEach_append, reportEach] at each
  refine ⟨_, _, _, ?_, ?_, .of_each each⟩
  · rw [reportEach_length, Resolution.foundEach_length]
  · rw [reportEach_length, Resolution.foundEach_length]

theorem report_undotted (undotted : Lacks Cause.isDotted found) (once noted : Bool) :
    report once noted found = found.map (·.diagnostic false) := by
  induction found generalizing noted with
  | nil => rfl
  | cons finding rest ih =>
    obtain ⟨first, others⟩ := List.forall_mem_cons.mp undotted
    rw [report, first, ih others]
    rfl

-- What holds members or labels of its own.
inductive Body where
  | struct (members : List Member) (name close : Token)
  | select (choice : Select)

-- Bodies in the order in which they end: those inside of a struct come before it.
mutual

def Member.bodies : Member → List Body
  | .field _ => []
  | .struct members name close => Member.allBodies members ++ [.struct members name close]
  | .select choice => [.select choice]

def Member.allBodies : List Member → List Body
  | [] => []
  | member :: rest => member.bodies ++ Member.allBodies rest

end

def Decl.bodies : Decl → List Body
  | .struct members name close => Member.allBodies members ++ [.struct members name close]
  | .select choice => [.select choice]
  | _ => []

-- A repetition within a body.
def Cause.isInner (cause : Cause) : Bool := cause.isRepeat && !Repetition.symbol.isCause cause

theorem Cause.inner_repeat (cause : Cause) (inner : cause.isInner = true) : cause.isRepeat = true :=
  (Bool.and_eq_true_iff.mp inner).1

theorem Repetition.cause_inner {repetition : Repetition} (inner : repetition ≠ .symbol) (cause : Cause)
    (about : repetition.isCause cause = true) : cause.isInner = true := by
  have apart : Repetition.symbol.isCause cause = false := by
    rw [Repetition.isCause, of_decide_eq_true about]
    simpa using inner
  rw [Cause.isInner, repetition.cause_repeat cause about, apart]
  rfl

-- Findings made up of those of some bodies, in order, with others around them that are
-- about no repetition within a body.
inductive Comprises : List Body → List Finding → Prop where
  | others (clear : Lacks Cause.isInner found) : Comprises [] found
  | struct (members : List Member) (name close : Token) : Comprises [.struct members name close]
      ((repeats id (members.filterMap Member.itemName?)).map fun item => ⟨.duplicateItem item name.text, close⟩)
  | select (view : View) (choice : Select) : Comprises [.select choice] (view.selectFindings choice)
  | append (one : Comprises bodies found) (other : Comprises more rest) : Comprises (bodies ++ more) (found ++ rest)

namespace Comprises

theorem before (comprises : Comprises bodies found) (clear : Lacks Cause.isInner rest) :
    Comprises bodies (found ++ rest) := by
  simpa using comprises.append (.others clear)

theorem filter {repetition : Repetition} {part : Body → List Finding} (comprises : Comprises bodies found)
    (inner : repetition ≠ .symbol)
    (structs : ∀ members name close, findingsOf repetition.isCause
      ((repeats id (members.filterMap Member.itemName?)).map fun item => ⟨.duplicateItem item name.text, close⟩) =
        part (.struct members name close))
    (selects : ∀ (view : View) choice,
      findingsOf repetition.isCause (view.selectFindings choice) = part (.select choice)) :
    findingsOf repetition.isCause found = bodies.flatMap part := by
  induction comprises with
  | others clear => rw [(clear.mono (Repetition.cause_inner inner)).none, List.flatMap_nil]
  | struct members name close => rw [structs, List.flatMap_singleton]
  | select view choice => rw [selects, List.flatMap_singleton]
  | append _ _ one other => rw [findingsOf_append, one, other, List.flatMap_append]

theorem stands (comprises : Comprises bodies found) (listed : .select choice ∈ bodies) :
    ∃ (view : View) (ahead behind : List Finding), found = ahead ++ view.selectFindings choice ++ behind := by
  induction comprises with
  | others | struct => simp at listed
  | select view other =>
    obtain rfl : choice = other := by simpa using listed
    exact ⟨view, [], [], by simp⟩
  | @append _ found _ rest _ _ one other =>
    rcases List.mem_append.mp listed with here | there
    · obtain ⟨view, ahead, behind, rfl⟩ := one here
      exact ⟨view, ahead, behind ++ rest, by simp⟩
    · obtain ⟨view, ahead, behind, rfl⟩ := other there
      exact ⟨view, found ++ ahead, behind, by simp⟩

end Comprises

theorem unknown_lack (names : List Name) (close : Token) :
    Lacks Cause.isInner (names.map fun name => ⟨.unknownType name, close⟩) := lacks_map _ _ fun _ => rfl

namespace View

theorem leave_comprises {body : MembersCheck} (inside : Comprises bodies body.findings)
    (repeated : body.repeated = repeats id (members.filterMap Member.itemName?)) (name close : Token) :
    Comprises (bodies ++ [.struct members name close]) (leave name close body).findings := by
  rw [leave, repeated]
  exact (inside.append (.struct members name close)).before (unknown_lack _ _)

mutual

theorem member_comprises {view : View} {place : Place} (shows : view.Shows place) (member : Member) :
    Comprises member.bodies (checkMember view member).findings := by
  cases member with
  | field entry => exact .others ((view.bounds_lack _ _ _).mono Cause.inner_repeat)
  | struct members name close =>
    have opened := shows.enter name.text
    exact leave_comprises (members_comprises opened members) (checkMembers_shows opened members).repeated name close
  | select choice => exact .select view choice

theorem members_comprises {view : View} {place : Place} {earlier : List Member}
    (shows : view.Shows (place.within earlier)) (members : List Member) :
    Comprises (Member.allBodies members) (checkMembers view members).findings := by
  cases members with
  | nil => exact .others lacks_nil
  | cons member rest =>
    have one := checkMember_shows shows member
    have declared := one.view.declareMember member (checkMember view member).line (checkMember view member).size
      one.holds one.counts
    exact (member_comprises shows member).append (members_comprises declared.1 rest)

end

end View

namespace Resolution

variable {resolution : Resolution} {externs : List String}

theorem checkDecl_comprises (shows : resolution.Shows externs prior) (reached : List String) (decl : Decl) :
    Comprises decl.bodies (resolution.checkDecl reached decl).2 := by
  cases decl with
  | external name close =>
    refine .others ?_
    simp only [checkDecl]
    split
    · exact List.forall_mem_singleton.mpr rfl
    · exact lacks_nil
  | field entry =>
    have bounds := (resolution.view.bounds_lack entry.name.text entry.close entry.bounds).mono Cause.inner_repeat
    exact .others (lacks_append.mpr ⟨lacks_append.mpr ⟨bounds, unknown_lack _ _⟩, declare_lacks _ _ _ _ _ _ fun _ => rfl⟩)
  | enum listing =>
    exact .others (lacks_append.mpr ⟨listing.findings_lack.mono Cause.inner_repeat, declare_lacks _ _ _ _ _ _ fun _ => rfl⟩)
  | struct members name close =>
    exact (View.member_comprises shows.view (.struct members name close)).before (declare_lacks _ _ _ _ _ _ fun _ => rfl)
  | select choice =>
    have own := Comprises.select resolution.view choice
    simp only [checkDecl]
    cases choice.name with
    | none => exact own
    | some name => exact own.before (declare_lacks _ _ _ _ _ _ fun _ => rfl)

theorem checkDecls_comprises (shows : resolution.Shows externs prior)
    (same : ∀ name, name ∈ reached ↔ name ∈ prior.filterMap Decl.external?) (decls : List Decl) :
    Comprises (decls.flatMap Decl.bodies) (resolution.checkDecls reached decls).2 := by
  induction decls generalizing resolution reached prior with
  | nil => exact .others lacks_nil
  | cons decl rest ih =>
    have next := (checkDecl_shows shows same decl).1
    exact (checkDecl_comprises shows reached decl).append (ih next (reached_further same decl))

end Resolution

theorem analyze_comprises (decls : List Decl) : Comprises (decls.flatMap Decl.bodies) (analyze decls).2 :=
  Resolution.checkDecls_comprises (initial_shows decls) (by simp) decls

end WireFormat
