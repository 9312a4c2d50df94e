import WireFormat.Proofs.Bodies

namespace WireFormat

-- Labels that repeat another one of their select: each is reported once, in one of two
-- ways, and their number does not depend on the arms that they are divided into.

def Select.labels (choice : Select) : List Label := choice.arms.flatMap Arm.labels

def Label.isAmong (label : Label) (others : List Label) : Bool :=
  others.any fun other => other.name.text = label.name.text

-- Labels that an earlier label of their own arm repeats, each at its colon.
def Select.withinReport (choice : Select) : List Diagnostic := choice.arms.flatMap fun arm =>
  ((preceded arm.labels).filter fun (earlier, label) => label.isAmong earlier).map fun (_, label) =>
    ⟨.semantic, label.colon.line, label.colon.text, "Duplicate case " ++ Cause.quoted label.name.text, none⟩

-- Labels that come first in their arm and stand in an earlier one, at the end of the select.
def Select.acrossReport (choice : Select) : List Diagnostic :=
  (preceded choice.arms).flatMap fun (arms, arm) => ((preceded arm.labels).filter fun (earlier, label) =>
    label.isAmong (arms.flatMap Arm.labels) && !label.isAmong earlier).map fun (_, label) =>
      ⟨.semantic, choice.close.line, choice.close.text,
        "Duplicate case " ++ Cause.quoted label.name.text ++ " in " ++ Cause.quoted choice.owner, none⟩

def Body.caseReport : Body → List Diagnostic
  | .struct .. => []
  | .select choice => choice.withinReport ++ choice.acrossReport

theorem Label.isAmong_exact (label : Label) (others : List Label) :
    label.isAmong others = decide (label.name.text ∈ others.map (·.name.text)) := by
  rw [Bool.eq_iff_iff, decide_eq_true_iff, List.mem_map, isAmong, List.any_eq_true]
  simp only [decide_eq_true_iff]

theorem Arm.names_mem (arm : Arm) (name : String) : name ∈ arm.names ↔ name ∈ arm.labels.map (·.name.text) := by
  rw [names, firsts_keys, List.mem_eraseDups]

theorem Arm.names_nodup (arm : Arm) : arm.names.Nodup :=
  firstsAfter_nodup (fun label : Label => label.name.text) [] arm.labels

theorem arms_names_mem (arms : List Arm) (name : String) :
    name ∈ arms.flatMap Arm.names ↔ name ∈ (arms.flatMap Arm.labels).map (·.name.text) := by
  rw [List.map_flatMap]
  simp only [List.mem_flatMap, Arm.names_mem]

namespace Select

variable (choice : Select)

def withinFindings : List Finding := choice.arms.flatMap Arm.repeatFindings

theorem withinFindings_report : choice.withinFindings.map (·.diagnostic false) = choice.withinReport := by
  rw [withinFindings, withinReport, List.map_flatMap]
  refine List.flatMap_congr fun arm _ => ?_
  rw [Arm.repeatFindings, repeats_preceded, List.map_map, List.map_map]
  simp only [Label.isAmong_exact]
  rfl

theorem acrossFindings_report : choice.acrossFindings.map (·.diagnostic false) = choice.acrossReport := by
  have parts := repeatsAfter_parts Arm.names [] choice.arms fun arm _ => arm.names_nodup
  rw [acrossFindings, acrossReport, repeats, parts, List.map_map, List.map_flatMap]
  refine List.flatMap_congr fun pair _ => ?_
  obtain ⟨arms, arm⟩ := pair
  simp only [List.not_mem_nil, or_false, arms_names_mem]
  rw [Arm.names, firsts_preceded, List.filter_map, List.filter_map, List.filter_filter, List.map_map, List.map_map]
  simp only [Label.isAmong_exact, ← decide_not]
  rfl

end Select

theorem View.arm_labels (view : View) (arm : Arm) :
    findingsOf Repetition.label.isCause (view.armFindings arm) = arm.repeatFindings := by
  have bounds : Lacks Repetition.label.isCause (arm.items.flatMap fun item =>
      view.boundsFindings item.owner item.close item.bounds) :=
    lacks_flatMap _ _ fun item _ => (view.bounds_lack _ _ _).mono Repetition.label.cause_repeat
  have types : Lacks Repetition.label.isCause ((arm.items.filterMap fun item => view.unknownType? item.type).map fun name =>
      ⟨.unknownType name, arm.follow⟩) := lacks_map _ _ fun _ => rfl
  rw [armFindings, findingsOf_append, findingsOf_append, bounds.none, types.none, List.append_nil, List.append_nil]
  exact findingsOf_all (List.forall_mem_map.mpr fun _ _ => rfl)

theorem View.arms_labels (view : View) (choice : Select) :
    findingsOf Repetition.label.isCause (view.armsFindings choice) = choice.withinFindings := by
  have selector : Lacks Repetition.label.isCause (view.selectorFindings choice) := lacks_unless _ rfl
  rw [armsFindings, findingsOf_append, selector.none, findingsOf_flatMap]
  exact List.flatMap_congr fun arm _ => view.arm_labels arm

theorem Select.across_labels (choice : Select) :
    findingsOf Repetition.label.isCause choice.acrossFindings = choice.acrossFindings :=
  findingsOf_all (List.forall_mem_map.mpr fun _ _ => rfl)

theorem View.select_report (view : View) (choice : Select) (once noted : Bool) :
    ∃ ahead, report once noted (view.selectFindings choice) = ahead ++ choice.acrossReport ∧
      Repetition.label.diagnostics ahead = choice.withinReport := by
  have across : Lacks Cause.isDotted choice.acrossFindings := lacks_map _ _ fun _ => rfl
  refine ⟨report once noted (view.armsFindings choice), ?_, ?_⟩
  · rw [selectFindings, report_append, report_undotted across, choice.acrossFindings_report]
  · rw [Repetition.report_exact, view.arms_labels, choice.withinFindings_report]

def Body.caseFindings : Body → List Finding
  | .struct .. => []
  | .select choice => choice.withinFindings ++ choice.acrossFindings

theorem Body.caseFindings_report (body : Body) : body.caseFindings.map (·.diagnostic false) = body.caseReport := by
  cases body with
  | struct => rfl
  | select choice =>
    rw [caseFindings, caseReport, List.map_append, choice.withinFindings_report, choice.acrossFindings_report]

theorem Comprises.cases (comprises : Comprises bodies found) :
    findingsOf Repetition.label.isCause found = bodies.flatMap Body.caseFindings := by
  refine comprises.filter (by decide) (fun members name close => ?_) fun view choice => ?_
  · exact (lacks_map _ _ fun _ => rfl).none
  · rw [View.selectFindings, findingsOf_append, view.arms_labels, choice.across_labels]
    rfl

theorem Comprises.caseReport (comprises : Comprises bodies found) (once noted : Bool) :
    Repetition.label.diagnostics (report once noted found) = bodies.flatMap Body.caseReport := by
  rw [Repetition.report_exact, comprises.cases, List.map_flatMap]
  exact List.flatMap_congr fun body _ => body.caseFindings_report

theorem arms_length (arms : List Arm) : (arms.flatMap Arm.repeatFindings).length +
    (arms.flatMap Arm.names).length = (arms.flatMap Arm.labels).length := by
  induction arms with
  | nil => rfl
  | cons arm rest ih =>
    have own : arm.repeatFindings.length + arm.names.length = arm.labels.length := by
      rw [Arm.repeatFindings, Arm.names, List.length_map, List.length_map, repeats_length]
    simp only [List.flatMap_cons, List.length_append]
    omega

namespace Select

variable (choice : Select)

theorem within_length : choice.withinReport.length + (choice.arms.flatMap Arm.names).length = choice.labels.length := by
  rw [← withinFindings_report, List.length_map, labels, ← arms_length, withinFindings]

theorem across_length : choice.acrossReport.length + (choice.labels.map (·.name.text)).toFinset.card =
    (choice.arms.flatMap Arm.names).length := by
  have same : (choice.labels.map (·.name.text)).toFinset = ((choice.arms.flatMap Arm.names).map id).toFinset := by
    ext name
    rw [List.mem_toFinset, List.mem_toFinset, List.map_id, arms_names_mem, labels]
  rw [← acrossFindings_report, List.length_map, acrossFindings, List.length_map, same, ← firsts_length, repeats_length]

theorem report_length : (Body.select choice).caseReport.length + (choice.labels.map (·.name.text)).toFinset.card =
    choice.labels.length := by
  have within := choice.within_length
  have across := choice.across_length
  rw [Body.caseReport, List.length_append]
  omega

end Select

-- Every repeated label of a schema is reported once and nothing else is: within an arm at
-- its colon, and otherwise at the end of the select, after all else that the select reports.
theorem labels_exact (decls : List Decl) (once : Bool) :
    Repetition.label.diagnostics (report once false (analyze decls).2) =
      (decls.flatMap Decl.bodies).flatMap Body.caseReport ∧
    (∀ choice, Body.select choice ∈ decls.flatMap Decl.bodies →
      ∃ (view : View) (noted : Bool) (before ahead after : List Diagnostic),
        report once false (analyze decls).2 = before ++ report once noted (view.selectFindings choice) ++ after ∧
        report once noted (view.selectFindings choice) = ahead ++ choice.acrossReport ∧
        Repetition.label.diagnostics ahead = choice.withinReport) ∧
    (∀ choice : Select, (Body.select choice).caseReport.length + (choice.labels.map (·.name.text)).toFinset.card =
      choice.labels.length) ∧
    ∀ choice other : Select, (choice.labels.map (·.name.text)).Perm (other.labels.map (·.name.text)) →
      (Body.select choice).caseReport.length = (Body.select other).caseReport.length := by
  have comprises := analyze_comprises decls
  refine ⟨comprises.caseReport once false, fun choice listed => ?_, Select.report_length, fun choice other same => ?_⟩
  · obtain ⟨view, before, after, found⟩ := comprises.stands listed
    rw [found, report_append, report_append]
    obtain ⟨ahead, ends, within⟩ := view.select_report choice once _
    exact ⟨view, _, _, ahead, _, rfl, ends, within⟩
  · have one := choice.report_length
    have two := other.report_length
    have length := same.length_eq
    rw [List.toFinset_eq_of_perm _ _ same] at one
    rw [List.length_map, List.length_map] at length
    omega

-- The same four labels in two arms and in one.
def caseLabel (name : String) (line : Nat) : Label := ⟨⟨.ident, name, line⟩, ⟨.colon, ":", line⟩⟩
def choiceOf (arms : List Arm) : Select :=
  ⟨.simple ⟨.ident, "kind", 1⟩, ⟨.lBrace, "\x7b", 1⟩, arms, none, ⟨.semi, ";", 6⟩⟩
def twoArms : Select :=
  choiceOf [⟨[caseLabel "a" 2, caseLabel "b" 3], [], ⟨.caseWord, "case", 4⟩⟩,
    ⟨[caseLabel "a" 4, caseLabel "a" 5], [], ⟨.rBrace, "\x7d", 6⟩⟩]
def oneArm : Select := choiceOf [⟨twoArms.labels, [], ⟨.rBrace, "\x7d", 6⟩⟩]

theorem labels_exact_arms :
    (Body.select twoArms ∈ [Decl.select twoArms].flatMap Decl.bodies ∧
      ∃ (view : View) (noted : Bool) (before ahead after : List Diagnostic),
        report true false (analyze [.select twoArms]).2 =
          before ++ report true noted (view.selectFindings twoArms) ++ after ∧
        report true noted (view.selectFindings twoArms) = ahead ++ twoArms.acrossReport ∧
        Repetition.label.diagnostics ahead = twoArms.withinReport) ∧
    (twoArms.labels.map (·.name.text)).Perm (oneArm.labels.map (·.name.text)) ∧
      (Body.select twoArms).caseReport.length = (Body.select oneArm).caseReport.length := by
  have listed : Body.select twoArms ∈ [Decl.select twoArms].flatMap Decl.bodies := List.mem_singleton_self _
  have same : (twoArms.labels.map (·.name.text)).Perm (oneArm.labels.map (·.name.text)) := .refl _
  obtain ⟨_, stands, _, apart⟩ := labels_exact [.select twoArms] true
  exact ⟨⟨listed, stands twoArms listed⟩, same, apart twoArms oneArm same⟩

example : (Body.select twoArms).caseReport.map (fun diagnostic => (diagnostic.line, diagnostic.message)) =
    [(5, "Duplicate case ``a''"), (6, "Duplicate case ``a'' in ``''")] := by decide +kernel

end WireFormat
