import WireFormat.CommandLine

namespace WireFormat

-- Runs of the command line. A run takes its files one by one, and where the flags stand
-- among the paths makes no difference.

variable {arguments : List String} {read : String → Except ReadError ByteArray} {input : ByteArray}

def dumpFlags : List String := ["--dump", "-d"]
def noteFlags : List String := ["--every-note"]

-- Arguments that are a request's paths in order, with its flags anywhere among them. No
-- path is spelled like a flag.
structure Spells (request : Request) (arguments : List String) : Prop where
  paths : arguments.filter (fun argument => !(dumpFlags ++ noteFlags).contains argument) = request.paths
  dump : arguments.countP dumpFlags.contains = if request.dump then 1 else 0
  everyNote : arguments.countP noteFlags.contains = if request.everyNote then 1 else 0

theorem eraseP_single (flagged : String → Bool) (once : arguments.countP flagged ≤ 1) :
    arguments.eraseP flagged = arguments.filter fun argument => !flagged argument := by
  induction arguments with
  | nil => rfl
  | cons argument rest ih =>
    rw [List.countP_cons] at once
    cases known : flagged argument with
    | true =>
      have none : rest.countP flagged = 0 := by
        rw [if_pos known] at once
        omega
      have kept : rest.filter (fun argument => !flagged argument) = rest :=
        List.filter_eq_self.mpr fun other member => by simpa using List.countP_eq_zero.mp none other member
      simp [known, kept]
    | false =>
      rw [if_neg (by simp [known]), Nat.add_zero] at once
      simp [known, ih once]

theorem any_counted (flagged : String → Bool) (given : Bool)
    (count : arguments.countP flagged = if given then 1 else 0) : arguments.any flagged = given := by
  rw [Bool.eq_iff_iff, List.any_eq_true, ← List.countP_pos_iff, count]
  cases given <;> simp

theorem takeFlag_single (flags : List String) (given : Bool)
    (count : arguments.countP flags.contains = if given then 1 else 0) :
    takeFlag flags arguments = (given, arguments.filter fun argument => !flags.contains argument) := by
  have once : arguments.countP flags.contains ≤ 1 := by
    rw [count]
    split <;> omega
  rw [takeFlag, any_counted _ given count, eraseP_single _ once]

theorem noteFlags_apart {argument : String} (flag : noteFlags.contains argument) :
    dumpFlags.contains argument = false := by
  rw [List.contains_iff_mem, noteFlags, List.mem_singleton] at flag
  subst flag
  decide

theorem Spells.ofArguments {request : Request} (spells : Spells request arguments) :
    Request.ofArguments arguments = request := by
  -- Taking the first flag leaves the second one where it was.
  have left : (arguments.filter fun argument => !dumpFlags.contains argument).countP noteFlags.contains =
      if request.everyNote then 1 else 0 := by
    rw [← spells.everyNote, List.countP_filter]
    refine List.countP_congr fun argument _ => ?_
    rw [Bool.and_eq_true, Bool.not_eq_true']
    exact ⟨And.left, fun flag => ⟨flag, noteFlags_apart flag⟩⟩
  have dumped := takeFlag_single dumpFlags _ spells.dump
  have noted := takeFlag_single noteFlags _ left
  have paths : (arguments.filter fun argument => !dumpFlags.contains argument).filter
      (fun argument => !noteFlags.contains argument) = request.paths := by
    rw [List.filter_filter, ← spells.paths]
    refine List.filter_congr fun argument _ => ?_
    rw [List.contains_append, Bool.not_or, Bool.and_comm]
  rw [paths] at noted
  have asked : Request.ofArguments arguments = ⟨(takeFlag dumpFlags arguments).1,
    (takeFlag noteFlags (takeFlag dumpFlags arguments).2).1, (takeFlag noteFlags (takeFlag dumpFlags arguments).2).2⟩ := rfl
  rw [asked, dumped]
  dsimp only
  rw [noted]

def outcome (read : String → Except ReadError ByteArray) (input : ByteArray) (arguments : List String) : Outcome :=
  (Request.ofArguments arguments).run read input

namespace Outcome

variable {first second : Outcome}

theorem append_assoc (first second third : Outcome) :
    (first.append second).append third = first.append (second.append third) := by
  simp only [append, Bool.and_assoc, String.append_assoc]

theorem append_nothing (first : Outcome) : first.append .nothing = first := by
  simp only [append, nothing, Bool.and_true, String.append_empty]

theorem nothing_append (first : Outcome) : Outcome.nothing.append first = first := by
  simp only [append, nothing, Bool.true_and, String.empty_append]

instance : Std.Associative append := ⟨append_assoc⟩

theorem foldl_append (first : Outcome) (outcomes : List Outcome) :
    outcomes.foldl append first = first.append (outcomes.foldl append .nothing) := by
  have joined : outcomes.foldl append (first.append .nothing) = first.append (outcomes.foldl append .nothing) :=
    List.foldl_assoc
  rwa [append_nothing] at joined

theorem exitCode_failed {outcome : Outcome} : outcome.exitCode = 1 ↔ outcome.clean = false := by
  cases known : outcome.clean <;> simp [exitCode, known]

theorem exitCode_clean {outcome : Outcome} : outcome.exitCode = 0 ↔ outcome.clean = true := by
  cases known : outcome.clean <;> simp [exitCode, known]

-- One run that does what two do, the first one's writing before the second one's.
structure Joins (first second both : Outcome) : Prop where
  output : both.output = first.output ++ second.output
  errors : both.errors = first.errors ++ second.errors
  exitCode : both.exitCode = 1 ↔ first.exitCode = 1 ∨ second.exitCode = 1

theorem joins_append : Joins first second (first.append second) where
  output := rfl
  errors := rfl
  exitCode := by
    rw [exitCode_failed, exitCode_failed, exitCode_failed]
    exact Bool.and_eq_false_iff

end Outcome

namespace Request

variable {dump everyNote : Bool}

theorem run_paths (request : Request) (some : request.paths ≠ []) :
    request.run read input = (request.paths.map (request.runFile read)).foldl .append .nothing :=
  if_neg (by rwa [List.isEmpty_iff])

theorem run_append {paths more : List String} (some : paths ≠ []) (others : more ≠ []) :
    (Request.mk dump everyNote (paths ++ more)).run read input =
      ((Request.mk dump everyNote paths).run read input).append ((Request.mk dump everyNote more).run read input) := by
  rw [run_paths _ (List.append_ne_nil_of_left_ne_nil some more), run_paths _ some, run_paths _ others,
    List.map_append, List.foldl_append, Outcome.foldl_append]
  -- A file is run the same way whatever the other paths are.
  rfl

-- What a run on one file comes to: the error that kept it from being read, its diagnostics
-- under its path, or its outline if one was asked for.
inductive OnFile (read : String → Except ReadError ByteArray) (dump everyNote : Bool) (path : String) :
    Outcome → Prop where
  | unread {error : ReadError} (unread : (read path).bind decodeText = .error error) :
      OnFile read dump everyNote path ⟨false, "", path ++ ": " ++ error.message ++ "\n"⟩
  | faulty {source : String} (text : (read path).bind decodeText = .ok source)
      (some : (compile source ⟨path, !everyNote⟩).diagnostics ≠ []) :
      OnFile read dump everyNote path
        ⟨false, Diagnostic.renderAll path (compile source ⟨path, !everyNote⟩).diagnostics, ""⟩
  | clean {source : String} {decls : List Decl} {resolution : Resolution}
      (text : (read path).bind decodeText = .ok source)
      (compiled : compile source ⟨path, !everyNote⟩ = ⟨path, some (decls, resolution), []⟩) :
      OnFile read dump everyNote path ⟨true, if dump then outline decls else "", ""⟩

end Request

theorem compile_schema {source : String} {options : Options} (clean : (compile source options).diagnostics = []) :
    ∃ decls resolution, compile source options = ⟨options.label, some (decls, resolution), []⟩ := by
  unfold compile at clean ⊢
  split at clean
  · exact absurd clean (List.cons_ne_nil _ _)
  · exact ⟨_, _, congrArg _ clean⟩

namespace Request

variable {dump everyNote : Bool}

theorem report_clean (request : Request) (label : String) (decls : List Decl) (resolution : Resolution) :
    request.report ⟨label, some (decls, resolution), []⟩ = ⟨true, if request.dump then outline decls else "", ""⟩ := by
  simp [report, Compilation.isClean, Compilation.render, Diagnostic.renderAll]

theorem report_faulty (request : Request) {compilation : Compilation} (some : compilation.diagnostics ≠ []) :
    request.report compilation = ⟨false, compilation.render, ""⟩ := by
  have failed : compilation.isClean = false := by rwa [Compilation.isClean, List.isEmpty_eq_false_iff]
  unfold report
  cases compilation.schema <;> simp [failed]

theorem runFile_exact (path : String) (paths : List String) :
    OnFile read dump everyNote path ((Request.mk dump everyNote paths).runFile read path) := by
  unfold runFile compileFile
  cases text : (read path).bind decodeText with
  | error error => exact .unread text
  | ok source =>
    show OnFile _ _ _ _ (report _ (compile source ⟨path, !everyNote⟩))
    by_cases clean : (compile source ⟨path, !everyNote⟩).diagnostics = []
    · obtain ⟨decls, resolution, compiled⟩ := compile_schema clean
      rw [compiled, report_clean]
      exact .clean text compiled
    · rw [report_faulty _ clean, Compilation.render, compile_label]
      exact .faulty text clean

theorem run_single (path : String) :
    (Request.mk dump everyNote [path]).run read input = (Request.mk dump everyNote [path]).runFile read path := by
  rw [run_paths _ (List.cons_ne_nil _ _), List.map_singleton, List.foldl_cons, List.foldl_nil, Outcome.nothing_append]

theorem OnFile.passes {path : String} {outcome : Outcome} (run : OnFile read dump everyNote path outcome) :
    outcome.exitCode = 0 ↔ ∃ source, (read path).bind decodeText = .ok source ∧
      (compile source ⟨path, !everyNote⟩).diagnostics = [] := by
  rw [Outcome.exitCode_clean]
  cases run with
  | unread unread => simp [unread]
  | faulty text some => simp [text, some]
  | clean text compiled => simp [text, compiled]

end Request

-- Each file of a run comes to what it does by itself, and flags may stand anywhere.
theorem runs_filewise (read : String → Except ReadError ByteArray) (input : ByteArray) (dump everyNote : Bool) :
    (∀ paths more first second both, paths ≠ [] → more ≠ [] →
      Spells ⟨dump, everyNote, paths⟩ first → Spells ⟨dump, everyNote, more⟩ second →
      Spells ⟨dump, everyNote, paths ++ more⟩ both →
      Outcome.Joins (outcome read input first) (outcome read input second) (outcome read input both)) ∧
    (∀ paths arguments moved, Spells ⟨dump, everyNote, paths⟩ arguments → Spells ⟨dump, everyNote, paths⟩ moved →
      outcome read input moved = outcome read input arguments) ∧
    ∀ path arguments, Spells ⟨dump, everyNote, [path]⟩ arguments →
      Request.OnFile read dump everyNote path (outcome read input arguments) ∧
      ((outcome read input arguments).exitCode = 0 ↔ ∃ source, (read path).bind decodeText = .ok source ∧
        (compile source ⟨path, !everyNote⟩).diagnostics = []) := by
  refine ⟨fun paths more first second both some others before after joined => ?_,
    fun paths arguments moved spells again => ?_, fun path arguments spells => ?_⟩
  · rw [outcome, outcome, outcome, before.ofArguments, after.ofArguments, joined.ofArguments,
      Request.run_append some others]
    exact Outcome.joins_append
  · rw [outcome, outcome, spells.ofArguments, again.ofArguments]
  · have run : Request.OnFile read dump everyNote path (outcome read input arguments) := by
      rw [outcome, spells.ofArguments, Request.run_single]
      exact Request.runFile_exact path [path]
    exact ⟨run, run.passes⟩

theorem runs_filewise_missing :
    let read : String → Except ReadError ByteArray := fun path =>
      if path = "a" then .error .notFound else .ok "uint8 x;".toUTF8
    Spells ⟨true, false, ["a"]⟩ ["-d", "a"] ∧ Spells ⟨true, false, ["b"]⟩ ["b", "--dump"] ∧
    Spells ⟨true, false, ["a", "b"]⟩ ["a", "-d", "b"] ∧ Spells ⟨true, false, ["a", "b"]⟩ ["a", "b", "--dump"] ∧
    Outcome.Joins (outcome read ⟨#[]⟩ ["-d", "a"]) (outcome read ⟨#[]⟩ ["b", "--dump"])
      (outcome read ⟨#[]⟩ ["a", "-d", "b"]) ∧
    outcome read ⟨#[]⟩ ["a", "b", "--dump"] = outcome read ⟨#[]⟩ ["a", "-d", "b"] ∧
    Request.OnFile read true false "a" (outcome read ⟨#[]⟩ ["-d", "a"]) := by
  intro read
  have first : Spells ⟨true, false, ["a"]⟩ ["-d", "a"] := ⟨by decide, by decide, by decide⟩
  have second : Spells ⟨true, false, ["b"]⟩ ["b", "--dump"] := ⟨by decide, by decide, by decide⟩
  have both : Spells ⟨true, false, ["a", "b"]⟩ ["a", "-d", "b"] := ⟨by decide, by decide, by decide⟩
  have moved : Spells ⟨true, false, ["a", "b"]⟩ ["a", "b", "--dump"] := ⟨by decide, by decide, by decide⟩
  obtain ⟨joins, anywhere, single⟩ := runs_filewise read ⟨#[]⟩ true false
  exact ⟨first, second, both, moved,
    joins ["a"] ["b"] _ _ _ (List.cons_ne_nil _ _) (List.cons_ne_nil _ _) first second both,
    anywhere _ _ _ both moved, (single _ _ first).1⟩

end WireFormat
