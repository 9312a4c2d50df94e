import WireFormat.Compile
import WireFormat.Proofs.Anchors
import WireFormat.Proofs.Parted

namespace WireFormat

-- Where the diagnostics of a source stand: what is reported about a declaration lies
-- within the declaration, and what stopped the reading lies after all of them.

namespace Resolution

def foundEach (resolution : Resolution) (reached : List String) : List Decl → List (List Finding)
  | [] => []
  | decl :: rest =>
    let one := resolution.checkDecl reached decl
    one.2 :: one.1.foundEach (decl.external?.toList ++ reached) rest

theorem foundEach_flatten (resolution : Resolution) (reached : List String) (decls : List Decl) :
    (resolution.foundEach reached decls).flatten = (resolution.checkDecls reached decls).2 := by
  induction decls generalizing resolution reached with
  | nil => rfl
  | cons decl rest ih => rw [foundEach, List.flatten_cons, ih, checkDecls]

end Resolution

-- One list of diagnostics for each list of findings, with the note where one report of
-- them all would have it.
def reportEach (once noted : Bool) : List (List Finding) → List (List Diagnostic)
  | [] => []
  | found :: rest =>
    report once noted found :: reportEach once (noted || found.any fun finding => finding.cause.isDotted) rest

theorem report_append (once noted : Bool) (front back : List Finding) :
    report once noted (front ++ back) = report once noted front ++
      report once (noted || front.any fun finding => finding.cause.isDotted) back := by
  induction front generalizing noted with
  | nil => simp [report]
  | cons finding rest ih =>
    -- Once a note has been given, whether this finding gives one makes no difference.
    have later : (noted || (finding.cause.isDotted && !(once && noted))) = (noted || finding.cause.isDotted) := by
      cases noted <;> simp
    simp only [List.cons_append, report, ih, List.any_cons, later, Bool.or_assoc]

theorem reportEach_flatten (once noted : Bool) (blocks : List (List Finding)) :
    (reportEach once noted blocks).flatten = report once noted blocks.flatten := by
  induction blocks generalizing noted with
  | nil => rfl
  | cons found rest ih => rw [reportEach, List.flatten_cons, List.flatten_cons, ih, report_append]

def Diagnostic.At (tokens : List Token) (diagnostic : Diagnostic) : Prop :=
  ∃ token ∈ tokens, diagnostic.near = token.text ∧ diagnostic.line = token.line

def Analytic (tokens : List Token) (reported : List Diagnostic) : Prop :=
  ∀ diagnostic ∈ reported, (diagnostic.kind = .literal ∨ diagnostic.kind = .semantic) ∧ diagnostic.At tokens

theorem Cause.kind_analytic (cause : Cause) : cause.kind = .literal ∨ cause.kind = .semantic := by
  cases cause with
  | failedLiteral => exact .inl rfl
  | _ => exact .inr rfl

theorem report_analytic (once noted : Bool) (within : Within tokens found) :
    Analytic tokens (report once noted found) := by
  induction found generalizing noted with
  | nil => exact nofun
  | cons finding rest ih =>
    obtain ⟨kept, others⟩ := List.forall_mem_cons.mp within
    exact List.forall_mem_cons.mpr ⟨⟨finding.cause.kind_analytic, finding.token, kept, rfl, rfl⟩, ih _ others⟩

theorem each_analytic (once noted : Bool) (resolution : Resolution) (reached : List String)
    (spelt : List.Forall₂ DeclSpelt decls spans) :
    List.Forall₂ Analytic spans (reportEach once noted (resolution.foundEach reached decls)) := by
  induction spelt generalizing noted resolution reached with
  | nil => exact .nil
  | @cons decl span decls spans one _ ih =>
    have kept := (decl_restored decl span one).keeps
    exact .cons (report_analytic once noted ((resolution.checkDecl_within reached decl).mono kept)) (ih _ _ _)

theorem analytic_flatten (each : List.Forall₂ Analytic spans blocks) : Analytic spans.flatten blocks.flatten := by
  induction each with
  | nil => exact nofun
  | cons one _ ih =>
    refine List.forall_mem_append.mpr ⟨fun diagnostic member => ?_, fun diagnostic member => ?_⟩
    · obtain ⟨kind, token, kept, same⟩ := one diagnostic member
      exact ⟨kind, token, List.mem_append_left _ kept, same⟩
    · obtain ⟨kind, token, kept, same⟩ := ih diagnostic member
      exact ⟨kind, token, List.mem_append_right _ kept, same⟩

theorem Diagnostic.At.line_le {one two : Diagnostic} (first : one.At front) (second : two.At back)
    (ordered : ∀ earlier ∈ front, ∀ later ∈ back, earlier.line ≤ later.line) : one.line ≤ two.line := by
  obtain ⟨earlier, before, _, start⟩ := first
  obtain ⟨later, after, _, stop⟩ := second
  rw [start, stop]
  exact ordered earlier before later after

theorem blocks_ordered (each : List.Forall₂ Analytic spans blocks)
    (ordered : spans.flatten.Pairwise fun earlier later => earlier.line ≤ later.line) :
    blocks.Pairwise fun earlier later => ∀ one ∈ earlier, ∀ two ∈ later, one.line ≤ two.line := by
  induction each with
  | nil => exact .nil
  | @cons span block spans blocks first others ih =>
    obtain ⟨_, inside, apart⟩ := List.pairwise_append.mp ordered
    refine List.pairwise_cons.mpr ⟨fun later member one here two there => ?_, ih inside⟩
    have next := analytic_flatten others two (List.mem_flatten.mpr ⟨later, member, there⟩)
    exact (first one here).2.line_le next.2 apart

def reportDecls (once : Bool) (decls : List Decl) : List (List Diagnostic) :=
  reportEach once false ((started decls).foundEach [] decls)

theorem reportDecls_flatten (once : Bool) (decls : List Decl) :
    (reportDecls once decls).flatten = report once false (analyze decls).2 := by
  rw [reportDecls, reportEach_flatten, Resolution.foundEach_flatten, analyze]

-- The diagnostics of a source that has tokens, in parallel with the parts of the tokens.
structure Streamed (parsed : Parsed) (spans : List (List Token)) (rest : List Token)
    (blocks : List (List Diagnostic)) : Prop where
  analytic : List.Forall₂ Analytic spans blocks
  ordered : blocks.Pairwise fun earlier later => ∀ one ∈ earlier, ∀ two ∈ later, one.line ≤ two.line
  stopped : ∀ error ∈ parsed.error, error.diagnostic.kind = .grammar ∧ error.diagnostic.At rest
  last : ∀ error ∈ parsed.error, ∀ one ∈ blocks.flatten, one.line ≤ error.diagnostic.line

theorem parted_streamed (parted : Parted tokens parsed spans rest)
    (ordered : tokens.Pairwise fun earlier later => earlier.line ≤ later.line) (once : Bool) :
    Streamed parsed spans rest (reportDecls once parsed.decls) := by
  rw [parted.tokens] at ordered
  obtain ⟨inside, _, apart⟩ := List.pairwise_append.mp ordered
  have each : List.Forall₂ Analytic spans (reportDecls once parsed.decls) :=
    each_analytic once false _ [] parted.spelt
  have stopped : ∀ error ∈ parsed.error, error.diagnostic.At rest :=
    fun error found => ⟨error.token, parted.stopped error found, rfl, rfl⟩
  refine ⟨each, blocks_ordered each inside, fun error found => ⟨rfl, stopped error found⟩, ?_⟩
  exact fun error found one member => (analytic_flatten each one member).2.line_le (stopped error found) apart

theorem Streamed.listed (streamed : Streamed parsed spans rest blocks) (parted : Parted tokens parsed spans rest) :
    ∀ one ∈ blocks.flatten ++ parsed.error.toList.map SyntaxError.diagnostic, one.At tokens := by
  rw [parted.tokens]
  refine List.forall_mem_append.mpr ⟨fun one member => ?_, List.forall_mem_map.mpr fun error found => ?_⟩
  · obtain ⟨_, token, kept, same⟩ := analytic_flatten streamed.analytic one member
    exact ⟨token, List.mem_append_left _ kept, same⟩
  · obtain ⟨_, token, kept, same⟩ := streamed.stopped error (Option.mem_toList.mp found)
    exact ⟨token, List.mem_append_right _ kept, same⟩

theorem compile_unclosed (options : Options) (cut : tokenize source = .error error) : compile source options =
    ⟨options.label, none, [⟨.lexical, lastLine source.toList, "", "EOF in comment", none⟩]⟩ := by
  have known := cut
  unfold tokenize at known
  split at known
  · cases known
    rw [compile, cut]
    rfl
  · cases known

-- A source whose comments do not end has one diagnostic, at its last line. From any
-- other there come those of each declaration that was completed, in order and apart, and
-- then, where the reading stopped short, one for the token that stopped it.
theorem compile_streamed (source : String) (options : Options) :
    (∀ one ∈ (compile source options).diagnostics, 1 ≤ one.line ∧ one.line ≤ lastLine source.toList) ∧
      (compile source options = ⟨options.label, none,
          [⟨.lexical, lastLine source.toList, "", "EOF in comment", none⟩]⟩ ∨
        ∃ tokens spans rest, tokenize source = .ok tokens ∧
          compile source options = ⟨options.label, some ((parse tokens).decls, (analyze (parse tokens).decls).1),
            (reportDecls options.noteOnce (parse tokens).decls).flatten ++
              (parse tokens).error.toList.map SyntaxError.diagnostic⟩ ∧
          (reportDecls options.noteOnce (parse tokens).decls).flatten =
            report options.noteOnce false (analyze (parse tokens).decls).2 ∧
          Parted tokens (parse tokens) spans rest ∧
          Streamed (parse tokens) spans rest (reportDecls options.noteOnce (parse tokens).decls)) := by
  cases cut : tokenize source with
  | error error =>
    have whole := compile_unclosed options cut
    refine ⟨?_, .inl whole⟩
    rw [whole]
    exact List.forall_mem_singleton.mpr ⟨Nat.le_add_left 1 _, Nat.le_refl _⟩
  | ok tokens =>
    obtain ⟨lines, ordered⟩ := laid_lines (tokenize_laid cut)
    obtain ⟨spans, rest, parted⟩ := parse_parted (laid_end (tokenize_laid cut))
    have streamed := parted_streamed parted ordered options.noteOnce
    have whole : compile source options = ⟨options.label,
        some ((parse tokens).decls, (analyze (parse tokens).decls).1),
        (reportDecls options.noteOnce (parse tokens).decls).flatten ++
          (parse tokens).error.toList.map SyntaxError.diagnostic⟩ := by
      rw [compile, cut, reportDecls_flatten]
    refine ⟨?_, .inr ⟨tokens, spans, rest, rfl, whole, reportDecls_flatten _ _, parted, streamed⟩⟩
    rw [whole]
    intro one member
    obtain ⟨token, kept, _, line⟩ := streamed.listed parted one member
    rw [line]
    exact lines token kept

end WireFormat
