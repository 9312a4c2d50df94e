import WireFormat.Proofs.Quoted
import WireFormat.Proofs.Relaid

namespace WireFormat

-- Rendered diagnostics keep to their lines, and what they tell can be read back.

theorem grammarName_plain (kind : Token.Kind) : Plain kind.grammarName := by
  cases kind with
  | scalar type => cases type <;> decide
  | _ => decide

namespace SyntaxError

theorem message_plain (error : SyntaxError) : Plain error.message := by
  unfold message
  cases error.refusal with
  | tooDeep =>
    have whole : Plain ("syntax error, nesting deeper than " ++ toString maxNesting) := by decide
    exact whole
  | unexpected expected =>
    have offer : Plain (", expecting " ++ " or ".intercalate (expected.map Token.Kind.grammarName)) := by
      refine plain_append.mpr ⟨by decide, plain_intercalate (by decide) ?_⟩
      exact List.forall_mem_map.mpr fun kind _ => grammarName_plain kind
    refine plain_append.mpr ⟨plain_append.mpr ⟨by decide, grammarName_plain _⟩, ?_⟩
    split
    · decide
    · exact offer

theorem message_unnoted (error : SyntaxError) : error.message ≠ dottedNote := by
  intro same
  have text := congrArg String.toList same
  unfold message at text
  cases refused : error.refusal with
  | tooDeep =>
    simp only [refused, String.toList_append] at text
    exact absurd (List.prefix_iff_exists_append_eq.mpr ⟨_, text⟩) (by decide)
  | unexpected expected =>
    simp only [refused, String.toList_append, List.append_assoc] at text
    exact absurd (List.prefix_iff_exists_append_eq.mpr ⟨_, text⟩) (by decide)

end SyntaxError

structure Diagnostic.Line where
  line : Nat
  near : String
  text : String
  deriving DecidableEq, Repr

namespace Diagnostic

-- Without its newline.
def Line.written (label : String) (line : Line) : String :=
  label ++ ":" ++ toString line.line ++ ": error near ``" ++ line.near ++ "'': " ++ line.text

-- The message, and after it the note if there is one.
def lines (diagnostic : Diagnostic) : List Line :=
  (diagnostic.message :: diagnostic.note.toList).map fun text => ⟨diagnostic.line, diagnostic.near, text⟩

theorem render_lines (label : String) (diagnostic : Diagnostic) : diagnostic.render label =
    String.join (diagnostic.lines.map fun line => line.written label ++ "\n") := by
  unfold render lines
  cases diagnostic.note with
  | none => simp [writeLine, Line.written]
  | some note => simp [writeLine, Line.written]

theorem renderAll_lines (label : String) (diagnostics : List Diagnostic) : renderAll label diagnostics =
    String.join ((diagnostics.flatMap lines).map fun line => line.written label ++ "\n") := by
  induction diagnostics with
  | nil => rfl
  | cons diagnostic rest ih =>
    rw [List.flatMap_cons, List.map_append, String.join_append, ← ih, ← render_lines]
    exact String.join_cons

structure Line.Legible (line : Line) : Prop where
  near : Plain line.near
  quoted : Quotable line.near
  text : Plain line.text

-- There is one note only, and no message is like it.
structure Legible (diagnostic : Diagnostic) : Prop where
  near : Plain diagnostic.near
  quoted : Quotable diagnostic.near
  message : Plain diagnostic.message
  first : diagnostic.message ≠ dottedNote
  note : ∀ note ∈ diagnostic.note, note = dottedNote

theorem Legible.lines {diagnostic : Diagnostic} (legible : diagnostic.Legible) :
    ∀ line ∈ diagnostic.lines, line.Legible := by
  refine List.forall_mem_map.mpr (List.forall_mem_cons.mpr ⟨⟨legible.near, legible.quoted, legible.message⟩, ?_⟩)
  intro note given
  have plain : Plain dottedNote := by decide
  exact ⟨legible.near, legible.quoted, legible.note note (Option.mem_toList.mp given) ▸ plain⟩

section Lines

variable {label : String} {one two : Line}

theorem Line.Legible.plain (legible : one.Legible) (plain : Plain label) : Plain (one.written label) := by
  have line := plain_number one.line
  have near := legible.near
  have text := legible.text
  unfold Plain at *
  simp only [Line.written, String.toList_append, List.mem_append, plain, line, near, text, not_or, not_false_eq_true,
    and_true, true_and]
  decide

-- The apostrophes after a quotation are the first two that are followed by a colon.
theorem quotation_unique {near other : String} {rest more : List Char} (one : Quotable near) (two : Quotable other)
    (same : near.toList ++ '\x27' :: '\x27' :: ':' :: rest = other.toList ++ '\x27' :: '\x27' :: ':' :: more) :
    near = other ∧ rest = more := by
  rw [← String.toList_inj]
  rcases one with alone | none <;> rcases two with single | apart
  · rw [alone, single] at same ⊢
    simpa using same
  · rw [alone] at same
    cases split : other.toList with
    | nil => simp [split] at same
    | cons c word =>
      have quote : '\x27' = c := by simpa [split] using (List.cons.inj (split ▸ same)).1
      simp [split, ← quote] at apart
  · rw [single] at same
    cases split : near.toList with
    | nil => simp [split] at same
    | cons c word =>
      have quote : c = '\x27' := by simpa [split] using (List.cons.inj (split ▸ same)).1
      simp [split, quote] at none
  · obtain ⟨words, tails⟩ := cut_unique none apart same
    exact ⟨words, by simpa using tails⟩

theorem written_parts (label : String) (line : Line) (rest : List Char) :
    (line.written label).toList ++ '\n' :: rest =
      label.toList ++ ':' :: ((toString line.line).toList ++ ':' :: (" error near ``".toList ++
        (line.near.toList ++ '\x27' :: '\x27' :: ':' :: (' ' :: (line.text.toList ++ '\n' :: rest))))) := by
  simp [Line.written]

theorem number_unique {n m : Nat} (same : (toString n).toList = (toString m).toList) : n = m := by
  rw [number_text, number_text] at same
  have value := congrArg (Nat.ofDigitChars 10 · 0) same
  simpa [Nat.ofDigitChars_toDigits] using value

theorem number_uncut (n : Nat) : ':' ∉ (toString n).toList :=
  fun member => Bool.noConfusion (number_digits n ':' member)

theorem written_unique (first : one.Legible) (second : two.Legible)
    (same : (one.written label).toList ++ '\n' :: rest = (two.written label).toList ++ '\n' :: more) :
    one = two ∧ rest = more := by
  obtain ⟨line, near, text⟩ := one
  obtain ⟨other, place, words⟩ := two
  rw [written_parts, written_parts] at same
  have number := (List.cons.inj (List.append_cancel_left same)).2
  obtain ⟨digits, place⟩ := cut_unique (number_uncut line) (number_uncut other) number
  obtain ⟨rfl, message⟩ := quotation_unique first.quoted second.quoted (List.append_cancel_left place)
  obtain ⟨letters, later⟩ := cut_unique first.text second.text (List.cons.inj message).2
  obtain rfl := number_unique digits
  obtain rfl := String.toList_inj.mp letters
  exact ⟨rfl, later⟩

def Line.ended (label : String) (line : Line) : List Char := (line.written label).toList ++ ['\n']

theorem ended_unique {front back : List Line} (first : ∀ line ∈ front, line.Legible)
    (second : ∀ line ∈ back, line.Legible)
    (same : front.flatMap (Line.ended label) = back.flatMap (Line.ended label)) : front = back := by
  induction front generalizing back with
  | nil =>
    cases back with
    | nil => rfl
    | cons line rest => simp [Line.ended] at same
  | cons one rest ih =>
    cases back with
    | nil => simp [Line.ended] at same
    | cons two more =>
      obtain ⟨here, first⟩ := List.forall_mem_cons.mp first
      obtain ⟨there, second⟩ := List.forall_mem_cons.mp second
      simp only [List.flatMap_cons, Line.ended, List.append_assoc, List.singleton_append] at same
      obtain ⟨equal, later⟩ := written_unique here there same
      rw [equal, ih first second later]

end Lines

-- All that a report says of a diagnostic.
def told (diagnostic : Diagnostic) : Nat × String × String × Option String :=
  (diagnostic.line, diagnostic.near, diagnostic.message, diagnostic.note)

-- A line that holds the note belongs to the diagnostic before it, and any other starts one.
def readBack : List Line → List (Nat × String × String × Option String)
  | [] => []
  | [line] => [(line.line, line.near, line.text, none)]
  | line :: next :: rest =>
    if next.text = dottedNote then (line.line, line.near, line.text, some next.text) :: readBack rest
    else (line.line, line.near, line.text, none) :: readBack (next :: rest)

section Reports

variable {front back : List Diagnostic}

theorem lines_first (legible : ∀ one ∈ front, one.Legible) :
    ∀ line ∈ (front.flatMap lines).head?, line.text ≠ dottedNote := by
  cases front with
  | nil => exact nofun
  | cons one rest =>
    rintro line ⟨⟩
    exact (legible one (.head _)).first

theorem lines_readBack (legible : ∀ one ∈ front, one.Legible) : readBack (front.flatMap lines) = front.map told := by
  induction front with
  | nil => rfl
  | cons one rest ih =>
    obtain ⟨here, others⟩ := List.forall_mem_cons.mp legible
    rw [List.flatMap_cons, List.map_cons, ← ih others]
    cases noted : one.note with
    | some note =>
      have dotted : note = dottedNote := here.note note noted
      simp [lines, noted, dotted, readBack, told]
    | none =>
      have starts := lines_first others
      cases tail : rest.flatMap lines with
      | nil => simp [lines, noted, readBack, told]
      | cons next more =>
        have message : next.text ≠ dottedNote := starts next (by rw [tail]; rfl)
        simp [lines, noted, message, readBack, told]

theorem lines_legible (legible : ∀ one ∈ front, one.Legible) : ∀ line ∈ front.flatMap lines, line.Legible := by
  intro line member
  obtain ⟨one, stands, listed⟩ := List.mem_flatMap.mp member
  exact (legible one stands).lines line listed

theorem renderAll_unique (first : ∀ one ∈ front, one.Legible) (second : ∀ two ∈ back, two.Legible)
    (same : renderAll label front = renderAll label back) : front.map told = back.map told := by
  have letters (diagnostics : List Diagnostic) : (renderAll label diagnostics).toList =
      (diagnostics.flatMap lines).flatMap (Line.ended label) := by
    rw [renderAll_lines, String.toList_join, List.flatMap_map]
    simp only [String.toList_append]
    rfl
  have text := congrArg String.toList same
  rw [letters, letters] at text
  have equal := ended_unique (lines_legible first) (lines_legible second) text
  rw [← lines_readBack first, equal, lines_readBack second]

theorem renderAll_empty (label : String) (diagnostics : List Diagnostic) :
    renderAll label diagnostics = "" ↔ diagnostics = [] := by
  constructor
  · intro nothing
    cases diagnostics with
    | nil => rfl
    | cons one rest =>
      have text := congrArg String.toList nothing
      rw [renderAll_lines] at text
      simp [lines] at text
  · rintro rfl
    rfl

end Reports

end Diagnostic

theorem report_legible (once noted : Bool) {found : List Finding} (quoting : Quoting found)
    (texts : ∀ one ∈ report once noted found, Plain one.near ∧ Quotable one.near) :
    ∀ one ∈ report once noted found, one.Legible := by
  induction found generalizing noted with
  | nil => exact List.forall_mem_nil _
  | cons finding rest ih =>
    obtain ⟨names, quoting⟩ := List.forall_mem_cons.mp quoting
    obtain ⟨near, texts⟩ := List.forall_mem_cons.mp texts
    refine List.forall_mem_cons.mpr ⟨⟨near.1, near.2, ?_, ?_, ?_⟩, ih _ quoting texts⟩
    · exact finding.cause.message_plain names
    · exact finding.cause.message_unnoted
    · intro note given
      simp only [Finding.diagnostic, Diagnostic.reported] at given
      split at given
      · cases given
        rfl
      · cases given

theorem syntax_legible (error : SyntaxError) (near : Plain error.token.text ∧ Quotable error.token.text) :
    error.diagnostic.Legible := ⟨near.1, near.2, error.message_plain, error.message_unnoted, nofun⟩

theorem compile_legible (source : String) (options : Options) :
    ∀ one ∈ (compile source options).diagnostics, one.Legible := by
  cases cut : tokenize source with
  | error error =>
    have near : Plain "" ∧ '\x27' ∉ "".toList := by decide
    have message : Plain "EOF in comment" ∧ "EOF in comment" ≠ dottedNote := by decide
    rw [compile_unclosed options cut]
    exact List.forall_mem_singleton.mpr ⟨near.1, .inr near.2, message.1, message.2, nofun⟩
  | ok tokens =>
    obtain ⟨spans, rest, parted⟩ := parse_parted (laid_end (tokenize_laid cut))
    have streamed := parted_streamed parted (laid_lines (tokenize_laid cut)).2 options.noteOnce
    have texts := tokenize_texts cut
    have near : ∀ one : Diagnostic, one.At tokens → Plain one.near ∧ Quotable one.near := by
      rintro one ⟨token, kept, same, _⟩
      exact same ▸ texts token kept
    obtain ⟨analyzed, stopped⟩ :=
      List.forall_mem_append.mp fun one member => near one (streamed.listed parted one member)
    rw [reportDecls_flatten] at analyzed
    have inside : ∀ token ∈ spans.flatten, Plain token.text := fun token member =>
      (texts token (parted.tokens ▸ List.mem_append_left rest member)).1
    rw [compile_read options cut]
    refine List.forall_mem_append.mpr ⟨?_, List.forall_mem_map.mpr fun error found => ?_⟩
    · exact report_legible _ _ (analyze_quoting parted.spelt inside) analyzed
    · exact syntax_legible error (stopped _ (List.mem_map_of_mem found))

-- What the rendered text of a compilation is made of, and what can be read off it.
structure Readable (source : String) (options : Options) : Prop where
  -- One line for each diagnostic and one more after it for its note, in order.
  written : (compile source options).render = String.join
    (((compile source options).diagnostics.flatMap Diagnostic.lines).map fun line => line.written options.label ++ "\n")
  single : ∀ line ∈ (compile source options).diagnostics.flatMap Diagnostic.lines, Plain (line.written options.label)
  tokens : ∀ tokens, tokenize source = .ok tokens → ∀ token ∈ tokens, Plain token.text
  clean : (compile source options).render = "" ↔ (compile source options).isClean = true
  -- Under one label no other diagnostics are written as the same text.
  told : ∀ other once, (compile other ⟨options.label, once⟩).render = (compile source options).render →
    (compile other ⟨options.label, once⟩).diagnostics.map Diagnostic.told =
      (compile source options).diagnostics.map Diagnostic.told

-- Whatever a source quotes in its diagnostics, no line of the report is added or broken by
-- it, and the report tells its diagnostics.
theorem compile_readable (source : String) (options : Options) (plain : Plain options.label) :
    Readable source options := by
  have text (source : String) (options : Options) : (compile source options).render =
      Diagnostic.renderAll options.label (compile source options).diagnostics := by
    rw [Compilation.render, compile_label]
  have legible := compile_legible source options
  refine ⟨?_, ?_, ?_, ?_, ?_⟩
  · rw [text, Diagnostic.renderAll_lines]
  · exact fun line member => (Diagnostic.lines_legible legible line member).plain plain
  · exact fun tokens cut token member => (tokenize_texts cut token member).1
  · rw [text, Diagnostic.renderAll_empty, Compilation.isClean, List.isEmpty_iff]
  · intro other once same
    rw [text, text] at same
    exact Diagnostic.renderAll_unique (compile_legible other _) legible same

theorem compile_readable_quoted : Plain "a'b" ∧ Readable "opaque x[n.m]; '" ⟨"a'b", true⟩ :=
  ⟨by decide, compile_readable _ _ (by decide)⟩

example : (compile "opaque x[n.m]; '" ⟨"a'b", true⟩).diagnostics.flatMap Diagnostic.lines =
    [⟨1, ";", "Unknown size reference ``n.m''"⟩, ⟨1, ";", dottedNote⟩,
      ⟨1, "'", "syntax error, unexpected $undefined"⟩] := by decide +kernel

end WireFormat
