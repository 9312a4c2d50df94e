import WireFormat.Proofs.Relaid
import WireFormat.Proofs.Scanned

namespace WireFormat

-- Tokens can be written out again with other blanks and comments between them, and are
-- read back.

section Alone

variable {text word rest : List Char}

theorem Measures.stands (measures : Measures form length) (formed : form word) (reads : word <+: text) :
    Longest form text (text.take (length text)) := by
  obtain ⟨rest, rfl⟩ := reads
  have reach := measures.covers word rest formed
  have some := List.length_pos_iff.mpr (measures.nonempty word formed)
  exact measures.longest (by omega)

theorem IdentForm.snoc (formed : IdentForm word) (inside : Lexeme.isIdentChar c = true) : IdentForm (word ++ [c]) := by
  obtain ⟨start, all⟩ := formed
  exact .name start (List.forall_mem_append.mpr ⟨all, List.forall_mem_singleton.mpr inside⟩)

namespace Rule

-- What a rule makes of a text it makes of the word alone, and where it makes nothing of a
-- text it makes nothing of a front of it.
structure Steady (rule : Rule) : Prop where
  alone : ∀ word rest kind, rule (word ++ rest) kind word → rule word kind word
  absent : ∀ front rest, (∀ kind word, ¬ rule (front ++ rest) kind word) → ∀ kind word, ¬ rule front kind word

theorem measured_steady (measures : Measures form length) (made : Token.Kind) :
    Steady fun text kind word => kind = made ∧ Longest form text word := by
  constructor
  · intro word rest kind given
    refine ⟨given.1, given.2.formed, List.prefix_rfl, fun other good within => ?_⟩
    exact given.2.longest other good (within.trans (List.prefix_append word rest))
  · intro front rest nothing kind word given
    exact nothing made _ ⟨rfl, measures.stands given.2.formed (given.2.front.trans (List.prefix_append front rest))⟩

theorem front_steady {rule : Rule} (asks : Token.Kind → List Char → Prop)
    (reads : ∀ text kind word, rule text kind word ↔ asks kind word ∧ word <+: text) : Steady rule := by
  constructor
  · intro word rest kind given
    exact (reads _ _ _).mpr ⟨((reads _ _ _).mp given).1, List.prefix_rfl⟩
  · intro front rest nothing kind word given
    obtain ⟨asked, stands⟩ := (reads _ _ _).mp given
    exact nothing kind word ((reads _ _ _).mpr ⟨asked, stands.trans (List.prefix_append front rest)⟩)

theorem powers_steady : Steady powers := measured_steady powerLength_measures .power
theorem numbers_steady : Steady numbers := measured_steady numberLength_measures .number
theorem idents_steady : Steady idents := measured_steady identLength_measures .ident

theorem dots_steady : Steady dots :=
  front_steady (fun kind word => kind = .dots ∧ word = ['.', '.']) fun _ _ _ => and_assoc.symm

theorem marks_steady : Steady marks :=
  front_steady (fun kind word => ∃ c, word = [c] ∧ (String.singleton c, kind) ∈ Token.Kind.punctuation)
    fun text kind word => by grind [marks]

theorem others_steady : Steady others :=
  front_steady (fun kind word => kind = .unknown ∧ ∃ c, word = [c]) fun text kind word => by grind [others]

theorem Steady.before (steady : Steady rule)
    (further : Decides (word ++ rest) kind word later → Decides word kind word later)
    (decides : Decides (word ++ rest) kind word (rule :: later)) : Decides word kind word (rule :: later) := by
  cases decides with
  | here made => exact .here (steady.alone word rest kind made)
  | later nothing more => exact .later (steady.absent word rest nothing) (further more)

theorem keywords_alone (made : keywords (word ++ rest) kind word) : keywords word kind word :=
  ⟨made.1, [], (List.append_nil word).symm, nofun⟩

theorem keywords_absent (nothing : ∀ other made, ¬ keywords (word ++ rest) other made)
    (decides : Decides (word ++ rest) kind word (idents :: later)) (other : Token.Kind) (made : List Char) :
    ¬ keywords word other made := by
  rintro ⟨listed, more, rfl, ends⟩
  cases more with
  | cons c tail =>
    refine nothing other made ⟨listed, c :: tail ++ rest, List.append_assoc made (c :: tail) rest, ?_⟩
    exact fun d head => ends d head
  | nil =>
    rw [List.append_nil] at nothing decides
    have follows : ¬ ∀ c ∈ rest.head?, Lexeme.isIdentChar c = false :=
      fun stops => nothing other made ⟨listed, rest, rfl, stops⟩
    cases rest with
    | nil => exact follows nofun
    | cons c tail =>
      -- What follows the keyword denies it, so an identifier goes on there and is the longer match.
      have inside : Lexeme.isIdentChar c = true := by simpa using follows
      cases decides with
      | here ident =>
        have longer := ident.2.longest _ (ident.2.formed.snoc inside) ⟨tail, by simp⟩
        rw [List.length_append, List.length_singleton] at longer
        omega
      | later absent _ =>
        have all : (Token.Kind.keywords.all fun entry => entry.1.toList.head?.any Lexeme.isIdentStart) = true := by decide
        have starts := List.all_eq_true.mp all _ listed
        rw [String.toList_ofList] at starts
        obtain ⟨d, head, start⟩ := (Option.any_eq_true _ _).mp starts
        obtain ⟨letters, rfl⟩ := List.head?_eq_some_iff.mp head
        have name : IdentForm [d] := .name start nofun
        exact absent .ident _ ⟨rfl, identLength_measures.stands name ⟨letters ++ c :: tail, rfl⟩⟩

theorem named_alone (decides : Decides (word ++ rest) kind word [idents, dots, marks, others]) :
    Decides word kind word [idents, dots, marks, others] :=
  idents_steady.before (dots_steady.before (marks_steady.before (others_steady.before nofun))) decides

theorem keyword_alone (decides : Decides (word ++ rest) kind word [keywords, idents, dots, marks, others]) :
    Decides word kind word [keywords, idents, dots, marks, others] := by
  cases decides with
  | here made => exact .here (keywords_alone made)
  | later nothing more => exact .later (keywords_absent nothing more) (named_alone more)

end Rule

theorem Stands.alone (stands : Stands (word ++ rest) kind word) : Stands word kind word :=
  Rule.powers_steady.before (Rule.numbers_steady.before Rule.keyword_alone) stands

end Alone

-- Blanks, line comments with their newline and block comments with all their closers.
-- What such a text is does not depend on what comes after it.
inductive Trivia : List Char → Prop where
  | nil : Trivia []
  | blank (blank : Lexeme.isBlank c = true) (more : Trivia gap) : Trivia (c :: gap)
  | line (single : '\n' ∉ body) (more : Trivia gap) : Trivia ('/' :: '/' :: body ++ '\n' :: gap)
  | block (closes : Closes body) (more : Trivia gap) : Trivia ('/' :: '*' :: body ++ gap)

theorem Trivia.apart (trivia : Trivia gap) (rest : List Char) : Gap gap rest := by
  induction trivia with
  | nil => exact .nil
  | blank blank _ ih => exact .blank blank ih
  | @line body gap single _ ih =>
    have ends : LineEnds ('\n' :: gap ++ rest) := by simp [LineEnds]
    exact .line single ends (.blank rfl ih)
  | block closes _ ih => exact .block closes ih

def Led (gap : List Char) : Prop := ∃ c ∈ gap.head?, Lexeme.isBlank c = true

-- The words in order with such gaps around them, where `behind` says that a word stands
-- before. A gap behind a word is led by a blank, and only the last one may be missing.
inductive Spaced : Bool → List String → List Char → Prop where
  | last (trivia : Trivia gap) (led : behind = true → gap = [] ∨ Led gap) : Spaced behind [] gap
  | word (trivia : Trivia gap) (led : behind = true → Led gap) (more : Spaced true words rest) :
      Spaced behind (word :: words) (gap ++ (word.toList ++ rest))

theorem Led.head (led : Led gap) (rest : List Char) : ∀ c ∈ (gap ++ rest).head?, Lexeme.isBlank c = true := by
  obtain ⟨c, head, blank⟩ := led
  obtain ⟨tail, rfl⟩ := List.head?_eq_some_iff.mp head
  rintro _ ⟨⟩
  exact blank

theorem Spaced.head (spaced : Spaced true words text) : ∀ c ∈ text.head?, Lexeme.isBlank c = true := by
  cases spaced with
  | last _ led =>
    rcases led rfl with rfl | led
    · exact nofun
    · have head := led.head []
      rwa [List.append_nil] at head
  | word _ led _ => exact (led rfl).head _

-- A token that is read as it is when nothing follows it.
structure Token.Solid (token : Token) : Prop where
  stands : Stands token.text.toList token.kind token.text.toList
  shut : ¬ OpensGap token.text.toList

theorem OpensGap.append (opens : OpensGap front) (rest : List Char) : OpensGap (front ++ rest) := by
  rcases opens with ⟨c, head, blank⟩ | slashes | opener
  · obtain ⟨tail, rfl⟩ := List.head?_eq_some_iff.mp head
    exact .inl ⟨c, rfl, blank⟩
  · exact .inr (.inl (slashes.trans (List.prefix_append front rest)))
  · exact .inr (.inr (opener.trans (List.prefix_append front rest)))

theorem laid_words (laid : Laid passed text tokens) :
    ∃ words last, tokens = words ++ [Token.endAt last] ∧ ∀ token ∈ words, token.Solid := by
  induction laid with
  | stop _ => exact ⟨[], _, rfl, nofun⟩
  | @token gap word rest kind passed tokens _ shut stands _ ih =>
    obtain ⟨words, last, rfl, solid⟩ := ih
    refine ⟨_ :: words, last, rfl, List.forall_mem_cons.mpr ⟨⟨?_, ?_⟩, solid⟩⟩
    · rw [String.toList_ofList]
      exact stands.alone
    · rw [String.toList_ofList]
      exact fun opens => shut (opens.append rest)

theorem spaced_laid (spaced : Spaced behind (words.map Token.text) text) (solid : ∀ token ∈ words, token.Solid)
    (passed : List Char) : ∃ others last, Laid passed text (others ++ [Token.endAt last]) ∧ SameTexts words others := by
  induction words generalizing behind text passed with
  | nil =>
    cases spaced with
    | last trivia _ => exact ⟨[], _, .stop (trivia.apart []), rfl⟩
  | cons token words ih =>
    obtain ⟨head, solid⟩ := List.forall_mem_cons.mp solid
    cases spaced with
    | @word gap _ _ rest _ trivia _ more =>
      obtain ⟨stands, shut⟩ := head.stands.before_blank head.shut more.head
      obtain ⟨others, last, laid, same⟩ := ih more solid (passed ++ gap ++ token.text.toList)
      refine ⟨_ :: others, last, .token (trivia.apart _) shut stands laid, ?_⟩
      simpa [SameTexts] using same

theorem joined_spaced (trivia : Trivia gap) (led : behind = true → Led gap) (word : String) (words : List String) :
    Spaced behind (word :: words) (gap ++ (" ".intercalate (word :: words)).toList) := by
  have blank : Trivia [' '] := .blank rfl .nil
  induction words generalizing behind gap word with
  | nil =>
    have single : (" ".intercalate [word]).toList = word.toList ++ [] := by simp
    rw [single]
    exact .word trivia led (.last .nil fun _ => .inl rfl)
  | cons next words ih =>
    have joined : (" ".intercalate (word :: next :: words)).toList =
        word.toList ++ ([' '] ++ (" ".intercalate (next :: words)).toList) := by simp
    rw [joined]
    exact .word trivia led (ih blank (fun _ => ⟨' ', rfl, rfl⟩) next)

-- The text is read as the same kinds and texts, on whatever lines.
def ReadAs (tokens : List Token) (text : String) : Prop :=
  ∃ others, tokenize text = .ok others ∧ SameTexts tokens others

-- Blanks and comments do nothing but keep tokens apart: however the tokens of a source are
-- written out again, they are read as they were.
theorem tokenize_respaced (read : tokenize source = .ok tokens) :
    ∃ words last, tokens = words ++ [Token.endAt last] ∧
      (∀ text : String, Spaced false (words.map Token.text) text.toList → ReadAs tokens text) ∧
      ReadAs tokens (" ".intercalate (words.map Token.text)) := by
  obtain ⟨words, last, rfl, solid⟩ := laid_words (tokenize_laid read)
  have respaced (text : String) (spaced : Spaced false (words.map Token.text) text.toList) :
      ReadAs (words ++ [Token.endAt last]) text := by
    obtain ⟨others, final, laid, same⟩ := spaced_laid spaced solid []
    refine ⟨_, tokenize_scanned laid, ?_⟩
    simpa [SameTexts, Token.endAt] using same
  refine ⟨words, last, rfl, respaced, respaced _ ?_⟩
  cases words with
  | nil => exact .last .nil fun behind => by cases behind
  | cons token words =>
    exact joined_spaced .nil (fun behind => by cases behind) token.text (words.map Token.text)

def cutOff : List Token :=
  [⟨.ident, "digitally", 1⟩, ⟨.minus, "-", 1⟩, ⟨.ident, "signedx", 1⟩, ⟨.unknown, "/", 1⟩, ⟨.power, "2^8-1", 1⟩,
   .endAt 1]

theorem tokenize_respaced_cut : tokenize "digitally-signedx/2^8-1" = .ok cutOff ∧
    ∃ words last, cutOff = words ++ [Token.endAt last] ∧
      (∀ text : String, Spaced false (words.map Token.text) text.toList → ReadAs cutOff text) ∧
      ReadAs cutOff (" ".intercalate (words.map Token.text)) := by
  have read : tokenize "digitally-signedx/2^8-1" = .ok cutOff := by decide +kernel
  exact ⟨read, tokenize_respaced read⟩

end WireFormat
