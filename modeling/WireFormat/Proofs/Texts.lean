import WireFormat.Proofs.Respaced

namespace WireFormat

-- What the texts of tokens are made of.

-- The characters of which a text may have any number.
def isWordChar (c : Char) : Bool := Lexeme.isIdentChar c || c = '^' || c = '-'

-- Every other character is a text alone, but for two dots.
inductive Shaped : List Char → Prop where
  | word (some : word ≠ []) (inside : ∀ c ∈ word, isWordChar c = true) : Shaped word
  | dots : Shaped ['.', '.']
  | mark (c : Char) : Shaped [c]

section Forms

theorem digit_word (digit : c.isDigit = true) : isWordChar c = true := by
  simp [isWordChar, Lexeme.isIdentChar, Char.isAlphanum, digit]

theorem letter_word (letter : c.isAlpha = true) : isWordChar c = true := by
  simp [isWordChar, Lexeme.isIdentChar, Char.isAlphanum, letter]

theorem hex_word (hex : Lexeme.isHexDigit c = true) : isWordChar c = true := by
  simp only [Lexeme.isHexDigit, Bool.or_eq_true, Bool.and_eq_true, decide_eq_true_eq] at hex
  rcases hex with (digit | lower) | upper
  · exact digit_word digit
  · have within : 'f' ≤ 'z' := by decide
    have letter : c.isLower = true :=
      Bool.and_eq_true_iff.mpr ⟨decide_eq_true lower.1, decide_eq_true (UInt32.le_trans lower.2 within)⟩
    exact letter_word (Bool.or_eq_true_iff.mpr (.inr letter))
  · have within : 'F' ≤ 'Z' := by decide
    have letter : c.isUpper = true := decide_eq_true ⟨upper.1, UInt32.le_trans upper.2 within⟩
    exact letter_word (Bool.or_eq_true_iff.mpr (.inl letter))

theorem ident_word (inside : Lexeme.isIdentChar c = true) : isWordChar c = true := by
  simp [isWordChar, inside]

theorem start_word (start : Lexeme.isIdentStart c = true) : isWordChar c = true := by
  simp only [Lexeme.isIdentStart, Bool.or_eq_true, decide_eq_true_eq] at start
  rcases start with letter | rfl
  · exact letter_word letter
  · rfl

theorem Digits.wordy (digits : Digits word) : ∀ c ∈ word, isWordChar c = true :=
  fun c member => digit_word (digits.2 c member)

theorem PowerForm.wordy (formed : PowerForm word) : ∀ c ∈ word, isWordChar c = true := by
  cases formed with
  | plain base exponent =>
    exact List.forall_mem_append.mpr ⟨base.wordy, List.forall_mem_cons.mpr ⟨rfl, exponent.wordy⟩⟩
  | less base exponent taken =>
    refine List.forall_mem_append.mpr ⟨base.wordy, List.forall_mem_cons.mpr ⟨rfl, ?_⟩⟩
    exact List.forall_mem_append.mpr ⟨exponent.wordy, List.forall_mem_cons.mpr ⟨rfl, taken.wordy⟩⟩

theorem NumberForm.wordy (formed : NumberForm word) : ∀ c ∈ word, isWordChar c = true := by
  cases formed with
  | hex marker _ inside =>
    have digits := fun c member => hex_word (inside c member)
    refine List.forall_mem_cons.mpr ⟨rfl, List.forall_mem_cons.mpr ⟨?_, digits⟩⟩
    rcases marker with rfl | rfl <;> rfl
  | decimal digits => exact digits.wordy

theorem IdentForm.wordy {word : List Char} (formed : IdentForm word) : ∀ c ∈ word, isWordChar c = true := by
  obtain ⟨start, inside⟩ := formed
  exact List.forall_mem_cons.mpr ⟨start_word start, fun c member => ident_word (inside c member)⟩

theorem keyword_shaped (listed : (String.ofList word, kind) ∈ Token.Kind.keywords) : Shaped word := by
  have all : ∀ entry ∈ Token.Kind.keywords, entry.1.toList ≠ [] ∧ entry.1.toList.all isWordChar = true := by decide
  obtain ⟨some, inside⟩ := all _ listed
  rw [String.toList_ofList] at some inside
  exact .word some (List.all_eq_true.mp inside)

theorem Rule.order_shaped : ∀ rule ∈ order, ∀ text kind word, rule text kind word → Shaped word := by
  simp only [order, List.forall_mem_cons]
  refine ⟨?_, ?_, ?_, ?_, ?_, ?_, ?_, by simp⟩
  · exact fun _ _ _ made => .word (powerLength_measures.nonempty _ made.2.formed) made.2.formed.wordy
  · exact fun _ _ _ made => .word (numberLength_measures.nonempty _ made.2.formed) made.2.formed.wordy
  · exact fun _ _ _ made => keyword_shaped made.1
  · exact fun _ _ _ made => .word (identLength_measures.nonempty _ made.2.formed) made.2.formed.wordy
  · rintro text _ _ ⟨_, rfl, _⟩
    exact .dots
  · rintro text _ _ ⟨c, rfl, _⟩
    exact .mark c
  · rintro text _ _ ⟨_, c, rfl, _⟩
    exact .mark c

theorem Stands.shaped (stands : Stands text kind word) : Shaped word := by
  obtain ⟨rule, member, made⟩ := Rule.Decides.rule stands
  exact Rule.order_shaped rule member text kind word made

end Forms

theorem cut_unique {stop : α} {front other rest more : List α} (one : stop ∉ front) (two : stop ∉ other)
    (same : front ++ stop :: rest = other ++ stop :: more) : front = other ∧ rest = more := by
  induction front generalizing other with
  | nil =>
    cases other with
    | nil => exact ⟨rfl, (List.cons.inj same).2⟩
    | cons head tail =>
      obtain ⟨rfl, _⟩ := List.cons.inj same
      exact absurd (.head _) two
  | cons head tail ih =>
    cases other with
    | nil =>
      obtain ⟨rfl, _⟩ := List.cons.inj same
      exact absurd (.head _) one
    | cons first others =>
      obtain ⟨rfl, later⟩ := List.cons.inj same
      obtain ⟨rfl, rest⟩ := ih (fun member => one (.tail _ member)) (fun member => two (.tail _ member)) later
      exact ⟨rfl, rest⟩

def Plain (text : String) : Prop := '\n' ∉ text.toList

-- A text whose end is seen from the two apostrophes after it.
def Quotable (text : String) : Prop := text.toList = ['\x27'] ∨ '\x27' ∉ text.toList

instance (text : String) : Decidable (Plain text) := inferInstanceAs (Decidable (¬ _))

theorem Token.Solid.plain {token : Token} (solid : token.Solid) : Plain token.text := by
  have stands := solid.stands
  have shut := solid.shut
  rw [← List.append_nil token.text.toList] at shut
  have whole : Stands (token.text.toList ++ []) token.kind token.text.toList := by rwa [List.append_nil]
  exact whole.single shut

theorem Token.Solid.quotable {token : Token} (solid : token.Solid) : Quotable token.text := by
  have shaped := solid.stands.shaped
  unfold Quotable
  generalize token.text.toList = word at shaped
  cases shaped with
  | word _ inside => exact .inr fun member => Bool.noConfusion (inside _ member)
  | dots => exact .inr (by decide)
  | mark c =>
    by_cases quote : c = '\x27'
    · exact .inl (by rw [quote])
    · exact .inr (by simpa using Ne.symm quote)

theorem tokenize_texts (cut : tokenize source = .ok tokens) :
    ∀ token ∈ tokens, Plain token.text ∧ Quotable token.text := by
  obtain ⟨words, last, rfl, solid⟩ := laid_words (tokenize_laid cut)
  refine List.forall_mem_append.mpr ⟨fun token member => ?_, List.forall_mem_singleton.mpr ⟨?_, .inr ?_⟩⟩
  · exact ⟨(solid token member).plain, (solid token member).quotable⟩
  · exact List.not_mem_nil
  · exact List.not_mem_nil

end WireFormat
