import WireFormat.Proofs.Positional
import WireFormat.Proofs.Respaced

namespace WireFormat

-- Integer literals are exact up to the limit of a word, and beyond it they fail.

def isHexMark (c : Char) : Prop := c = 'x' ∨ c = 'X'

-- A numeral is hexadecimal after its mark, and decimal where no mark stands.
inductive Numeral : List Char → Nat → Prop where
  | hex (mark : isHexMark x) (signed : Radix.sixteen.Signed rest number) : Numeral ('0' :: x :: rest) number
  | decimal (unmarked : ∀ x rest, text = '0' :: x :: rest → ¬ isHexMark x)
      (signed : Radix.ten.Signed text number) : Numeral text number

theorem numeral_marked (mark : isHexMark x) : Numeral ('0' :: x :: rest) number ↔ Radix.sixteen.Signed rest number := by
  constructor
  · intro numeral
    cases numeral with
    | hex _ signed => exact signed
    | decimal unmarked _ => exact absurd mark (unmarked x rest rfl)
  · exact .hex mark

theorem numeral_unmarked (unmarked : ∀ x rest, text = '0' :: x :: rest → ¬ isHexMark x) :
    Numeral text number ↔ Radix.ten.Signed text number := by
  constructor
  · intro numeral
    cases numeral with
    | hex mark _ => exact absurd mark (unmarked _ _ rfl)
    | decimal _ signed => exact signed
  · exact .decimal unmarked

theorem integer_exact (text : String) (value : UInt64) :
    integer? text = some value ↔ Numeral text.toList value.toNat := by
  unfold integer?
  split
  · rename_i split
    rw [split, numeral_marked (.inl rfl), Radix.numeral_exact]
  · rename_i split
    rw [split, numeral_marked (.inr rfl), Radix.numeral_exact]
  · rename_i lower upper
    rw [numeral_unmarked, Radix.numeral_exact]
    rintro x rest same (rfl | rfl)
    · exact lower rest same
    · exact upper rest same

theorem Radix.Signed.unique {radix : Radix} (one : radix.Signed text number) (other : radix.Signed text another) :
    number = another := by
  by_cases plain : ∀ rest, text ≠ '+' :: rest
  · exact ((signed_plain plain).mp one).unique ((signed_plain plain).mp other)
  · obtain ⟨rest, rfl⟩ : ∃ rest, text = '+' :: rest := by simpa using plain
    exact (signed_plus.mp one).unique (signed_plus.mp other)

theorem Numeral.unique (one : Numeral text number) (other : Numeral text another) : number = another := by
  cases one with
  | hex mark signed => exact signed.unique ((numeral_marked mark).mp other)
  | decimal unmarked signed => exact signed.unique ((numeral_unmarked unmarked).mp other)

theorem integer_absent (text : String) :
    integer? text = none ↔ ∀ number, Numeral text.toList number → 2 ^ 64 ≤ number := by
  constructor
  · intro absent number numeral
    by_contra within
    have value : (UInt64.ofNat number).toNat = number := UInt64.toNat_ofNat_of_lt' (Nat.lt_of_not_le within)
    have read := (integer_exact text (.ofNat number)).mpr (by rwa [value])
    rw [absent] at read
    cases read
  · intro beyond
    cases read : integer? text with
    | none => rfl
    | some value => exact absurd value.toNat_lt (Nat.not_lt_of_le (beyond _ ((integer_exact text value).mp read)))

theorem literal_exact (text : String) (value : UInt64) :
    evaluateLiteral text = ⟨value, none⟩ ↔ integer? text = some value := by
  unfold evaluateLiteral
  cases integer? text <;> simp [Evaluated.exactly, Evaluated.failed]

theorem literal_failed (text : String) :
    evaluateLiteral text = ⟨0, some .numberOutOfRange⟩ ↔ integer? text = none := by
  unfold evaluateLiteral
  cases integer? text <;> simp [Evaluated.exactly, Evaluated.failed]

theorem literal_fails (text : String) : (evaluateLiteral text).error ≠ none ↔ integer? text = none := by
  unfold evaluateLiteral
  cases integer? text <;> simp [Evaluated.exactly, Evaluated.failed]

section Tokens

theorem Rule.order_formed : ∀ rule ∈ order, ∀ text kind word, rule text kind word →
    (kind = .number → NumberForm word) ∧ (kind = .power → PowerForm word) := by
  simp only [order, List.forall_mem_cons]
  refine ⟨?_, ?_, ?_, ?_, ?_, ?_, ?_, by simp⟩
  · rintro _ _ _ ⟨rfl, longest⟩
    exact ⟨by rintro ⟨⟩, fun _ => longest.formed⟩
  · rintro _ _ _ ⟨rfl, longest⟩
    exact ⟨fun _ => longest.formed, by rintro ⟨⟩⟩
  · rintro _ kind word ⟨listed, _⟩
    have all : ∀ entry ∈ Token.Kind.keywords, entry.2 ≠ .number ∧ entry.2 ≠ .power := by decide
    exact ⟨fun number => absurd number (all _ listed).1, fun power => absurd power (all _ listed).2⟩
  · rintro _ _ _ ⟨rfl, _⟩
    exact ⟨by rintro ⟨⟩, by rintro ⟨⟩⟩
  · rintro _ _ _ ⟨rfl, _⟩
    exact ⟨by rintro ⟨⟩, by rintro ⟨⟩⟩
  · rintro _ kind _ ⟨c, rfl, _, listed⟩
    have all : ∀ entry ∈ Token.Kind.punctuation, entry.2 ≠ .number ∧ entry.2 ≠ .power := by decide
    exact ⟨fun number => absurd number (all _ listed).1, fun power => absurd power (all _ listed).2⟩
  · rintro _ _ _ ⟨rfl, _⟩
    exact ⟨by rintro ⟨⟩, by rintro ⟨⟩⟩

theorem tokenize_formed (cut : tokenize source = .ok tokens) (member : token ∈ tokens) :
    (token.kind = .number → NumberForm token.text.toList) ∧ (token.kind = .power → PowerForm token.text.toList) := by
  obtain ⟨words, last, rfl, solid⟩ := laid_words (tokenize_laid cut)
  rcases List.mem_append.mp member with word | ended
  · obtain ⟨rule, listed, made⟩ := Rule.Decides.rule (solid token word).stands
    exact Rule.order_formed rule listed _ _ _ made
  · obtain rfl := List.mem_singleton.mp ended
    exact ⟨nofun, nofun⟩

theorem Radix.writes_some {radix : Radix} (some : word ≠ []) (all : ∀ c ∈ word, ∃ number, radix.Figure c number) :
    ∃ number, radix.Writes word number := by
  have figures : ∃ figures, List.Forall₂ radix.Figure word figures := by
    clear some
    induction word with
    | nil => exact ⟨[], .nil⟩
    | cons c rest ih =>
      obtain ⟨⟨figure, head⟩, all⟩ := List.forall_mem_cons.mp all
      obtain ⟨figures, rest⟩ := ih all
      exact ⟨figure :: figures, .cons head rest⟩
  obtain ⟨figures, given⟩ := figures
  exact ⟨_, some, figures, given, rfl⟩

theorem digit_decimal (digit : c.isDigit = true) : ∃ number, Radix.ten.Figure c number := by
  have range : '0' ≤ c ∧ c ≤ '9' := by
    simp only [Char.isDigit, Bool.and_eq_true, decide_eq_true_eq] at digit
    exact digit
  exact ⟨_, Radix.digit_exact.mp (if_pos range)⟩

theorem digit_hex (digit : Lexeme.isHexDigit c = true) : ∃ number, Radix.sixteen.Figure c number := by
  simp only [Lexeme.isHexDigit, Char.isDigit, Bool.or_eq_true, Bool.and_eq_true, decide_eq_true_eq] at digit
  have found : ∃ number, Radix.sixteen.digit? c = some number := by
    unfold Radix.digit?
    split
    · exact ⟨_, rfl⟩
    · rename_i decimal
      split
      · exact ⟨_, rfl⟩
      · rename_i lower
        have upper : 'A' ≤ c ∧ c ≤ 'F' := (digit.resolve_left fun other =>
          other.elim decimal fun letter => lower ⟨rfl, letter⟩)
        exact ⟨_, if_pos ⟨rfl, upper⟩⟩
  exact found.imp fun _ => Radix.digit_exact.mp

theorem Digits.writes (digits : Digits word) : ∃ number, Radix.ten.Writes word number :=
  Radix.writes_some digits.1 fun c member => digit_decimal (digits.2 c member)

theorem NumberForm.numeral (formed : NumberForm word) : ∃ number, Numeral word number := by
  cases formed with
  | hex mark some inside =>
    obtain ⟨number, writes⟩ := Radix.writes_some some fun c member => digit_hex (inside c member)
    exact ⟨number, .hex mark ⟨_, .inl rfl, writes⟩⟩
  | decimal digits =>
    obtain ⟨number, writes⟩ := digits.writes
    refine ⟨number, .decimal ?_ ⟨word, .inl rfl, writes⟩⟩
    rintro x rest rfl mark
    have digit := digits.2 x (by simp)
    rcases mark with rfl | rfl <;> cases digit

end Tokens

-- A literal has the number that it writes by place value, up to the limit of a word and
-- whatever its base, its letters and its leading zeros; all else is out of range. To read it
-- digit by digit in words, and give up where one would overflow, comes to the same. A number
-- token always writes one number, so it fails at the limit only.
theorem literals_exact :
    (∀ text value, (integer? text = some value ↔ Numeral text.toList value.toNat) ∧
      (evaluateLiteral text = ⟨value, none⟩ ↔ Numeral text.toList value.toNat)) ∧
    (∀ text, (integer? text = none ↔ ∀ number, Numeral text.toList number → 2 ^ 64 ≤ number) ∧
      (evaluateLiteral text = ⟨0, some .numberOutOfRange⟩ ↔ integer? text = none)) ∧
    (∀ radix text, Radix.wordNumeral? radix text = radix.numeral? text) ∧
    ∀ source tokens, tokenize source = .ok tokens → ∀ token ∈ tokens, token.kind = .number →
      ∃ number, (∀ other, Numeral token.text.toList other ↔ other = number) ∧
        ((evaluateLiteral token.text).error ≠ none ↔ 2 ^ 64 ≤ number) := by
  refine ⟨fun text value => ⟨integer_exact text value, ?_⟩,
    fun text => ⟨integer_absent text, literal_failed text⟩, Radix.numeral_words, ?_⟩
  · rw [literal_exact, integer_exact]
  · intro source tokens cut token member kind
    obtain ⟨number, numeral⟩ := ((tokenize_formed cut member).1 kind).numeral
    have only (other : Nat) : Numeral token.text.toList other ↔ other = number :=
      ⟨fun another => another.unique numeral, fun same => same ▸ numeral⟩
    refine ⟨number, only, ?_⟩
    rw [literal_fails, integer_absent]
    simp only [only, forall_eq]

def pastLimit : Token := ⟨.number, "0x00010000000000000000", 1⟩

theorem literals_exact_past : tokenize "0x00010000000000000000" = .ok [pastLimit, .endAt 1] ∧
    (∃ number, (∀ other, Numeral pastLimit.text.toList other ↔ other = number) ∧
      ((evaluateLiteral pastLimit.text).error ≠ none ↔ 2 ^ 64 ≤ number)) ∧
    (evaluateLiteral pastLimit.text).error ≠ none := by
  have cut : tokenize "0x00010000000000000000" = .ok [pastLimit, .endAt 1] := by decide +kernel
  exact ⟨cut, literals_exact.2.2.2 _ _ cut pastLimit (by simp) rfl, by decide⟩

end WireFormat
