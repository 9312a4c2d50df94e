import Mathlib.Data.Nat.Digits.Defs
import Mathlib.Tactic.Ring
import WireFormat.Numeral

namespace WireFormat

-- What numerals say by place value, without a machine's limit.

def lowerFigures : List Char := "0123456789abcdef".toList
def upperFigures : List Char := "0123456789ABCDEF".toList

def Radix.Figure (radix : Radix) (c : Char) (number : Nat) : Prop :=
  number < radix.size ∧ (lowerFigures[number]? = some c ∨ upperFigures[number]? = some c)

-- Figures, at least one, and the number they write; the last one counts units.
def Radix.Writes (radix : Radix) (word : List Char) (number : Nat) : Prop :=
  word ≠ [] ∧ ∃ figures, List.Forall₂ radix.Figure word figures ∧ number = Nat.ofDigits radix.size figures.reverse

-- One plus sign may stand before the figures.
def Radix.Signed (radix : Radix) (text : List Char) (number : Nat) : Prop :=
  ∃ word, (text = word ∨ text = '+' :: word) ∧ radix.Writes word number

namespace Radix

variable {radix : Radix}

theorem figure_digit (figure : radix.Figure c number) : radix.digit? c = some number := by
  have ten : ∀ number < 10, lowerFigures[number]?.bind Radix.ten.digit? = some number ∧
      upperFigures[number]?.bind Radix.ten.digit? = some number := by decide
  have sixteen : ∀ number < 16, lowerFigures[number]?.bind Radix.sixteen.digit? = some number ∧
      upperFigures[number]?.bind Radix.sixteen.digit? = some number := by decide
  obtain ⟨below, listed⟩ := figure
  have both : lowerFigures[number]?.bind radix.digit? = some number ∧
      upperFigures[number]?.bind radix.digit? = some number := by
    cases radix with
    | ten => exact ten number below
    | sixteen => exact sixteen number below
  rcases listed with lower | upper
  · rw [lower] at both
    exact both.1
  · rw [upper] at both
    exact both.2

theorem range_listed (figures : List Char) {first last : Char} (start : Nat)
    (all : ∀ k ≤ last.toNat - first.toNat, figures[k + start]? = some (Char.ofNat (k + first.toNat)))
    (low : first ≤ c) (high : c ≤ last) :
    c.toNat - first.toNat ≤ last.toNat - first.toNat ∧ figures[c.toNat - first.toNat + start]? = some c := by
  have above : first.toNat ≤ c.toNat := UInt32.le_iff_toNat_le.mp low
  have below : c.toNat ≤ last.toNat := UInt32.le_iff_toNat_le.mp high
  have within : c.toNat - first.toNat ≤ last.toNat - first.toNat := by omega
  refine ⟨within, ?_⟩
  rw [all _ within, Nat.sub_add_cancel above, Char.ofNat_toNat]

theorem digit_figure (found : radix.digit? c = some number) : radix.Figure c number := by
  unfold digit? at found
  split at found
  · rename_i range
    obtain ⟨within, listed⟩ := range_listed lowerFigures 0 (by decide) range.1 range.2
    obtain rfl := Option.some.inj found
    refine ⟨?_, .inl listed⟩
    cases radix <;> exact Nat.lt_of_le_of_lt within (by decide)
  · split at found
    · rename_i range
      obtain ⟨rfl, low, high⟩ := range
      obtain ⟨within, listed⟩ := range_listed lowerFigures 10 (by decide) low high
      obtain rfl := Option.some.inj found
      exact ⟨Nat.add_lt_add_right (Nat.lt_of_le_of_lt within (by decide)) 10, .inl listed⟩
    · split at found
      · rename_i range
        obtain ⟨rfl, low, high⟩ := range
        obtain ⟨within, listed⟩ := range_listed upperFigures 10 (by decide) low high
        obtain rfl := Option.some.inj found
        exact ⟨Nat.add_lt_add_right (Nat.lt_of_le_of_lt within (by decide)) 10, .inr listed⟩
      · cases found

theorem digit_exact : radix.digit? c = some number ↔ radix.Figure c number :=
  ⟨digit_figure, figure_digit⟩

theorem ofDigits_first (base figure : Nat) (figures : List Nat) :
    Nat.ofDigits base (figure :: figures).reverse =
      figure * base ^ figures.length + Nat.ofDigits base figures.reverse := by
  rw [List.reverse_cons, Nat.ofDigits_append, Nat.ofDigits_singleton, List.length_reverse]
  ring

theorem digits_exact (before : Nat) (word : List Char) : radix.digits? before word = some number ↔
    ∃ figures, List.Forall₂ radix.Figure word figures ∧
      number = before * radix.size ^ figures.length + Nat.ofDigits radix.size figures.reverse := by
  induction word generalizing before with
  | nil =>
    rw [digits?, Option.some.injEq]
    constructor
    · rintro rfl
      exact ⟨[], .nil, by simp⟩
    · rintro ⟨_, ⟨⟩, rfl⟩
      simp
  | cons c rest ih =>
    rw [digits?]
    constructor
    · intro read
      cases digit : radix.digit? c with
      | none => simp [digit] at read
      | some figure =>
        simp only [digit] at read
        obtain ⟨figures, all, rfl⟩ := (ih _).mp read
        refine ⟨figure :: figures, .cons (digit_exact.mp digit) all, ?_⟩
        rw [ofDigits_first, List.length_cons]
        ring
    · rintro ⟨_, all, rfl⟩
      cases all with
      | @cons _ figure _ figures digit all =>
        simp only [digit_exact.mpr digit]
        refine (ih _).mpr ⟨figures, all, ?_⟩
        rw [ofDigits_first, List.length_cons]
        ring

section Words

-- The same reading in words of 64 bits, given up at the first step that no word can hold.
def times? (value factor : UInt64) : Option UInt64 :=
  if value.toNat * factor.toNat < UInt64.size then some (value * factor) else none

def plus? (value more : UInt64) : Option UInt64 :=
  if value.toNat + more.toNat < UInt64.size then some (value + more) else none

def wordDigits? (radix : Radix) (value : UInt64) : List Char → Option UInt64
  | [] => some value
  | c :: rest =>
    match radix.digit? c with
    | none => none
    | some digit =>
      match (times? value (.ofNat radix.size)).bind (plus? · (.ofNat digit)) with
      | none => none
      | some next => radix.wordDigits? next rest

theorem word_step (value : UInt64) (below : digit < radix.size) :
    (times? value (.ofNat radix.size)).bind (plus? · (.ofNat digit)) =
      if value.toNat * radix.size + digit < UInt64.size then some (.ofNat (value.toNat * radix.size + digit))
      else none := by
  have small : radix.size < UInt64.size := by cases radix <;> decide
  have factor : (UInt64.ofNat radix.size).toNat = radix.size := UInt64.toNat_ofNat_of_lt' small
  have more : (UInt64.ofNat digit).toNat = digit := UInt64.toNat_ofNat_of_lt' (Nat.lt_trans below small)
  rw [times?, factor]
  by_cases fits : value.toNat * radix.size < UInt64.size
  · have product : (value * .ofNat radix.size).toNat = value.toNat * radix.size := by
      rw [UInt64.toNat_mul, factor]
      exact Nat.mod_eq_of_lt fits
    rw [if_pos fits, Option.bind_some, plus?, product, more, ← product]
    refine ite_congr rfl (fun _ => ?_) fun _ => rfl
    rw [UInt64.ofNat_add, UInt64.ofNat_toNat]
  · have beyond : ¬ value.toNat * radix.size + digit < UInt64.size :=
      fun less => fits (Nat.lt_of_le_of_lt (Nat.le_add_right _ _) less)
    rw [if_neg fits, if_neg beyond, Option.bind_none]

theorem digits_least (read : radix.digits? before word = some number) : before ≤ number := by
  obtain ⟨figures, _, rfl⟩ := (digits_exact before word).mp read
  have positive : 0 < radix.size := by cases radix <;> decide
  exact Nat.le_add_right_of_le (Nat.le_mul_of_pos_right _ (Nat.pow_pos positive))

-- What does not fit on the way does not fit at the end.
theorem wordDigits_exact (value : UInt64) (word : List Char) :
    radix.wordDigits? value word = some result ↔ radix.digits? value.toNat word = some result.toNat := by
  induction word generalizing value with
  | nil => rw [wordDigits?, digits?, Option.some_inj, Option.some_inj, UInt64.toNat_inj]
  | cons c rest ih =>
    rw [wordDigits?, digits?]
    cases stands : radix.digit? c with
    | none => simp only [reduceCtorEq]
    | some digit =>
      have below := (digit_exact.mp stands).1
      simp only [word_step value below]
      by_cases fits : value.toNat * radix.size + digit < UInt64.size
      · rw [if_pos fits]
        exact (ih _).trans (by rw [UInt64.toNat_ofNat_of_lt' fits])
      · rw [if_neg fits]
        refine iff_of_false nofun fun read => fits ?_
        exact Nat.lt_of_le_of_lt (digits_least read) result.toNat_lt

def unsign : List Char → List Char
  | '+' :: rest => rest
  | text => text

def wordNumeral? (radix : Radix) (text : List Char) : Option UInt64 :=
  if (unsign text).isEmpty then none else radix.wordDigits? 0 (unsign text)

theorem digits_fit (word : List Char) : radix.wordDigits? 0 word =
    match radix.digits? 0 word with
    | none => none
    | some value => if value < UInt64.size then some (.ofNat value) else none := by
  refine Option.ext fun value => ?_
  rw [wordDigits_exact, UInt64.toNat_zero]
  cases radix.digits? 0 word with
  | none => simp only [reduceCtorEq]
  | some number =>
    simp only [Option.some_inj]
    constructor
    · rintro rfl
      rw [if_pos value.toNat_lt, UInt64.ofNat_toNat]
    · intro read
      split at read
      · rename_i fits
        rw [← Option.some_inj.mp read, UInt64.toNat_ofNat_of_lt' fits]
      · cases read

theorem unsign_plain (plain : ∀ rest, text ≠ '+' :: rest) : unsign text = text := by
  unfold unsign
  split
  · exact absurd rfl (plain _)
  · rfl

theorem numeral_words (radix : Radix) (text : List Char) : radix.wordNumeral? text = radix.numeral? text := by
  rw [wordNumeral?, digits_fit]
  by_cases plain : ∀ rest, text ≠ '+' :: rest
  · rw [unsign_plain plain]
    exact (numeral?.eq_2 radix text plain).symm
  · obtain ⟨rest, rfl⟩ : ∃ rest, text = '+' :: rest := by simpa using plain
    exact (numeral?.eq_1 radix rest).symm

end Words

theorem writes_exact : radix.Writes word number ↔ word ≠ [] ∧ radix.digits? 0 word = some number := by
  simp [Writes, digits_exact]

theorem Writes.unique (one : radix.Writes word number) (other : radix.Writes word another) : number = another :=
  Option.some.inj ((writes_exact.mp one).2.symm.trans (writes_exact.mp other).2)

theorem Writes.lacks (writes : radix.Writes word number) (other : radix.digit? c = none) : c ∉ word := by
  obtain ⟨some, figures, all, total⟩ := writes
  clear some total
  induction all with
  | nil => exact List.not_mem_nil
  | cons figure _ ih =>
    simp only [List.mem_cons, not_or]
    refine ⟨?_, ih⟩
    rintro rfl
    rw [digit_exact.mpr figure] at other
    cases other

theorem digit_sign (radix : Radix) : radix.digit? '+' = none := by cases radix <;> rfl

theorem signed_plus : radix.Signed ('+' :: rest) number ↔ radix.Writes rest number := by
  constructor
  · rintro ⟨word, rfl | same, writes⟩
    · exact absurd List.mem_cons_self (writes.lacks (digit_sign radix))
    · rwa [(List.cons.inj same).2]
  · exact fun writes => ⟨rest, .inr rfl, writes⟩

theorem signed_plain (plain : ∀ rest, text ≠ '+' :: rest) : radix.Signed text number ↔ radix.Writes text number := by
  constructor
  · rintro ⟨word, rfl | same, writes⟩
    · exact writes
    · exact absurd same (plain word)
  · exact fun writes => ⟨text, .inl rfl, writes⟩

theorem unsign_writes (text : List Char) : radix.Writes (unsign text) number ↔ radix.Signed text number := by
  by_cases plain : ∀ rest, text ≠ '+' :: rest
  · rw [unsign_plain plain, signed_plain plain]
  · obtain ⟨rest, rfl⟩ : ∃ rest, text = '+' :: rest := by simpa using plain
    exact signed_plus.symm

theorem numeral_exact (radix : Radix) (text : List Char) (value : UInt64) :
    radix.numeral? text = some value ↔ radix.Signed text value.toNat := by
  rw [← numeral_words, wordNumeral?, ← unsign_writes, writes_exact]
  by_cases empty : unsign text = []
  · simp [empty]
  · rw [if_neg (by simpa using empty), and_iff_right empty]
    exact wordDigits_exact 0 _

end Radix

end WireFormat
