import Mathlib.Tactic.Tauto
import WireFormat.Proofs.Literals

namespace WireFormat

-- Power literals come to the power they write, and which error comes first is settled by
-- the exponent alone.

-- What stands before the first caret, from there to the first minus, and after that minus.
structure Raised (text base exponent : List Char) (less : Option (List Char)) : Prop where
  parts : text = base ++ '^' :: (exponent ++ less.elim [] ('-' :: ·))
  caret : '^' ∉ base
  minus : '-' ∉ exponent

-- The powers of two that fill whole bytes, and the numbers one below them.
inductive PowerOf : List Char → Nat → Prop where
  | whole (aligned : e ∈ [0, 8, 16, 24, 32]) (signed : Radix.ten.Signed numeral e) :
      PowerOf ('2' :: '^' :: numeral) (2 ^ e)
  | below (aligned : e ∈ [0, 8, 16, 24, 32]) (signed : Radix.ten.Signed numeral e) :
      PowerOf ('2' :: '^' :: (numeral ++ ['-', '1'])) (2 ^ e - 1)

-- Whatever the base and the subtrahend are, the exponent is no numeral up to 32.
def Unfit (text : List Char) : Prop :=
  ∃ base exponent less, Raised text base exponent less ∧ ∀ e ≤ 32, ¬ Radix.ten.Signed exponent e

section Parts

theorem splitAtFirst_parts (separator : Char) (text : List Char) :
    text = (splitAtFirst separator text).1 ++ (splitAtFirst separator text).2.elim [] (separator :: ·) ∧
      separator ∉ (splitAtFirst separator text).1 := by
  induction text with
  | nil => simp [splitAtFirst]
  | cons c rest ih =>
    rw [splitAtFirst]
    by_cases same : c = separator
    · simp [same]
    · rw [if_neg same]
      obtain ⟨split, absent⟩ := ih
      refine ⟨congrArg (c :: ·) split, ?_⟩
      simpa [Ne.symm same] using absent

theorem splitAtFirst_found (absent : separator ∉ front) (after : Option (List Char)) :
    splitAtFirst separator (front ++ after.elim [] (separator :: ·)) = (front, after) := by
  induction front with
  | nil => cases after <;> simp [splitAtFirst]
  | cons c rest ih =>
    simp only [List.mem_cons, not_or] at absent
    rw [List.cons_append, splitAtFirst, if_neg (Ne.symm absent.1), ih absent.2]

theorem Raised.caret_split (raised : Raised text base exponent less) :
    splitAtFirst '^' text = (base, some (exponent ++ less.elim [] ('-' :: ·))) := by
  rw [raised.parts]
  exact splitAtFirst_found raised.caret (some _)

theorem Raised.minus_split (raised : Raised text base exponent less) :
    splitAtFirst '-' (exponent ++ less.elim [] ('-' :: ·)) = (exponent, less) :=
  splitAtFirst_found raised.minus less

theorem Raised.unique (one : Raised text base exponent less) (other : Raised text front middle back) :
    base = front ∧ exponent = middle ∧ less = back := by
  have caret := one.caret_split.symm.trans other.caret_split
  obtain ⟨rfl, same⟩ := Prod.mk.inj caret
  have minus := one.minus_split
  rw [Option.some.inj same, other.minus_split] at minus
  obtain ⟨rfl, rfl⟩ := Prod.mk.inj minus
  exact ⟨rfl, rfl, rfl⟩

theorem raised_some (caret : splitAtFirst '^' text = (base, some rest)) :
    ∃ exponent less, Raised text base exponent less := by
  have outer := splitAtFirst_parts '^' text
  have inner := splitAtFirst_parts '-' rest
  rw [caret] at outer
  generalize splitAtFirst '-' rest = parts at inner
  obtain ⟨rfl, minus⟩ := inner
  exact ⟨parts.1, parts.2, outer.1, outer.2, minus⟩

end Parts

section Evaluation

variable {text : String} {base exponent : List Char} {less : Option (List Char)}

theorem word_small (within : e ≤ 32) : (UInt64.ofNat e).toNat = e :=
  UInt64.toNat_ofNat_of_lt' (Nat.lt_of_le_of_lt within (by decide))

theorem power_lt (within : e ≤ 32) : 2 ^ e < UInt64.size :=
  Nat.lt_of_le_of_lt (Nat.pow_le_pow_right (by decide) within) (by decide)

theorem shift_exact (within : e ≤ 32) : (1 : UInt64) <<< UInt64.ofNat e = .ofNat (2 ^ e) := by
  rw [← UInt64.toNat_inj, UInt64.toNat_shiftLeft, word_small within, UInt64.toNat_ofNat_of_lt' (power_lt within),
    Nat.mod_eq_of_lt (Nat.lt_of_le_of_lt within (by decide)), UInt64.toNat_one, Nat.one_shiftLeft,
    Nat.mod_eq_of_lt (power_lt within)]

theorem less_exact (within : e ≤ 32) : (1 : UInt64) <<< UInt64.ofNat e - 1 = .ofNat (2 ^ e - 1) := by
  rw [shift_exact within, UInt64.ofNat_sub Nat.one_le_two_pow]
  rfl

theorem power_plain (plain : ∀ base exponent less, ¬ Raised text.toList base exponent less) :
    evaluatePower text = ⟨0, some .badExponent⟩ := by
  unfold evaluatePower
  cases caret : splitAtFirst '^' text.toList with
  | mk base rest =>
    cases rest with
    | none => rfl
    | some rest =>
      obtain ⟨exponent, less, raised⟩ := raised_some caret
      exact absurd raised (plain base exponent less)

theorem power_unfit (raised : Raised text.toList base exponent less)
    (unfit : ∀ e ≤ 32, ¬ Radix.ten.Signed exponent e) : evaluatePower text = ⟨0, some .exponentOutOfRange⟩ := by
  unfold evaluatePower
  simp only [raised.caret_split, raised.minus_split]
  cases read : Radix.ten.numeral? exponent with
  | none => rfl
  | some e =>
    have signed := (Radix.numeral_exact _ _ _).mp read
    have beyond : maxExponent < e := UInt64.lt_iff_toNat_lt.mpr (Nat.lt_of_not_le fun within => unfit _ within signed)
    simp [beyond, Evaluated.failed]

-- What is left to decide once the exponent is known to fit.
def Evaluated.aligned (base : List Char) (e : Nat) (less : Option (List Char)) : Evaluated :=
  if base = ['2'] ∧ e ∈ [0, 8, 16, 24, 32] then
    match less with
    | none => ⟨.ofNat (2 ^ e), none⟩
    | some ['1'] => ⟨.ofNat (2 ^ e - 1), none⟩
    | some _ => ⟨0, some .badExponent⟩
  else ⟨0, some .badExponent⟩

theorem power_fit (raised : Raised text.toList base exponent less) (signed : Radix.ten.Signed exponent e)
    (within : e ≤ 32) : evaluatePower text = .aligned base e less := by
  have value := word_small within
  have read : Radix.ten.numeral? exponent = some (.ofNat e) := (Radix.numeral_exact _ _ _).mpr (by rwa [value])
  have inRange : ¬ maxExponent < .ofNat e := by
    rw [UInt64.lt_iff_toNat_lt, value]
    exact Nat.not_lt_of_le within
  have bytes : UInt64.ofNat e % 8 = 0 ↔ e ∈ [0, 8, 16, 24, 32] := by
    rw [← UInt64.toNat_inj, UInt64.toNat_mod, value]
    simp
    omega
  unfold evaluatePower
  simp only [raised.caret_split, raised.minus_split, read, if_neg inRange, Evaluated.aligned, ← bytes]
  by_cases whole : base = ['2'] ∧ UInt64.ofNat e % 8 = 0
  · rw [if_pos whole, if_neg (by tauto), less_exact within, shift_exact within]
    rfl
  · rw [if_neg whole, if_pos (by tauto)]
    rfl

theorem aligned_exact (within : e ≤ 32) : Evaluated.aligned base e less = ⟨value, none⟩ ↔
    base = ['2'] ∧ e ∈ [0, 8, 16, 24, 32] ∧
      (less = none ∧ value.toNat = 2 ^ e ∨ less = some ['1'] ∧ value.toNat = 2 ^ e - 1) := by
  have whole : value.toNat = 2 ^ e ↔ .ofNat (2 ^ e) = value := by
    rw [← UInt64.toNat_inj, UInt64.toNat_ofNat_of_lt' (power_lt within), eq_comm]
  have below : value.toNat = 2 ^ e - 1 ↔ .ofNat (2 ^ e - 1) = value := by
    have limit := Nat.lt_of_le_of_lt (Nat.sub_le _ 1) (power_lt within)
    rw [← UInt64.toNat_inj, UInt64.toNat_ofNat_of_lt' limit, eq_comm]
  rw [whole, below]
  unfold Evaluated.aligned
  by_cases fits : base = ['2'] ∧ e ∈ [0, 8, 16, 24, 32]
  · rw [if_pos fits, and_iff_right fits.1, and_iff_right fits.2]
    split
    · simp
    · simp
    · rename_i other
      simpa using fun same => absurd same other
  · rw [if_neg fits]
    exact iff_of_false nofun fun given => fits ⟨given.1, given.2.1⟩

theorem aligned_ways (base : List Char) (e : Nat) (less : Option (List Char)) :
    (∃ value, Evaluated.aligned base e less = ⟨value, none⟩) ∨
      Evaluated.aligned base e less = ⟨0, some .badExponent⟩ := by
  unfold Evaluated.aligned
  split
  · split
    · exact .inl ⟨_, rfl⟩
    · exact .inl ⟨_, rfl⟩
    · exact .inr rfl
  · exact .inr rfl

end Evaluation

theorem power_ways (text : String) :
    (evaluatePower text = ⟨0, some .badExponent⟩ ∧ ∀ base exponent less, ¬ Raised text.toList base exponent less) ∨
    (evaluatePower text = ⟨0, some .exponentOutOfRange⟩ ∧ Unfit text.toList) ∨
    ∃ base exponent less, Raised text.toList base exponent less ∧
      ∃ e ≤ 32, Radix.ten.Signed exponent e ∧ evaluatePower text = .aligned base e less := by
  by_cases plain : ∀ base exponent less, ¬ Raised text.toList base exponent less
  · exact .inl ⟨power_plain plain, plain⟩
  obtain ⟨base, exponent, less, raised⟩ : ∃ base exponent less, Raised text.toList base exponent less := by
    simpa using plain
  by_cases unfit : ∀ e ≤ 32, ¬ Radix.ten.Signed exponent e
  · exact .inr (.inl ⟨power_unfit raised unfit, base, exponent, less, raised, unfit⟩)
  obtain ⟨e, within, signed⟩ : ∃ e ≤ 32, Radix.ten.Signed exponent e := by simpa using unfit
  exact .inr (.inr ⟨base, exponent, less, raised, e, within, signed, power_fit raised signed within⟩)

theorem signed_minus (signed : Radix.ten.Signed text number) : '-' ∉ text := by
  obtain ⟨word, rfl | rfl, writes⟩ := signed
  · exact writes.lacks rfl
  · simpa using writes.lacks (c := '-') rfl

theorem powerOf_raised : PowerOf text number ↔
    ∃ exponent less, Raised text ['2'] exponent less ∧ ∃ e ∈ [0, 8, 16, 24, 32], Radix.ten.Signed exponent e ∧
      (less = none ∧ number = 2 ^ e ∨ less = some ['1'] ∧ number = 2 ^ e - 1) := by
  constructor
  · intro power
    cases power with
    | @whole e numeral aligned signed =>
      exact ⟨numeral, none, ⟨by simp, by decide, signed_minus signed⟩, e, aligned, signed, .inl ⟨rfl, rfl⟩⟩
    | @below e numeral aligned signed =>
      exact ⟨numeral, some ['1'], ⟨by simp, by decide, signed_minus signed⟩, e, aligned, signed, .inr ⟨rfl, rfl⟩⟩
  · rintro ⟨exponent, less, ⟨rfl, _, _⟩, e, aligned, signed, ⟨rfl, rfl⟩ | ⟨rfl, rfl⟩⟩
    · simpa using PowerOf.whole aligned signed
    · exact PowerOf.below aligned signed

theorem aligned_small (aligned : e ∈ [0, 8, 16, 24, 32]) : e ≤ 32 :=
  (by decide : ∀ e ∈ [0, 8, 16, 24, 32], e ≤ 32) e aligned

theorem power_exact (text : String) (value : UInt64) :
    evaluatePower text = ⟨value, none⟩ ↔ PowerOf text.toList value.toNat := by
  rw [powerOf_raised]
  constructor
  · intro done
    rcases power_ways text with ⟨bad, _⟩ | ⟨out, _⟩ | ⟨base, exponent, less, raised, e, within, signed, known⟩
    · rw [bad] at done
      cases done
    · rw [out] at done
      cases done
    · rw [known, aligned_exact within] at done
      obtain ⟨rfl, aligned, number⟩ := done
      exact ⟨exponent, less, raised, e, aligned, signed, number⟩
  · rintro ⟨exponent, less, raised, e, aligned, signed, number⟩
    rw [power_fit raised signed (aligned_small aligned), aligned_exact (aligned_small aligned)]
    exact ⟨rfl, aligned, number⟩

theorem power_outOfRange (text : String) :
    evaluatePower text = ⟨0, some .exponentOutOfRange⟩ ↔ Unfit text.toList := by
  constructor
  · intro failed
    rcases power_ways text with ⟨bad, _⟩ | ⟨_, unfit⟩ | ⟨base, exponent, less, raised, e, within, signed, known⟩
    · rw [bad] at failed
      cases failed
    · exact unfit
    · rw [known] at failed
      rcases aligned_ways base e less with ⟨value, done⟩ | bad
      · rw [done] at failed
        cases failed
      · rw [bad] at failed
        cases failed
  · rintro ⟨base, exponent, less, raised, unfit⟩
    exact power_unfit raised unfit

theorem PowerOf.word (power : PowerOf text number) : (UInt64.ofNat number).toNat = number := by
  obtain ⟨_, _, _, e, aligned, _, size⟩ := powerOf_raised.mp power
  have limit := power_lt (aligned_small aligned)
  refine UInt64.toNat_ofNat_of_lt' ?_
  rcases size with ⟨_, rfl⟩ | ⟨_, rfl⟩
  · exact limit
  · exact Nat.lt_of_le_of_lt (Nat.sub_le _ _) limit

theorem power_bad (text : String) : evaluatePower text = ⟨0, some .badExponent⟩ ↔
    (∀ number, ¬ PowerOf text.toList number) ∧ ¬ Unfit text.toList := by
  rw [← power_outOfRange]
  constructor
  · intro bad
    refine ⟨fun number power => ?_, by simp [bad]⟩
    have done := (power_exact text (.ofNat number)).mpr (by rwa [power.word])
    simp [bad] at done
  · rintro ⟨unwritten, within⟩
    rcases power_ways text with ⟨bad, _⟩ | ⟨out, _⟩ | ⟨base, exponent, less, raised, e, _, signed, known⟩
    · exact bad
    · exact absurd out within
    · rw [known]
      rcases aligned_ways base e less with ⟨value, done⟩ | bad
      · exact absurd ((power_exact text value).mp (known.trans done)) (unwritten _)
      · exact bad

theorem power_zero (failed : (evaluatePower text).error = some error) : evaluatePower text = ⟨0, some error⟩ := by
  rcases power_ways text with ⟨bad, _⟩ | ⟨out, _⟩ | ⟨base, _, less, _, e, _, _, known⟩
  · rw [bad] at failed ⊢
    rw [← failed]
  · rw [out] at failed ⊢
    rw [← failed]
  · rw [known] at failed ⊢
    rcases aligned_ways base e less with ⟨value, done⟩ | bad
    · rw [done] at failed
      cases failed
    · rw [bad] at failed ⊢
      rw [← failed]

section Checked

-- The same evaluation by operations that stop where a word would overflow.
def shifted? (value amount : UInt64) : Option UInt64 := if amount < 64 then some (value <<< amount) else none
def lessened? (value loss : UInt64) : Option UInt64 := if loss ≤ value then some (value - loss) else none

def checkedPower? (text : String) : Option Evaluated :=
  match splitAtFirst '^' text.toList with
  | (_, none) => some (.failed .badExponent)
  | (base, some power) =>
    let (exponent, less) := splitAtFirst '-' power
    match Radix.ten.numeral? exponent with
    | none => some (.failed .exponentOutOfRange)
    | some e =>
      if maxExponent < e then some (.failed .exponentOutOfRange)
      else if base ≠ ['2'] ∨ e % 8 ≠ 0 then some (.failed .badExponent)
      else do
        let power ← shifted? 1 e
        match less with
        | none => some (.exactly power)
        | some ['1'] => (lessened? power 1).map .exactly
        | some _ => some (.failed .badExponent)

theorem shift_checked (within : ¬ maxExponent < e) : shifted? 1 e = some (1 <<< e) := by
  have least : e ≤ 32 := UInt64.not_lt.mp within
  exact if_pos (UInt64.lt_of_le_of_lt least (by decide))

theorem less_checked (within : ¬ maxExponent < e) : lessened? (1 <<< e) 1 = some (1 <<< e - 1) := by
  have least : e.toNat ≤ 32 := UInt64.le_iff_toNat_le.mp (UInt64.not_lt.mp within)
  refine if_pos (UInt64.le_iff_toNat_le.mpr ?_)
  rw [← UInt64.ofNat_toNat (x := e), shift_exact least, UInt64.toNat_ofNat_of_lt' (power_lt least)]
  exact Nat.one_le_two_pow

theorem power_checked (text : String) : checkedPower? text = some (evaluatePower text) := by
  unfold checkedPower? evaluatePower
  obtain ⟨base, rest⟩ := splitAtFirst '^' text.toList
  cases rest with
  | none => rfl
  | some rest =>
    dsimp only
    obtain ⟨exponent, less⟩ := splitAtFirst '-' rest
    cases Radix.ten.numeral? exponent with
    | none => rfl
    | some e =>
      dsimp only
      by_cases beyond : maxExponent < e
      · rw [if_pos beyond, if_pos beyond]
      rw [if_neg beyond, if_neg beyond]
      by_cases uneven : base ≠ ['2'] ∨ e % 8 ≠ 0
      · rw [if_pos uneven, if_pos uneven]
      rw [if_neg uneven, if_neg uneven, shift_checked beyond]
      dsimp only [bind, Option.bind]
      split
      · rfl
      · simp only [less_checked beyond, Option.map_some]
      · simp only

end Checked

theorem Digits.lacks (digits : Digits word) (other : c.isDigit = false) : c ∉ word := by
  intro member
  rw [digits.2 c member] at other
  cases other

theorem PowerForm.raised (formed : PowerForm word) : ∃ base exponent less number,
    Raised word base exponent less ∧ Radix.ten.Writes exponent number := by
  cases formed with
  | @plain front raised base exponent =>
    obtain ⟨number, writes⟩ := exponent.writes
    exact ⟨front, raised, none, number, ⟨by simp, base.lacks rfl, exponent.lacks rfl⟩, writes⟩
  | @less front raised back base exponent taken =>
    obtain ⟨number, writes⟩ := exponent.writes
    exact ⟨front, raised, some back, number, ⟨rfl, base.lacks rfl, exponent.lacks rfl⟩, writes⟩

theorem unfit_written (raised : Raised text base exponent less) (writes : Radix.ten.Writes exponent number) :
    Unfit text ↔ 32 < number := by
  have signed : Radix.ten.Signed exponent number := ⟨exponent, .inl rfl, writes⟩
  constructor
  · rintro ⟨_, middle, _, other, unfit⟩
    obtain ⟨_, rfl, _⟩ := raised.unique other
    exact Nat.lt_of_not_le fun within => unfit number within signed
  · intro beyond
    refine ⟨base, exponent, less, raised, fun e within given => ?_⟩
    exact absurd (given.unique signed ▸ within) (Nat.not_le_of_lt beyond)

-- A power is evaluated exactly when it is two to a number of whole bytes up to four, or one
-- less. The exponent is judged first, and alone: only after that do the base, the alignment
-- and the subtrahend count. Nothing overflows on the way. The exponent of a power token is
-- always a number, so it is out of range just above 32.
theorem powers_exact :
    (∀ text value, evaluatePower text = ⟨value, none⟩ ↔ PowerOf text.toList value.toNat) ∧
    (∀ text, evaluatePower text = ⟨0, some .exponentOutOfRange⟩ ↔ Unfit text.toList) ∧
    (∀ text, evaluatePower text = ⟨0, some .badExponent⟩ ↔
      (∀ number, ¬ PowerOf text.toList number) ∧ ¬ Unfit text.toList) ∧
    (∀ text, checkedPower? text = some (evaluatePower text)) ∧
    ∀ source tokens, tokenize source = .ok tokens → ∀ token ∈ tokens, token.kind = .power →
      ∃ base exponent less number, Raised token.text.toList base exponent less ∧
        Radix.ten.Writes exponent number ∧
          ((evaluatePower token.text).error = some .exponentOutOfRange ↔ 32 < number) := by
  refine ⟨power_exact, power_outOfRange, power_bad, power_checked, ?_⟩
  intro source tokens cut token member kind
  obtain ⟨base, exponent, less, number, raised, writes⟩ := ((tokenize_formed cut member).2 kind).raised
  refine ⟨base, exponent, less, number, raised, writes, ?_⟩
  rw [← unfit_written raised writes, ← power_outOfRange]
  exact ⟨power_zero, fun failed => by rw [failed]⟩

def threeToMany : Token := ⟨.power, "3^0033-2", 1⟩

theorem powers_exact_beyond : tokenize "3^0033-2-1" = .ok [threeToMany, ⟨.minus, "-", 1⟩, ⟨.number, "1", 1⟩, .endAt 1] ∧
    (∃ base exponent less number, Raised threeToMany.text.toList base exponent less ∧
      Radix.ten.Writes exponent number ∧
        ((evaluatePower threeToMany.text).error = some .exponentOutOfRange ↔ 32 < number)) ∧
    (evaluatePower threeToMany.text).error = some .exponentOutOfRange := by
  have cut : tokenize "3^0033-2-1" = .ok [threeToMany, ⟨.minus, "-", 1⟩, ⟨.number, "1", 1⟩, .endAt 1] := by
    decide +kernel
  exact ⟨cut, powers_exact.2.2.2.2 _ _ cut threeToMany (by simp) rfl, by decide⟩

end WireFormat
