import Mathlib.Data.List.TakeWhile
import WireFormat.Lexeme

namespace WireFormat

-- The forms of lexemes and the order in which they are tried, said of words and not
-- of lengths.

def Digits (word : List Char) : Prop := word ≠ [] ∧ ∀ c ∈ word, c.isDigit = true

inductive PowerForm : List Char → Prop where
  | plain (base : Digits front) (exponent : Digits raised) : PowerForm (front ++ '^' :: raised)
  | less (base : Digits front) (exponent : Digits raised) (taken : Digits back) :
      PowerForm (front ++ '^' :: (raised ++ '-' :: back))

inductive NumberForm : List Char → Prop where
  | hex (marker : x = 'x' ∨ x = 'X') (some : digits ≠ [])
      (inside : ∀ c ∈ digits, Lexeme.isHexDigit c = true) : NumberForm ('0' :: x :: digits)
  | decimal (digits : Digits word) : NumberForm word

inductive IdentForm : List Char → Prop where
  | name (start : Lexeme.isIdentStart c = true) (inside : ∀ d ∈ tail, Lexeme.isIdentChar d = true) :
      IdentForm (c :: tail)

-- A word of the form that the text starts with, and no longer one is there.
structure Longest (form : List Char → Prop) (text word : List Char) : Prop where
  formed : form word
  front : word <+: text
  longest : ∀ other, form other → other <+: text → other.length ≤ word.length

-- What one kind of lexeme makes of the text in front of it.
def Rule := List Char → Token.Kind → List Char → Prop

namespace Rule

def powers : Rule := fun text kind word => kind = .power ∧ Longest PowerForm text word
def numbers : Rule := fun text kind word => kind = .number ∧ Longest NumberForm text word
def idents : Rule := fun text kind word => kind = .ident ∧ Longest IdentForm text word

def keywords : Rule := fun text kind word =>
  (String.ofList word, kind) ∈ Token.Kind.keywords ∧
    ∃ rest, text = word ++ rest ∧ ∀ c ∈ rest.head?, Lexeme.isIdentChar c = false

def dots : Rule := fun text kind word => kind = .dots ∧ word = ['.', '.'] ∧ word <+: text

def marks : Rule := fun text kind word =>
  ∃ c, word = [c] ∧ word <+: text ∧ (String.singleton c, kind) ∈ Token.Kind.punctuation

def others : Rule := fun text kind word => kind = .unknown ∧ ∃ c, word = [c] ∧ word <+: text

def order : List Rule := [powers, numbers, keywords, idents, dots, marks, others]

-- The first rule that makes anything of the text decides.
inductive Decides (text : List Char) (kind : Token.Kind) (word : List Char) : List Rule → Prop where
  | here (made : rule text kind word) : Decides text kind word (rule :: later)
  | later (nothing : ∀ other made, ¬ rule text other made) (rest : Decides text kind word later) :
      Decides text kind word (rule :: later)

end Rule

def Stands (text : List Char) (kind : Token.Kind) (word : List Char) : Prop :=
  Rule.Decides text kind word Rule.order

section Runs

variable {inside : Char → Bool} {rest : List Char}

theorem takeWhile_stopped (stops : ∀ c ∈ rest.head?, inside c = false) :
    rest.takeWhile inside = [] := by
  cases rest with
  | nil => rfl
  | cons c tail => exact List.takeWhile_cons_of_neg (by simp [stops c rfl])

theorem run_append (front rest : List Char) (all : ∀ c ∈ front, inside c = true)
    (stops : ∀ c ∈ rest.head?, inside c = false) :
    Lexeme.run inside (front ++ rest) = front.length := by
  rw [Lexeme.run, List.takeWhile_append_of_pos all, takeWhile_stopped stops, List.append_nil]

theorem run_reaches (front rest : List Char) (all : ∀ c ∈ front, inside c = true) :
    front.length ≤ Lexeme.run inside (front ++ rest) := by
  rw [Lexeme.run, List.takeWhile_append_of_pos all, List.length_append]
  exact Nat.le_add_right _ _

theorem run_parts (inside : Char → Bool) (text : List Char) :
    ∃ front rest, text = front ++ rest ∧ front.length = Lexeme.run inside text ∧
      (∀ c ∈ front, inside c = true) ∧ ∀ c ∈ rest.head?, inside c = false := by
  refine ⟨text.takeWhile inside, text.dropWhile inside, List.takeWhile_append_dropWhile.symm, rfl,
    fun c => List.mem_takeWhile_imp, fun c head => ?_⟩
  have stop := List.head?_dropWhile_not inside text
  rw [Option.mem_def.mp head] at stop
  simpa using stop

end Runs

-- A length function measures a form when what it counts off has the form, and it
-- counts off no less than any word of the form that stands there.
structure Measures (form : List Char → Prop) (length : List Char → Nat) : Prop where
  formed : ∀ text, length text ≠ 0 → ∃ word rest, text = word ++ rest ∧ word.length = length text ∧ form word
  covers : ∀ word rest, form word → word.length ≤ length (word ++ rest)
  nonempty : ∀ word, form word → word ≠ []

theorem Measures.longest (measures : Measures form length) (some : length text ≠ 0) :
    Longest form text (text.take (length text)) := by
  obtain ⟨word, rest, rfl, same, formed⟩ := measures.formed text some
  rw [← same, List.take_left]
  refine ⟨formed, List.prefix_append word rest, ?_⟩
  rintro other good ⟨tail, split⟩
  rw [same, ← split]
  exact measures.covers other tail good

theorem Measures.nothing (measures : Measures form length) (none : length text = 0) (word : List Char) :
    ¬ Longest form text word := by
  intro given
  obtain ⟨formed, ⟨rest, rfl⟩, _⟩ := given
  have reach := measures.covers word rest formed
  rw [none, Nat.le_zero, List.length_eq_zero_iff] at reach
  exact measures.nonempty word formed reach

theorem digits_run (some : Lexeme.run Char.isDigit text ≠ 0) :
    ∃ word rest, text = word ++ rest ∧ word.length = Lexeme.run Char.isDigit text ∧ Digits word ∧
      ∀ c ∈ rest.head?, c.isDigit = false := by
  obtain ⟨word, rest, split, same, all, stops⟩ := run_parts Char.isDigit text
  refine ⟨word, rest, split, same, ⟨?_, all⟩, stops⟩
  rintro rfl
  exact some same.symm

theorem numberLength_digits (text : List Char) :
    Lexeme.run Char.isDigit text ≤ Lexeme.numberLength text := by
  unfold Lexeme.numberLength
  split
  · rename_i x digits
    split
    · rename_i hex
      simp only [Bool.and_eq_true, Bool.or_eq_true, decide_eq_true_eq] at hex
      -- The marker is no digit, so the run of digits is the lone zero.
      have marker : x.isDigit = false := by
        rcases hex.1 with rfl | rfl <;> decide
      have single := @run_append Char.isDigit ['0'] (x :: digits) (List.all_eq_true.mp rfl) (by simp [marker])
      rw [List.singleton_append] at single
      rw [single, List.length_singleton]
      omega
    · exact Nat.le_refl _
  · exact Nat.le_refl _

theorem numberLength_measures : Measures NumberForm Lexeme.numberLength where
  formed := by
    intro text some
    unfold Lexeme.numberLength at some ⊢
    split at some
    · rename_i x digits
      by_cases hex : (x = 'x' || x = 'X') && Lexeme.run Lexeme.isHexDigit digits ≠ 0
      · rw [if_pos hex]
        simp only [Bool.and_eq_true, Bool.or_eq_true, decide_eq_true_eq] at hex
        obtain ⟨word, rest, rfl, same, all, _⟩ := run_parts Lexeme.isHexDigit digits
        refine ⟨'0' :: x :: word, rest, rfl, by rw [← same]; simp; omega, .hex hex.1 ?_ all⟩
        rintro rfl
        exact hex.2 same.symm
      · rw [if_neg hex] at some ⊢
        obtain ⟨word, rest, split, same, digits, _⟩ := digits_run some
        exact ⟨word, rest, split, same, .decimal digits⟩
    · obtain ⟨word, rest, split, same, digits, _⟩ := digits_run some
      exact ⟨word, rest, split, same, .decimal digits⟩
  covers := by
    rintro _ rest (@⟨x, digits, marker, some, inside⟩ | digits)
    · have reach := run_reaches _ rest inside
      have positive := List.length_pos_iff.mpr some
      have hex : ((x = 'x' || x = 'X') && Lexeme.run Lexeme.isHexDigit (digits ++ rest) ≠ 0) = true := by
        simp only [Bool.and_eq_true, Bool.or_eq_true, decide_eq_true_eq]
        exact ⟨marker, by omega⟩
      rw [List.cons_append, List.cons_append, Lexeme.numberLength, if_pos hex, List.length_cons,
        List.length_cons]
      omega
    · exact (run_reaches _ rest digits.2).trans (numberLength_digits _)
  nonempty := by
    rintro _ (_ | digits)
    · exact List.cons_ne_nil _ _
    · exact digits.1

-- What follows the exponent, counted only if it is whole.
def lessLength (text : List Char) : Nat :=
  match text with
  | '-' :: less =>
    if Lexeme.run Char.isDigit less = 0 then 0 else 1 + Lexeme.run Char.isDigit less
  | _ => 0

theorem lessLength_digits (taken : Digits back) (rest : List Char) :
    1 + back.length ≤ lessLength ('-' :: (back ++ rest)) := by
  have reach := run_reaches back rest taken.2
  have positive := List.length_pos_iff.mpr taken.1
  rw [lessLength, if_neg (by omega)]
  omega

theorem lessLength_parts (some : lessLength text ≠ 0) :
    ∃ back rest, text = '-' :: (back ++ rest) ∧ lessLength text = 1 + back.length ∧ Digits back := by
  unfold lessLength at some ⊢
  split at some
  · rename_i less
    split at some
    · exact absurd rfl some
    · rename_i counted
      obtain ⟨back, rest, rfl, same, taken, _⟩ := digits_run counted
      exact ⟨back, rest, rfl, by rw [if_neg counted, same], taken⟩
  · exact absurd rfl some

theorem powerLength_digits (base : Digits front) (exponent : Digits raised)
    (stops : ∀ c ∈ rest.head?, c.isDigit = false) :
    Lexeme.powerLength (front ++ '^' :: (raised ++ rest)) =
      front.length + 1 + raised.length + lessLength rest := by
  have first : Lexeme.run Char.isDigit (front ++ '^' :: (raised ++ rest)) = front.length :=
    run_append _ _ base.2 (by simp)
  have second : Lexeme.run Char.isDigit (raised ++ rest) = raised.length :=
    run_append _ _ exponent.2 stops
  have some : (decide (front.length = 0) || decide (raised.length = 0)) = false := by
    simp [base.1, exponent.1]
  simp only [Lexeme.powerLength, first, List.drop_left, second, some, Bool.false_eq_true, if_false]
  unfold lessLength
  split <;> simp

theorem powerLength_parts (some : Lexeme.powerLength text ≠ 0) :
    ∃ front raised rest, text = front ++ '^' :: (raised ++ rest) ∧ Digits front ∧ Digits raised ∧
      ∀ c ∈ rest.head?, c.isDigit = false := by
  obtain ⟨front, tail, rfl, first, base, _⟩ := run_parts Char.isDigit text
  rw [Lexeme.powerLength, ← first, List.drop_left] at some
  split at some
  · rename_i above _
    obtain ⟨raised, rest, rfl, second, exponent, stops⟩ := run_parts Char.isDigit above
    rw [← second] at some
    refine ⟨front, raised, rest, rfl, ⟨?_, base⟩, ⟨?_, exponent⟩, stops⟩
    · rintro rfl
      simp at some
    · rintro rfl
      simp at some
  · exact absurd rfl some

theorem powerLength_measures : Measures PowerForm Lexeme.powerLength where
  formed := by
    intro text some
    obtain ⟨front, raised, rest, rfl, base, exponent, stops⟩ := powerLength_parts some
    rw [powerLength_digits base exponent stops]
    by_cases none : lessLength rest = 0
    · refine ⟨front ++ '^' :: raised, rest, by simp, ?_, .plain base exponent⟩
      rw [none, List.length_append, List.length_cons]
      omega
    · obtain ⟨back, more, rfl, same, taken⟩ := lessLength_parts none
      refine ⟨front ++ '^' :: (raised ++ '-' :: back), more, by simp, ?_, .less base exponent taken⟩
      rw [same, List.length_append, List.length_cons, List.length_append, List.length_cons]
      omega
  covers := by
    rintro _ rest (@⟨front, raised, base, exponent⟩ | @⟨front, raised, back, base, exponent, taken⟩)
    · obtain ⟨more, after, split, _, all, stops⟩ := run_parts Char.isDigit rest
      have longer : Digits (raised ++ more) :=
        ⟨by simp [exponent.1], List.forall_mem_append.mpr ⟨exponent.2, all⟩⟩
      have length := powerLength_digits base longer stops
      rw [List.append_assoc, ← split] at length
      rw [List.append_assoc, List.cons_append, length, List.length_append, List.length_cons,
        List.length_append]
      omega
    · have length : Lexeme.powerLength (front ++ '^' :: (raised ++ '-' :: (back ++ rest))) = _ :=
        powerLength_digits base exponent (by simp)
      have reach := lessLength_digits taken rest
      rw [List.append_assoc, List.cons_append, List.append_assoc, List.cons_append, length,
        List.length_append, List.length_cons, List.length_append, List.length_cons]
      omega
  nonempty := by
    rintro _ (⟨base, _⟩ | ⟨base, _, _⟩)
    · simp
    · simp

theorem identLength_measures : Measures IdentForm Lexeme.identLength where
  formed := by
    intro text some
    cases text with
    | nil => exact absurd rfl some
    | cons c rest =>
      rw [Lexeme.identLength] at some ⊢
      by_cases start : Lexeme.isIdentStart c = true
      · obtain ⟨tail, after, rfl, same, all, _⟩ := run_parts Lexeme.isIdentChar rest
        refine ⟨c :: tail, after, rfl, ?_, .name start all⟩
        rw [if_pos start, ← same, List.length_cons, Nat.add_comm]
      · exact absurd (if_neg start) some
  covers := by
    rintro _ rest ⟨start, all⟩
    have reach := run_reaches _ rest all
    rw [List.cons_append, Lexeme.identLength, if_pos start, List.length_cons]
    omega
  nonempty := by
    rintro _ ⟨⟩
    exact List.cons_ne_nil _ _

theorem keyword_stands (found : Lexeme.keyword? text = some lexeme) :
    Rule.keywords text lexeme.kind (text.take lexeme.length) := by
  obtain ⟨⟨word, kind⟩, listed, eq⟩ := List.exists_of_findSome?_eq_some found
  simp only [Option.ite_none_right_eq_some, Option.some.injEq, Bool.and_eq_true,
    List.isPrefixOf_iff_prefix] at eq
  obtain ⟨⟨⟨rest, rfl⟩, apart⟩, rfl⟩ := eq
  have length : word.length = word.toList.length := String.length_toList.symm
  have taken : (word.toList ++ rest).take word.length = word.toList := by rw [length, List.take_left]
  rw [length, List.drop_left] at apart
  refine ⟨?_, rest, ?_, ?_⟩
  · rw [taken, String.ofList_toList]
    exact listed
  · rw [taken]
  · intro c head
    rw [Option.mem_def.mp head] at apart
    simpa using apart

theorem keyword_nothing (none : Lexeme.keyword? text = none) (kind : Token.Kind) (word : List Char) :
    ¬ Rule.keywords text kind word := by
  intro given
  obtain ⟨listed, rest, rfl, apart⟩ := given
  have failed := List.findSome?_eq_none_iff.mp none _ listed
  have length : (String.ofList word).length = word.length := String.length_ofList
  have follows : rest.head?.any Lexeme.isIdentChar = false := by
    cases head : rest.head? with
    | none => rfl
    | some c => exact apart c head
  simp [length, follows] at failed

theorem lookup_listed [BEq α] [LawfulBEq α] {entries : List (α × β)} (found : entries.lookup key = some value) :
    (key, value) ∈ entries := by
  obtain ⟨before, after, split, _⟩ := List.lookup_eq_some_iff.mp found
  rw [split]
  simp

theorem first_stands (some : text ≠ []) :
    Stands text (Lexeme.first text).kind (text.take (Lexeme.first text).length) := by
  unfold Lexeme.first
  split
  · exact .here ⟨rfl, powerLength_measures.longest ‹_›⟩
  apply Rule.Decides.later (fun _ word made => powerLength_measures.nothing (by simp_all) word made.2)
  split
  · exact .here ⟨rfl, numberLength_measures.longest ‹_›⟩
  apply Rule.Decides.later (fun _ word made => numberLength_measures.nothing (by simp_all) word made.2)
  split
  · exact .here (keyword_stands ‹_›)
  apply Rule.Decides.later (keyword_nothing ‹_›)
  split
  · exact .here ⟨rfl, identLength_measures.longest ‹_›⟩
  apply Rule.Decides.later (fun _ word made => identLength_measures.nothing (by simp_all) word made.2)
  split
  · exact .here ⟨rfl, rfl, by simp⟩
  · rename_i c rest single _ _ _ _
    have nothing (kind : Token.Kind) (word : List Char) : ¬ Rule.dots (c :: rest) kind word := by
      intro given
      obtain ⟨_, rfl, tail, split⟩ := given
      obtain ⟨rfl, more⟩ := List.cons.inj split
      exact single tail rfl more.symm
    apply Rule.Decides.later nothing
    cases found : Token.Kind.punctuation? (String.singleton c) with
    | some kind => exact .here ⟨c, rfl, by simp, lookup_listed found⟩
    | none =>
      refine .later ?_ (.here ⟨rfl, c, rfl, by simp⟩)
      rintro kind _ ⟨other, rfl, ⟨tail, split⟩, listed⟩
      obtain ⟨rfl, _⟩ := List.cons.inj split
      have apart := List.lookup_eq_none_iff.mp found _ listed
      simp at apart
  · exact absurd rfl some

end WireFormat
