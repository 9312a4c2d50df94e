import WireFormat.Proofs.ScanOrder

namespace WireFormat

-- The characters that no word of more than one character has. They end every form,
-- and it does not matter which of them comes, nor what comes after it.
def breaks : List Char := ['/', ' ', '\t', '\r', '\n', '\x0c']

theorem solid_of_class {word : List Char} (inside : Char → Bool) (apart : breaks.any inside = false)
    (all : ∀ c ∈ word, inside c = true) : ∀ c ∈ word, c ∉ breaks := by
  intro c member stop
  exact List.any_eq_false.mp apart c stop (all c member)

theorem Digits.solid (digits : Digits word) : ∀ c ∈ word, c ∉ breaks :=
  solid_of_class Char.isDigit rfl digits.2

theorem PowerForm.solid (formed : PowerForm word) : ∀ c ∈ word, c ∉ breaks := by
  cases formed with
  | plain base exponent =>
    exact List.forall_mem_append.mpr ⟨base.solid, List.forall_mem_cons.mpr ⟨by decide, exponent.solid⟩⟩
  | less base exponent taken =>
    refine List.forall_mem_append.mpr ⟨base.solid, List.forall_mem_cons.mpr ⟨by decide, ?_⟩⟩
    exact List.forall_mem_append.mpr ⟨exponent.solid, List.forall_mem_cons.mpr ⟨by decide, taken.solid⟩⟩

theorem NumberForm.solid (formed : NumberForm word) : ∀ c ∈ word, c ∉ breaks := by
  cases formed with
  | hex marker _ inside =>
    have digits := solid_of_class Lexeme.isHexDigit rfl inside
    refine List.forall_mem_cons.mpr ⟨by decide, List.forall_mem_cons.mpr ⟨?_, digits⟩⟩
    rcases marker with rfl | rfl <;> decide
  | decimal digits => exact digits.solid

theorem IdentForm.solid {word : List Char} (formed : IdentForm word) : ∀ c ∈ word, c ∉ breaks := by
  obtain ⟨start, inside⟩ := formed
  have first := solid_of_class Lexeme.isIdentStart rfl (List.forall_mem_singleton.mpr start)
  exact List.forall_mem_cons.mpr ⟨first _ (List.mem_singleton_self _),
    solid_of_class Lexeme.isIdentChar rfl inside⟩

section Local

variable {front rest : List Char}

theorem prefix_local (solid : ∀ c ∈ word, c ∉ breaks) (stops : ∀ c ∈ rest.head?, c ∈ breaks) :
    word <+: front ++ rest ↔ word <+: front := by
  refine ⟨fun reads => ?_, fun reads => reads.trans (List.prefix_append front rest)⟩
  rcases List.prefix_or_prefix_of_prefix reads (List.prefix_append front rest) with within | ⟨more, rfl⟩
  · exact within
  · rw [List.prefix_append_right_inj] at reads
    cases more with
    | nil => simp
    | cons c tail =>
      obtain ⟨after, rfl⟩ := reads
      exact absurd (stops c rfl) (solid c (by simp))

theorem longest_local (solid : ∀ word, form word → ∀ c ∈ word, c ∉ breaks)
    (stops : ∀ c ∈ rest.head?, c ∈ breaks) : Longest form (front ++ rest) word ↔ Longest form front word := by
  constructor
  · intro given
    obtain ⟨formed, reads, longest⟩ := given
    refine ⟨formed, (prefix_local (solid word formed) stops).mp reads, fun other good within => ?_⟩
    exact longest other good ((prefix_local (solid other good) stops).mpr within)
  · intro given
    obtain ⟨formed, reads, longest⟩ := given
    refine ⟨formed, (prefix_local (solid word formed) stops).mpr reads, fun other good within => ?_⟩
    exact longest other good ((prefix_local (solid other good) stops).mp within)

end Local

-- What a rule makes of a text does not depend on what comes after a break.
def Rule.Local (rule : Rule) : Prop := ∀ front rest kind word, front ≠ [] →
  (∀ c ∈ rest.head?, c ∈ breaks) → (rule (front ++ rest) kind word ↔ rule front kind word)

namespace Rule

theorem powers_local : Local powers := fun _ _ _ _ _ stops =>
  and_congr_right fun _ => longest_local (fun _ => PowerForm.solid) stops

theorem numbers_local : Local numbers := fun _ _ _ _ _ stops =>
  and_congr_right fun _ => longest_local (fun _ => NumberForm.solid) stops

theorem idents_local : Local idents := fun _ _ _ _ _ stops =>
  and_congr_right fun _ => longest_local (fun _ => IdentForm.solid) stops

theorem keywords_solid (listed : (String.ofList word, kind) ∈ Token.Kind.keywords) :
    ∀ c ∈ word, c ∉ breaks := by
  have all : (Token.Kind.keywords.all fun entry => !breaks.any entry.1.toList.contains) = true := by decide
  have apart := List.all_eq_true.mp all _ listed
  rw [String.toList_ofList, Bool.not_eq_true'] at apart
  exact fun c member stop => List.any_eq_false.mp apart c stop (List.contains_iff_mem.mpr member)

theorem keywords_local : Local keywords := by
  intro front rest kind word _ stops
  apply and_congr_right
  intro listed
  have apart : breaks.any Lexeme.isIdentChar = false := rfl
  constructor
  · intro given
    obtain ⟨tail, split, ends⟩ := given
    obtain ⟨more, rfl⟩ := (prefix_local (keywords_solid listed) stops).mp ⟨tail, split.symm⟩
    refine ⟨more, rfl, fun c head => ends c ?_⟩
    rw [List.append_assoc, List.append_cancel_left_eq] at split
    rw [← split, List.head?_append, Option.mem_def.mp head]
    rfl
  · intro given
    obtain ⟨more, rfl, ends⟩ := given
    refine ⟨more ++ rest, List.append_assoc _ _ _, fun c head => ?_⟩
    cases more with
    | nil => exact Bool.eq_false_iff.mpr (List.any_eq_false.mp apart c (stops c head))
    | cons d tail => exact ends c head

theorem dots_local : Local dots := fun _ _ _ _ _ stops =>
  and_congr_right fun _ => and_congr_right fun same => prefix_local (by simp [same, breaks]) stops

theorem single_local (some : front ≠ []) (rest : List Char) (c : Char) :
    [c] <+: front ++ rest ↔ [c] <+: front := by
  cases front with
  | nil => exact absurd rfl some
  | cons d tail => simp

theorem marks_local : Local marks := fun _ rest _ _ some _ =>
  exists_congr fun c => and_congr_right fun same => and_congr_left fun _ => by
    rw [same]
    exact single_local some rest c

theorem others_local : Local others := fun _ rest _ _ some _ =>
  and_congr_right fun _ => exists_congr fun c => and_congr_right fun same => by
    rw [same]
    exact single_local some rest c

theorem order_local : ∀ rule ∈ order, Local rule := by
  simp only [order, List.forall_mem_cons]
  exact ⟨powers_local, numbers_local, keywords_local, idents_local, dots_local, marks_local,
    others_local, by simp⟩

theorem decides_local {front rest : List Char} (locals : ∀ rule ∈ rules, Local rule) (some : front ≠ [])
    (stops : ∀ c ∈ rest.head?, c ∈ breaks) :
    Decides (front ++ rest) kind word rules ↔ Decides front kind word rules := by
  induction rules with
  | nil => exact ⟨nofun, nofun⟩
  | cons rule later ih =>
    have alike := locals rule List.mem_cons_self
    have others := ih fun rule member => locals rule (List.mem_cons_of_mem _ member)
    constructor
    · intro decides
      cases decides with
      | here made => exact .here ((alike _ _ _ _ some stops).mp made)
      | later nothing more =>
        refine .later (fun kind word made => ?_) (others.mp more)
        exact nothing kind word ((alike _ _ _ _ some stops).mpr made)
    · intro decides
      cases decides with
      | here made => exact .here ((alike _ _ _ _ some stops).mpr made)
      | later nothing more =>
        refine .later (fun kind word made => ?_) (others.mpr more)
        exact nothing kind word ((alike _ _ _ _ some stops).mp made)

end Rule

theorem stands_local {front rest : List Char} (some : front ≠ []) (stops : ∀ c ∈ rest.head?, c ∈ breaks) :
    Stands (front ++ rest) kind word ↔ Stands front kind word :=
  Rule.decides_local Rule.order_local some stops

-- Whatever a rule makes of a text is a part of it, and never its end.
structure Read (text : List Char) (kind : Token.Kind) (word : List Char) : Prop where
  front : word <+: text
  some : word ≠ []
  token : kind ≠ .eof

namespace Rule

theorem order_reads : ∀ rule ∈ order, ∀ text kind word, rule text kind word → Read text kind word := by
  simp only [order, List.forall_mem_cons]
  refine ⟨?_, ?_, ?_, ?_, ?_, ?_, ?_, by simp⟩
  · rintro text _ word ⟨rfl, longest⟩
    exact ⟨longest.front, powerLength_measures.nonempty word longest.formed, nofun⟩
  · rintro text _ word ⟨rfl, longest⟩
    exact ⟨longest.front, numberLength_measures.nonempty word longest.formed, nofun⟩
  · rintro _ kind word ⟨listed, rest, rfl, _⟩
    have all : ∀ entry ∈ Token.Kind.keywords, entry.1.toList ≠ [] ∧ entry.2 ≠ .eof := by decide
    have entry := all _ listed
    rw [String.toList_ofList] at entry
    exact ⟨List.prefix_append word rest, entry.1, entry.2⟩
  · rintro text _ word ⟨rfl, longest⟩
    exact ⟨longest.front, identLength_measures.nonempty word longest.formed, nofun⟩
  · rintro text _ _ ⟨rfl, rfl, front⟩
    exact ⟨front, nofun, nofun⟩
  · rintro text kind _ ⟨c, rfl, front, listed⟩
    have all : ∀ entry ∈ Token.Kind.punctuation, entry.2 ≠ .eof := by decide
    exact ⟨front, nofun, all _ listed⟩
  · rintro text _ _ ⟨rfl, c, rfl, front⟩
    exact ⟨front, nofun, nofun⟩

theorem Decides.rule (decides : Decides text kind word rules) : ∃ rule ∈ rules, rule text kind word := by
  induction decides with
  | here made => exact ⟨_, List.mem_cons_self, made⟩
  | later _ _ ih =>
    obtain ⟨rule, member, made⟩ := ih
    exact ⟨rule, List.mem_cons_of_mem _ member, made⟩

end Rule

theorem Stands.read (stands : Stands text kind word) : Read text kind word := by
  obtain ⟨rule, member, made⟩ := Rule.Decides.rule stands
  exact Rule.order_reads rule member text kind word made

end WireFormat
