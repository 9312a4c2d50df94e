import WireFormat.Proofs.Layout

namespace WireFormat

-- A text that is laid out as tokens and gaps is scanned to these tokens and no others.

theorem Longest.unique {word other : List Char} (one : Longest form text word) (two : Longest form text other) :
    word = other := by
  have below := two.longest word one.formed one.front
  have above := one.longest other two.formed two.front
  exact (List.prefix_of_prefix_length_le one.front two.front below).eq_of_length (Nat.le_antisymm below above)

def Rule.Single (rule : Rule) : Prop := ∀ text kind word other made, rule text kind word → rule text other made →
  kind = other ∧ word = made

namespace Rule

theorem front_unique {c d : Char} (one : [c] <+: text) (two : [d] <+: text) : c = d := by
  obtain ⟨rest, rfl⟩ := one
  obtain ⟨more, split⟩ := two
  exact (List.cons.inj split).1.symm

theorem keywords_single : Single keywords := by
  have apart : ∀ one ∈ Token.Kind.keywords, ∀ two ∈ Token.Kind.keywords, one.1.toList <+: two.1.toList → one = two := by
    decide
  rintro _ kind word other made ⟨listed, rest, rfl, _⟩ ⟨also, more, split, _⟩
  have entry : (String.ofList word, kind) = (String.ofList made, other) := by
    rcases List.prefix_or_prefix_of_prefix ⟨rest, rfl⟩ ⟨more, split.symm⟩ with within | beyond
    · exact apart _ listed _ also (by simpa using within)
    · exact (apart _ also _ listed (by simpa using beyond)).symm
  obtain ⟨same, kinds⟩ := Prod.mk.inj entry
  exact ⟨kinds, String.ofList_injective same⟩

theorem order_single : ∀ rule ∈ order, Single rule := by
  simp only [order, List.forall_mem_cons]
  refine ⟨?_, ?_, keywords_single, ?_, ?_, ?_, ?_, by simp⟩
  · rintro text _ word _ made ⟨rfl, one⟩ ⟨rfl, two⟩
    exact ⟨rfl, one.unique two⟩
  · rintro text _ word _ made ⟨rfl, one⟩ ⟨rfl, two⟩
    exact ⟨rfl, one.unique two⟩
  · rintro text _ word _ made ⟨rfl, one⟩ ⟨rfl, two⟩
    exact ⟨rfl, one.unique two⟩
  · rintro text _ _ _ _ ⟨rfl, rfl, _⟩ ⟨rfl, rfl, _⟩
    exact ⟨rfl, rfl⟩
  · rintro text kind _ other _ ⟨c, rfl, one, listed⟩ ⟨d, rfl, two, also⟩
    have keys : ∀ one ∈ Token.Kind.punctuation, ∀ two ∈ Token.Kind.punctuation, one.1 = two.1 → one = two := by decide
    obtain rfl := front_unique one two
    exact ⟨congrArg Prod.snd (keys _ listed _ also rfl), rfl⟩
  · rintro text _ _ _ _ ⟨rfl, c, rfl, one⟩ ⟨rfl, d, rfl, two⟩
    exact ⟨rfl, congrArg ([·]) (front_unique one two)⟩

theorem Decides.unique (singles : ∀ rule ∈ rules, Single rule) (one : Decides text kind word rules)
    (two : Decides text other made rules) : kind = other ∧ word = made := by
  induction one with
  | @here rule later made =>
    cases two with
    | here also => exact singles rule List.mem_cons_self _ _ _ _ _ made also
    | later nothing _ => exact absurd made (nothing _ _)
  | @later rule later nothing _ ih =>
    cases two with
    | here also => exact absurd also (nothing _ _)
    | later _ more => exact ih (fun rule member => singles rule (List.mem_cons_of_mem _ member)) more

end Rule

theorem Stands.unique (one : Stands text kind word) (two : Stands text other made) : kind = other ∧ word = made :=
  Rule.Decides.unique Rule.order_single one two

theorem Rule.order_solid : ∀ rule ∈ order, ∀ text kind word, rule text kind word → ∀ c ∈ word.tail, c ∉ breaks := by
  simp only [order, List.forall_mem_cons]
  refine ⟨?_, ?_, ?_, ?_, ?_, ?_, ?_, by simp⟩
  · exact fun _ _ _ made c member => made.2.formed.solid c (List.mem_of_mem_tail member)
  · exact fun _ _ _ made c member => made.2.formed.solid c (List.mem_of_mem_tail member)
  · exact fun _ _ _ made c member => keywords_solid made.1 c (List.mem_of_mem_tail member)
  · exact fun _ _ _ made c member => made.2.formed.solid c (List.mem_of_mem_tail member)
  · rintro text _ _ ⟨_, rfl, _⟩
    exact List.forall_mem_singleton.mpr (by decide)
  · rintro text _ _ ⟨c, rfl, _⟩
    exact List.forall_mem_nil _
  · rintro text _ _ ⟨_, c, rfl, _⟩
    exact List.forall_mem_nil _

theorem Stands.solid (stands : Stands text kind word) : ∀ c ∈ word.tail, c ∉ breaks := by
  obtain ⟨rule, member, made⟩ := Rule.Decides.rule stands
  exact Rule.order_solid rule member text kind word made

theorem pair_extended (some : tail ≠ []) (rest : List Char) (apart : ¬ [a, b] <+: c :: tail) :
    ¬ [a, b] <+: c :: (tail ++ rest) := by
  cases tail with
  | nil => exact absurd rfl some
  | cons d more => simpa using apart

theorem Closes.nonempty (closes : Closes body) : body ≠ [] := by
  cases closes <;> simp

namespace Masked

theorem comment_body (single : '\n' ∉ body) (ends : LineEnds rest) :
    masked .line (body ++ rest) = (masked .code rest).map (body ++ ·) := by
  induction body with
  | nil =>
    cases rest with
    | nil => rfl
    | cons c tail =>
      obtain rfl : c = '\n' := ends c rfl
      rw [List.nil_append, line, if_pos rfl, code (by simp) (by simp), Option.map_map]
      rfl
  | cons c tail ih =>
    obtain ⟨other, single⟩ : '\n' ≠ c ∧ '\n' ∉ tail := by simpa using single
    rw [List.cons_append, line, if_neg (Ne.symm other), ih single, Option.map_map]
    rfl

theorem block_body (closes : Closes body) (outer : Nat) (rest : List Char) :
    masked (.block outer) (body ++ rest) = (masked (.closing outer) rest).map (body.map blanked ++ ·) := by
  induction closes generalizing outer rest with
  | close => exact close outer rest
  | @nest body tail _ _ nested further =>
    rw [List.cons_append, List.cons_append, List.cons_append, List.cons_append, nest, List.append_assoc, nested,
      Region.closing, further, Option.map_map, Option.map_map]
    simp [Function.comp_def, blanked]
  | @char c tail opens ends more ih =>
    rw [List.cons_append, block outer (pair_extended more.nonempty rest opens)
      (pair_extended more.nonempty rest ends), ih, Option.map_map]
    rfl

theorem comment_line (single : '\n' ∉ body) (ends : LineEnds rest) :
    masked .code ('/' :: '/' :: body ++ rest) = (masked .code rest).map ('/' :: '/' :: body ++ ·) := by
  rw [List.cons_append, List.cons_append, comment, comment_body single ends, Option.map_map]
  rfl

theorem comment_block (closes : Closes body) (rest : List Char) :
    masked .code ('/' :: '*' :: body ++ rest) =
      (masked .code rest).map (('/' :: '*' :: body).map blanked ++ ·) := by
  rw [List.cons_append, List.cons_append, opener, block_body closes, Region.closing, Option.map_map]
  rfl

end Masked

theorem opensGap_local {front rest : List Char} (some : front ≠ [])
    (stops : ∀ c ∈ rest.head?, Lexeme.isBlank c = true) : OpensGap (front ++ rest) ↔ OpensGap front := by
  obtain ⟨c, letters, rfl⟩ := List.exists_cons_of_ne_nil some
  have pairs (b : Char) (other : Lexeme.isBlank b = false) :
      ['/', b] <+: c :: (letters ++ rest) ↔ ['/', b] <+: c :: letters := by
    cases letters with
    | nil =>
      cases rest with
      | nil => rfl
      | cons d more =>
        have apart : b ≠ d := by
          rintro rfl
          rw [stops b rfl] at other
          cases other
        simp [apart]
    | cons d more => simp
  exact or_congr Iff.rfl (or_congr (pairs '/' rfl) (pairs '*' rfl))

theorem blank_breaks (blank : Lexeme.isBlank c = true) : c ∈ breaks := by
  simp only [Lexeme.isBlank, Bool.or_eq_true, decide_eq_true_eq] at blank
  rcases blank with (((rfl | rfl) | rfl) | rfl) | rfl <;> decide

theorem Stands.before_blank {front rest : List Char} (stands : Stands front kind word) (shut : ¬ OpensGap front)
    (stops : ∀ c ∈ rest.head?, Lexeme.isBlank c = true) :
    Stands (front ++ rest) kind word ∧ ¬ OpensGap (front ++ rest) := by
  have some : front ≠ [] := by
    rintro rfl
    exact stands.read.some (List.prefix_nil.mp stands.read.front)
  constructor
  · exact (stands_local some fun c member => blank_breaks (stops c member)).mpr stands
  · exact fun opens => shut ((opensGap_local some stops).mp opens)

theorem Gap.passes (apart : Gap gap rest) (shown : masked .code rest = some out) :
    ∃ front, masked .code (gap ++ rest) = some (front ++ out) ∧
      ∀ line, scan line #[] (front ++ out) = scan (line + gap.count '\n') #[] out := by
  induction apart with
  | nil => exact ⟨[], shown, fun _ => rfl⟩
  | @blank c gap rest blank more ih =>
    obtain ⟨front, coded, passes⟩ := ih shown
    have other : '/' ≠ c := by
      rintro rfl
      cases blank
    refine ⟨c :: front, ?_, fun line => ?_⟩
    · rw [List.cons_append, Masked.code (by simp [other]) (by simp [other]), coded]
      rfl
    · calc scan line #[] ([c] ++ (front ++ out))
        _ = scan (line + [c].count '\n') #[] (front ++ out) := scan_blanks (List.forall_mem_singleton.mpr blank) line _
        _ = scan (line + ([c] ++ gap).count '\n') #[] out := by rw [passes, List.count_append, Nat.add_assoc]
  | @line body gap rest single ends more ih =>
    obtain ⟨front, coded, passes⟩ := ih shown
    refine ⟨'/' :: '/' :: body ++ front, ?_, fun line => ?_⟩
    · rw [List.append_assoc, Masked.comment_line single ends, coded, Option.map_some, List.append_assoc]
    · rw [List.append_assoc, scan_comment single (masked_lineEnds coded ends), passes]
      simp [List.count_eq_zero_of_not_mem single]
  | @block body gap rest closes more ih =>
    obtain ⟨front, coded, passes⟩ := ih shown
    have blank := Masked.Blanks.whole ('/' :: '*' :: body)
    refine ⟨('/' :: '*' :: body).map blanked ++ front, ?_, fun line => ?_⟩
    · rw [List.append_assoc, Masked.comment_block closes, coded, Option.map_some, List.append_assoc]
    · rw [List.append_assoc, scan_blanks blank.blank, passes, blank.lines, Nat.add_assoc, ← List.count_append]

theorem Stands.cut (stands : Stands (word ++ rest) kind word) (shut : ¬ OpensGap (word ++ rest))
    (shown : masked .code rest = some out) : masked .code (word ++ rest) = some (word ++ out) ∧
      ∀ line, (scan line #[] (word ++ out)).toList =
        ⟨kind, String.ofList word, line⟩ :: (scan line #[] out).toList := by
  obtain ⟨c, letters, rfl⟩ := List.exists_cons_of_ne_nil stands.read.some
  rw [List.cons_append] at shut stands
  have slashes : ¬ ['/', '/'] <+: c :: (letters ++ rest) := fun given => shut (.inr (.inl given))
  have opens : ¬ ['/', '*'] <+: c :: (letters ++ rest) := fun given => shut (.inr (.inr given))
  have solid : Lexeme.isBlank c = false := Bool.eq_false_iff.mpr fun blank => shut (.inl ⟨c, rfl, blank⟩)
  have bare : '/' ∉ letters := fun member => stands.solid '/' member (by decide)
  have whole : masked .code (c :: (letters ++ rest)) = some (c :: letters ++ out) := by
    rw [Masked.code slashes opens, Masked.plain letters rest bare, shown]
    rfl
  refine ⟨whole, fun line => ?_⟩
  obtain ⟨made, tail, after, split, same, taken, nonempty, _, also, _⟩ := token_parts whole slashes opens solid
  rw [split] at stands
  obtain ⟨kinds, rfl⟩ := stands.unique also
  obtain rfl := List.append_cancel_left same
  have cut := scan_cut solid split nonempty taken (masked_slashes whole slashes opens) line
  rwa [← kinds] at cut

theorem Stands.single (stands : Stands (word ++ rest) kind word) (shut : ¬ OpensGap (word ++ rest)) : '\n' ∉ word := by
  obtain ⟨c, letters, rfl⟩ := List.exists_cons_of_ne_nil stands.read.some
  intro member
  rcases List.mem_cons.mp member with rfl | later
  · exact shut (.inl ⟨'\n', rfl, rfl⟩)
  · exact stands.solid '\n' later (by decide)

theorem laid_scanned (laid : Laid passed text tokens) :
    ∃ out, masked .code text = some out ∧ (scan (lastLine passed) #[] out).toList = tokens := by
  induction laid with
  | @stop text passed apart =>
    have nothing : masked .code [] = some [] := rfl
    obtain ⟨front, coded, passes⟩ := apart.passes nothing
    simp only [List.append_nil] at coded passes
    refine ⟨front, coded, ?_⟩
    rw [passes, lastLine_append]
    simp [scan]
  | @token gap word rest kind passed tokens apart shut stands more ih =>
    obtain ⟨out, shown, scanned⟩ := ih
    obtain ⟨whole, cut⟩ := stands.cut shut shown
    obtain ⟨front, coded, passes⟩ := apart.passes whole
    refine ⟨front ++ (word ++ out), coded, ?_⟩
    rw [passes, cut, ← lastLine_append, ← scanned, lastLine_append _ word,
      List.count_eq_zero_of_not_mem (stands.single shut), Nat.add_zero]

theorem tokenize_scanned (laid : Laid [] source.toList tokens) : tokenize source = .ok tokens := by
  obtain ⟨out, shown, scanned⟩ := laid_scanned laid
  have found : mask? source.toList = some out := shown
  rw [tokenize, found, ← scanned]
  rfl

end WireFormat
