import WireFormat.Proofs.Joined

namespace WireFormat

-- What masking makes of a source, said of the source alone: which of its characters block
-- comments cover, and when one of these comments never ends.

-- The openers and closers of a text from left to right. No two of them share a character.
inductive Bracket where
  | opener | closer
  deriving DecidableEq

def brackets : List Char → List Bracket
  | '/' :: '*' :: rest => .opener :: brackets rest
  | '*' :: '/' :: rest => .closer :: brackets rest
  | _ :: rest => brackets rest
  | [] => []

-- With as many comments open around it, a comment in which the text stands is never closed:
-- up to no point are there more closers than its own openers and the outer ones.
def StaysOpen (outer : Nat) (text : List Char) : Prop :=
  ∀ front, front <+: brackets text → front.count .closer ≤ outer + front.count .opener

-- A text with no comment open at its end. Where a line comment ends depends on what comes
-- after the text, and so does whether its last character opens a comment.
inductive Whole : List Char → List Char → Prop where
  | nil : Whole [] rest
  | char (slashes : ¬ ['/', '/'] <+: c :: (front ++ rest)) (opens : ¬ ['/', '*'] <+: c :: (front ++ rest))
      (more : Whole front rest) : Whole (c :: front) rest
  | line (single : '\n' ∉ body) (ends : LineEnds (front ++ rest)) (more : Whole front rest) :
      Whole ('/' :: '/' :: body ++ front) rest
  | block (closes : Closes body) (more : Whole front rest) : Whole ('/' :: '*' :: body ++ front) rest

-- A comment is opened outside of all others and nothing closes it.
def Unclosed (source : List Char) : Prop :=
  ∃ front rest, source = front ++ '/' :: '*' :: rest ∧ Whole front ('/' :: '*' :: rest) ∧ StaysOpen 0 rest

-- The position is one of a block comment's, from its opener to its closer.
def Covered (source : List Char) (i : Nat) : Prop :=
  ∃ front body rest, source = front ++ ('/' :: '*' :: body ++ rest) ∧
    Whole front ('/' :: '*' :: body ++ rest) ∧ Closes body ∧
    front.length ≤ i ∧ i < front.length + (body.length + 2)

section Brackets

theorem brackets_opener (rest : List Char) : brackets ('/' :: '*' :: rest) = .opener :: brackets rest := rfl

theorem brackets_closer (rest : List Char) : brackets ('*' :: '/' :: rest) = .closer :: brackets rest := rfl

theorem brackets_char (opens : ¬ ['/', '*'] <+: c :: rest) (ends : ¬ ['*', '/'] <+: c :: rest) :
    brackets (c :: rest) = brackets rest := by
  rw [brackets]
  · rintro tail rfl rfl
    exact opens (by simp)
  · rintro tail rfl rfl
    exact ends (by simp)

theorem staysOpen_char (opens : ¬ ['/', '*'] <+: c :: rest) (ends : ¬ ['*', '/'] <+: c :: rest) :
    StaysOpen outer (c :: rest) ↔ StaysOpen outer rest := by
  rw [StaysOpen, brackets_char opens ends, StaysOpen]

theorem staysOpen_opener : StaysOpen outer ('/' :: '*' :: rest) ↔ StaysOpen (outer + 1) rest := by
  simp only [StaysOpen, brackets_opener, List.prefix_cons_iff]
  constructor
  · intro stays front within
    have count := stays (.opener :: front) (.inr ⟨front, rfl, within⟩)
    rw [List.count_cons_of_ne (by decide), List.count_cons_self] at count
    omega
  · rintro stays _ (rfl | ⟨front, rfl, within⟩)
    · simp
    · have count := stays front within
      rw [List.count_cons_of_ne (by decide), List.count_cons_self]
      omega

theorem staysOpen_closer : StaysOpen (outer + 1) ('*' :: '/' :: rest) ↔ StaysOpen outer rest := by
  simp only [StaysOpen, brackets_closer, List.prefix_cons_iff]
  constructor
  · intro stays front within
    have count := stays (.closer :: front) (.inr ⟨front, rfl, within⟩)
    rw [List.count_cons_self, List.count_cons_of_ne (by decide)] at count
    omega
  · rintro stays _ (rfl | ⟨front, rfl, within⟩)
    · simp
    · have count := stays front within
      rw [List.count_cons_self, List.count_cons_of_ne (by decide)]
      omega

theorem closer_closes (rest : List Char) : ¬ StaysOpen 0 ('*' :: '/' :: rest) := by
  intro stays
  have count := stays [.closer] (by simp [brackets_closer])
  simp at count

theorem Closes.staysOpen (closes : Closes body) (stays : StaysOpen outer rest) : StaysOpen (outer + 1) (body ++ rest) := by
  induction closes generalizing outer rest with
  | close => exact staysOpen_closer.mpr stays
  | @nest body tail _ _ nested further =>
    rw [List.cons_append, List.cons_append, List.cons_append, List.cons_append, List.append_assoc, staysOpen_opener]
    exact nested (further stays)
  | @char c tail opens ends more ih =>
    rw [List.cons_append, staysOpen_char (pair_extended more.nonempty rest opens)
      (pair_extended more.nonempty rest ends)]
    exact ih stays

end Brackets

theorem stays_or_closes (text : List Char) :
    StaysOpen 0 text ∨ ∃ body rest, text = body ++ rest ∧ Closes body := by
  induction size : text.length using Nat.strongRecOn generalizing text with
  | ind n ih =>
  by_cases opens : ['/', '*'] <+: text
  · obtain ⟨tail, rfl⟩ := opens
    rw [List.cons_append, List.cons_append, List.nil_append] at size ⊢
    rw [staysOpen_opener]
    rw [List.length_cons, List.length_cons] at size
    rcases ih _ (by omega) tail rfl with stays | ⟨body, rest, rfl, inner⟩
    · exact .inl fun front within => Nat.le_trans (stays front within) (by omega)
    · rw [List.length_append] at size
      -- The nested comment has ended, and what it leaves is read on as text of the outer one.
      rcases ih _ (by omega) rest rfl with stays | ⟨after, rest, rfl, outer⟩
      · exact .inl (inner.staysOpen stays)
      · exact .inr ⟨'/' :: '*' :: body ++ after, rest, by simp, .nest inner outer⟩
  · by_cases ends : ['*', '/'] <+: text
    · obtain ⟨rest, rfl⟩ := ends
      exact .inr ⟨['*', '/'], rest, rfl, .close⟩
    · cases text with
      | nil => exact .inl fun front within => by simp [List.prefix_nil.mp within]
      | cons c tail =>
        rw [List.length_cons] at size
        rcases ih _ (by omega) tail rfl with stays | ⟨body, rest, rfl, closes⟩
        · exact .inl ((staysOpen_char opens ends).mpr stays)
        · refine .inr ⟨c :: body, rest, rfl, .char (fun opener => opens ?_) (fun closer => ends ?_) closes⟩
          · exact opener.trans (List.prefix_append (c :: body) rest)
          · exact closer.trans (List.prefix_append (c :: body) rest)

theorem line_split (text : List Char) : ∃ body rest, text = body ++ rest ∧ '\n' ∉ body ∧ LineEnds rest := by
  induction text with
  | nil => exact ⟨[], [], rfl, nofun, nofun⟩
  | cons c tail ih =>
    by_cases newline : c = '\n'
    · exact ⟨[], c :: tail, rfl, nofun, by simp [LineEnds, newline]⟩
    · obtain ⟨body, rest, rfl, single, ends⟩ := ih
      exact ⟨c :: body, rest, rfl, by simp [single, Ne.symm newline], ends⟩

theorem Unclosed.after (unclosed : Unclosed rest)
    (joins : ∀ front tail, rest = front ++ tail → Whole front tail → Whole (piece ++ front) tail) :
    Unclosed (piece ++ rest) := by
  obtain ⟨front, tail, rfl, whole, stays⟩ := unclosed
  exact ⟨piece ++ front, tail, (List.append_assoc _ _ _).symm, joins front _ rfl whole, stays⟩

theorem whole_or_unclosed (source : List Char) : Whole source [] ∨ Unclosed source := by
  induction size : source.length using Nat.strongRecOn generalizing source with
  | ind n ih =>
  by_cases slashes : ['/', '/'] <+: source
  · obtain ⟨tail, rfl⟩ := slashes
    obtain ⟨body, rest, rfl, single, ends⟩ := line_split tail
    rw [← List.append_assoc] at size ⊢
    rw [List.length_append] at size
    rcases ih _ (by simp at size; omega) rest rfl with whole | unclosed
    · exact .inl (.line single (by rwa [List.append_nil]) whole)
    · exact .inr (unclosed.after fun front tail split more => .line single (split ▸ ends) more)
  by_cases opens : ['/', '*'] <+: source
  · obtain ⟨tail, rfl⟩ := opens
    rcases stays_or_closes tail with stays | ⟨body, rest, rfl, closes⟩
    · exact .inr ⟨[], tail, rfl, .nil, stays⟩
    · rw [← List.append_assoc] at size ⊢
      rw [List.length_append] at size
      rcases ih _ (by simp at size; omega) rest rfl with whole | unclosed
      · exact .inl (.block closes whole)
      · exact .inr (unclosed.after fun front tail _ more => .block closes more)
  cases source with
  | nil => exact .inl .nil
  | cons c rest =>
    rw [List.length_cons] at size
    rcases ih _ (by omega) rest rfl with whole | unclosed
    · exact .inl (.char (by rwa [List.append_nil]) (by rwa [List.append_nil]) whole)
    · have longer : Unclosed ([c] ++ rest) := unclosed.after fun front tail split more => by
        subst split
        exact .char slashes opens more
      exact .inr longer

namespace Masked

theorem unclosed (stays : StaysOpen outer text) : masked (.block outer) text = none := by
  induction size : text.length using Nat.strongRecOn generalizing text outer with
  | ind n ih =>
  by_cases opens : ['/', '*'] <+: text
  · obtain ⟨rest, rfl⟩ := opens
    rw [List.cons_append, List.cons_append, List.nil_append] at stays size ⊢
    rw [List.length_cons, List.length_cons] at size
    rw [nest, ih _ (by omega) (staysOpen_opener.mp stays) rfl]
    rfl
  by_cases ends : ['*', '/'] <+: text
  · obtain ⟨rest, rfl⟩ := ends
    rw [List.cons_append, List.cons_append, List.nil_append] at stays size ⊢
    rw [List.length_cons, List.length_cons] at size
    cases outer with
    | zero => exact absurd stays (closer_closes rest)
    | succ outer =>
      rw [close, Region.closing, ih _ (by omega) (staysOpen_closer.mp stays) rfl]
      rfl
  cases text with
  | nil => rfl
  | cons c rest =>
    rw [List.length_cons] at size
    rw [block outer opens ends, ih _ (by omega) ((staysOpen_char opens ends).mp stays) rfl]
    rfl

end Masked

theorem Whole.append (whole : Whole front (back ++ rest)) (more : Whole back rest) : Whole (front ++ back) rest := by
  generalize joined : back ++ rest = after at whole
  induction whole with
  | nil => exact more
  | @char c front after slashes opens _ ih =>
    subst joined
    rw [← List.append_assoc] at slashes opens
    exact .char slashes opens (ih rfl)
  | @line body front after single ends _ ih =>
    subst joined
    rw [← List.append_assoc] at ends
    rw [List.append_assoc]
    exact .line single ends (ih rfl)
  | block closes _ ih =>
    rw [List.append_assoc]
    exact .block closes (ih joined)

theorem Covered.after (whole : Whole front rest) (covered : Covered rest i) :
    Covered (front ++ rest) (front.length + i) := by
  obtain ⟨before, body, tail, rfl, inside, closes, from_, upto⟩ := covered
  refine ⟨front ++ before, body, tail, by simp, whole.append inside, closes, ?_, ?_⟩
  · rw [List.length_append]
    omega
  · rw [List.length_append]
    omega

theorem Closes.covered (closes : Closes body) (within : i < body.length + 2) :
    Covered ('/' :: '*' :: body ++ rest) i :=
  ⟨[], body, rest, rfl, .nil, closes, Nat.zero_le i, by simpa using within⟩

namespace Masked

-- How a text is masked in front of another one: what is changed of it is in its comments.
structure Fits (front rest shown : List Char) : Prop where
  length : shown.length = front.length
  masked : masked .code (front ++ rest) = (WireFormat.masked .code rest).map (shown ++ ·)
  kept : ∀ i, i < front.length → shown[i]? = front[i]? ∨ Covered (front ++ rest) i

theorem Fits.append (whole : Whole piece (front ++ rest)) (first : Fits piece (front ++ rest) one)
    (second : Fits front rest other) : Fits (piece ++ front) rest (one ++ other) := by
  refine ⟨?_, ?_, fun i within => ?_⟩
  · rw [List.length_append, List.length_append, first.length, second.length]
  · rw [List.append_assoc, first.masked, second.masked, Option.map_map]
    simp [Function.comp_def]
  · rw [List.append_assoc]
    by_cases inside : i < piece.length
    · rw [List.getElem?_append_left inside, List.getElem?_append_left (first.length ▸ inside)]
      exact first.kept i inside
    · obtain ⟨j, rfl⟩ := Nat.exists_eq_add_of_le (Nat.le_of_not_lt inside)
      rw [List.length_append, Nat.add_lt_add_iff_left] at within
      rw [List.getElem?_append_right (Nat.le_add_right _ _), List.getElem?_append_right (first.length ▸ Nat.le_add_right _ _),
        first.length, Nat.add_sub_cancel_left]
      exact (second.kept j within).imp_right fun covered => covered.after whole

theorem fits_char (slashes : ¬ ['/', '/'] <+: c :: rest) (opens : ¬ ['/', '*'] <+: c :: rest) : Fits [c] rest [c] :=
  ⟨rfl, code slashes opens, fun _ _ => .inl rfl⟩

theorem fits_line (single : '\n' ∉ body) (ends : LineEnds rest) :
    Fits ('/' :: '/' :: body) rest ('/' :: '/' :: body) :=
  ⟨rfl, comment_line single ends, fun _ _ => .inl rfl⟩

theorem fits_block (closes : Closes body) (rest : List Char) :
    Fits ('/' :: '*' :: body) rest (('/' :: '*' :: body).map blanked) :=
  ⟨List.length_map _, comment_block closes rest, fun _ within => .inr (closes.covered within)⟩

end Masked

theorem Whole.fits (whole : Whole front rest) : ∃ shown, Masked.Fits front rest shown := by
  induction whole with
  | nil => exact ⟨[], rfl, by simp, nofun⟩
  | @char c front rest slashes opens more ih =>
    obtain ⟨shown, fits⟩ := ih
    exact ⟨_, .append (.char slashes opens .nil) (Masked.fits_char slashes opens) fits⟩
  | @line body front rest single ends more ih =>
    obtain ⟨shown, fits⟩ := ih
    have piece : Whole ('/' :: '/' :: body ++ []) (front ++ rest) := .line single ends .nil
    rw [List.append_nil] at piece
    exact ⟨_, .append piece (Masked.fits_line single ends) fits⟩
  | @block body front rest closes more ih =>
    obtain ⟨shown, fits⟩ := ih
    have piece : Whole ('/' :: '*' :: body ++ []) (front ++ rest) := .block closes .nil
    rw [List.append_nil] at piece
    exact ⟨_, .append piece (Masked.fits_block closes _) fits⟩

theorem Whole.masked_again (whole : Whole front rest) (last : rest = [])
    (shown : masked .code (front ++ rest) = some out) : masked .code out = some out := by
  induction whole generalizing out with
  | nil =>
    subst last
    cases shown
    rfl
  | @char c front rest slashes opens _ ih =>
    have shut := masked_slashes shown slashes opens
    have closed := masked_pair shown slashes opens (by decide) opens
    rw [List.cons_append, Masked.code slashes opens] at shown
    obtain ⟨tail, coded, rfl⟩ := Option.map_eq_some_iff.mp shown
    rw [List.singleton_append] at shut closed ⊢
    rw [Masked.code shut closed, ih last coded]
    rfl
  | @line body front rest single ends _ ih =>
    rw [List.append_assoc, Masked.comment_line single ends] at shown
    obtain ⟨tail, coded, rfl⟩ := Option.map_eq_some_iff.mp shown
    rw [Masked.comment_line single (masked_lineEnds coded ends), ih last coded]
    rfl
  | @block body front rest closes _ ih =>
    rw [List.append_assoc, Masked.comment_block closes] at shown
    obtain ⟨tail, coded, rfl⟩ := Option.map_eq_some_iff.mp shown
    have bare : '/' ∉ ('/' :: '*' :: body).map blanked := by
      intro member
      obtain ⟨c, _, same⟩ := List.mem_map.mp member
      unfold blanked at same
      split at same <;> cases same
    rw [Masked.plain _ tail bare, ih last coded]
    rfl

-- What masking leaves of a source: block comments are blank, newlines and all else stay.
structure Blanked (source out : List Char) : Prop where
  length : out.length = source.length
  newlines : ∀ i : Nat, out[i]? = some '\n' ↔ source[i]? = some '\n'
  outside : ∀ i : Nat, ¬ Covered source i → out[i]? = source[i]?
  inside : ∀ i : Nat, Covered source i → out[i]? = some (if source[i]? = some '\n' then '\n' else ' ')

theorem Covered.blanked (covered : Covered source i) (shown : masked .code source = some out) :
    out[i]? = some (if source[i]? = some '\n' then '\n' else ' ') := by
  obtain ⟨front, body, rest, rfl, whole, closes, start, stop⟩ := covered
  obtain ⟨before, fits⟩ := whole.fits
  rw [fits.masked, Masked.comment_block closes, Option.map_map] at shown
  obtain ⟨after, _, rfl⟩ := Option.map_eq_some_iff.mp shown
  obtain ⟨j, rfl⟩ := Nat.exists_eq_add_of_le start
  have same := fits.length
  have within : j < ('/' :: '*' :: body).length := by
    rw [List.length_cons, List.length_cons]
    omega
  have here : (front ++ ('/' :: '*' :: body ++ rest))[front.length + j]? = some ('/' :: '*' :: body)[j] := by
    rw [List.getElem?_append_right start, Nat.add_sub_cancel_left, List.getElem?_append_left within,
      List.getElem?_eq_getElem within]
  rw [here, Function.comp, List.getElem?_append_right (same ▸ start), same, Nat.add_sub_cancel_left,
    List.getElem?_append_left (by simpa using within), List.getElem?_map, List.getElem?_eq_getElem within]
  simp [WireFormat.blanked]

theorem masked_blanked (whole : Whole source []) (shown : masked .code source = some out) : Blanked source out := by
  obtain ⟨text, fits⟩ := whole.fits
  have masked := fits.masked
  rw [List.append_nil, shown] at masked
  obtain rfl : out = text := by simpa [WireFormat.masked, maskFrom] using masked
  have outside (i : Nat) (other : ¬ Covered source i) : out[i]? = source[i]? := by
    by_cases within : i < source.length
    · have kept := fits.kept i within
      rw [List.append_nil] at kept
      exact kept.resolve_right other
    · rw [List.getElem?_eq_none (Nat.le_of_not_lt within),
        List.getElem?_eq_none (fits.length ▸ Nat.le_of_not_lt within)]
  refine ⟨fits.length, fun i => ?_, outside, fun i covered => covered.blanked shown⟩
  by_cases covered : Covered source i
  · rw [covered.blanked shown]
    by_cases newline : source[i]? = some '\n' <;> simp [newline]
  · rw [outside i covered]

theorem unclosed_masked (unclosed : Unclosed source) : masked .code source = none := by
  obtain ⟨front, rest, rfl, whole, stays⟩ := unclosed
  obtain ⟨shown, fits⟩ := whole.fits
  rw [fits.masked, Masked.opener, Masked.unclosed stays]
  rfl

theorem whole_masked (whole : Whole source []) : ∃ out, masked .code source = some out := by
  obtain ⟨shown, fits⟩ := whole.fits
  have found := fits.masked
  rw [List.append_nil] at found
  exact ⟨shown, found.trans (by simp [masked, maskFrom])⟩

-- Masking fails for a block comment that is never closed and for nothing else. Otherwise it
-- blanks the block comments, once and for all, and the tokens are those of the text it leaves.
theorem mask_exact (source : String) :
    Unclosed source.toList ∧ mask? source.toList = none ∧
        tokenize source = .error (.unclosedComment (1 + source.toList.count '\n')) ∨
      ¬ Unclosed source.toList ∧ ∃ out, mask? source.toList = some out ∧ Blanked source.toList out ∧
        mask? out = some out ∧ tokenize (String.ofList out) = tokenize source := by
  rcases whole_or_unclosed source.toList with whole | unclosed
  · obtain ⟨out, shown⟩ := whole_masked whole
    have again : mask? out = some out := whole.masked_again rfl (by rwa [List.append_nil])
    refine .inr ⟨fun unclosed => ?_, out, shown, masked_blanked whole shown, again, ?_⟩
    · rw [unclosed_masked unclosed] at shown
      cases shown
    · have found : mask? source.toList = some out := shown
      rw [tokenize, tokenize, String.toList_ofList, again, found]
  · have nothing : mask? source.toList = none := unclosed_masked unclosed
    exact .inl ⟨unclosed, nothing, tokenize_refused.mpr ⟨nothing, by rw [lastLine, Nat.add_comm]⟩⟩

-- The slash of an opener closes nothing, and a line comment opens nothing.
example : (mask? "a/*/*/ */\n*/ //*b".toList).map String.ofList = some "a        \n   //*b" := by decide +kernel

end WireFormat
