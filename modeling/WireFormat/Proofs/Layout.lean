import WireFormat.Proofs.Breaks
import WireFormat.Proofs.Gap
import WireFormat.Tokens

namespace WireFormat

-- Where a gap could go on, no token starts.
def OpensGap (text : List Char) : Prop :=
  (∃ c ∈ text.head?, Lexeme.isBlank c = true) ∨ ['/', '/'] <+: text ∨ ['/', '*'] <+: text

-- How the tokens lie in a text that comes after `passed`.
inductive Laid : List Char → List Char → List Token → Prop where
  | stop (apart : Gap text []) : Laid passed text [Token.endAt (lastLine (passed ++ text))]
  | token (apart : Gap gap (word ++ rest)) (shut : ¬ OpensGap (word ++ rest))
      (stands : Stands (word ++ rest) kind word) (more : Laid (passed ++ gap ++ word) rest tokens) :
      Laid passed (gap ++ (word ++ rest))
        (⟨kind, String.ofList word, lastLine (passed ++ gap)⟩ :: tokens)

theorem lastLine_append (passed text : List Char) :
    lastLine (passed ++ text) = lastLine passed + text.count '\n' := by
  rw [lastLine, List.count_append, lastLine]
  omega

theorem Laid.grow (laid : Laid (passed ++ front) rest tokens)
    (joins : ∀ gap tail, gap ++ tail = rest → Gap gap tail → Gap (front ++ gap) tail) :
    Laid passed (front ++ rest) tokens := by
  cases laid with
  | stop apart =>
    rw [List.append_assoc]
    exact .stop (joins rest [] (List.append_nil rest) apart)
  | token apart shut stands more =>
    rw [List.append_assoc passed] at more ⊢
    rw [← List.append_assoc front]
    exact .token (joins _ _ rfl apart) shut stands more

theorem scan_blanks (blank : ∀ c ∈ blanks, Lexeme.isBlank c = true) (line : Nat) (rest : List Char) :
    scan line #[] (blanks ++ rest) = scan (line + blanks.count '\n') #[] rest := by
  induction blanks generalizing line with
  | nil => rfl
  | cons c tail ih =>
    obtain ⟨head, others⟩ := List.forall_mem_cons.mp blank
    rw [List.cons_append, scan, if_pos head, ih others, lineAfter]
    by_cases newline : c = '\n'
    · rw [if_pos newline, newline, List.count_cons_self, Nat.add_assoc, Nat.add_comm 1]
    · rw [if_neg newline, List.count_cons_of_ne newline]

theorem masked_head (shown : masked .code (c :: rest) = some out) :
    ∃ d tail, out = d :: tail ∧ (d = c ∨ c = '/' ∧ d = ' ') := by
  by_cases slashes : ['/', '/'] <+: c :: rest
  · obtain ⟨after, split⟩ := slashes
    have slash : c = '/' := (List.cons.inj split).1.symm
    rw [← split, List.cons_append, List.cons_append, List.nil_append, Masked.comment] at shown
    obtain ⟨tail, _, rfl⟩ := Option.map_eq_some_iff.mp shown
    exact ⟨'/', '/' :: tail, rfl, .inl slash.symm⟩
  · by_cases opens : ['/', '*'] <+: c :: rest
    · obtain ⟨after, split⟩ := opens
      have slash : c = '/' := (List.cons.inj split).1.symm
      rw [← split, List.cons_append, List.cons_append, List.nil_append, Masked.opener] at shown
      obtain ⟨tail, _, rfl⟩ := Option.map_eq_some_iff.mp shown
      exact ⟨' ', ' ' :: tail, rfl, .inr ⟨slash, rfl⟩⟩
    · rw [Masked.code slashes opens] at shown
      obtain ⟨tail, _, rfl⟩ := Option.map_eq_some_iff.mp shown
      exact ⟨c, tail, rfl, .inl rfl⟩

theorem masked_pair (shown : masked .code (c :: rest) = some out) (slashes : ¬ ['/', '/'] <+: c :: rest)
    (opens : ¬ ['/', '*'] <+: c :: rest) (solid : b ≠ ' ') (apart : ¬ ['/', b] <+: c :: rest) :
    ¬ ['/', b] <+: out := by
  rw [Masked.code slashes opens] at shown
  obtain ⟨tail, coded, rfl⟩ := Option.map_eq_some_iff.mp shown
  intro given
  obtain ⟨more, split⟩ := given
  obtain ⟨rfl, rfl⟩ := List.cons.inj split
  cases rest with
  | nil => cases coded
  | cons d after =>
    obtain ⟨e, others, same, slash | ⟨_, blank⟩⟩ := masked_head coded
    · obtain ⟨rfl, _⟩ := List.cons.inj same
      exact apart ⟨after, by rw [← slash]; rfl⟩
    · obtain ⟨rfl, _⟩ := List.cons.inj same
      exact solid blank

theorem masked_slashes (shown : masked .code (c :: rest) = some out) (slashes : ¬ ['/', '/'] <+: c :: rest)
    (opens : ¬ ['/', '*'] <+: c :: rest) : ¬ ['/', '/'] <+: out :=
  masked_pair shown slashes opens (by decide) slashes

theorem masked_breaks (shown : masked .code source = some out) (stops : ∀ c ∈ source.head?, c ∈ breaks) :
    ∀ c ∈ out.head?, c ∈ breaks := by
  cases source with
  | nil =>
    cases shown
    exact nofun
  | cons c rest =>
    obtain ⟨d, tail, rfl, same⟩ := masked_head shown
    rintro _ ⟨⟩
    rcases same with rfl | ⟨_, rfl⟩
    · exact stops d rfl
    · decide

theorem masked_lineEnds (shown : masked .code source = some out) (ends : LineEnds source) : LineEnds out := by
  cases source with
  | nil =>
    cases shown
    exact nofun
  | cons c rest =>
    obtain ⟨d, tail, rfl, same⟩ := masked_head shown
    have newline : c = '\n' := ends c rfl
    rintro _ ⟨⟩
    rcases same with rfl | ⟨rfl, _⟩
    · exact newline
    · cases newline

theorem scan_comment (single : '\n' ∉ body) (ends : LineEnds rest) (line : Nat) :
    scan line #[] ('/' :: '/' :: body ++ rest) = scan line #[] rest := by
  have inside : ∀ c ∈ '/' :: body, decide (c ≠ '\n') = true := by
    intro c member
    rw [decide_eq_true_iff]
    rintro rfl
    simp [single] at member
  have stops : rest.dropWhile (· ≠ '\n') = rest := by
    cases rest with
    | nil => rfl
    | cons c tail => exact List.dropWhile_cons_of_neg (by simp [ends c rfl])
  have passes : ('/' :: (body ++ rest)).dropWhile (· ≠ '\n') = rest := by
    rw [← List.cons_append, List.dropWhile_append_of_pos inside, stops]
  rw [List.cons_append, List.cons_append, scan, if_neg (by decide), if_pos ⟨rfl, rfl⟩, passes]

theorem scan_token (solid : Lexeme.isBlank c = false) (single : ¬ ['/', '/'] <+: c :: rest) (line : Nat) :
    (scan line #[] (c :: rest)).toList =
      ⟨(Lexeme.first (c :: rest)).kind,
        String.ofList ((c :: rest).take (Lexeme.first (c :: rest)).length), line⟩ ::
        (scan line #[] ((c :: rest).drop (Lexeme.first (c :: rest)).length)).toList := by
  have slash : ¬ (c = '/' ∧ rest.head? = some '/') := by
    intro given
    obtain ⟨rfl, head⟩ := given
    obtain ⟨tail, rfl⟩ := List.head?_eq_some_iff.mp head
    exact single ⟨tail, rfl⟩
  have split := scan_append line #[⟨(Lexeme.first (c :: rest)).kind,
    String.ofList ((c :: rest).take (Lexeme.first (c :: rest)).length), line⟩] #[]
    ((c :: rest).drop (Lexeme.first (c :: rest)).length)
  rw [Array.append_empty] at split
  rw [scan, if_neg (by simp [solid]), if_neg slash]
  exact (congrArg Array.toList split).trans Array.toList_append

theorem token_parts (shown : masked .code (c :: rest) = some out) (slashes : ¬ ['/', '/'] <+: c :: rest)
    (opens : ¬ ['/', '*'] <+: c :: rest) (solid : Lexeme.isBlank c = false) :
    ∃ word tail after, c :: rest = word ++ tail ∧ out = word ++ after ∧
      word = out.take (Lexeme.first out).length ∧ word ≠ [] ∧ '\n' ∉ word ∧
      Stands (word ++ tail) (Lexeme.first out).kind word ∧ masked .code tail = some after := by
  obtain ⟨front, back, rfl, _, bare, stops⟩ := run_parts (fun c => !breaks.contains c) rest
  have bare : ∀ d ∈ front, d ∉ breaks := by simpa using bare
  have stops : ∀ d ∈ back.head?, d ∈ breaks := by simpa using stops
  have noSlash : '/' ∉ front := fun member => bare '/' member (by decide)
  rw [Masked.code slashes opens, Masked.plain front back noSlash, Option.map_map] at shown
  obtain ⟨after, coded, rfl⟩ := Option.map_eq_some_iff.mp shown
  simp only [Function.comp, List.singleton_append, ← List.cons_append]
  have some : c :: front ≠ [] := List.cons_ne_nil c front
  have first : Stands (c :: front ++ after) _ _ := first_stands (List.cons_ne_nil c _)
  have stands := (stands_local some (masked_breaks coded stops)).mp first
  obtain ⟨⟨more, split⟩, nonempty, _⟩ := stands.read
  generalize (c :: front ++ after).take (Lexeme.first (c :: front ++ after)).length = word at *
  have inside : ∀ d ∈ word, d ∈ c :: front := fun d member => split ▸ List.mem_append_left more member
  have rest : '/' ∉ more := by
    cases word with
    | nil => exact absurd rfl nonempty
    | cons d tail =>
      obtain ⟨rfl, rfl⟩ := List.cons.inj split
      exact fun member => noSlash (List.mem_append_right tail member)
  refine ⟨word, more ++ back, more ++ after, ?_, ?_, rfl, nonempty, ?_, ?_, ?_⟩
  · rw [← List.append_assoc, split]
  · rw [← List.append_assoc, split]
  · intro member
    rcases List.mem_cons.mp (inside _ member) with rfl | later
    · cases solid
    · exact bare _ later (by decide)
  · rw [← List.append_assoc, split]
    exact (stands_local some stops).mpr stands
  · rw [Masked.plain more back rest, coded]
    rfl

-- Scanning what a text is masked to gives its tokens as they lie.
def Scans (source : List Char) : Prop :=
  ∀ out passed, masked .code source = some out → Laid passed source (scan (lastLine passed) #[] out).toList

theorem scans_comment (further : ∀ after : List Char, after.length < rest.length + 2 → Scans after) :
    Scans ('/' :: '/' :: rest) := by
  intro out passed shown
  rw [Masked.comment] at shown
  obtain ⟨tail, found, rfl⟩ := Option.map_eq_some_iff.mp shown
  obtain ⟨body, after, out, rfl, rfl, single, ends, coded⟩ := Masked.line_parts found
  have shorter : after.length < (body ++ after).length + 2 := by
    rw [List.length_append]
    omega
  have more := further after shorter out (passed ++ ('/' :: '/' :: body)) coded
  have line : lastLine (passed ++ ('/' :: '/' :: body)) = lastLine passed := by
    simp [lastLine_append, List.count_eq_zero_of_not_mem single]
  rw [line] at more
  change Laid passed ('/' :: '/' :: body ++ after) (scan _ #[] ('/' :: '/' :: body ++ out)).toList
  rw [scan_comment single (masked_lineEnds coded ends)]
  exact more.grow fun gap tail split apart => .line single (split ▸ ends) apart

theorem scans_block (further : ∀ after : List Char, after.length < rest.length + 2 → Scans after) :
    Scans ('/' :: '*' :: rest) := by
  intro out passed shown
  rw [Masked.opener] at shown
  obtain ⟨tail, found, rfl⟩ := Option.map_eq_some_iff.mp shown
  obtain ⟨body, after, blanks, out, rfl, rfl, closes, hidden, coded⟩ := Masked.block_parts 0 found
  have shorter : after.length < (body ++ after).length + 2 := by
    rw [List.length_append]
    omega
  have more := further after shorter out (passed ++ ('/' :: '*' :: body)) coded
  have blank := Masked.Blanks.opener.append hidden
  have line : lastLine (passed ++ ('/' :: '*' :: body)) =
      lastLine passed + ([' ', ' '] ++ blanks).count '\n' := by
    rw [lastLine_append, blank.lines]
    rfl
  rw [line] at more
  change Laid passed ('/' :: '*' :: body ++ after) _
  rw [← List.append_assoc, scan_blanks blank.blank]
  exact more.grow fun gap tail _ apart => .block closes apart

theorem scans_blank (slashes : ¬ ['/', '/'] <+: c :: rest) (opens : ¬ ['/', '*'] <+: c :: rest)
    (blank : Lexeme.isBlank c = true) (further : Scans rest) : Scans (c :: rest) := by
  intro out passed shown
  rw [Masked.code slashes opens] at shown
  obtain ⟨out, coded, rfl⟩ := Option.map_eq_some_iff.mp shown
  have more := further out (passed ++ [c]) coded
  rw [lastLine_append] at more
  rw [scan_blanks (List.forall_mem_singleton.mpr blank)]
  exact more.grow fun gap tail _ apart => .blank blank apart

theorem solid_shut (slashes : ¬ ['/', '/'] <+: c :: rest) (opens : ¬ ['/', '*'] <+: c :: rest)
    (solid : Lexeme.isBlank c = false) : ¬ OpensGap (c :: rest) := by
  intro given
  rcases given with ⟨d, head, blank⟩ | comment | opener
  · obtain rfl : c = d := Option.some.inj head
    rw [solid] at blank
    cases blank
  · exact slashes comment
  · exact opens opener

theorem scan_cut (solid : Lexeme.isBlank c = false) (split : c :: rest = word ++ tail) (some : word ≠ [])
    (taken : word = (word ++ after).take (Lexeme.first (word ++ after)).length)
    (apart : ¬ ['/', '/'] <+: word ++ after) (line : Nat) :
    (scan line #[] (word ++ after)).toList =
      ⟨(Lexeme.first (word ++ after)).kind, String.ofList word, line⟩ :: (scan line #[] after).toList := by
  have dropped : (word ++ after).drop (Lexeme.first (word ++ after)).length = after := by
    have whole := List.take_append_drop (Lexeme.first (word ++ after)).length (word ++ after)
    rw [← taken] at whole
    exact List.append_cancel_left whole
  obtain ⟨d, letters, rfl⟩ := List.exists_cons_of_ne_nil some
  obtain ⟨rfl, _⟩ := List.cons.inj split
  have apart : ¬ ['/', '/'] <+: c :: (letters ++ after) := apart
  have step := scan_token solid apart line
  rwa [← List.cons_append, ← taken, dropped] at step

theorem scans_token (slashes : ¬ ['/', '/'] <+: c :: rest) (opens : ¬ ['/', '*'] <+: c :: rest)
    (solid : Lexeme.isBlank c = false)
    (further : ∀ after : List Char, after.length < rest.length + 1 → Scans after) : Scans (c :: rest) := by
  intro out passed shown
  obtain ⟨word, tail, after, split, rfl, taken, nonempty, single, stands, coded⟩ :=
    token_parts shown slashes opens solid
  have shorter : tail.length < rest.length + 1 := by
    have positive := List.length_pos_iff.mpr nonempty
    have same := congrArg List.length split
    rw [List.length_append, List.length_cons] at same
    omega
  have more := further tail shorter after (passed ++ [] ++ word) coded
  have line : lastLine (passed ++ [] ++ word) = lastLine passed := by
    rw [lastLine_append, List.count_eq_zero_of_not_mem single, List.append_nil]
    rfl
  have shut := solid_shut slashes opens solid
  rw [line] at more
  rw [split] at shut ⊢
  rw [scan_cut solid split nonempty taken (masked_slashes shown slashes opens)]
  have laid := Laid.token .nil shut stands more
  rwa [List.append_nil] at laid

theorem scan_laid (source : List Char) : Scans source := by
  induction size : source.length using Nat.strongRecOn generalizing source with
  | ind n ih =>
  have further (after : List Char) (shorter : after.length < n) : Scans after := ih _ shorter after rfl
  by_cases slashes : ['/', '/'] <+: source
  · obtain ⟨rest, rfl⟩ := slashes
    exact scans_comment fun after shorter => further after (size ▸ shorter)
  by_cases opens : ['/', '*'] <+: source
  · obtain ⟨rest, rfl⟩ := opens
    exact scans_block fun after shorter => further after (size ▸ shorter)
  cases source with
  | nil =>
    intro out passed shown
    cases shown
    have done : Laid passed ([] ++ []) [Token.endAt (lastLine (passed ++ ([] ++ [])))] := .stop .nil
    simpa [scan] using done
  | cons c rest =>
    cases blank : Lexeme.isBlank c with
    | true => exact scans_blank slashes opens blank (further rest (by simp [← size]))
    | false => exact scans_token slashes opens blank fun after shorter => further after (size ▸ shorter)

structure Placed where
  gap : List Char
  token : Token

def Placed.text (placed : Placed) : List Char := placed.gap ++ placed.token.text.toList

structure Placed.Sound (placed : Placed) (before after : List Char) : Prop where
  apart : Gap placed.gap (placed.token.text.toList ++ after)
  shut : ¬ OpensGap (placed.token.text.toList ++ after)
  stands : Stands (placed.token.text.toList ++ after) placed.token.kind placed.token.text.toList
  line : placed.token.line = lastLine (before ++ placed.gap)

theorem laid_placed (laid : Laid passed text tokens) :
    ∃ placed final, tokens = placed.map Placed.token ++ [Token.endAt (lastLine (passed ++ text))] ∧
      text = placed.flatMap Placed.text ++ final ∧ Gap final [] ∧
      ∀ before one after, placed = before ++ one :: after →
        one.Sound (passed ++ before.flatMap Placed.text) (after.flatMap Placed.text ++ final) := by
  induction laid with
  | stop apart => exact ⟨[], _, rfl, rfl, apart, by simp⟩
  | @token lead word rest kind passed tokens apart shut stands more ih =>
    obtain ⟨placed, final, rfl, rfl, ends, sound⟩ := ih
    let one : Placed := ⟨lead, ⟨kind, String.ofList word, lastLine (passed ++ lead)⟩⟩
    have text : one.text = lead ++ word := by simp [Placed.text, one]
    refine ⟨one :: placed, final, ?_, ?_, ends, ?_⟩
    · simp [one]
    · simp [text]
    · intro before other after split
      rcases List.cons_eq_append_iff.mp split with ⟨rfl, same⟩ | ⟨before, rfl, same⟩
      · obtain ⟨rfl, rfl⟩ := List.cons.inj same
        have spelled : one.token.text.toList = word := String.toList_ofList
        refine ⟨?_, ?_, ?_, ?_⟩
        · rwa [spelled]
        · rwa [spelled]
        · rwa [spelled]
        · simp [one]
      · have later := sound before other after same
        rw [List.append_assoc, List.append_assoc] at later
        rw [List.flatMap_cons, text]
        simpa using later

-- Nothing is lost: a source is its tokens and the gaps between them, each token is
-- what the scanning order makes of the source there, and its line is the one it is on.
theorem tokenize_placed (done : tokenize source = .ok tokens) :
    ∃ placed final, tokens = placed.map Placed.token ++ [Token.endAt (lastLine source.toList)] ∧
      source.toList = placed.flatMap Placed.text ++ final ∧ Gap final [] ∧
      ∀ before one after, placed = before ++ one :: after →
        one.token.kind ≠ .eof ∧
          one.Sound (before.flatMap Placed.text) (after.flatMap Placed.text ++ final) := by
  unfold tokenize at done
  cases shown : mask? source.toList with
  | none => simp [shown] at done
  | some out =>
    simp only [shown, Except.ok.injEq] at done
    have start : lastLine [] = 1 := rfl
    have laid := scan_laid source.toList out [] shown
    rw [start, done] at laid
    obtain ⟨placed, final, listed, text, ends, sound⟩ := laid_placed laid
    refine ⟨placed, final, listed, text, ends, fun before one after split => ?_⟩
    have one := sound before one after split
    exact ⟨one.stands.read.token, one⟩

theorem tokenize_placed_commented :
    tokenize "/*\n*/a//b" = .ok [⟨.ident, "a", 2⟩, Token.endAt 2] ∧
      ∃ placed final, [⟨.ident, "a", 2⟩, Token.endAt 2] =
          placed.map Placed.token ++ [Token.endAt (lastLine "/*\n*/a//b".toList)] ∧
        "/*\n*/a//b".toList = placed.flatMap Placed.text ++ final ∧ Gap final [] ∧
        ∀ before one after, placed = before ++ one :: after →
          one.token.kind ≠ .eof ∧
            one.Sound (before.flatMap Placed.text) (after.flatMap Placed.text ++ final) := by
  have shown : mask? "/*\n*/a//b".toList = some [' ', ' ', '\n', ' ', ' ', 'a', '/', '/', 'b'] := by decide
  have first : Lexeme.first ['a', '/', '/', 'b'] = ⟨.ident, 1⟩ := by decide
  have scanned : scan 1 #[] [' ', ' ', '\n', ' ', ' ', 'a', '/', '/', 'b'] =
      #[⟨.ident, "a", 2⟩, Token.endAt 2] := by
    simp [scan, Lexeme.isBlank, lineAfter, first]
  have done : tokenize "/*\n*/a//b" = .ok [⟨.ident, "a", 2⟩, Token.endAt 2] := by
    rw [tokenize, shown]
    simp only [scanned]
  exact ⟨done, tokenize_placed done⟩

end WireFormat
