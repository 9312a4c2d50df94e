import WireFormat.Proofs.Parted
import WireFormat.Proofs.Relined
import WireFormat.Proofs.Scanned

namespace WireFormat

-- Two sources one below the other: each is read as it is alone, and the second one's
-- lines go on where the first one ends.

def LexicalError.reline (lines : Nat → Nat) : LexicalError → LexicalError
  | .unclosedComment line => .unclosedComment (lines line)

theorem lastLine_joined (first second : List Char) :
    lastLine (first ++ '\n' :: second) = lastLine second + lastLine first := by
  rw [lastLine_append, List.count_cons_self, lastLine, lastLine]
  omega

theorem newline_bars {rest more : List Char} (other : b ≠ '\n') (apart : ∀ tail, c = a → rest = b :: tail → False) :
    ∀ tail, c = a → rest ++ '\n' :: more = b :: tail → False := by
  intro tail same split
  cases rest with
  | nil => exact other (List.cons.inj split).1.symm
  | cons d letters =>
    obtain ⟨rfl, _⟩ := List.cons.inj split
    exact apart letters same rfl

theorem maskFrom_joined (shown : maskFrom region out source = some result) (more : List Char) :
    maskFrom region out (source ++ '\n' :: more) = maskFrom .code (result.push '\n') more := by
  fun_induction maskFrom region out source with
  | case1 => cases shown
  | case2 region out closed =>
    cases shown
    cases region with
    | code => simp [maskFrom]
    | line => simp [maskFrom]
    | block outer => exact absurd rfl (closed outer)
  | case3 out rest ih => exact ih shown
  | case4 out rest ih => exact ih shown
  | case5 out c rest slashes opens ih =>
    rw [List.cons_append, maskFrom, ih shown]
    · exact newline_bars (by decide) slashes
    · exact newline_bars (by decide) opens
  | case6 out c rest ih =>
    rw [List.cons_append, maskFrom, ih shown]
  | case7 outer out rest ih => exact ih shown
  | case8 outer out rest ih => exact ih shown
  | case9 outer out c rest opens ends ih =>
    rw [List.cons_append, maskFrom, ih shown]
    · exact newline_bars (by decide) opens
    · exact newline_bars (by decide) ends

theorem LineEnds.newline (ends : LineEnds front) (more : List Char) : LineEnds (front ++ '\n' :: more) := by
  cases front with
  | nil => exact fun c head => (Option.some.inj head).symm
  | cons c tail => exact ends

-- More text after what the gap stands before: there is a head already, by which a line
-- comment ends or not.
theorem Gap.extend (apart : Gap gap rest) (some : rest ≠ []) (more : List Char) : Gap gap (rest ++ more) := by
  induction apart with
  | nil => exact .nil
  | blank blank _ ih => exact .blank blank (ih some)
  | @line body gap rest single ends _ ih =>
    refine .line single ?_ (ih some)
    rw [← List.append_assoc]
    intro c head
    refine ends c ?_
    rwa [List.head?_append_of_ne_nil _ (by simp [some])] at head
  | block closes _ ih => exact .block closes (ih some)

theorem Gap.newline (apart : Gap front []) (later : Gap gap rest) : Gap (front ++ '\n' :: gap) rest := by
  generalize last : ([] : List Char) = after at apart
  induction apart with
  | nil => exact .blank rfl later
  | blank blank _ ih => exact .blank blank (ih last)
  | @line body inner after single ends _ ih =>
    subst last
    rw [List.append_nil] at ends
    have stops : LineEnds (inner ++ '\n' :: gap ++ rest) := by
      rw [List.append_assoc]
      exact ends.newline (gap ++ rest)
    rw [List.append_assoc]
    exact .line single stops (ih rfl)
  | block closes _ ih =>
    rw [List.append_assoc]
    exact .block closes (ih last)

theorem laid_joined (laid : Laid passed text tokens) :
    ∃ words, tokens = words ++ [Token.endAt (lastLine (passed ++ text))] ∧
      ∀ more others, Laid (passed ++ text ++ ['\n']) more others →
        Laid passed (text ++ '\n' :: more) (words ++ others) := by
  induction laid with
  | @stop text passed apart =>
    refine ⟨[], rfl, fun more others later => ?_⟩
    rw [List.append_assoc] at later
    have joined := later.grow fun gap tail _ more => by
      rw [List.append_assoc]
      exact apart.newline more
    rwa [List.append_assoc] at joined
  | @token gap word rest kind passed tokens apart shut stands _ ih =>
    obtain ⟨words, rfl, joins⟩ := ih
    refine ⟨⟨kind, String.ofList word, lastLine (passed ++ gap)⟩ :: words, ?_, fun more others later => ?_⟩
    · simp
    · have some : word ++ rest ≠ [] := List.append_ne_nil_of_left_ne_nil stands.read.some rest
      have blank : ∀ c ∈ ('\n' :: more).head?, Lexeme.isBlank c = true := by
        rintro _ ⟨⟩
        rfl
      have joined := joins more others (by simpa using later)
      have apart := apart.extend some ('\n' :: more)
      obtain ⟨stands, shut⟩ := stands.before_blank shut blank
      rw [List.append_assoc word] at apart shut stands
      rw [List.append_assoc gap, List.append_assoc word]
      exact .token apart shut stands joined

theorem laid_shifted (laid : Laid passed text tokens) (before : List Char) (lines : Nat)
    (start : lastLine before = lastLine passed + lines) : Laid before text (tokens.map (Token.reline (· + lines))) := by
  induction laid generalizing before with
  | @stop text passed apart =>
    have last : lastLine (before ++ text) = lastLine (passed ++ text) + lines := by
      rw [lastLine_append, lastLine_append, start]
      omega
    have stop : Laid before text _ := .stop apart
    rw [last] at stop
    exact stop
  | @token gap word rest kind passed tokens apart shut stands more ih =>
    have here : lastLine (before ++ gap) = lastLine (passed ++ gap) + lines := by
      rw [lastLine_append, lastLine_append, start]
      omega
    have next : lastLine (before ++ gap ++ word) = lastLine (passed ++ gap ++ word) + lines := by
      rw [lastLine_append, lastLine_append _ word, here]
      omega
    have token := Laid.token apart shut stands (ih _ next)
    rw [here] at token
    exact token

theorem tokenize_refused : tokenize source = .error error ↔
    mask? source.toList = none ∧ error = .unclosedComment (lastLine source.toList) := by
  unfold tokenize
  cases mask? source.toList with
  | none => simp [eq_comm]
  | some text => simp

theorem mask_joined (shown : mask? first = some out) (second : List Char) :
    mask? (first ++ '\n' :: second) = none ↔ mask? second = none := by
  obtain ⟨result, coded, _⟩ := Option.map_eq_some_iff.mp shown
  have after := maskFrom_append .code (result.push '\n') #[] second
  rw [Array.append_empty] at after
  rw [mask?, mask?, maskFrom_joined coded, after]
  simp

theorem toList_joined (first second : String) :
    (first ++ "\n" ++ second).toList = first.toList ++ '\n' :: second.toList := by
  simp

theorem joined_refused (read : tokenize first = .ok tokens) (refused : tokenize second = .error error) :
    tokenize (first ++ "\n" ++ second) = .error (error.reline (· + lastLine first.toList)) := by
  obtain ⟨cut, rfl⟩ := tokenize_refused.mp refused
  cases shown : mask? first.toList with
  | none =>
    rw [tokenize_refused.mpr ⟨shown, rfl⟩] at read
    cases read
  | some out =>
    have unclosed := (mask_joined shown second.toList).mpr cut
    refine tokenize_refused.mpr ⟨?_, ?_⟩
    · rw [toList_joined, unclosed]
    · rw [toList_joined, lastLine_joined]
      rfl

-- The second source starts afresh on the line after the first: its tokens follow those of
-- the first, and if it cannot be read, then the two together fail where it does.
theorem tokenize_joined (read : tokenize first = .ok tokens) (second : String) :
    ∃ words, tokens = words ++ [Token.endAt (lastLine first.toList)] ∧
      tokenize (first ++ "\n" ++ second) =
        match tokenize second with
        | .ok others => .ok (words ++ others.map (Token.reline (· + lastLine first.toList)))
        | .error error => .error (error.reline (· + lastLine first.toList)) := by
  obtain ⟨words, split, joins⟩ := laid_joined (tokenize_laid read)
  refine ⟨words, split, ?_⟩
  cases after : tokenize second with
  | ok others =>
    have start : lastLine ([] ++ first.toList ++ ['\n']) = lastLine [] + lastLine first.toList := by
      rw [List.nil_append, lastLine_joined]
    have laid := joins second.toList _ (laid_shifted (tokenize_laid after) _ _ start)
    rw [← toList_joined] at laid
    exact tokenize_scanned laid
  | error error => exact joined_refused read after

def commented : List Token := [⟨.ident, "a", 1⟩, .endAt 2]

-- The opener stands in a line comment, so the closer below it is none.
theorem tokenize_joined_comment : tokenize "a\n// /*" = .ok commented ∧
    ∃ words, commented = words ++ [Token.endAt (lastLine "a\n// /*".toList)] ∧
      tokenize ("a\n// /*" ++ "\n" ++ "*/") =
        match tokenize "*/" with
        | .ok others => .ok (words ++ others.map (Token.reline (· + lastLine "a\n// /*".toList)))
        | .error error => .error (error.reline (· + lastLine "a\n// /*".toList)) := by
  have read : tokenize "a\n// /*" = .ok commented := by decide +kernel
  exact ⟨read, tokenize_joined read "*/"⟩

end WireFormat
