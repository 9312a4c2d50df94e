import Mathlib.Data.List.Forall2
import WireFormat.Proofs.Layout
import WireFormat.Proofs.Parsed

namespace WireFormat

-- How the tokens of a source fall into those of its declarations, and on which lines.

theorem laid_lines (laid : Laid passed text tokens) :
    (∀ token ∈ tokens, lastLine passed ≤ token.line ∧ token.line ≤ lastLine (passed ++ text)) ∧
      tokens.Pairwise fun earlier later => earlier.line ≤ later.line := by
  induction laid with
  | stop apart =>
    refine ⟨List.forall_mem_singleton.mpr ⟨?_, Nat.le_refl _⟩, List.pairwise_singleton _ _⟩
    rw [Token.endAt, lastLine_append]
    exact Nat.le_add_right _ _
  | @token gap word rest kind passed tokens _ _ _ more ih =>
    obtain ⟨lines, ordered⟩ := ih
    simp only [lastLine_append, List.count_append] at lines ⊢
    refine ⟨List.forall_mem_cons.mpr ⟨by simp only; omega, fun token member => ?_⟩,
      List.pairwise_cons.mpr ⟨fun token member => ?_, ordered⟩⟩
    · have here := lines token member
      omega
    · have here := lines token member
      simp only
      omega

theorem laid_end (laid : Laid passed text tokens) : ∃ token ∈ tokens, token.kind = .eof := by
  induction laid with
  | stop => exact ⟨_, .head _, rfl⟩
  | token _ _ _ _ ih =>
    obtain ⟨token, member, ended⟩ := ih
    exact ⟨token, .tail _ member, ended⟩

theorem tokenize_laid (done : tokenize source = .ok tokens) : Laid [] source.toList tokens := by
  unfold tokenize at done
  cases shown : mask? source.toList with
  | none => simp [shown] at done
  | some out =>
    simp only [shown, Except.ok.injEq] at done
    exact done ▸ scan_laid source.toList out [] shown

theorem several_spans (given : Several spelt items tokens) :
    ∃ spans, tokens = spans.flatten ∧ List.Forall₂ spelt items spans := by
  induction given with
  | nil => exact ⟨[], rfl, .nil⟩
  | @cons item front items back head _ ih =>
    obtain ⟨spans, rfl, all⟩ := ih
    exact ⟨front :: spans, rfl, .cons head all⟩

namespace Reader

theorem takes_plain (takes : Takes advance reader taken after) : ∀ token ∈ taken, token.kind ≠ .eof := by
  induction taken generalizing reader with
  | nil => exact nofun
  | cons token rest ih =>
    obtain ⟨middle, next, takes⟩ := takes_cons.mp takes
    refine List.forall_mem_cons.mpr ⟨fun ended => ?_, ih takes⟩
    rw [reader.advance_eof token ended] at next
    cases next

theorem feed_parts (reader : Reader) (tokens : List Token) :
    ∃ taken, tokens = taken ++ (reader.feed tokens).2 ∧ Takes advance reader taken (reader.feed tokens).1 := by
  induction tokens generalizing reader with
  | nil => exact ⟨[], rfl, takes_nil.mpr rfl⟩
  | cons token rest ih =>
    cases next : reader.advance token with
    | none => exact ⟨[], by simp [feed, next], takes_nil.mpr (by simp [feed, next])⟩
    | some middle =>
      obtain ⟨taken, split, takes⟩ := ih middle
      refine ⟨token :: taken, ?_, .cons next ?_⟩
      · simpa [feed, next] using split
      · simpa [feed, next] using takes

theorem start_decls {reader after : Reader} (next : reader.start token = some after) :
    after.decls = reader.decls := by
  simp only [start] at next
  split at next
  · cases next
    rfl
  · cases next
    rfl
  · obtain ⟨_, ⟨⟩⟩ := Option.ite_none_left_eq_some.mp next
    rfl
  · obtain ⟨_, ⟨⟩⟩ := Option.ite_none_left_eq_some.mp next
    rfl
  · cases next
    rfl
  · obtain ⟨line, _, rfl⟩ := Option.map_eq_some_iff.mp next
    rfl

theorem add_decls (reader : Reader) (member : Member) : reader.decls.size ≤ (reader.add member).decls.size := by
  obtain ⟨decls, bodies, focus⟩ := reader
  cases bodies with
  | nil => simp [add, declare]
  | cons => exact Nat.le_refl _

theorem advance_decls {reader after : Reader} (next : reader.advance token = some after) :
    reader.decls.size ≤ after.decls.size := by
  obtain ⟨decls, bodies, focus⟩ := reader
  cases focus with
  | idle => exact Nat.le_of_eq (congrArg Array.size (start_decls next).symm)
  | externWord | structWord | structClosed =>
    obtain ⟨_, ⟨⟩⟩ := Option.ite_none_right_eq_some.mp next
    exact Nat.le_refl _
  | external =>
    obtain ⟨_, ⟨⟩⟩ := Option.ite_none_right_eq_some.mp next
    simp [declare]
  | structNamed =>
    obtain ⟨_, ⟨⟩⟩ := Option.ite_none_right_eq_some.mp next
    exact add_decls _ _
  | line | select =>
    simp only [advance] at next
    split at next
    · cases next
      exact add_decls _ _
    · obtain ⟨_, _, rfl⟩ := Option.map_eq_some_iff.mp next
      exact Nat.le_refl _
  | enum =>
    simp only [advance] at next
    split at next
    · cases next
      simp [declare]
    · obtain ⟨_, _, rfl⟩ := Option.map_eq_some_iff.mp next
      exact Nat.le_refl _

theorem feed_decls (reader : Reader) (tokens : List Token) :
    reader.decls.size ≤ (reader.feed tokens).1.decls.size := by
  induction tokens generalizing reader with
  | nil => exact Nat.le_refl _
  | cons token rest ih =>
    cases next : reader.advance token with
    | none => simp [feed, next]
    | some middle =>
      simp only [feed, next]
      exact (advance_decls next).trans (ih middle)

theorem feed_refuses (ended : ∃ token ∈ tokens, token.kind = .eof) :
    ∃ token rest, (initial.feed tokens).2 = token :: rest := by
  obtain ⟨taken, split, takes⟩ := feed_parts initial tokens
  obtain ⟨stop, member, ended⟩ := ended
  rw [split] at member
  rcases List.mem_append.mp member with early | late
  · exact absurd ended (takes_plain takes stop early)
  · exact List.exists_cons_of_ne_nil (List.ne_nil_of_mem late)

theorem feed_decls_spelt (spelt : Several DeclSpelt others tokens) (more : List Token) :
    others.length ≤ (initial.feed (tokens ++ more)).1.decls.size := by
  have fed : initial.feed tokens = _ := feed_taken (decls_inside spelt #[])
  have after := feed_decls ⟨(#[] : Array Decl) ++ others, [], .idle⟩ more
  rw [feed_append initial tokens more (congrArg Prod.snd fed), fed]
  simpa using after

end Reader

-- The tokens of each declaration that was read, and the rest, where the reading stopped.
structure Parted (tokens : List Token) (parsed : Parsed) (spans : List (List Token)) (rest : List Token) : Prop where
  tokens : tokens = spans.flatten ++ rest
  spelt : List.Forall₂ DeclSpelt parsed.decls spans
  complete : ∀ decl span, DeclSpelt decl span → ¬ span <+: rest
  stopped : ∀ error ∈ parsed.error, error.token ∈ rest

theorem parse_decls (tokens : List Token) : (parse tokens).decls = (Reader.initial.feed tokens).1.decls.toList := rfl

theorem parse_stopped (stops : (Reader.initial.feed tokens).2 = token :: rest) :
    ∀ error ∈ (parse tokens).error, error.token = token := by
  intro error found
  simp only [parse, stops, List.headD_cons] at found
  split at found
  · cases found
  · cases found
    rfl

theorem parse_parted (ended : ∃ token ∈ tokens, token.kind = .eof) :
    ∃ spans rest, Parted tokens (parse tokens) spans rest := by
  obtain ⟨taken, split, takes⟩ := Reader.feed_parts .initial tokens
  obtain ⟨refused, unread, stops⟩ := Reader.feed_refuses ended
  have held := takes_held initial_held takes
  have decls := parse_decls tokens
  rw [List.nil_append] at held
  rw [stops] at split
  generalize (Reader.initial.feed tokens).1 = reader at held decls
  obtain @⟨front, bodies, middle, focus, back, all, read, _, _⟩ := held
  obtain ⟨spans, rfl, spelt⟩ := several_spans read
  refine ⟨spans, middle ++ back ++ refused :: unread, ?_, decls ▸ spelt, ?_, ?_⟩
  · simpa using split
  · intro decl span one before
    obtain ⟨more, same⟩ := before
    have longer := Reader.feed_decls_spelt (read.snoc one) more
    have cut : spans.flatten ++ span ++ more = tokens := by
      rw [split, List.append_assoc, same]
      simp
    have whole : (Reader.initial.feed tokens).1.decls.toList = all.toList := decls
    rw [cut, ← Array.length_toList, whole] at longer
    simp only [List.length_append, List.length_singleton] at longer
    exact absurd longer (Nat.not_succ_le_self _)
  · intro error found
    rw [parse_stopped stops error found]
    simp

end WireFormat
