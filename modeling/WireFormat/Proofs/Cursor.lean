import Mathlib.Logic.Relation
import WireFormat.Proofs.Continued
import WireFormat.Proofs.Earliest

namespace WireFormat

-- How far tokens are read: to the first end of the input and never past it, whether one is
-- written or not.

-- The tokens up to the first end of the input, and with it.
def untilEnd : List Token → List Token
  | [] => []
  | token :: rest => if token.kind = .eof then [token] else token :: untilEnd rest

-- The same, with an end on line 1 where none is written.
def closed : List Token → List Token
  | [] => [.endAt 1]
  | token :: rest => if token.kind = .eof then [token] else token :: closed rest

theorem closed_untilEnd (ended : ∃ token ∈ tokens, token.kind = .eof) : closed tokens = untilEnd tokens := by
  induction tokens with
  | nil =>
    obtain ⟨_, ⟨⟩, _⟩ := ended
  | cons token rest ih =>
    rw [closed, untilEnd]
    split
    · rfl
    · rename_i plain
      obtain ⟨stop, member, ended⟩ := ended
      rcases List.mem_cons.mp member with rfl | later
      · exact absurd ended plain
      · rw [ih ⟨stop, later, ended⟩]

theorem closed_append (back : List Token) (plain : ∀ token ∈ front, token.kind ≠ .eof) :
    closed (front ++ back) = front ++ closed back := by
  induction front with
  | nil => rfl
  | cons token rest ih =>
    obtain ⟨first, others⟩ := List.forall_mem_cons.mp plain
    rw [List.cons_append, closed, if_neg first, ih others, List.cons_append]

theorem closed_open (plain : ∀ token ∈ tokens, token.kind ≠ .eof) : closed tokens = tokens ++ [.endAt 1] := by
  have shut := closed_append [] plain
  rwa [List.append_nil] at shut

theorem untilEnd_open {tokens : List Token} (plain : ∀ token ∈ tokens, token.kind ≠ .eof) :
    untilEnd tokens = tokens := by
  induction tokens with
  | nil => rfl
  | cons token rest ih =>
    obtain ⟨first, others⟩ := List.forall_mem_cons.mp plain
    rw [untilEnd, if_neg first, ih others]

theorem closed_closed (tokens : List Token) : closed (closed tokens) = closed tokens := by
  induction tokens with
  | nil => rfl
  | cons token rest ih =>
    by_cases ended : token.kind = .eof
    · rw [closed, if_pos ended, closed, if_pos ended]
    · rw [closed, if_neg ended, closed, if_neg ended, ih]

theorem closed_first (tokens : List Token) : (closed tokens)[0]? = some (tokens.headD (.endAt 1)) := by
  cases tokens with
  | nil => rfl
  | cons token rest =>
    rw [closed]
    split <;> rfl

theorem closed_some (tokens : List Token) : 0 < (closed tokens).length :=
  (List.getElem?_eq_some_iff.mp (closed_first tokens)).1

theorem single_found (here : [one][place]? = some found) : place = 0 ∧ one = found := by
  rw [List.getElem?_singleton] at here
  simpa using here

theorem closed_last (here : (closed tokens)[place]? = some token) :
    token.kind = .eof ↔ place + 1 = (closed tokens).length := by
  induction tokens generalizing place with
  | nil =>
    obtain ⟨rfl, ⟨⟩⟩ := single_found here
    exact iff_of_true rfl rfl
  | cons first rest ih =>
    rw [closed] at here ⊢
    split at here
    · rename_i ended
      obtain ⟨rfl, rfl⟩ := single_found here
      rw [if_pos ended]
      exact iff_of_true ended rfl
    · rename_i plain
      rw [if_neg plain, List.length_cons]
      cases place with
      | zero =>
        cases here
        exact iff_of_false plain fun single => Nat.ne_of_gt (closed_some rest) (Nat.succ.inj single).symm
      | succ place => exact (ih here).trans Nat.succ_inj.symm

theorem closed_written (here : (closed tokens)[place]? = some token) : tokens[place]? = some token ∨
    token = .endAt 1 ∧ place = tokens.length ∧ ∀ other ∈ tokens, other.kind ≠ .eof := by
  induction tokens generalizing place with
  | nil =>
    obtain ⟨rfl, ⟨⟩⟩ := single_found here
    exact .inr ⟨rfl, rfl, nofun⟩
  | cons first rest ih =>
    rw [closed] at here
    split at here
    · obtain ⟨rfl, rfl⟩ := single_found here
      exact .inl rfl
    · rename_i plain
      cases place with
      | zero => exact .inl here
      | succ place =>
        refine (ih here).imp id fun ends => ?_
        obtain ⟨last, beyond, others⟩ := ends
        exact ⟨last, congrArg Nat.succ beyond, List.forall_mem_cons.mpr ⟨plain, others⟩⟩

theorem closed_take (within : place < (closed tokens).length) : (closed tokens).take place = tokens.take place := by
  induction tokens generalizing place with
  | nil =>
    obtain rfl := Nat.lt_one_iff.mp within
    rfl
  | cons first rest ih =>
    cases place with
    | zero => rfl
    | succ place =>
      rw [closed] at within ⊢
      split
      · rename_i ended
        rw [if_pos ended] at within
        exact absurd (Nat.lt_of_succ_lt_succ within) (Nat.not_lt_zero place)
      · rename_i plain
        rw [if_neg plain] at within
        exact congrArg (first :: ·) (ih (Nat.lt_of_succ_lt_succ within))

theorem Reader.feed_closed (reader : Reader) (tokens : List Token) :
    (reader.feed (closed tokens)).1 = (reader.feed tokens).1 ∧
      (reader.feed (closed tokens)).2.headD (.endAt 1) = (reader.feed tokens).2.headD (.endAt 1) := by
  induction tokens generalizing reader with
  | nil =>
    have stops : reader.feed (closed []) = (reader, [.endAt 1]) := reader.feed_ended [] rfl
    rw [stops]
    exact ⟨rfl, rfl⟩
  | cons token rest ih =>
    rw [closed]
    split
    · rename_i ended
      have stops (more : List Token) : reader.feed (token :: more) = (reader, token :: more) := by
        rw [feed, reader.advance_eof token ended]
      rw [stops, stops]
      exact ⟨rfl, rfl⟩
    · rw [feed, feed]
      cases reader.advance token with
      | none => exact ⟨rfl, rfl⟩
      | some next => exact ih next

theorem parse_closed (tokens : List Token) : parse tokens = parse (closed tokens) := by
  obtain ⟨reader, token⟩ := Reader.feed_closed .initial tokens
  rw [parse_fed, parse_fed, reader, token]

theorem parse_untilEnd (tokens : List Token) : parse tokens = parse (untilEnd tokens) := by
  by_cases ended : ∃ token ∈ tokens, token.kind = .eof
  · rw [← closed_untilEnd ended, ← parse_closed]
  · rw [untilEnd_open fun token member same => ended ⟨token, member, same⟩]

-- A place in a list of tokens.
structure Cursor where
  tokens : List Token
  pos : Nat

namespace Cursor

-- What stands past the last token: the list's own end of the input where it ends with one.
def atEnd (cursor : Cursor) : Token :=
  (cursor.tokens.getLast?.filter fun token => token.kind = .eof).getD (.endAt 1)

def peek (cursor : Cursor) : Token := cursor.tokens[cursor.pos]?.getD cursor.atEnd

def bump (cursor : Cursor) : Cursor :=
  if cursor.pos < cursor.tokens.length then { cursor with pos := cursor.pos + 1 } else cursor

-- A reading that looks at one token and goes on after it, if it takes it.
inductive Step : Cursor × Reader → Cursor × Reader → Prop where
  | take (accepted : reader.advance (peek cursor) = some next) : Step (cursor, reader) (cursor.bump, next)

abbrev Reads : Cursor × Reader → Cursor × Reader → Prop := Relation.ReflTransGen Step

variable {tokens : List Token}

theorem peek_closed (within : place < (closed tokens).length) :
    (closed tokens)[place]? = some (Cursor.mk tokens place).peek := by
  have here : (closed tokens)[place]? = some _ := List.getElem?_eq_getElem within
  rw [here, peek, atEnd]
  rcases closed_written here with written | ⟨ends, last, plain⟩
  · rw [written, Option.getD_some]
  · have none : (tokens.getLast?.filter fun token => token.kind = .eof) = none := by
      refine Option.filter_eq_none_iff.mpr fun token final => ?_
      exact decide_eq_false (plain token (List.mem_of_getLast? final)) ▸ Bool.false_ne_true
    have beyond : tokens[place]? = Option.none := List.getElem?_eq_none (Nat.le_of_eq last.symm)
    simp only [ends, beyond, none, Option.getD_none]

theorem step_exact (within : place < (closed tokens).length) :
    Step (⟨tokens, place⟩, reader) (after, next) ↔ reader.advance (Cursor.mk tokens place).peek = some next ∧
      place + 1 < (closed tokens).length ∧ after = ⟨tokens, place + 1⟩ := by
  have here := peek_closed within
  constructor
  · rintro ⟨accepted⟩
    have plain : (Cursor.mk tokens place).peek.kind ≠ .eof := by
      intro ended
      rw [reader.advance_eof _ ended] at accepted
      cases accepted
    have more := mt (closed_last here).mpr plain
    rcases closed_written here with written | ⟨ends, _⟩
    · exact ⟨accepted, Nat.lt_of_le_of_ne within more, if_pos (List.getElem?_eq_some_iff.mp written).1⟩
    · exact absurd (congrArg Token.kind ends) plain
  · rintro ⟨accepted, more, rfl⟩
    have plain := mt (closed_last here).mp (Nat.ne_of_lt more)
    rcases closed_written here with written | ⟨ends, _⟩
    · have moved : (Cursor.mk tokens place).bump = ⟨tokens, place + 1⟩ :=
        if_pos (List.getElem?_eq_some_iff.mp written).1
      exact moved ▸ .take accepted
    · exact absurd (congrArg Token.kind ends) plain

theorem reads_exact : Reads (⟨tokens, 0⟩, start) (cursor, reader) ↔ cursor.tokens = tokens ∧
    cursor.pos < (closed tokens).length ∧ Takes Reader.advance start ((closed tokens).take cursor.pos) reader := by
  constructor
  · intro reads
    generalize same : (cursor, reader) = final at reads
    induction reads generalizing cursor reader with
    | refl =>
      cases same
      exact ⟨rfl, closed_some tokens, takes_nil.mpr rfl⟩
    | @tail middle _ _ step ih =>
      subst same
      obtain ⟨⟨tokens, place⟩, before⟩ := middle
      obtain ⟨rfl, within, takes⟩ := ih rfl
      obtain ⟨accepted, more, rfl⟩ := (step_exact within).mp step
      refine ⟨rfl, more, ?_⟩
      rw [List.take_add_one, peek_closed within]
      exact takes.snoc accepted
  · obtain ⟨all, place⟩ := cursor
    rintro ⟨rfl, within, takes⟩
    induction place generalizing reader with
    | zero =>
      cases takes_nil.mp takes
      exact .refl
    | succ place ih =>
      have early : place < (closed all).length := Nat.lt_of_succ_lt within
      rw [List.take_add_one, peek_closed early] at takes
      obtain ⟨middle, before, last⟩ := takes_append.mp takes
      obtain ⟨next, accepted, none⟩ := takes_cons.mp last
      cases takes_nil.mp none
      exact (ih early before).tail ((step_exact early).mpr ⟨accepted, within, rfl⟩)

theorem reads_stop (tokens : List Token) (start : Reader) :
    ∃ cursor, Reads (⟨tokens, 0⟩, start) (cursor, (start.feed tokens).1) ∧
      (start.feed tokens).1.advance cursor.peek = none ∧ cursor.peek = (start.feed tokens).2.headD (.endAt 1) := by
  obtain ⟨taken, split, takes⟩ := start.feed_parts tokens
  have shut : closed tokens = taken ++ closed (start.feed tokens).2 := by
    rw [← closed_append _ (Reader.takes_plain takes), ← split]
  have here : (closed tokens)[taken.length]? = some ((start.feed tokens).2.headD (.endAt 1)) := by
    rw [shut, List.getElem?_append_right (Nat.le_refl _), Nat.sub_self, closed_first]
  have within := (List.getElem?_eq_some_iff.mp here).1
  have stands : (Cursor.mk tokens taken.length).peek = (start.feed tokens).2.headD (.endAt 1) :=
    Option.some.inj ((peek_closed within).symm.trans here)
  refine ⟨⟨tokens, taken.length⟩, reads_exact.mpr ⟨rfl, within, ?_⟩, ?_, stands⟩
  · rwa [shut, List.take_left']
    rfl
  · rw [stands]
    cases stops : (start.feed tokens).2 with
    | nil => exact Reader.advance_eof _ _ rfl
    | cons token rest => exact feed_stopped stops

end Cursor

-- No token after the first end of the input is looked at, and where none is written the
-- tokens end as if one were, whatever has been read before.
theorem parse_bounded :
    (∀ tokens, parse tokens = parse (untilEnd tokens)) ∧
    (∀ tokens, (∀ token ∈ tokens, token.kind ≠ .eof) → parse tokens = parse (tokens ++ [.endAt 1])) ∧
    (∀ tokens, ∃ cursor reader, Cursor.Reads (⟨tokens, 0⟩, .initial) (cursor, reader) ∧
      reader.advance cursor.peek = none ∧ parse tokens = reader.parsed cursor.peek) ∧
    (∀ tokens start cursor reader, Cursor.Reads (⟨tokens, 0⟩, start) (cursor, reader) →
      cursor.tokens = tokens ∧ cursor.pos ≤ tokens.length ∧ (∀ token ∈ tokens.take cursor.pos, token.kind ≠ .eof) ∧
      (cursor.pos = tokens.length → cursor.peek = .endAt 1)) ∧
    ∀ tokens start place reader,
      (Cursor.Reads (⟨tokens, 0⟩, start) (⟨tokens, place⟩, reader) ↔
        Cursor.Reads (⟨closed tokens, 0⟩, start) (⟨closed tokens, place⟩, reader)) ∧
      (Cursor.Reads (⟨tokens, 0⟩, start) (⟨tokens, place⟩, reader) →
        (Cursor.mk tokens place).peek = (Cursor.mk (closed tokens) place).peek) := by
  refine ⟨parse_untilEnd, fun tokens plain => ?_, fun tokens => ?_, fun tokens start cursor reader reads => ?_,
    fun tokens start place reader => ⟨?_, fun reads => ?_⟩⟩
  · rw [parse_closed, closed_open plain]
  · obtain ⟨cursor, reads, refused, stands⟩ := Cursor.reads_stop tokens .initial
    exact ⟨cursor, _, reads, refused, stands ▸ parse_fed tokens⟩
  · obtain ⟨rfl, within, takes⟩ := Cursor.reads_exact.mp reads
    rw [closed_take within] at takes
    have written := closed_written (Cursor.peek_closed within)
    refine ⟨rfl, ?_, Reader.takes_plain takes, fun beyond => ?_⟩
    · refine written.elim (fun here => ?_) fun ends => Nat.le_of_eq ends.2.1
      exact Nat.le_of_lt (List.getElem?_eq_some_iff.mp here).1
    · refine written.elim (fun here => ?_) And.left
      exact absurd beyond (Nat.ne_of_lt (List.getElem?_eq_some_iff.mp here).1)
  · rw [Cursor.reads_exact, Cursor.reads_exact, closed_closed]
    exact and_congr_left fun _ => iff_of_true rfl rfl
  · obtain ⟨_, within, _⟩ := Cursor.reads_exact.mp reads
    have both : place < (closed (closed tokens)).length := by rwa [closed_closed]
    have shut := Cursor.peek_closed both
    rw [closed_closed, Cursor.peek_closed within] at shut
    exact Option.some.inj shut

-- Tokens that go on after the end of the input, and the reader that stands before it.
def pastEnd : List Token := [⟨.structWord, "struct", 1⟩, .endAt 1, ⟨.lBrace, "\x7b", 2⟩]
def opened : Reader := ⟨#[], [], .structWord⟩

theorem parse_bounded_past : (∀ token ∈ lengthLine, token.kind ≠ .eof) ∧
    parse lengthLine = parse (lengthLine ++ [.endAt 1]) ∧
    Cursor.Reads (⟨pastEnd, 0⟩, .initial) (⟨pastEnd, 1⟩, opened) ∧
    (∀ token ∈ pastEnd.take 1, token.kind ≠ .eof) ∧
    Cursor.Reads (⟨[⟨.structWord, "struct", 1⟩, .endAt 1], 0⟩, .initial)
      (⟨[⟨.structWord, "struct", 1⟩, .endAt 1], 1⟩, opened) := by
  obtain ⟨_, without, _, bounded, same⟩ := parse_bounded
  have plain : ∀ token ∈ lengthLine, token.kind ≠ .eof := by decide
  have reads : Cursor.Reads (⟨pastEnd, 0⟩, .initial) (⟨pastEnd, 1⟩, opened) := .single (.take rfl)
  exact ⟨plain, without lengthLine plain, reads, (bounded _ _ _ _ reads).2.2.1, (same pastEnd _ 1 _).1.mp reads⟩

end WireFormat
