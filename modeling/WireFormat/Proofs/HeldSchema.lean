import WireFormat.Proofs.HeldSelect
import WireFormat.Proofs.Taken

namespace WireFormat

-- The same for a reader: the declarations it has completed, the members of each open
-- body, and the construct it is in, one after the other.

-- Each open body after the two tokens that opened it, the outermost one first.
inductive BodiesHeld : List (Array Member) → List Token → Prop where
  | none : BodiesHeld [] []
  | body (outer : BodiesHeld bodies front) (room : bodies.length < maxNesting)
      (word : struct.kind = .structWord) (opens : left.kind = .lBrace)
      (members : Several (MemberSpelt (maxNesting - (bodies.length + 1))) body.toList back) :
      BodiesHeld (body :: bodies) (front ++ struct :: left :: back)

inductive FocusHeld (depth : Nat) : Focus → List Token → Prop where
  | idle : FocusHeld depth .idle []
  | externWord (top : depth = 0) (word : head.kind = .externWord) : FocusHeld depth .externWord [head]
  | external (top : depth = 0) (word : head.kind = .externWord) (ident : name.kind = .ident) :
      FocusHeld depth (.external name) [head, name]
  | line (held : LineHeld reading tokens) : FocusHeld depth (.line reading) tokens
  | enum (top : depth = 0) (word : enum.kind = .enumWord) (held : EnumHeld listing tokens) :
      FocusHeld depth (.enum listing) (enum :: tokens)
  | structWord (room : depth < maxNesting) (word : struct.kind = .structWord) :
      FocusHeld depth .structWord [struct]
  | structClosed (room : depth < maxNesting) (word : struct.kind = .structWord)
      (opens : left.kind = .lBrace) (spelt : Several (MemberSpelt (maxNesting - (depth + 1))) members tokens)
      (closes : right.kind = .rBrace) :
      FocusHeld depth (.structClosed members) (struct :: left :: tokens ++ [right])
  | structNamed (room : depth < maxNesting) (word : struct.kind = .structWord)
      (opens : left.kind = .lBrace) (spelt : Several (MemberSpelt (maxNesting - (depth + 1))) members tokens)
      (closes : right.kind = .rBrace) (ident : name.kind = .ident) :
      FocusHeld depth (.structNamed members name) (struct :: left :: tokens ++ [right, name])
  | select (room : depth < maxNesting) (word : select.kind = .selectWord) (held : SelectHeld choice tokens) :
      FocusHeld depth (.select choice) (select :: tokens)

inductive ReaderHeld : Reader → List Token → Prop where
  | parts (decls : Several DeclSpelt all.toList front) (inner : BodiesHeld bodies middle)
      (inside : FocusHeld bodies.length focus back) : ReaderHeld ⟨all, bodies, focus⟩ (front ++ middle ++ back)

theorem initial_held : ReaderHeld .initial [] := by
  have none : Several DeclSpelt (#[] : Array Decl).toList [] := .nil
  exact .parts none .none .idle

theorem field_member (n : Nat) (spelt : FieldSpelt entry tokens) : MemberSpelt n (.field entry) tokens := by
  cases n with
  | zero => exact ⟨entry, rfl, spelt⟩
  | succ => exact .line spelt

theorem nested_member (room : depth < maxNesting)
    (spelt : NestedSpelt (MemberSpelt (maxNesting - (depth + 1))) member tokens) :
    MemberSpelt (maxNesting - depth) member tokens := by
  have more : maxNesting - depth = maxNesting - (depth + 1) + 1 := by omega
  rw [more]
  exact spelt

theorem declare_held {reader : Reader} (decls : Several DeclSpelt reader.decls.toList front)
    (top : reader.bodies = [])
    (spelt : DeclSpelt decl back) : ReaderHeld (reader.declare decl) (front ++ back) := by
  have longer := decls.snoc spelt
  rw [← Array.toList_push] at longer
  simpa [Reader.declare, top] using ReaderHeld.parts longer .none .idle

theorem add_held {reader : Reader} (decls : Several DeclSpelt reader.decls.toList front)
    (inner : BodiesHeld reader.bodies middle)
    (spelt : MemberSpelt (maxNesting - reader.bodies.length) member back) :
    ReaderHeld (reader.add member) (front ++ middle ++ back) := by
  obtain ⟨all, bodies, focus⟩ := reader
  cases inner with
  | none => simpa [Reader.add] using declare_held decls rfl (.member member spelt)
  | body outer room word opens members =>
    have longer := members.snoc spelt
    rw [← Array.toList_push] at longer
    simpa [Reader.add] using ReaderHeld.parts decls (.body outer room word opens longer) .idle

theorem fresh_body : Several spelt (#[] : Array Member).toList [] := .nil

theorem start_held (decls : Several DeclSpelt all.toList front) (inner : BodiesHeld bodies middle)
    (next : (Reader.mk all bodies focus).start token = some after) :
    ReaderHeld after (front ++ middle ++ [token]) := by
  simp only [Reader.start] at next
  split at next
  · cases next
    exact .parts decls inner (.externWord rfl ‹_›)
  · cases next
    exact .parts decls inner (.enum rfl ‹_› .wanted)
  · simp only [Option.ite_none_left_eq_some, Reader.isFull, decide_eq_true_eq, Nat.not_le] at next
    obtain ⟨room, ⟨⟩⟩ := next
    exact .parts decls inner (.structWord room ‹_›)
  · simp only [Option.ite_none_left_eq_some, Reader.isFull, decide_eq_true_eq, Nat.not_le] at next
    obtain ⟨room, ⟨⟩⟩ := next
    exact .parts decls inner (.select room ‹_› .wanted)
  · cases next
    cases inner with
    | body outer room word opens members =>
      simpa using ReaderHeld.parts decls outer (.structClosed room word opens members ‹_›)
  · obtain ⟨line, starts, rfl⟩ := Option.map_eq_some_iff.mp next
    exact .parts decls inner (.line (line_start starts))

theorem advance_held (held : ReaderHeld reader tokens) (next : reader.advance token = some after) :
    ReaderHeld after (tokens ++ [token]) := by
  obtain ⟨decls, inner, inside⟩ := held
  cases inside with
  | idle => simpa using start_held decls inner next
  | externWord top word =>
    simp only [Reader.advance, Option.ite_none_right_eq_some] at next
    obtain ⟨ident, ⟨⟩⟩ := next
    simpa [Reader.moveTo] using ReaderHeld.parts decls inner (.external top word ident)
  | external top word ident =>
    simp only [Reader.advance, Option.ite_none_right_eq_some] at next
    obtain ⟨ends, ⟨⟩⟩ := next
    obtain rfl := List.eq_nil_of_length_eq_zero top
    cases inner
    simpa using declare_held decls rfl (.external word ident ends)
  | line held =>
    simp only [Reader.advance] at next
    split at next
    · cases next
      simpa using add_held decls inner (field_member _ (line_field held ‹_›))
    · obtain ⟨grown, step, rfl⟩ := Option.map_eq_some_iff.mp next
      simpa [Reader.moveTo] using ReaderHeld.parts decls inner (.line (line_step held step))
  | enum top word held =>
    simp only [Reader.advance] at next
    split at next
    · cases next
      obtain rfl := List.eq_nil_of_length_eq_zero top
      cases inner
      simpa using declare_held decls rfl (.enum (enum_done held ‹_› word))
    · obtain ⟨grown, step, rfl⟩ := Option.map_eq_some_iff.mp next
      simpa [Reader.moveTo] using ReaderHeld.parts decls inner (.enum top word (enum_step held step))
  | structWord room word =>
    simp only [Reader.advance, Option.ite_none_right_eq_some] at next
    obtain ⟨opens, ⟨⟩⟩ := next
    simpa using ReaderHeld.parts decls (.body inner room word opens fresh_body) .idle
  | structClosed room word opens spelt closes =>
    simp only [Reader.advance, Option.ite_none_right_eq_some] at next
    obtain ⟨ident, ⟨⟩⟩ := next
    simpa [Reader.moveTo] using ReaderHeld.parts decls inner (.structNamed room word opens spelt closes ident)
  | structNamed room word opens spelt closes ident =>
    simp only [Reader.advance, Option.ite_none_right_eq_some] at next
    obtain ⟨ends, ⟨⟩⟩ := next
    have whole := nested_member room (.struct word opens spelt closes ident ends)
    simpa using add_held decls inner whole
  | select room word held =>
    simp only [Reader.advance] at next
    split at next
    · cases next
      have whole := nested_member room (.select (select_done held ‹_› word))
      simpa using add_held decls inner whole
    · obtain ⟨grown, step, rfl⟩ := Option.map_eq_some_iff.mp next
      simpa [Reader.moveTo] using ReaderHeld.parts decls inner (.select room word (select_step held step))

theorem takes_held (held : ReaderHeld reader tokens) (takes : Takes Reader.advance reader more after) :
    ReaderHeld after (tokens ++ more) := by
  induction more generalizing reader tokens with
  | nil =>
    obtain rfl := takes_nil.mp takes
    rwa [List.append_nil]
  | cons token rest ih =>
    obtain ⟨middle, next, takes⟩ := takes_cons.mp takes
    simpa using ih (advance_held held next) takes

end WireFormat
