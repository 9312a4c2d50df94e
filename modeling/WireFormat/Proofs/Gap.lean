import WireFormat.Comment
import WireFormat.Lexeme

namespace WireFormat

-- What may stand between tokens, said of the source itself. Masking is shown to
-- leave blanks for exactly these, with their newlines.

-- A text that ends a block comment already open, and not before its own end.
inductive Closes : List Char → Prop where
  | close : Closes ['*', '/']
  | nest (inner : Closes body) (rest : Closes tail) : Closes ('/' :: '*' :: body ++ tail)
  | char (opens : ¬ ['/', '*'] <+: c :: tail) (ends : ¬ ['*', '/'] <+: c :: tail)
      (rest : Closes tail) : Closes (c :: tail)

-- A line comment reaches up to the next newline or to the end, so it depends on
-- what comes after it.
def LineEnds (text : List Char) : Prop := ∀ c ∈ text.head?, c = '\n'

inductive Gap : List Char → List Char → Prop where
  | nil : Gap [] rest
  | blank (blank : Lexeme.isBlank c = true) (more : Gap gap rest) : Gap (c :: gap) rest
  | line (single : '\n' ∉ body) (ends : LineEnds (gap ++ rest)) (more : Gap gap rest) :
      Gap ('/' :: '/' :: body ++ gap) rest
  | block (closes : Closes body) (more : Gap gap rest) : Gap ('/' :: '*' :: body ++ gap) rest

def blanked (c : Char) : Char := if c = '\n' then '\n' else ' '

def masked (region : Region) (source : List Char) : Option (List Char) :=
  (maskFrom region #[] source).map Array.toList

theorem masked_prefix (region : Region) (front source : List Char) :
    (maskFrom region front.toArray source).map Array.toList =
      (masked region source).map (front ++ ·) := by
  have split := maskFrom_append region front.toArray #[] source
  rw [Array.append_empty] at split
  rw [split, masked, Option.map_map, Option.map_map]
  congr 1
  funext out
  simp

namespace Masked

theorem comment (rest : List Char) :
    masked .code ('/' :: '/' :: rest) = (masked .line rest).map (['/', '/'] ++ ·) := by
  rw [← masked_prefix, masked, maskFrom]
  rfl

theorem opener (rest : List Char) :
    masked .code ('/' :: '*' :: rest) = (masked (.block 0) rest).map ([' ', ' '] ++ ·) := by
  rw [← masked_prefix, masked, maskFrom]
  rfl

theorem code (slashes : ¬ ['/', '/'] <+: c :: rest) (opens : ¬ ['/', '*'] <+: c :: rest) :
    masked .code (c :: rest) = (masked .code rest).map ([c] ++ ·) := by
  rw [← masked_prefix, masked, maskFrom]
  · rfl
  · rintro tail rfl rfl
    exact slashes (by simp)
  · rintro tail rfl rfl
    exact opens (by simp)

theorem line (c : Char) (rest : List Char) :
    masked .line (c :: rest) = (masked (if c = '\n' then .code else .line) rest).map ([c] ++ ·) := by
  rw [← masked_prefix, masked, maskFrom]
  rfl

theorem nest (outer : Nat) (rest : List Char) :
    masked (.block outer) ('/' :: '*' :: rest) =
      (masked (.block (outer + 1)) rest).map ([' ', ' '] ++ ·) := by
  rw [← masked_prefix, masked, maskFrom]
  rfl

theorem close (outer : Nat) (rest : List Char) :
    masked (.block outer) ('*' :: '/' :: rest) =
      (masked (.closing outer) rest).map ([' ', ' '] ++ ·) := by
  rw [← masked_prefix, masked, maskFrom]
  rfl

theorem block (outer : Nat) (opens : ¬ ['/', '*'] <+: c :: rest) (ends : ¬ ['*', '/'] <+: c :: rest) :
    masked (.block outer) (c :: rest) =
      (masked (.block outer) rest).map ([blanked c] ++ ·) := by
  rw [← masked_prefix, masked, maskFrom]
  · rfl
  · rintro tail rfl rfl
    exact opens (by simp)
  · rintro tail rfl rfl
    exact ends (by simp)

theorem line_parts (shown : masked .line source = some out) :
    ∃ body rest after, source = body ++ rest ∧ out = body ++ after ∧ '\n' ∉ body ∧ LineEnds rest ∧
      masked .code rest = some after := by
  induction source generalizing out with
  | nil =>
    cases shown
    exact ⟨[], [], [], rfl, rfl, nofun, nofun, rfl⟩
  | cons c rest ih =>
    by_cases newline : c = '\n'
    · subst newline
      have same : masked .code ('\n' :: rest) = masked .line ('\n' :: rest) := by
        rw [line, if_pos rfl, code (by simp) (by simp)]
      exact ⟨[], '\n' :: rest, out, rfl, rfl, nofun, by simp [LineEnds], same.trans shown⟩
    · rw [line, if_neg newline] at shown
      obtain ⟨tail, found, rfl⟩ := Option.map_eq_some_iff.mp shown
      obtain ⟨body, final, after, rfl, rfl, single, ends, coded⟩ := ih found
      exact ⟨c :: body, final, after, rfl, rfl, by simp [single, Ne.symm newline], ends, coded⟩

structure Blanks (body blanks : List Char) : Prop where
  blank : ∀ c ∈ blanks, Lexeme.isBlank c = true
  lines : blanks.count '\n' = body.count '\n'

theorem Blanks.append (front : Blanks body blanks) (back : Blanks tail others) :
    Blanks (body ++ tail) (blanks ++ others) := by
  refine ⟨List.forall_mem_append.mpr ⟨front.blank, back.blank⟩, ?_⟩
  rw [List.count_append, List.count_append, front.lines, back.lines]

theorem Blanks.opener : Blanks ['/', '*'] [' ', ' '] := ⟨List.all_eq_true.mp rfl, rfl⟩
theorem Blanks.closer : Blanks ['*', '/'] [' ', ' '] := ⟨List.all_eq_true.mp rfl, rfl⟩

theorem Blanks.single (c : Char) : Blanks [c] [blanked c] := by
  by_cases newline : c = '\n'
  · subst newline
    exact ⟨List.all_eq_true.mp rfl, rfl⟩
  · refine ⟨by simp [blanked, newline, Lexeme.isBlank], ?_⟩
    simp [blanked, newline]

theorem Blanks.whole (body : List Char) : Blanks body (body.map blanked) := by
  induction body with
  | nil => exact ⟨nofun, rfl⟩
  | cons c tail ih => exact (Blanks.single c).append ih

theorem block_parts (outer : Nat) (shown : masked (.block outer) source = some out) :
    ∃ body rest blanks after, source = body ++ rest ∧ out = blanks ++ after ∧ Closes body ∧
      Blanks body blanks ∧ masked (.closing outer) rest = some after := by
  by_cases opens : ['/', '*'] <+: source
  · obtain ⟨rest, rfl⟩ := opens
    rw [List.cons_append, List.cons_append, List.nil_append, nest] at shown
    obtain ⟨tail, found, rfl⟩ := Option.map_eq_some_iff.mp shown
    -- A nested comment is a text of its own, and what follows it is another one.
    obtain ⟨body, middle, blanks, more, rfl, rfl, inner, hidden, closing⟩ := block_parts (outer + 1) found
    obtain ⟨final, rest, others, after, rfl, rfl, closes, covered, coded⟩ := block_parts outer closing
    refine ⟨['/', '*'] ++ body ++ final, rest, [' ', ' '] ++ blanks ++ others, after, by simp, by simp,
      .nest inner closes, (Blanks.opener.append hidden).append covered, coded⟩
  · by_cases ends : ['*', '/'] <+: source
    · obtain ⟨rest, rfl⟩ := ends
      rw [List.cons_append, List.cons_append, List.nil_append, close] at shown
      obtain ⟨after, coded, rfl⟩ := Option.map_eq_some_iff.mp shown
      exact ⟨['*', '/'], rest, [' ', ' '], after, rfl, rfl, .close, .closer, coded⟩
    · cases source with
      | nil => cases shown
      | cons c rest =>
        rw [block outer opens ends] at shown
        obtain ⟨tail, found, rfl⟩ := Option.map_eq_some_iff.mp shown
        obtain ⟨body, final, blanks, after, rfl, rfl, closes, hidden, coded⟩ := block_parts outer found
        refine ⟨c :: body, final, _ :: blanks, after, rfl, rfl, .char ?_ ?_ closes,
          (Blanks.single c).append hidden, coded⟩
        · exact fun opener => opens (opener.trans (List.prefix_append (c :: body) final))
        · exact fun closer => ends (closer.trans (List.prefix_append (c :: body) final))
termination_by source.length

theorem plain (front rest : List Char) (bare : '/' ∉ front) :
    masked .code (front ++ rest) = (masked .code rest).map (front ++ ·) := by
  induction front with
  | nil => simp
  | cons c tail ih =>
    have other : '/' ≠ c := fun same => bare (same ▸ List.mem_cons_self)
    have more := ih fun slash => bare (List.mem_cons_of_mem _ slash)
    rw [List.cons_append, code (by simp [other]) (by simp [other]), more, Option.map_map]
    rfl

end Masked

end WireFormat
