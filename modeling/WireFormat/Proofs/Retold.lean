import WireFormat.Proofs.Grains
import WireFormat.Proofs.Relaid

namespace WireFormat

-- The texts of a source from the rows of its outline.

section Spelled

theorem Rule.order_spelled : ∀ rule ∈ order, ∀ text kind word, rule text kind word → kind.isFixed = true →
    String.ofList word = kind.spelling := by
  simp only [order, List.forall_mem_cons]
  refine ⟨?_, ?_, ?_, ?_, ?_, ?_, ?_, by simp⟩
  · rintro _ _ _ ⟨rfl, _⟩ ⟨⟩
  · rintro _ _ _ ⟨rfl, _⟩ ⟨⟩
  · rintro _ kind word ⟨listed, _⟩ _
    have all : ∀ entry ∈ Token.Kind.keywords, entry.1 = entry.2.spelling := by decide
    exact all _ listed
  · rintro _ _ _ ⟨rfl, _⟩ ⟨⟩
  · rintro _ _ _ ⟨rfl, rfl, _⟩ _
    rfl
  · rintro _ kind _ ⟨c, rfl, _, listed⟩ _
    have all : ∀ entry ∈ Token.Kind.punctuation, entry.1 = entry.2.spelling := by decide
    rw [← all _ listed]
    rfl
  · rintro _ _ _ ⟨rfl, _⟩ ⟨⟩

theorem Token.Solid.spelled {token : Token} (solid : token.Solid) (fixed : token.kind.isFixed = true) :
    token.text = token.kind.spelling := by
  obtain ⟨rule, member, made⟩ := Rule.Decides.rule solid.stands
  have spelled := Rule.order_spelled rule member _ _ _ made fixed
  rwa [String.ofList_toList] at spelled

theorem Mark.isProper.known {mark : Mark} (proper : mark.isProper = true) : mark.kind ≠ .unknown := by
  cases mark with
  | word kind | kept kind =>
    rintro rfl
    cases proper
  | segment | head | literal | power => nofun

namespace Mark

variable {mark : Mark} {token : Token}

theorem Fits.text (fits : mark.Fits token) (proper : mark.isProper = true) (solid : token.Solid) :
    token.text = mark.text := by
  cases mark with
  | word kind =>
    obtain rfl : token.kind = kind := fits
    exact solid.spelled proper
  | kept kind own =>
    obtain ⟨rfl, rfl⟩ := fits
    rw [text]
    split
    · exact solid.spelled ‹_›
    · rfl
  | segment own => exact fits.2
  | head own first => exact fits.2.2
  | literal number | power number => rw [fits.2]; rfl

theorem Fits.whole (fits : mark.Fits token) (proper : mark.isProper = true) (solid : token.Solid) : mark.Whole := by
  refine ⟨?_, isProper.known proper⟩
  rw [← fits.text proper solid, ← fits.kind]
  exact solid.stands

end Mark

theorem Restores.texts (restores : Restores marks tokens) (proper : Proper marks)
    (solid : ∀ token ∈ tokens, token.Solid) : marks.map Mark.text = tokens.map Token.text := by
  induction restores with
  | nil => rfl
  | cons fits _ ih =>
    obtain ⟨here, proper⟩ := proper_cons.mp proper
    obtain ⟨first, solid⟩ := List.forall_mem_cons.mp solid
    rw [List.map_cons, List.map_cons, ih proper solid, fits.text here first]

theorem Restores.whole (restores : Restores marks tokens) (proper : Proper marks)
    (solid : ∀ token ∈ tokens, token.Solid) : ∀ mark ∈ marks, mark.Whole := by
  induction restores with
  | nil => exact List.forall_mem_nil _
  | cons fits _ ih =>
    obtain ⟨here, proper⟩ := proper_cons.mp proper
    obtain ⟨first, solid⟩ := List.forall_mem_cons.mp solid
    exact List.forall_mem_cons.mpr ⟨fits.whole here first, ih proper solid⟩

theorem spelling_listed (fixed : kind.isFixed = true) :
    (kind.spelling, kind) ∈ Token.Kind.keywords ++ Token.Kind.punctuation := by
  cases kind with
  | ident | number | power | unknown | eof => cases fixed
  | scalar type => cases type <;> decide
  | _ => decide

theorem word_whole (fixed : kind.isFixed = true) : (Mark.word kind).Whole := by
  have all : ∀ entry ∈ Token.Kind.keywords ++ Token.Kind.punctuation, entry.1.toList ≠ [] ∧
      Lexeme.first entry.1.toList = ⟨entry.2, entry.1.toList.length⟩ := by decide
  obtain ⟨word, first⟩ := all _ (spelling_listed fixed)
  have stands := first_stands word
  rw [first, List.take_length] at stands
  have proper : (Mark.word kind).isProper = true := fixed
  exact ⟨stands, Mark.isProper.known proper⟩

end Spelled

-- The texts of a line in the order of the source, and those that come after the lines
-- below it: a name stands behind its body there, and each label has its own `case`.
def spoken (words : List String) : List String × List (List String) :=
  match words with
  | [] => ([], [])
  | word :: more =>
    if word = "struct" then (["struct", "\x7b"], ["\x7d" :: more ++ [";"]])
    else if word = "select" then
      ("select" :: more.dropWhile (· ≠ "(") ++ ["\x7b"], ["\x7d" :: more.takeWhile (· ≠ "(") ++ [";"]])
    else if word = "enum" then ("enum" :: more.tail ++ more.take 1 ++ [";"], [])
    else if word = "case" then
      ("case" :: (more.takeWhile (· ≠ ":")).flatMap (fun word => if word = "," then [":", "case"] else [word]) ++
        more.dropWhile (· ≠ ":"), [])
    else (word :: more ++ [";"], [])

-- The texts of rows, where `pending` is what comes at the end of each body that is open,
-- the innermost first. A row that is less deep ends the bodies above it.
def retell (pending : List (List String)) : List (Nat × List String) → List String
  | [] => pending.flatten
  | (depth, words) :: rest =>
    (pending.take (pending.length - depth)).flatten ++ (spoken words).1 ++
      retell ((spoken words).2 ++ pending.drop (pending.length - depth)) rest

-- What rows at a depth tell, whatever is open around them and whatever comes after.
structure Tells (depth : Nat) (rows : List (Nat × List String)) (texts : List String) : Prop where
  starts : ∀ row ∈ rows.head?, row.1 ≤ depth
  told : ∀ pending rest, pending.length = depth → (∀ row ∈ rest.head?, row.1 ≤ depth) →
    retell pending (rows ++ rest) = texts ++ retell pending rest

theorem cut_before (stop : String) (rest : List String) (before : stop ∉ words) :
    (words ++ stop :: rest).takeWhile (· ≠ stop) = words ∧
      (words ++ stop :: rest).dropWhile (· ≠ stop) = stop :: rest := by
  have inside : ∀ word ∈ words, decide (word ≠ stop) = true :=
    fun word member => decide_eq_true fun same => before (same ▸ member)
  rw [List.takeWhile_append_of_pos inside, List.dropWhile_append_of_pos inside]
  simp

section Tells

theorem retell_close (ends : ∀ row ∈ rest.head?, row.1 ≤ pending.length) (closing : List String) :
    retell (closing :: pending) rest = closing ++ retell pending rest := by
  cases rest with
  | nil => rfl
  | cons row rest =>
    obtain ⟨depth, words⟩ := row
    have reach : depth ≤ pending.length := ends _ rfl
    have less : (closing :: pending).length - depth = pending.length - depth + 1 := by
      rw [List.length_cons]
      omega
    rw [retell, retell, less, List.take_succ_cons, List.drop_succ_cons]
    simp

theorem tells_nil : Tells depth [] [] := ⟨nofun, fun _ _ _ _ => rfl⟩

theorem Tells.append (first : Tells depth front one) (second : Tells depth back two) :
    Tells depth (front ++ back) (one ++ two) := by
  have joined (rest : List (Nat × List String)) (ends : ∀ row ∈ rest.head?, row.1 ≤ depth) :
      ∀ row ∈ (back ++ rest).head?, row.1 ≤ depth := by
    cases back with
    | nil => exact ends
    | cons => exact second.starts
  refine ⟨?_, fun pending rest deep ends => ?_⟩
  · cases front with
    | nil => exact second.starts
    | cons => exact first.starts
  · rw [List.append_assoc, first.told pending _ deep (joined rest ends), second.told pending rest deep ends,
      List.append_assoc]

theorem tells_line (spoke : spoken words = (texts, [])) : Tells depth [(depth, words)] texts := by
  refine ⟨by simp, fun pending rest deep _ => ?_⟩
  rw [List.singleton_append, retell, spoke, deep, Nat.sub_self]
  rfl

theorem tells_block (spoke : spoken words = (opens, [closes])) (inside : Tells (depth + 1) rows texts) :
    Tells depth ((depth, words) :: rows) (opens ++ texts ++ closes) := by
  refine ⟨by simp, fun pending rest deep ends => ?_⟩
  have deeper : (closes :: pending).length = depth + 1 := by rw [List.length_cons, deep]
  have body := inside.told (closes :: pending) rest deeper fun row first => (ends row first).trans (Nat.le_succ depth)
  rw [List.cons_append, retell, spoke, deep, Nat.sub_self, List.take_zero, List.drop_zero, List.singleton_append, body,
    retell_close (deep ▸ ends)]
  simp

end Tells

section Words

theorem Mark.Whole.differs {one two : Mark} (first : one.Whole) (second : two.Whole) (other : one.kind ≠ two.kind) :
    one.text ≠ two.text := by
  intro same
  have stands := first.stands
  rw [same] at stands
  exact other (stands.unique second.stands).1

theorem Mark.Whole.unlike {mark : Mark} (whole : mark.Whole) (kind : Token.Kind) (fixed : kind.isFixed = true)
    (other : mark.kind ≠ kind) : mark.text ≠ kind.spelling := whole.differs (word_whole fixed) other

-- The kinds with which a line starts that is no plain one.
def Token.Kind.leads : Kind → Bool
  | .structWord | .selectWord | .enumWord | .caseWord => true
  | _ => false

theorem spoken_plain {first : Mark} (whole : first.Whole) (plain : first.kind.leads = false) (more : List String) :
    spoken (first.text :: more) = (first.text :: more ++ [";"], []) := by
  have other (kind : Token.Kind) (fixed : kind.isFixed = true) (leads : kind.leads = true) :
      first.text ≠ kind.spelling := by
    refine whole.unlike kind fixed fun same => ?_
    rw [same, leads] at plain
    cases plain
  have struct : first.text ≠ "struct" := other .structWord rfl rfl
  have select : first.text ≠ "select" := other .selectWord rfl rfl
  have enum : first.text ≠ "enum" := other .enumWord rfl rfl
  have case : first.text ≠ "case" := other .caseWord rfl rfl
  rw [spoken, if_neg struct, if_neg select, if_neg enum, if_neg case]

@[simp] theorem reduced_marks (marks : List Mark) : (marks.map some).reduceOption = marks := by
  induction marks with
  | nil => rfl
  | cons mark rest ih => rw [List.map_cons, List.reduceOption_cons_of_some, ih]

theorem reduced_flatMap (pieces : α → List (Option Mark)) (parts : List α) :
    (parts.flatMap pieces).reduceOption = parts.flatMap fun part => (pieces part).reduceOption := by
  induction parts with
  | nil => rfl
  | cons part rest ih => rw [List.flatMap_cons, List.reduceOption_append, ih, List.flatMap_cons]

theorem joined_reduced (marks : α → List Mark) (parts : List α) :
    (joined marks parts).reduceOption = listMarks .comma marks parts := by
  cases parts with
  | nil => rfl
  | cons first more => simp [joined, listMarks, List.reduceOption_append, reduced_flatMap]

theorem field_reduced (entry : Field) :
    entry.row.reduceOption ++ [.kept .semi entry.close] = entry.marks := by
  simp [Field.row, Field.marks, boundsRow, List.reduceOption_append]

theorem extern_reduced (name : Token) :
    (externRow name).reduceOption = [.word .externWord, .kept .ident name] := rfl

theorem struct_reduced (name : Token) :
    (structRow name).reduceOption = [.word .structWord, .kept .ident name] := rfl

theorem select_reduced (choice : Select) : choice.row.reduceOption =
    .word .selectWord :: (optionalMarks (fun name => [.kept .ident name]) choice.name ++
      .word .lParen :: (choice.selector.marks ++ [.word .rParen])) := by
  cases named : choice.name <;> simp [Select.row, named, optionalMarks, List.reduceOption_append]

theorem enum_reduced (listing : EnumDecl) (some : listing.entries ≠ []) : listing.row.reduceOption =
    .word .enumWord :: .kept .ident listing.name :: .word .lBrace ::
      (listMarks .comma EnumEntry.marks listing.entries ++
        optionalMarks (fun number => .word .comma :: number.marks) listing.max ++ [.word .rBrace]) := by
  obtain ⟨entries, max, name, close⟩ := listing
  cases entries with
  | nil => exact absurd rfl some
  | cons first more =>
    cases max <;>
      simp [EnumDecl.row, EnumDecl.parts, List.reduceOption_append, joined_reduced, listMarks, optionalMarks,
        List.flatMap_map]

-- Bounds stand behind a name only.
def Item.Neat (item : Item) : Prop := item.name = none → item.bounds = none

structure Arm.Neat (arm : Arm) : Prop where
  labels : arm.labels ≠ []
  items : ∀ item ∈ arm.items, item.Neat

theorem item_reduced (item : Item) (neat : item.Neat) : item.row.reduceOption = item.marks := by
  obtain ⟨signed, type, name, bounds, close⟩ := item
  cases name with
  | none =>
    obtain rfl : bounds = none := neat rfl
    cases signed <;> simp [Item.row, Item.marks, optionalMarks, List.reduceOption_append]
  | some name => cases signed <;> simp [Item.row, Item.marks, optionalMarks, boundsRow, List.reduceOption_append]

theorem items_reduced (items : List Item) (neat : ∀ item ∈ items, item.Neat) :
    (itemsRow items).reduceOption = itemsMarks items := by
  unfold itemsRow itemsMarks
  split
  · rfl
  · rw [reduced_flatMap]
    exact List.flatMap_congr fun item stands => item_reduced item (neat item stands)

theorem arm_reduced (arm : Arm) (neat : arm.Neat) : arm.row.reduceOption =
    .word .caseWord :: (listMarks .comma (fun label => [.kept .ident label.name]) arm.labels ++
      .word .colon :: itemsMarks arm.items) := by
  simp [Arm.row, List.reduceOption_append, joined_reduced, items_reduced arm.items neat.items]

end Words

end WireFormat
