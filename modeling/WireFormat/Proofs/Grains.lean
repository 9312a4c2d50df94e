import Mathlib.Data.List.ReduceOption
import Mathlib.Data.List.SplitBy
import WireFormat.Proofs.Rows
import WireFormat.Proofs.Texts

namespace WireFormat

-- Reading a row from its letters. Of texts that stand together without a blank either one
-- is a mark alone or they are made of different characters.

inductive Grain where
  | word | dot | lone
  deriving DecidableEq, Repr

def Grain.of (c : Char) : Grain := if isWordChar c then .word else if c = '.' then .dot else .lone

def joins (c d : Char) : Bool := Grain.of c ≠ .lone && Grain.of c = Grain.of d

def Grain.Apart (one two : Grain) : Prop := one ≠ two ∨ one = .lone

instance (one two : Grain) : Decidable (one.Apart two) := inferInstanceAs (Decidable (_ ∨ _))

def Grained (grain : Grain) (word : List Char) : Prop :=
  word ≠ [] ∧ (∀ c ∈ word, Grain.of c = grain) ∧ (grain = .lone → word.length = 1)

instance (grain : Grain) (word : List Char) : Decidable (Grained grain word) :=
  decidable_of_iff (word ≠ [] ∧ word.all (fun c => Grain.of c = grain) = true ∧ (grain = .lone → word.length = 1))
    (by simp [Grained])

def Token.Kind.grain : Kind → Grain
  | .dot | .dots => .dot
  | .lBrace | .rBrace | .lParen | .rParen | .lBracket | .rBracket => .lone
  | .less | .greater | .semi | .comma | .colon => .lone
  | _ => .word

section Texts

theorem word_grained (some : word ≠ []) (inside : ∀ c ∈ word, isWordChar c = true) : Grained .word word :=
  ⟨some, fun c member => if_pos (inside c member), nofun⟩

theorem Rule.order_grained : ∀ rule ∈ order, ∀ text kind word, rule text kind word → kind ≠ .unknown →
    Grained kind.grain word := by
  simp only [order, List.forall_mem_cons]
  refine ⟨?_, ?_, ?_, ?_, ?_, ?_, ?_, by simp⟩
  · rintro _ _ word ⟨rfl, longest⟩ _
    exact word_grained (powerLength_measures.nonempty _ longest.formed) longest.formed.wordy
  · rintro _ _ word ⟨rfl, longest⟩ _
    exact word_grained (numberLength_measures.nonempty _ longest.formed) longest.formed.wordy
  · rintro _ kind word ⟨listed, _⟩ _
    have all : ∀ entry ∈ Token.Kind.keywords, Grained entry.2.grain entry.1.toList := by decide
    have entry := all _ listed
    rwa [String.toList_ofList] at entry
  · rintro _ _ word ⟨rfl, longest⟩ _
    exact word_grained (identLength_measures.nonempty _ longest.formed) longest.formed.wordy
  · rintro _ _ _ ⟨rfl, rfl, _⟩ _
    decide
  · rintro _ kind _ ⟨c, rfl, _, listed⟩ _
    have all : ∀ entry ∈ Token.Kind.punctuation, Grained entry.2.grain entry.1.toList := by decide
    have entry := all _ listed
    rwa [String.toList_singleton] at entry
  · rintro _ _ _ ⟨rfl, _⟩ known
    exact absurd rfl known

theorem Stands.grained (stands : Stands text kind word) (known : kind ≠ .unknown) : Grained kind.grain word := by
  obtain ⟨rule, member, made⟩ := Rule.Decides.rule stands
  exact Rule.order_grained rule member text kind word made known

theorem Grained.chain (grained : Grained grain word) : word.IsChain fun c d => joins c d = true := by
  obtain ⟨_, same, single⟩ := grained
  by_cases lone : grain = .lone
  · obtain ⟨c, rfl⟩ := List.length_eq_one_iff.mp (single lone)
    exact List.isChain_singleton c
  · refine List.Pairwise.isChain (List.pairwise_of_forall_mem_list fun c first d second => ?_)
    simp [joins, same c first, same d second, lone]

theorem Grained.parted {one two : Grain} (first : Grained one front) (second : Grained two back)
    (apart : one.Apart two) : ∃ ended starts, joins (front.getLast ended) (back.head starts) = false := by
  refine ⟨first.1, second.1, ?_⟩
  rw [joins, first.2.1 _ (List.getLast_mem _), second.2.1 _ (List.head_mem _)]
  revert apart
  cases one <;> cases two <;> decide

end Texts

-- A mark that is read as its kind when it stands alone.
structure Mark.Whole (mark : Mark) : Prop where
  stands : Stands mark.text.toList mark.kind mark.text.toList
  known : mark.kind ≠ .unknown

def pieceGrain (piece : Option Mark) : Grain := piece.elim .lone fun mark => mark.kind.grain

def Spread (pieces : List (Option Mark)) : Prop :=
  pieces.IsChain fun one two => (pieceGrain one).Apart (pieceGrain two)

-- The first piece is no blank, and none runs into the next.
structure Row.Clear (row : Row) : Prop where
  starts : ∃ mark rest, row.pieces = some mark :: rest
  spread : Spread row.pieces

def Row.told (row : Row) : Nat × List String := (row.depth, row.pieces.reduceOption.map Mark.text)

def Wholly (pieces : List (Option Mark)) : Prop := ∀ mark, some mark ∈ pieces → mark.Whole

theorem wholly_reduced : Wholly pieces ↔ ∀ mark ∈ pieces.reduceOption, mark.Whole := by
  simp only [Wholly, List.reduceOption_mem_iff]

-- The texts of a row, and half of the number of blanks that it starts with.
def readRow (line : List Char) : Nat × List String :=
  (((line.splitBy joins).takeWhile (· = [' '])).length / 2, ((line.splitBy joins).filter (· ≠ [' '])).map String.ofList)

section Reading

variable {pieces front back : List (Option Mark)} {piece first : Option Mark}

theorem Mark.Whole.grained {mark : Mark} (whole : mark.Whole) : Grained (pieceGrain (some mark)) mark.text.toList :=
  whole.stands.grained whole.known

theorem Mark.Whole.lacks {mark : Mark} (whole : mark.Whole) (lone : Grain.of c = .lone)
    (unknown : Stands [c] .unknown [c]) : c ∉ mark.text.toList := by
  intro member
  obtain ⟨_, same, single⟩ := whole.grained
  obtain ⟨d, alone⟩ := List.length_eq_one_iff.mp (single ((same c member).symm.trans lone))
  have stands := whole.stands
  rw [alone] at member stands
  obtain rfl := List.mem_singleton.mp member
  exact whole.known (stands.unique unknown).1

theorem unknown_stands (c : Char) (unknown : Lexeme.first [c] = ⟨.unknown, 1⟩) : Stands [c] .unknown [c] := by
  have stands := first_stands (List.cons_ne_nil c [])
  rwa [unknown] at stands

theorem Mark.Whole.unspaced {mark : Mark} (whole : mark.Whole) : mark.text.toList ≠ [' '] := by
  intro blank
  exact whole.lacks (by decide) (unknown_stands ' ' (by decide)) (blank ▸ List.mem_singleton_self ' ')

theorem Mark.Whole.plain {mark : Mark} (whole : mark.Whole) : '\n' ∉ mark.text.toList :=
  whole.lacks (by decide) (unknown_stands '\n' (by decide))

theorem letters_split (spread : Spread pieces) (whole : Wholly pieces) :
    (letters pieces).splitBy joins = pieces.map pieceText := by
  have grained : ∀ piece ∈ pieces, Grained (pieceGrain piece) (pieceText piece) := by
    intro piece member
    cases piece with
    | none => decide
    | some mark => exact (whole mark member).grained
  refine List.splitBy_flatten ?_ ?_ ?_
  · intro empty
    obtain ⟨piece, member, nothing⟩ := List.mem_map.mp empty
    exact (grained piece member).1 nothing
  · exact List.forall_mem_map.mpr fun piece member => (grained piece member).chain
  · rw [List.isChain_map]
    exact spread.imp_of_mem_imp fun one two first second apart => (grained one first).parted (grained two second) apart

theorem spread_single (piece : Option Mark) : Spread [piece] := List.isChain_singleton piece

theorem Spread.lone (lone : pieceGrain piece = .lone) (before : Spread front) (after : Spread back) :
    Spread (front ++ piece :: back) := by
  refine List.isChain_append.mpr ⟨before, List.isChain_cons.mpr ⟨fun _ _ => .inr lone, after⟩, ?_⟩
  rintro one _ _ ⟨⟩
  rw [lone]
  cases pieceGrain one <;> decide

theorem Spread.cons (lone : pieceGrain piece = .lone) (after : Spread back) : Spread (piece :: back) :=
  (.lone lone .nil after : Spread ([] ++ piece :: back))

theorem Spread.second (lone : pieceGrain piece = .lone) (after : Spread back) : Spread (first :: piece :: back) :=
  (.lone lone (spread_single first) after : Spread ([first] ++ piece :: back))

theorem Row.spaced (clear : Row.Clear row) : Spread (List.replicate n none ++ row.pieces) := by
  induction n with
  | zero => exact clear.spread
  | succ n ih => exact .cons rfl ih

theorem letters_replicate (n : Nat) : letters (List.replicate n none) = List.replicate n ' ' := by
  induction n with
  | zero => rfl
  | succ n ih => rw [List.replicate_succ, letters_cons, ih]; rfl

theorem words_kept (whole : Wholly pieces) :
    ((pieces.map pieceText).filter (· ≠ [' '])).map String.ofList = pieces.reduceOption.map Mark.text := by
  induction pieces with
  | nil => rfl
  | cons piece rest ih =>
    have later := ih fun mark member => whole mark (.tail _ member)
    cases piece with
    | none => simpa using later
    | some mark =>
      have here := (whole mark (.head _)).unspaced
      simpa [here] using later

theorem row_read {row : Row} (clear : row.Clear) (whole : Wholly row.pieces) :
    readRow row.letters = row.told := by
  have split : row.letters.splitBy joins = List.replicate (2 * row.depth) [' '] ++ row.pieces.map pieceText := by
    have marks : Wholly (List.replicate (2 * row.depth) none ++ row.pieces) := by
      intro mark member
      rcases List.mem_append.mp member with blank | inside
      · cases (List.mem_replicate.mp blank).2
      · exact whole mark inside
    have whole := letters_split (Row.spaced clear) marks
    rwa [letters_append, letters_replicate, List.map_append, List.map_replicate] at whole
  obtain ⟨mark, rest, starts⟩ := clear.starts
  have first : mark.text.toList ≠ [' '] := (whole mark (starts ▸ .head _)).unspaced
  have depth : (row.letters.splitBy joins).takeWhile (· = [' ']) = List.replicate (2 * row.depth) [' '] := by
    rw [split, List.takeWhile_append_of_pos (by simp), starts]
    simp [first]
  have words := words_kept whole
  rw [readRow, depth, split, List.filter_append, List.map_append, words, Row.told]
  simp

end Reading

section Rows

variable {pieces front back : List (Option Mark)} {piece first : Option Mark}

-- A word, or several with dots between them.
structure Dotted (pieces : List (Option Mark)) : Prop where
  spread : Spread pieces
  starts : ∀ piece ∈ pieces.head?, pieceGrain piece = .word
  ends : ∀ piece ∈ pieces.getLast?, pieceGrain piece = .word

theorem dotted_single (word : pieceGrain piece = .word) : Dotted [piece] :=
  ⟨spread_single piece, by simpa using word, by simpa using word⟩

theorem Dotted.join (before : Dotted front) (after : Dotted back) (dot : pieceGrain piece = .dot) (some : front ≠ [])
    (more : back ≠ []) : Dotted (front ++ piece :: back) := by
  refine ⟨?_, ?_, ?_⟩
  · rw [Spread, List.isChain_append, List.isChain_cons]
    refine ⟨before.spread, ⟨fun next head => ?_, after.spread⟩, fun last ended next head => ?_⟩
    · rw [dot, after.starts next head]
      decide
    · cases head
      rw [before.ends last ended, dot]
      decide
  · rw [List.head?_append_of_ne_nil _ some]
    exact before.starts
  · rw [List.getLast?_append_of_ne_nil _ (List.cons_ne_nil _ _), List.getLast?_cons_of_ne_nil more]
    exact after.ends

theorem name_dotted (name : Name) : Dotted (name.marks.map some) := by
  obtain ⟨head, tail, token⟩ := name
  have segments (first : Mark) (word : pieceGrain (some first) = .word) :
      Dotted (some first :: (tail.flatMap fun text => [.word .dot, .segment text]).map some) := by
    induction tail generalizing first with
    | nil => exact dotted_single word
    | cons text rest ih => exact (dotted_single word).join (ih (.segment text) rfl) rfl (by simp) (by simp)
  exact segments (.head head token) rfl

theorem type_dotted (type : TypeRef) : Dotted (type.marks.map some) := by
  cases type with
  | scalar => exact dotted_single rfl
  | named name => exact name_dotted name

theorem size_dotted (size : SizeExpr) : Dotted (size.marks.map some) := by
  cases size with
  | literal | power => exact dotted_single rfl
  | reference name => exact name_dotted name

theorem size_some (size : SizeExpr) : size.marks.map some ≠ [] := by
  cases size <;> simp [SizeExpr.marks, Name.marks]

theorem bounds_spread (first : Option Mark) (bounds : Option Bounds) : Spread (first :: boundsRow bounds) := by
  cases bounds with
  | none => exact spread_single first
  | some bounds =>
    cases bounds with
    | fixed size =>
      have whole : Spread (first :: some (.word .lBracket) :: (size.marks.map some ++ [some (.word .rBracket)])) :=
        .second rfl (.lone rfl (size_dotted size).spread .nil)
      simpa [boundsRow, optionalMarks, Bounds.marks] using whole
    | range least most =>
      have ends : Dotted (least.marks.map some ++ some (.word .dots) :: most.marks.map some) :=
        (size_dotted least).join (size_dotted most) rfl (size_some least) (size_some most)
      have whole : Spread (first :: some (.word .less) :: (least.marks.map some ++ some (.word .dots) ::
          most.marks.map some ++ [some (.word .greater)])) := .second rfl (.lone rfl ends.spread .nil)
      simpa [boundsRow, optionalMarks, Bounds.marks] using whole

theorem joined_spread (marks : α → List Mark) (each : ∀ part, Spread ((marks part).map some)) (parts : List α) :
    Spread (joined marks parts) := by
  have more (parts : List α) (front : List (Option Mark)) (before : Spread front) :
      Spread (front ++ parts.flatMap fun part => some (.word .comma) :: none :: (marks part).map some) := by
    induction parts generalizing front with
    | nil => rwa [List.flatMap_nil, List.append_nil]
    | cons part rest ih => exact .lone rfl before (.cons rfl (ih _ (each part)))
  cases parts with
  | nil => exact .nil
  | cons part rest => exact more rest _ (each part)

theorem number_spread (number : Number) : Spread (number.marks.map some) := .cons rfl (.second rfl .nil)

theorem entry_spread (entry : EnumEntry) : Spread (entry.marks.map some) := by
  obtain ⟨name, value⟩ := entry
  cases value with
  | none => exact spread_single _
  | some number => exact .second rfl (.second rfl .nil)

theorem item_spread (item : Item) (after : Spread back) : Spread (item.row ++ back) := by
  obtain ⟨signed, type, name, bounds, close⟩ := item
  have clause : Spread (if signed then [none, some (.word .signedWord)] else []) := by
    split
    · exact .cons rfl (spread_single _)
    · exact .nil
  have typed := (type_dotted type).spread
  cases name with
  | none => simpa [Item.row] using Spread.lone rfl clause (.lone rfl typed after)
  | some name =>
    have named : Spread (some (.kept .ident name) :: boundsRow bounds ++ some (.kept .semi close) :: back) :=
      .lone rfl (bounds_spread _ bounds) after
    have whole : Spread (type.marks.map some ++ none :: (some (.kept .ident name) :: boundsRow bounds ++
        some (.kept .semi close) :: back)) := .lone rfl typed named
    simpa [Item.row] using Spread.lone rfl clause whole

theorem items_spread (items : List Item) : Spread (itemsRow items) := by
  have all : Spread (items.flatMap Item.row) := by
    induction items with
    | nil => exact .nil
    | cons item rest ih => exact item_spread item ih
  unfold itemsRow
  split
  · exact .second rfl .nil
  · exact all

theorem field_clear (entry : Field) (depth : Nat) : Row.Clear ⟨depth, entry.row⟩ := by
  refine ⟨?_, .lone rfl (type_dotted entry.type).spread (bounds_spread _ entry.bounds)⟩
  cases type : entry.type with
  | scalar => exact ⟨_, _, by rw [Field.row, type]; rfl⟩
  | named => exact ⟨_, _, by rw [Field.row, type]; rfl⟩

theorem headed_clear (word : Mark) (depth : Nat) (after : Spread pieces) :
    Row.Clear ⟨depth, some word :: none :: pieces⟩ :=
  ⟨⟨word, _, rfl⟩, .second rfl after⟩

theorem struct_clear (name : Token) (depth : Nat) : Row.Clear ⟨depth, structRow name⟩ :=
  headed_clear _ depth (spread_single _)

theorem extern_clear (name : Token) (depth : Nat) : Row.Clear ⟨depth, externRow name⟩ :=
  headed_clear _ depth (spread_single _)

theorem enum_clear (listing : EnumDecl) (depth : Nat) : Row.Clear ⟨depth, listing.row⟩ := by
  have parts := joined_spread (Sum.elim EnumEntry.marks Number.marks) (Sum.rec entry_spread number_spread) listing.parts
  exact headed_clear _ depth (.second rfl (.second rfl (.lone rfl parts (spread_single _))))

theorem select_clear (choice : Select) (depth : Nat) : Row.Clear ⟨depth, choice.row⟩ := by
  have name : Spread (choice.name.elim [] fun name => [some (.kept .ident name), none]) := by
    cases choice.name with
    | none => exact .nil
    | some name => exact .second rfl .nil
  exact headed_clear _ depth (.lone rfl name (.lone rfl (name_dotted choice.selector).spread .nil))

theorem arm_clear (arm : Arm) (depth : Nat) : Row.Clear ⟨depth, arm.row⟩ := by
  have labels := joined_spread (fun label => [.kept .ident label.name]) (fun _ => spread_single _) arm.labels
  exact headed_clear _ depth (.lone rfl labels (items_spread arm.items))

theorem select_rows_clear (choice : Select) (depth : Nat) : ∀ row ∈ choice.outlineRows depth, row.Clear :=
  List.forall_mem_cons.mpr ⟨select_clear choice depth, List.forall_mem_map.mpr fun arm _ => arm_clear arm (depth + 1)⟩

mutual

theorem member_clear (member : Member) (depth : Nat) : ∀ row ∈ member.outlineRows depth, row.Clear := by
  cases member with
  | field entry => simpa [Member.outlineRows] using field_clear entry depth
  | struct members name close =>
    rw [Member.outlineRows]
    exact List.forall_mem_cons.mpr ⟨struct_clear name depth, members_clear members (depth + 1)⟩
  | select choice => simpa [Member.outlineRows] using select_rows_clear choice depth

theorem members_clear (members : List Member) (depth : Nat) :
    ∀ row ∈ Member.allOutlineRows depth members, row.Clear := by
  cases members with
  | nil => simp [Member.allOutlineRows]
  | cons member rest =>
    rw [Member.allOutlineRows]
    exact List.forall_mem_append.mpr ⟨member_clear member depth, members_clear rest depth⟩

end

theorem decl_clear (decl : Decl) : ∀ row ∈ decl.outlineRows, row.Clear := by
  cases decl with
  | field entry => exact List.forall_mem_singleton.mpr (field_clear entry 0)
  | external name close => exact List.forall_mem_singleton.mpr (extern_clear name 0)
  | enum listing => exact List.forall_mem_singleton.mpr (enum_clear listing 0)
  | struct members name close => exact List.forall_mem_cons.mpr ⟨struct_clear name 0, members_clear members 1⟩
  | select choice => exact select_rows_clear choice 0

end Rows

theorem Wholly.plain {row : Row} (whole : Wholly row.pieces) : '\n' ∉ row.letters := by
  intro newline
  rcases List.mem_append.mp newline with blank | inside
  · cases (List.mem_replicate.mp blank).2
  · obtain ⟨piece, member, here⟩ := List.mem_flatMap.mp inside
    cases piece with
    | none => cases List.mem_singleton.mp here
    | some mark => exact (whole mark member).plain here

def readRows (text : List Char) : List (Nat × List String) := (text.splitOn '\n').dropLast.map readRow

theorem rows_read {rows : List Row} (clear : ∀ row ∈ rows, row.Clear) (whole : ∀ row ∈ rows, Wholly row.pieces) :
    readRows (rows.flatMap fun row => row.letters ++ ['\n']) = rows.map Row.told := by
  induction rows with
  | nil => rfl
  | cons row rest ih =>
    obtain ⟨first, clear⟩ := List.forall_mem_cons.mp clear
    obtain ⟨here, whole⟩ := List.forall_mem_cons.mp whole
    rw [List.flatMap_cons, List.append_assoc, List.singleton_append, readRows,
      List.splitOn_append_cons_self_of_not_mem here.plain, List.dropLast_cons_of_ne_nil (List.splitOn_ne_nil _ _),
      List.map_cons, List.map_cons, row_read first here, ← ih clear whole]
    rfl

end WireFormat
