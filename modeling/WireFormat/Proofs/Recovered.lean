import WireFormat.Proofs.Parsed
import WireFormat.Proofs.Relaid
import WireFormat.Proofs.Retold

namespace WireFormat

-- An outline loses nothing but the layout: the tokens can be recovered from its text.

section Trees

theorem field_tells (entry : Field) (depth : Nat) (whole : ∀ mark ∈ entry.marks, mark.Whole) :
    Tells depth [Row.told ⟨depth, entry.row⟩] (entry.marks.map Mark.text) := by
  have starts : ∃ first rest, entry.row.reduceOption = first :: rest ∧ first.kind.leads = false := by
    cases type : entry.type with
    | scalar => exact ⟨_, _, by rw [Field.row, type]; rfl, rfl⟩
    | named => exact ⟨_, _, by rw [Field.row, type]; rfl, rfl⟩
  obtain ⟨first, rest, words, plain⟩ := starts
  have marks := field_reduced entry
  rw [words] at marks
  rw [← marks] at whole ⊢
  have spoke := spoken_plain (whole first (.head _)) plain (rest.map Mark.text)
  refine tells_line ?_
  rw [words, List.map_cons, spoke]
  simp

theorem extern_tells (name close : Token) :
    Tells 0 [Row.told ⟨0, externRow name⟩] ((Decl.external name close).marks.map Mark.text) := by
  have word : (Mark.word .externWord).Whole := word_whole rfl
  exact tells_line (spoken_plain word rfl [name.text])

theorem enum_tells (listing : EnumDecl) (some : listing.entries ≠ []) :
    Tells 0 [Row.told ⟨0, listing.row⟩] (listing.marks.map Mark.text) := by
  have spoke (name : String) (rest : List String) :
      spoken ("enum" :: name :: rest) = ("enum" :: rest ++ [name, ";"], []) := by simp [spoken]
  refine tells_line ?_
  rw [enum_reduced listing some]
  refine (spoke listing.name.text _).trans ?_
  simp [EnumDecl.marks]
  rfl

section Labels

variable (first : Label) (more : List Label)

theorem labels_read : (listMarks .comma (fun label => [.kept .ident label.name]) (first :: more)).map Mark.text =
    first.name.text :: more.flatMap fun label => [",", label.name.text] := by
  simp only [listMarks, List.map_append, List.map_flatMap]
  rfl

theorem labels_written : (listMarks .caseWord Label.marks (first :: more)).map Mark.text =
    first.name.text :: ":" :: more.flatMap fun label => ["case", label.name.text, ":"] := by
  simp only [listMarks, List.map_append, List.map_flatMap]
  rfl

theorem labels_turned (rest : List String) :
    (more.flatMap fun label => [":", "case", label.name.text]) ++ ":" :: rest =
      ":" :: (more.flatMap fun label => ["case", label.name.text, ":"]) ++ rest := by
  induction more with
  | nil => rfl
  | cons label more ih => simpa using ih

-- The comma before a label stands for the colon after the one before and another `case`.
theorem labels_told (rest : List String)
    (names : ∀ label ∈ first :: more, label.name.text ≠ "," ∧ label.name.text ≠ ":") :
    spoken ("case" :: (first.name.text :: (more.flatMap fun label => [",", label.name.text]) ++ ":" :: rest)) =
      ("case" :: (first.name.text :: ":" :: (more.flatMap fun label => ["case", label.name.text, ":"]) ++ rest),
        []) := by
  obtain ⟨⟨comma, colon⟩, others⟩ := List.forall_mem_cons.mp names
  have before : ":" ∉ first.name.text :: more.flatMap fun label => [",", label.name.text] := by
    refine List.not_mem_cons_of_ne_of_not_mem colon.symm fun later => ?_
    obtain ⟨label, stands, here⟩ := List.mem_flatMap.mp later
    rcases List.mem_pair.mp here with comma | same
    · exact absurd comma (by decide)
    · exact (others label stands).2 same.symm
  obtain ⟨taken, dropped⟩ := cut_before ":" rest before
  have parted : (more.flatMap fun label => [",", label.name.text]).flatMap
      (fun word => if word = "," then [":", "case"] else [word]) =
        more.flatMap fun label => [":", "case", label.name.text] := by
    rw [List.flatMap_assoc]
    exact List.flatMap_congr fun label stands => by simp [(others label stands).1]
  rw [spoken, if_neg (by decide), if_neg (by decide), if_neg (by decide), if_pos rfl, taken, dropped,
    List.flatMap_cons, if_neg comma, parted]
  simpa using labels_turned more rest

end Labels

theorem struct_tells {members : List Mark} (name close : Token)
    (inside : Tells (depth + 1) rows (members.map Mark.text)) :
    Tells depth (Row.told ⟨depth, structRow name⟩ :: rows) ((structMarks members name close).map Mark.text) := by
  have spoke : spoken ["struct", name.text] = (["struct", "\x7b"], [["\x7d", name.text, ";"]]) := by simp [spoken]
  have whole := tells_block spoke inside
  have marks : (structMarks members name close).map Mark.text =
      ["struct", "\x7b"] ++ members.map Mark.text ++ ["\x7d", name.text, ";"] := by
    simp only [structMarks, List.map_append, List.map_cons]
    rfl
  rw [marks]
  exact whole

theorem arm_tells (arm : Arm) (depth : Nat) (neat : arm.Neat) (whole : ∀ mark ∈ arm.marks, mark.Whole) :
    Tells depth [Row.told ⟨depth, arm.row⟩] ("case" :: arm.marks.map Mark.text) := by
  have names : ∀ label ∈ arm.labels, label.name.text ≠ "," ∧ label.name.text ≠ ":" := by
    intro label stands
    have name : (Mark.kept .ident label.name).Whole :=
      whole _ (List.mem_append_left _ (list_subset stands (.head _)))
    exact ⟨name.unlike .comma rfl nofun, name.unlike .colon rfl nofun⟩
  obtain ⟨first, more, labels⟩ := List.exists_cons_of_ne_nil neat.labels
  have spoke := labels_told first more ((itemsMarks arm.items).map Mark.text) (labels ▸ names)
  refine tells_line ?_
  rw [arm_reduced arm neat, Arm.marks, List.map_append, labels, labels_written, ← spoke, List.map_cons, List.map_append,
    labels_read]
  rfl

theorem arms_tells (arms : List Arm) (depth : Nat) (neat : ∀ arm ∈ arms, arm.Neat)
    (whole : ∀ arm ∈ arms, ∀ mark ∈ arm.marks, mark.Whole) :
    Tells depth (arms.map fun arm => Row.told ⟨depth, arm.row⟩)
      (arms.flatMap fun arm => "case" :: arm.marks.map Mark.text) := by
  induction arms with
  | nil => exact tells_nil
  | cons arm rest ih =>
    obtain ⟨here, neat⟩ := List.forall_mem_cons.mp neat
    obtain ⟨first, whole⟩ := List.forall_mem_cons.mp whole
    exact (arm_tells arm depth here first).append (ih neat whole)

theorem arms_texts (arms : List Arm) (some : arms ≠ []) : "case" :: (armsMarks arms).map Mark.text =
    (arms.flatMap fun arm => "case" :: arm.marks.map Mark.text) ++ ["\x7d"] := by
  induction arms with
  | nil => exact absurd rfl some
  | cons arm rest ih =>
    cases rest with
    | nil =>
      simp [armsMarks]
      rfl
    | cons next more =>
      have later := ih (List.cons_ne_nil next more)
      rw [List.flatMap_cons, List.append_assoc, ← later, armsMarks, List.map_append, List.map_cons]
      rfl

-- What comes before the arms of a select, its name, and what comes after them.
def Select.opens (choice : Select) : List String :=
  "select" :: "(" :: (choice.selector.marks.map Mark.text ++ [")", "\x7b"])

def Select.names (choice : Select) : List String :=
  (optionalMarks (fun name => [.kept .ident name]) choice.name).map Mark.text

def Select.closes (choice : Select) : List String := "\x7d" :: (choice.names ++ [";"])

theorem select_texts (choice : Select) (some : choice.arms ≠ []) : choice.marks.map Mark.text =
    choice.opens ++ (choice.arms.flatMap fun arm => "case" :: arm.marks.map Mark.text) ++ choice.closes := by
  have whole : choice.marks.map Mark.text = choice.opens ++ ("case" :: (armsMarks choice.arms).map Mark.text) ++
      (choice.names ++ [";"]) := by
    simp only [Select.marks, Select.opens, Select.names, List.map_append, List.map_cons, List.append_assoc,
      List.cons_append]
    rfl
  rw [whole, arms_texts choice.arms some, Select.closes]
  simp

theorem names_unopened (choice : Select) (whole : ∀ mark ∈ choice.marks, mark.Whole) : "(" ∉ choice.names := by
  intro opens
  obtain ⟨mark, member, same⟩ := List.mem_map.mp opens
  have own : mark.Whole := whole mark (by simp [Select.marks, member])
  cases named : choice.name with
  | none =>
    rw [named] at member
    cases member
  | some name =>
    rw [named] at member
    obtain rfl := List.mem_singleton.mp member
    exact own.unlike .lParen rfl (by simp [Mark.kind]) same

theorem select_spoken (choice : Select) (whole : ∀ mark ∈ choice.marks, mark.Whole) :
    spoken (choice.row.reduceOption.map Mark.text) = (choice.opens, [choice.closes]) := by
  have words : choice.row.reduceOption.map Mark.text =
      "select" :: (choice.names ++ "(" :: (choice.selector.marks.map Mark.text ++ [")"])) := by
    rw [select_reduced]
    simp only [List.map_append, List.map_cons]
    rfl
  obtain ⟨taken, dropped⟩ := cut_before "(" (choice.selector.marks.map Mark.text ++ [")"]) (names_unopened choice whole)
  rw [words, spoken, if_neg (by decide), if_pos rfl, taken, dropped]
  simp [Select.opens, Select.closes]

theorem select_subset {choice : Select} (stands : arm ∈ choice.arms) : arm.marks ⊆ choice.marks :=
  fun mark member => by simp [Select.marks, arms_subset stands member]

theorem select_tells (choice : Select) (depth : Nat) (some : choice.arms ≠ []) (neat : ∀ arm ∈ choice.arms, arm.Neat)
    (whole : ∀ mark ∈ choice.marks, mark.Whole) :
    Tells depth ((choice.outlineRows depth).map Row.told) (choice.marks.map Mark.text) := by
  have arms : ∀ arm ∈ choice.arms, ∀ mark ∈ arm.marks, mark.Whole := by
    exact fun arm stands mark member => whole mark (select_subset stands member)
  have block := tells_block (select_spoken choice whole) (arms_tells choice.arms (depth + 1) neat arms)
  rw [select_texts choice some, Select.outlineRows, List.map_cons, List.map_map]
  exact block

theorem enum_some (spelt : EnumSpelt listing tokens) : listing.entries ≠ [] := by
  cases spelt
  exact List.cons_ne_nil _ _

theorem item_neat (spelt : ItemSpelt item tokens) : item.Neat := by
  cases spelt with
  | bare => exact fun _ => rfl
  | named => exact nofun

theorem clause_neat (spelt : ClauseSpelt item tokens) : item.Neat := by
  cases spelt
  exact fun _ => rfl

theorem body_neat (spelt : BodySpelt items tokens) : ∀ item ∈ items, item.Neat := by
  cases spelt with
  | empty => exact List.forall_mem_nil _
  | single spelt => exact List.forall_mem_singleton.mpr (item_neat spelt)
  | clause spelt => exact List.forall_mem_singleton.mpr (clause_neat spelt)
  | followed signs spelt =>
    exact List.forall_mem_cons.mpr ⟨clause_neat signs, List.forall_mem_singleton.mpr (item_neat spelt)⟩

theorem arm_neat (spelt : ArmSpelt arm tokens) : arm.Neat := by
  obtain ⟨first, more, body⟩ := spelt
  exact ⟨List.cons_ne_nil _ _, body_neat body⟩

theorem arms_neat (spelt : ArmsSpelt right arms tokens) : arms ≠ [] ∧ ∀ arm ∈ arms, arm.Neat := by
  induction spelt with
  | last spelt => exact ⟨List.cons_ne_nil _ _, List.forall_mem_singleton.mpr (arm_neat spelt)⟩
  | cons spelt _ _ ih => exact ⟨List.cons_ne_nil _ _, List.forall_mem_cons.mpr ⟨arm_neat spelt, ih.2⟩⟩

-- No row has a text that the tree does not have, but for the words of the language.

theorem field_whole (entry : Field) (whole : ∀ mark ∈ entry.marks, mark.Whole) : Wholly entry.row := by
  rw [wholly_reduced]
  exact fun mark member => whole mark (field_reduced entry ▸ List.mem_append_left _ member)

theorem struct_whole (members : List Mark) (name close : Token)
    (whole : ∀ mark ∈ structMarks members name close, mark.Whole) : Wholly (structRow name) := by
  rw [wholly_reduced, struct_reduced]
  exact fun mark member => whole mark (by rcases List.mem_pair.mp member with rfl | rfl <;> simp [structMarks])

theorem extern_whole (name close : Token) (whole : ∀ mark ∈ (Decl.external name close).marks, mark.Whole) :
    Wholly (externRow name) := by
  rw [wholly_reduced, extern_reduced]
  exact fun mark member => whole mark (by rcases List.mem_pair.mp member with rfl | rfl <;> simp [Decl.marks])

theorem enum_whole (listing : EnumDecl) (some : listing.entries ≠ []) (whole : ∀ mark ∈ listing.marks, mark.Whole) :
    Wholly listing.row := by
  rw [wholly_reduced, enum_reduced listing some]
  intro mark member
  refine whole mark ?_
  simp only [EnumDecl.marks, List.mem_cons, List.mem_append, List.not_mem_nil] at member ⊢
  tauto

theorem select_whole (choice : Select) (whole : ∀ mark ∈ choice.marks, mark.Whole) : Wholly choice.row := by
  rw [wholly_reduced, select_reduced]
  intro mark member
  refine whole mark ?_
  simp only [Select.marks, List.mem_cons, List.mem_append, List.not_mem_nil] at member ⊢
  tauto

theorem arm_whole (arm : Arm) (neat : arm.Neat) (whole : ∀ mark ∈ arm.marks, mark.Whole) : Wholly arm.row := by
  obtain ⟨labels, items⟩ := List.forall_mem_append.mp whole
  rw [wholly_reduced, arm_reduced arm neat]
  refine List.forall_mem_cons.mpr ⟨word_whole rfl, List.forall_mem_append.mpr ⟨fun mark member => ?_, ?_⟩⟩
  · rcases list_mem member with rfl | ⟨label, stands, here⟩
    · exact word_whole rfl
    · obtain rfl := List.mem_singleton.mp here
      exact labels _ (list_subset stands (.head _))
  · exact List.forall_mem_cons.mpr ⟨word_whole rfl, items⟩

theorem select_rows_whole (choice : Select) (depth : Nat) (neat : ∀ arm ∈ choice.arms, arm.Neat)
    (whole : ∀ mark ∈ choice.marks, mark.Whole) : ∀ row ∈ choice.outlineRows depth, Wholly row.pieces := by
  refine List.forall_mem_cons.mpr ⟨select_whole choice whole, List.forall_mem_map.mpr fun arm stands => ?_⟩
  exact arm_whole arm (neat arm stands) fun mark member => whole mark (select_subset stands member)

-- Rows from which the marks can be told, and which have no text of their own.
structure Keeps (depth : Nat) (rows : List Row) (marks : List Mark) : Prop where
  tells : Tells depth (rows.map Row.told) (marks.map Mark.text)
  whole : ∀ row ∈ rows, Wholly row.pieces

theorem keeps_nil : Keeps depth [] [] := ⟨tells_nil, List.forall_mem_nil _⟩

theorem Keeps.append (first : Keeps depth front one) (second : Keeps depth back two) :
    Keeps depth (front ++ back) (one ++ two) := by
  refine ⟨?_, List.forall_mem_append.mpr ⟨first.whole, second.whole⟩⟩
  rw [List.map_append, List.map_append]
  exact first.tells.append second.tells

theorem field_keeps (entry : Field) (depth : Nat) (whole : ∀ mark ∈ entry.marks, mark.Whole) :
    Keeps depth [⟨depth, entry.row⟩] entry.marks :=
  ⟨field_tells entry depth whole, List.forall_mem_singleton.mpr (field_whole entry whole)⟩

theorem select_keeps (spelt : SelectSpelt choice tokens) (depth : Nat) (whole : ∀ mark ∈ choice.marks, mark.Whole) :
    Keeps depth (choice.outlineRows depth) choice.marks := by
  obtain ⟨_, _, _, _, _, cases, _, _, _⟩ := spelt
  obtain ⟨some, neat⟩ := arms_neat cases
  exact ⟨select_tells _ depth some neat whole, select_rows_whole _ depth neat whole⟩

theorem struct_keeps {members : List Mark} (name close : Token) (inside : Keeps (depth + 1) rows members)
    (whole : ∀ mark ∈ structMarks members name close, mark.Whole) :
    Keeps depth (⟨depth, structRow name⟩ :: rows) (structMarks members name close) :=
  ⟨struct_tells name close inside.tells, List.forall_mem_cons.mpr ⟨struct_whole members name close whole, inside.whole⟩⟩

theorem members_keep {inner : Member → List Token → Prop} (depth : Nat)
    (each : ∀ member tokens, inner member tokens → (∀ mark ∈ member.marks, mark.Whole) →
      Keeps depth (member.outlineRows depth) member.marks)
    (given : Several inner members tokens) (whole : ∀ mark ∈ membersMarks members, mark.Whole) :
    Keeps depth (Member.allOutlineRows depth members) (membersMarks members) := by
  induction given with
  | nil => exact keeps_nil
  | cons head _ ih =>
    rw [membersMarks] at whole
    obtain ⟨here, later⟩ := List.forall_mem_append.mp whole
    rw [Member.allOutlineRows, membersMarks]
    exact (each _ _ head here).append (ih later)

theorem member_keeps (n : Nat) (member : Member) (tokens : List Token) (spelt : MemberSpelt n member tokens)
    (depth : Nat) (whole : ∀ mark ∈ member.marks, mark.Whole) :
    Keeps depth (member.outlineRows depth) member.marks := by
  induction n generalizing member tokens depth with
  | zero =>
    obtain ⟨entry, rfl, _⟩ := spelt
    exact field_keeps entry depth whole
  | succ n ih =>
    cases spelt with
    | line => exact field_keeps _ depth whole
    | select spelt => exact select_keeps spelt depth whole
    | struct _ _ members _ _ _ =>
      rw [Member.marks] at whole
      have inside := members_keep (depth + 1) (fun member tokens spelt => ih member tokens spelt (depth + 1)) members
        fun mark member => whole mark (by simp [structMarks, member])
      rw [Member.outlineRows, Member.marks]
      exact struct_keeps _ _ inside whole

theorem toDecl_rows (member : Member) : member.toDecl.outlineRows = member.outlineRows 0 := by
  cases member <;> simp [Member.toDecl, Decl.outlineRows, Member.outlineRows]

theorem decl_keeps (spelt : DeclSpelt decl tokens) (whole : ∀ mark ∈ decl.marks, mark.Whole) :
    Keeps 0 decl.outlineRows decl.marks := by
  cases spelt with
  | external => exact ⟨extern_tells _ _, List.forall_mem_singleton.mpr (extern_whole _ _ whole)⟩
  | enum spelt =>
    have some := enum_some spelt
    exact ⟨enum_tells _ some, List.forall_mem_singleton.mpr (enum_whole _ some whole)⟩
  | member member spelt =>
    rw [toDecl_marks] at whole ⊢
    rw [toDecl_rows]
    exact member_keeps maxNesting member tokens spelt 0 whole

theorem decls_keep (spelt : Several DeclSpelt decls tokens) (whole : ∀ mark ∈ decls.flatMap Decl.marks, mark.Whole) :
    Keeps 0 (decls.flatMap Decl.outlineRows) (decls.flatMap Decl.marks) := by
  induction spelt with
  | nil => exact keeps_nil
  | cons head _ ih =>
    rw [List.flatMap_cons] at whole
    obtain ⟨here, later⟩ := List.forall_mem_append.mp whole
    exact (decl_keeps head here).append (ih later)

end Trees

-- The kinds and texts of the tokens, from the text of an outline.
def recover (text : String) : List (Token.Kind × String) :=
  ((retell [] (readRows text.toList)).map fun word => ((Lexeme.first word.toList).kind, word)) ++ [(.eof, "")]

theorem Token.Solid.first {token : Token} (solid : token.Solid) :
    (Lexeme.first token.text.toList).kind = token.kind := by
  have first := first_stands solid.stands.read.some
  exact (first.unique solid.stands).1

theorem outline_recovered (read : tokenize source = .ok tokens) (done : (parse tokens).error = none) :
    recover (outline (parse tokens).decls) = tokens.map fun token => (token.kind, token.text) := by
  obtain ⟨words, last, rfl, solid⟩ := laid_words (tokenize_laid read)
  have plain : ∀ token ∈ words, token.kind ≠ .eof := fun token member => (solid token member).stands.read.token
  have spelt := (parse_spelt plain rfl).mp (parsed_whole done)
  have restored := schema_restored spelt
  generalize (parse (words ++ [Token.endAt last])).decls = decls at spelt restored
  have proper : Proper (decls.flatMap Decl.marks) := proper_flatMap decl_proper decls
  have keeps := decls_keep spelt.2 (restored.whole proper solid)
  have clear : ∀ row ∈ decls.flatMap Decl.outlineRows, row.Clear := by
    intro row member
    obtain ⟨decl, _, here⟩ := List.mem_flatMap.mp member
    exact decl_clear decl row here
  have told : retell [] ((decls.flatMap Decl.outlineRows).map Row.told) = words.map Token.text := by
    have told := keeps.tells.told [] [] rfl nofun
    rwa [List.append_nil, restored.texts proper solid, retell, List.flatten_nil, List.append_nil] at told
  have kinds : (words.map Token.text).map (fun word => ((Lexeme.first word.toList).kind, word)) =
      words.map fun token => (token.kind, token.text) := by
    rw [List.map_map]
    exact List.map_congr_left fun token member => by simp [(solid token member).first]
  rw [recover, outline_letters, rows_read clear keeps.whole, told, kinds, List.map_append]
  rfl

theorem outline_numbered (read : tokenize source = .ok tokens) :
    outline (parse tokens).decls = outline (parse (numbered tokens)).decls := by
  obtain ⟨token, rest, refuses⟩ := Reader.feed_refuses (numbered_end (laid_end (tokenize_laid read)))
  have parsed := parse_relined (lineAt tokens) refuses
  rw [numbered_relined] at parsed
  rw [parsed]
  exact outline_relined _ _

-- Two sources have one outline if they have the same tokens, and only then: what it leaves
-- out can be told from its lines and their depths.
theorem outline_identifies (first : tokenize one = .ok front) (second : tokenize two = .ok back)
    (clean : (parse front).error = none) (neat : (parse back).error = none) :
    (outline (parse front).decls = outline (parse back).decls ↔ SameTexts front back) ∧
      recover (outline (parse front).decls) = front.map fun token => (token.kind, token.text) := by
  have recovered := outline_recovered first clean
  refine ⟨⟨fun same => ?_, fun same => ?_⟩, recovered⟩
  · rw [SameTexts, ← recovered, same, outline_recovered second neat]
  · rw [outline_numbered first, outline_numbered second, numbered_same same]

def packed : List Token :=
  [⟨.structWord, "struct", 1⟩, ⟨.lBrace, "\x7b", 1⟩, ⟨.ident, "t", 1⟩, ⟨.ident, "a", 1⟩, ⟨.less, "<", 1⟩,
   ⟨.number, "0", 1⟩, ⟨.dots, "..", 1⟩, ⟨.number, "2", 1⟩, ⟨.greater, ">", 1⟩, ⟨.semi, ";", 1⟩, ⟨.rBrace, "\x7d", 1⟩,
   ⟨.ident, "s", 1⟩, ⟨.semi, ";", 1⟩, .endAt 1]

def spaced : List Token :=
  [⟨.structWord, "struct", 1⟩, ⟨.lBrace, "\x7b", 1⟩, ⟨.ident, "t", 2⟩, ⟨.ident, "a", 2⟩, ⟨.less, "<", 2⟩,
   ⟨.number, "0", 2⟩, ⟨.dots, "..", 2⟩, ⟨.number, "2", 2⟩, ⟨.greater, ">", 2⟩, ⟨.semi, ";", 2⟩, ⟨.rBrace, "\x7d", 3⟩,
   ⟨.ident, "s", 3⟩, ⟨.semi, ";", 3⟩, .endAt 3]

theorem outline_identifies_struct : tokenize "struct\x7bt a<0..2>;\x7ds;" = .ok packed ∧
    tokenize "struct \x7b\n  t a<0 .. 2>; // size\n\x7d s;" = .ok spaced ∧ (parse packed).error = none ∧
      (parse spaced).error = none ∧
        (outline (parse packed).decls = outline (parse spaced).decls ↔ SameTexts packed spaced) ∧
          recover (outline (parse packed).decls) = packed.map fun token => (token.kind, token.text) := by
  have first : tokenize "struct\x7bt a<0..2>;\x7ds;" = .ok packed := by decide +kernel
  have second : tokenize "struct \x7b\n  t a<0 .. 2>; // size\n\x7d s;" = .ok spaced := by decide +kernel
  have clean : (parse packed).error = none := rfl
  have neat : (parse spaced).error = none := rfl
  exact ⟨first, second, clean, neat, outline_identifies first second clean neat⟩

example : outline (parse packed).decls = "struct s\n  t a<0..2>\n" := by decide +kernel

end WireFormat
