import WireFormat.Outline
import WireFormat.Proofs.Marks

namespace WireFormat

-- The lines of an outline, as the texts of tokens with blanks between some.

def Token.Kind.spelling (kind : Kind) : String :=
  (((keywords ++ punctuation).find? fun entry => entry.2 = kind).map Prod.fst).getD ""

def Mark.text : Mark → String
  | .word kind => kind.spelling
  | .kept kind token => if kind.isFixed then kind.spelling else token.text
  | .segment text | .head text _ => text
  | .literal number | .power number => number.token.text

def pieceText (piece : Option Mark) : List Char := piece.elim [' '] fun mark => mark.text.toList

def letters (pieces : List (Option Mark)) : List Char := pieces.flatMap pieceText

section Letters

@[simp] theorem letters_nil : letters [] = [] := rfl

@[simp] theorem letters_cons : letters (piece :: pieces) = pieceText piece ++ letters pieces := rfl

@[simp] theorem letters_append : letters (front ++ back) = letters front ++ letters back := List.flatMap_append

@[simp] theorem piece_blank : pieceText none = [' '] := rfl

@[simp] theorem piece_mark (mark : Mark) : pieceText (some mark) = mark.text.toList := rfl

theorem letters_flatMap (parts : List α) (pieces : α → List (Option Mark)) :
    letters (parts.flatMap pieces) = parts.flatMap fun part => letters (pieces part) := List.flatMap_assoc

theorem letters_map (marks : List Mark) : letters (marks.map some) = marks.flatMap fun mark => mark.text.toList :=
  List.flatMap_map some pieceText marks

end Letters

@[simp] theorem ident_text (token : Token) : (Mark.kept .ident token).text = token.text := rfl

@[simp] theorem semi_text (token : Token) : (Mark.kept .semi token).text = ";" := rfl

def joined (marks : α → List Mark) : List α → List (Option Mark)
  | [] => []
  | first :: more =>
    (marks first).map some ++ more.flatMap fun part => some (.word .comma) :: none :: (marks part).map some

def boundsRow (bounds : Option Bounds) : List (Option Mark) := (optionalMarks Bounds.marks bounds).map some

def Field.row (entry : Field) : List (Option Mark) :=
  entry.type.marks.map some ++ none :: some (.kept .ident entry.name) :: boundsRow entry.bounds

def externRow (name : Token) : List (Option Mark) := [some (.word .externWord), none, some (.kept .ident name)]

-- The number at the end is one more part.
def EnumDecl.parts (listing : EnumDecl) : List (EnumEntry ⊕ Number) :=
  listing.entries.map .inl ++ listing.max.toList.map .inr

def EnumDecl.row (listing : EnumDecl) : List (Option Mark) :=
  some (.word .enumWord) :: none :: some (.kept .ident listing.name) :: none :: some (.word .lBrace) :: none ::
    (joined (Sum.elim EnumEntry.marks Number.marks) listing.parts ++ [none, some (.word .rBrace)])

def structRow (name : Token) : List (Option Mark) := [some (.word .structWord), none, some (.kept .ident name)]

def Select.row (choice : Select) : List (Option Mark) :=
  some (.word .selectWord) :: none ::
    ((choice.name.elim [] fun name => [some (.kept .ident name), none]) ++
      some (.word .lParen) :: (choice.selector.marks.map some ++ [some (.word .rParen)]))

def Item.row (item : Item) : List (Option Mark) :=
  (if item.signed then [none, some (.word .signedWord)] else []) ++ none :: (item.type.marks.map some ++
    ((item.name.elim [] fun name => none :: some (.kept .ident name) :: boundsRow item.bounds) ++
      [some (.kept .semi item.close)]))

def itemsRow (items : List Item) : List (Option Mark) :=
  if items.isEmpty then [none, some (.word .semi)] else items.flatMap Item.row

def Arm.row (arm : Arm) : List (Option Mark) :=
  some (.word .caseWord) :: none ::
    (joined (fun label => [.kept .ident label.name]) arm.labels ++ some (.word .colon) :: itemsRow arm.items)

structure Row where
  depth : Nat
  pieces : List (Option Mark)
  deriving DecidableEq, Repr

def Row.letters (row : Row) : List Char := List.replicate (2 * row.depth) ' ' ++ WireFormat.letters row.pieces

def Select.outlineRows (depth : Nat) (choice : Select) : List Row :=
  ⟨depth, choice.row⟩ :: choice.arms.map fun arm => ⟨depth + 1, arm.row⟩

mutual

def Member.outlineRows (depth : Nat) : Member → List Row
  | .field entry => [⟨depth, entry.row⟩]
  | .struct members name _ => ⟨depth, structRow name⟩ :: Member.allOutlineRows (depth + 1) members
  | .select choice => choice.outlineRows depth

def Member.allOutlineRows (depth : Nat) : List Member → List Row
  | [] => []
  | member :: rest => Member.outlineRows depth member ++ Member.allOutlineRows depth rest

end

def Decl.outlineRows : Decl → List Row
  | .field entry => [⟨0, entry.row⟩]
  | .external name _ => [⟨0, externRow name⟩]
  | .enum listing => [⟨0, listing.row⟩]
  | .struct members name _ => ⟨0, structRow name⟩ :: Member.allOutlineRows 1 members
  | .select choice => choice.outlineRows 0

section Texts

theorem indented_letters (depth : Nat) (line : String) :
    (indented depth line).toList = List.replicate (2 * depth) ' ' ++ line.toList := by
  have blanks (n : Nat) : ("".pushn ' ' n).toList = List.replicate n ' ' := by
    induction n with
    | zero => rfl
    | succ n ih => rw [List.replicate_succ', ← ih, String.pushn, Nat.repeat, String.toList_push]; rfl
  rw [indented, String.toList_append, blanks]

theorem name_letters (name : Name) : name.text.toList = letters (name.marks.map some) := by
  have segments (tail : List String) (head : String) : (".".intercalate (head :: tail)).toList =
      head.toList ++ tail.flatMap fun text => '.' :: text.toList := by
    induction tail generalizing head with
    | nil => simp
    | cons next more ih => simp [ih]
  rw [Name.text, Name.segments, segments]
  simp [Name.marks, letters_map, Mark.text, List.flatMap_assoc]
  rfl

theorem type_letters (type : TypeRef) : type.text.toList = letters (type.marks.map some) := by
  cases type with
  | scalar type => cases type <;> rfl
  | named name => exact name_letters name

theorem size_letters (size : SizeExpr) : size.text.toList = letters (size.marks.map some) := by
  cases size with
  | literal | power => simp [SizeExpr.text, SizeExpr.marks, Mark.text]
  | reference name => exact name_letters name

theorem bounds_letters (bounds : Option Bounds) : (boundsText bounds).toList = letters (boundsRow bounds) := by
  cases bounds with
  | none => rfl
  | some bounds =>
    cases bounds with
    | fixed size =>
      simp [boundsText, boundsRow, optionalMarks, Bounds.marks, size_letters, Mark.text]
      rfl
    | range least most =>
      simp [boundsText, boundsRow, optionalMarks, Bounds.marks, size_letters, Mark.text]
      rfl

theorem field_letters (entry : Field) : entry.text.toList = letters entry.row := by
  simp [Field.text, Field.row, type_letters, bounds_letters]

theorem joined_letters (marks : α → List Mark) (text : α → String)
    (each : ∀ part, (text part).toList = letters ((marks part).map some)) (parts : List α) :
    (", ".intercalate (parts.map text)).toList = letters (joined marks parts) := by
  have more (first : α) (rest : List α) : (", ".intercalate ((first :: rest).map text)).toList =
      (text first).toList ++ rest.flatMap fun part => ',' :: ' ' :: (text part).toList := by
    induction rest generalizing first with
    | nil => simp
    | cons next rest ih => simpa using ih next
  cases parts with
  | nil => rfl
  | cons first rest =>
    rw [more, joined, letters_append, letters_flatMap, ← each]
    congr 2
    funext part
    rw [each]
    rfl

theorem entry_letters (entry : EnumEntry) : entry.text.toList = letters (entry.marks.map some) := by
  obtain ⟨name, value⟩ := entry
  cases value with
  | none => simp [EnumEntry.text, EnumEntry.marks, optionalMarks]
  | some number =>
    simp [EnumEntry.text, EnumEntry.marks, optionalMarks, Number.marks]
    rfl

theorem item_letters (item : Item) : item.text.toList = letters item.row := by
  obtain ⟨signed, type, name, bounds, close⟩ := item
  cases signed <;> cases name <;> simp [Item.text, Item.row, type_letters, bounds_letters] <;> rfl

theorem arm_letters (arm : Arm) : arm.text.toList = letters arm.row := by
  have labels := joined_letters (fun label => [.kept .ident label.name]) (·.name.text) (fun _ => by simp) arm.labels
  have items : (if arm.items.isEmpty then " ;" else String.join (arm.items.map Item.text)).toList =
      letters (itemsRow arm.items) := by
    unfold itemsRow
    split
    · rfl
    · simp [letters_flatMap, String.toList_join, List.flatMap_map, item_letters]
  rw [Arm.text, String.toList_append, items]
  simp [Arm.row, labels]
  rfl

theorem number_letters (number : Number) :
    ("(" ++ number.token.text ++ ")").toList = letters (number.marks.map some) := by
  simp [Number.marks]
  rfl

theorem enum_letters (listing : EnumDecl) : listing.text.toList = letters listing.row := by
  have parts := joined_letters (Sum.elim EnumEntry.marks Number.marks)
    (Sum.elim EnumEntry.text fun number => "(" ++ number.token.text ++ ")")
    (fun part => by cases part with
      | inl entry => exact entry_letters entry
      | inr number => exact number_letters number) listing.parts
  rw [EnumDecl.parts, List.map_append, List.map_map, List.map_map] at parts
  simp only [Sum.elim_comp_inl, Sum.elim_comp_inr] at parts
  unfold EnumDecl.text
  simp only [String.toList_append, parts]
  simp [EnumDecl.row, EnumDecl.parts]
  rfl

theorem select_letters (choice : Select) : ("select " ++
    (match choice.name with
      | none => ""
      | some name => name.text ++ " ") ++ "(" ++ choice.selector.text ++ ")").toList = letters choice.row := by
  unfold Select.row
  cases choice.name <;> simp [name_letters] <;> rfl

theorem struct_letters (name : Token) : ("struct " ++ name.text).toList = letters (structRow name) := by
  simp [structRow]
  rfl

theorem extern_letters (name : Token) : ("extern " ++ name.text).toList = letters (externRow name) := by
  simp [externRow]
  rfl

theorem line_letters {line : String} (written : line.toList = letters pieces) (depth : Nat) :
    (indented depth line).toList = Row.letters ⟨depth, pieces⟩ := by
  rw [indented_letters, written]
  rfl

theorem select_rows (depth : Nat) (choice : Select) :
    (choice.lines depth).map String.toList = (choice.outlineRows depth).map Row.letters := by
  have arms : (choice.arms.map fun arm => indented (depth + 1) arm.text).map String.toList =
      (choice.arms.map fun arm => ⟨depth + 1, arm.row⟩).map Row.letters := by
    simp only [List.map_map, Function.comp_def, line_letters (arm_letters _)]
  exact congrArg₂ List.cons (line_letters (select_letters choice) depth) arms

mutual

theorem member_rows (depth : Nat) (member : Member) :
    (member.lines depth).map String.toList = (member.outlineRows depth).map Row.letters := by
  cases member with
  | field entry =>
    rw [Member.lines, Member.outlineRows, List.map_singleton, List.map_singleton, line_letters (field_letters entry)]
  | struct members name close =>
    rw [Member.lines, Member.outlineRows, List.map_cons, List.map_cons, line_letters (struct_letters name),
      members_rows]
  | select choice =>
    rw [Member.lines, Member.outlineRows]
    exact select_rows depth choice

theorem members_rows (depth : Nat) (members : List Member) :
    (Member.allLines depth members).map String.toList = (Member.allOutlineRows depth members).map Row.letters := by
  cases members with
  | nil => rw [Member.allLines, Member.allOutlineRows, List.map_nil, List.map_nil]
  | cons member rest =>
    rw [Member.allLines, Member.allOutlineRows, List.map_append, List.map_append, member_rows, members_rows]

end

theorem decl_rows (decl : Decl) : decl.lines.map String.toList = decl.outlineRows.map Row.letters := by
  cases decl with
  | field entry => exact congrArg (fun line => [line]) (field_letters entry)
  | external name close => exact congrArg (fun line => [line]) (extern_letters name)
  | enum listing => exact congrArg (fun line => [line]) (enum_letters listing)
  | struct members name close => exact congrArg₂ List.cons (struct_letters name) (members_rows 1 members)
  | select choice => exact select_rows 0 choice

theorem outline_letters (decls : List Decl) :
    (outline decls).toList = (decls.flatMap Decl.outlineRows).flatMap fun row => row.letters ++ ['\n'] := by
  have ended (line : String) : (line ++ "\n").toList = line.toList ++ ['\n'] := String.toList_append
  have rows : (decls.flatMap Decl.lines).map String.toList = (decls.flatMap Decl.outlineRows).map Row.letters := by
    rw [List.map_flatMap, List.map_flatMap]
    simp only [decl_rows]
  calc (outline decls).toList
    _ = (decls.flatMap Decl.lines).flatMap fun line => line.toList ++ ['\n'] := by
      rw [outline, String.toList_join, List.flatMap_map]
      simp only [ended]
    _ = ((decls.flatMap Decl.lines).map String.toList).flatMap (· ++ ['\n']) := by rw [List.flatMap_map]
    _ = (decls.flatMap Decl.outlineRows).flatMap fun row => row.letters ++ ['\n'] := by rw [rows, List.flatMap_map]

end Texts

end WireFormat
