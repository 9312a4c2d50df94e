import WireFormat.Check.Bounds
import WireFormat.Repeats

namespace WireFormat

-- The value after another. The largest has no other successor than itself.
def successor (value : UInt64) : UInt64 := if value + 1 = 0 then value else value + 1

-- An entry without a value continues from the entry before, the first from zero.
def EnumEntry.values (next : UInt64) : List EnumEntry → List UInt64
  | [] => []
  | entry :: rest =>
    let value := match entry.value with
      | some number => number.value
      | none => next
    value :: EnumEntry.values (successor value) rest

namespace EnumDecl

def valued (listing : EnumDecl) : List (EnumEntry × UInt64) :=
  listing.entries.zip (EnumEntry.values 0 listing.entries)

def size (listing : EnumDecl) : Size :=
  match listing.max with
  | none => .unsized
  | some max => .range 0 max.value

def entryFindings (listing : EnumDecl) : List Finding :=
  (marked (·.name.text) [] listing.entries).flatMap fun (entry, again) =>
    (match entry.value with
      | none => []
      | some number => number.findings) ++
    if again then [⟨.duplicateEntry entry.name.text, entry.name⟩] else []

def maxFindings (listing : EnumDecl) : List Finding :=
  match listing.max with
  | none => []
  | some max => max.findings

-- Values are judged when all are known, so these are reported at the end.
def valueFindings (listing : EnumDecl) : List Finding :=
  (marked Prod.snd [] listing.valued).flatMap fun ((entry, value), again) =>
    (if again then [⟨.repeatedValue entry.name.text value, listing.close⟩] else []) ++
    match listing.max with
    | none => []
    | some max =>
      if max.value < value then
        [⟨.excessiveValue entry.name.text value max.value, listing.close⟩]
      else []

def findings (listing : EnumDecl) : List Finding :=
  listing.entryFindings ++ listing.maxFindings ++ listing.valueFindings

-- One entry per name, with the value of its first occurrence.
def definition (listing : EnumDecl) : Definition :=
  ⟨listing.name.text, .enum, listing.name.line, listing.size,
    (firsts (·.1.name.text) listing.valued).map fun (entry, value) =>
      ⟨some entry.name.text, none, .fixed value⟩⟩

end EnumDecl

end WireFormat
