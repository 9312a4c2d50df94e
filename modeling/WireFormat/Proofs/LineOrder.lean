import WireFormat.Proofs.Acceptance
import WireFormat.Proofs.Enclosed

namespace WireFormat

-- The order in which the problems of one top-level line are reported.

-- What a problem of a line is about, in the order that is documented for them.
inductive Topic where
  | literal | reference | measure | type | symbol
  deriving DecidableEq, Repr

namespace Topic

def turn : Topic → Nat
  | .literal => 0
  | .reference => 1
  | .measure => 2
  | .type => 3
  | .symbol => 4

-- How messages begin, by topic. A literal that could not be evaluated is told by its kind.
def openings : List (String × Topic) :=
  [("Unknown size reference ", .reference), ("``", .measure), ("Unknown member type ", .type),
    ("Duplicate symbol ", .symbol)]

def ofMessage? (message : String) : Option Topic :=
  (openings.find? fun opening => opening.1.toList.isPrefixOf message.toList).map Prod.snd

end Topic

def Diagnostic.topic? (diagnostic : Diagnostic) : Option Topic :=
  if diagnostic.kind = .literal then some .literal else Topic.ofMessage? diagnostic.message

-- No topic after one of a later turn.
def InTurn (topics : List Topic) : Prop := topics.Pairwise fun earlier later => earlier.turn ≤ later.turn

def Cause.topic? : Cause → Option Topic
  | .failedLiteral _ => some .literal
  | .unknownSize _ => some .reference
  | .emptySize _ => some .measure
  | .invertedRange .. => some .measure
  | .unknownType _ => some .type
  | .duplicateSymbol _ => some .symbol
  | _ => none

theorem message_topic {cause : Cause} (analyzed : cause.kind ≠ .literal) :
    Topic.ofMessage? cause.message = cause.topic? := by
  cases cause with
  | failedLiteral => exact absurd rfl analyzed
  | _ =>
    unfold Cause.message Topic.ofMessage? Topic.openings Cause.quoted
    simp only [String.toList_append]
    rfl

theorem topic_exact (finding : Finding) (noted : Bool) :
    (finding.diagnostic noted).topic? = finding.cause.topic? := by
  unfold Diagnostic.topic?
  split
  · rename_i literal
    change finding.cause.kind = .literal at literal
    cases cause : finding.cause with
    | failedLiteral => rfl
    | _ => simp [Cause.kind, cause] at literal
  · rename_i analyzed
    exact message_topic analyzed

theorem report_topics (once noted : Bool) (findings : List Finding) :
    (report once noted findings).map Diagnostic.topic? = findings.map (·.cause.topic?) := by
  induction findings generalizing noted with
  | nil => rfl
  | cons finding rest ih => rw [report, List.map_cons, List.map_cons, ih, topic_exact]

-- Findings about some of the topics, each at most once and in this order.
def Speaks (found : List Finding) (topics : List Topic) : Prop :=
  ∃ spoken : List Topic, found.map (·.cause.topic?) = spoken.map some ∧ spoken.Sublist topics

namespace Speaks

theorem nil (topics : List Topic) : Speaks [] topics := ⟨[], rfl, List.nil_sublist _⟩

theorem single {topic : Topic} (finding : Finding) (about : finding.cause.topic? = some topic) :
    Speaks [finding] [topic] :=
  ⟨[topic], by simp [about], List.Sublist.refl _⟩

theorem append {front back : List Topic} (first : Speaks one front) (second : Speaks other back) :
    Speaks (one ++ other) (front ++ back) := by
  obtain ⟨before, same, inside⟩ := first
  obtain ⟨after, again, within⟩ := second
  exact ⟨before ++ after, by rw [List.map_append, List.map_append, same, again], inside.append within⟩

theorem turn (speaks : Speaks found topics) (turn : InTurn topics) :
    ∃ spoken : List Topic, found.map (·.cause.topic?) = spoken.map some ∧ InTurn spoken := by
  obtain ⟨spoken, same, inside⟩ := speaks
  exact ⟨spoken, same, turn.sublist inside⟩

theorem only {topic : Topic} (speaks : Speaks found [topic]) (some : found ≠ []) :
    found.map (·.cause.topic?) = [Option.some topic] := by
  obtain ⟨spoken, same, inside⟩ := speaks
  rcases List.sublist_singleton.mp inside with rfl | rfl
  · exact absurd (List.map_eq_nil_iff.mp same) some
  · exact same

end Speaks

instance (topics : List Topic) : Decidable (InTurn topics) := inferInstanceAs (Decidable (List.Pairwise _ _))

def SizeExpr.topic : SizeExpr → Topic
  | .literal _ => .literal
  | .power _ => .literal
  | .reference _ => .reference

theorem SizeExpr.topic_either (size : SizeExpr) : size.topic = .literal ∨ size.topic = .reference := by
  cases size with
  | literal | power => exact .inl rfl
  | reference => exact .inr rfl

theorem number_speaks (number : Number) : Speaks number.findings [.literal] := by
  unfold Number.findings
  split
  · exact .nil _
  · exact .single _ rfl

namespace Place

variable (place : Place)

theorem sizeFindings_speaks (close : Token) (size : SizeExpr) :
    Speaks (place.sizeFindings close size) [size.topic] := by
  cases size with
  | literal number | power number => exact number_speaks number
  | reference name =>
    show Speaks (place.valueFindings .size name _) [.reference]
    unfold valueFindings
    split
    · exact .nil _
    · exact .single _ rfl

theorem measure_speaks (owner : String) (close : Token) (size : Size) :
    Speaks (size.findings owner close) [.measure] := by
  unfold Size.findings
  split
  · split
    · exact .single _ rfl
    · exact .nil _
  · split
    · exact .single _ rfl
    · exact .nil _
  · exact .nil _

theorem types_speak (close : Token) (type : TypeRef) :
    Speaks ((place.unknownType? type).toList.map fun name => ⟨.unknownType name, close⟩) [.type] := by
  cases place.unknownType? type with
  | none => exact .nil _
  | some name => exact .single _ rfl

theorem taken_speaks (taken : List String) (name close : Token) :
    Speaks (takenFindings taken name close) [.symbol] := by
  unfold takenFindings
  split
  · exact .single _ rfl
  · exact .nil _

-- A range from a name that does not resolve to a literal that cannot be evaluated.
structure Crosses (low high : SizeExpr) : Prop where
  reference : low.topic = .reference
  literal : high.topic = .literal
  unknown : ¬ low.Sound Ending.isTolerated place
  failed : ¬ high.Sound Ending.isTolerated place

def Crossed (bounds : Option Bounds) : Prop := ∃ low high, bounds = some (.range low high) ∧ place.Crosses low high

-- The topics of a line with these bounds. Those of a crossed range are in turn once its
-- first two have changed places.
inductive Turns (bounds : Option Bounds) : List Topic → Prop where
  | straight (straight : ¬ place.Crossed bounds) (turn : InTurn topics) : Turns bounds topics
  | crossed (crossed : place.Crossed bounds) (turn : InTurn (.literal :: .reference :: rest)) :
      Turns bounds (.reference :: .literal :: rest)

theorem size_turn (size : SizeExpr) : InTurn [size.topic, .measure, .type, .symbol] := by
  rcases size.topic_either with topic | topic <;> rw [topic] <;> decide

theorem ends_turn {low high : SizeExpr} (straight : ¬ place.Crosses low high) (close : Token) :
    ∃ topics, Speaks (place.sizeFindings close low ++ place.sizeFindings close high) topics ∧
      InTurn (topics ++ [.measure, .type, .symbol]) := by
  have first := place.sizeFindings_speaks close low
  have second := place.sizeFindings_speaks close high
  by_cases known : low.Sound Ending.isTolerated place
  · rw [(size_accepted place close low).mpr known, List.nil_append]
    exact ⟨_, second, size_turn high⟩
  by_cases evaluated : high.Sound Ending.isTolerated place
  · rw [(size_accepted place close high).mpr evaluated, List.append_nil]
    exact ⟨_, first, size_turn low⟩
  refine ⟨_, first.append second, ?_⟩
  rcases low.topic_either with begins | begins <;> rcases high.topic_either with ends | ends
  case inr.inl => exact absurd ⟨begins, ends, known, evaluated⟩ straight
  all_goals
    rw [begins, ends]
    decide

theorem others_speak (entry : Field) :
    Speaks ((place.unknownType? entry.type).toList.map (fun name => ⟨.unknownType name, entry.close⟩) ++
      takenFindings (place.prior.filterMap Decl.globalName?) entry.name entry.close) [.type, .symbol] :=
  (place.types_speak entry.close entry.type).append (taken_speaks _ entry.name entry.close)

theorem range_topics {low high : SizeExpr} (owner : String) (close : Token) (others : Speaks found [.type, .symbol]) :
    ∃ topics : List Topic,
      (place.boundsFindings owner close (some (.range low high)) ++ found).map (·.cause.topic?) = topics.map some ∧
        place.Turns (some (.range low high)) topics := by
  have ends : (Bounds.range low high).sizes.flatMap (place.sizeFindings close) =
      place.sizeFindings close low ++ place.sizeFindings close high := by simp [Bounds.sizes]
  have later := (measure_speaks owner close (Bounds.range low high).size).append others
  rw [boundsFindings, ends, List.append_assoc _ _ found]
  by_cases crosses : place.Crosses low high
  · obtain ⟨rest, same, inside⟩ := later
    have first := (place.sizeFindings_speaks close low).only fun none =>
      crosses.unknown ((size_accepted place close low).mp none)
    have second := (place.sizeFindings_speaks close high).only fun none =>
      crosses.failed ((size_accepted place close high).mp none)
    rw [crosses.reference] at first
    rw [crosses.literal] at second
    have turn : InTurn [.literal, .reference, .measure, .type, .symbol] := by decide
    refine ⟨.reference :: .literal :: rest, ?_, .crossed ⟨low, high, rfl, crosses⟩ ?_⟩
    · rw [List.map_append, List.map_append, first, second, same]
      rfl
    · exact turn.sublist ((inside.cons_cons _).cons_cons _)
  · obtain ⟨topics, speaks, turn⟩ := place.ends_turn crosses close
    obtain ⟨spoken, same, turn⟩ := (speaks.append later).turn turn
    refine ⟨spoken, same, .straight ?_ turn⟩
    rintro ⟨_, _, ⟨⟩, found⟩
    exact crosses found

theorem line_topics (entry : Field) :
    ∃ topics : List Topic, (place.declFindings (.field entry)).map (·.cause.topic?) = topics.map some ∧
      place.Turns entry.bounds topics := by
  have others := place.others_speak entry
  rw [declFindings, List.append_assoc]
  cases entry.bounds with
  | none =>
    obtain ⟨topics, same, turn⟩ := others.turn (by decide)
    refine ⟨topics, ?_, .straight ?_ turn⟩
    · rw [boundsFindings, List.nil_append, same]
    · rintro ⟨_, _, ⟨⟩, _⟩
  | some bounds =>
    cases bounds with
    | fixed size =>
      have sizes : Speaks ((Bounds.fixed size).sizes.flatMap (place.sizeFindings entry.close)) [size.topic] := by
        simpa [Bounds.sizes] using place.sizeFindings_speaks entry.close size
      have measure := measure_speaks entry.name.text entry.close (Bounds.fixed size).size
      obtain ⟨topics, same, turn⟩ := ((sizes.append measure).append others).turn (size_turn size)
      refine ⟨topics, same, .straight ?_ turn⟩
      rintro ⟨_, _, ⟨⟩, _⟩
    | range low high => exact place.range_topics entry.name.text entry.close others

end Place

theorem reachedBy_shows (front back : List Decl) :
    (reachedBy front back).Shows ((front ++ back).filterMap Decl.external?) front :=
  (Resolution.checkDecls_findings (initial_shows (front ++ back)) (by simp) front).1

-- A line reports failed literals, unknown references, its size, its type and its name in
-- this order, whatever else a schema holds. Only a range from an unknown reference to a
-- failed literal departs from it, and only by reporting these two the other way round.
theorem line_turns (front back : List Decl) (entry : Field) (once : Bool) :
    ∃ before own after, before.length = front.length ∧ after.length = back.length ∧
      Reports once (front ++ .field entry :: back) (before ++ own :: after) ∧
      ∃ topics : List Topic, own.map Diagnostic.topic? = topics.map some ∧
        Place.Turns ⟨(front ++ back).filterMap Decl.external?, front, []⟩ entry.bounds topics := by
  have same : ∀ name, name ∈ Resolution.known front ↔ name ∈ front.filterMap Decl.external? := by
    simp [Resolution.known]
  have found := (Resolution.checkDecl_shows (reachedBy_shows front back) same (.field entry)).2
  obtain ⟨topics, spoken, turns⟩ := Place.line_topics ⟨(front ++ back).filterMap Decl.external?, front, []⟩ entry
  refine ⟨_, _, _, ?_, ?_, reports_outside front back once rfl, topics, ?_, turns⟩
  · rw [reportEach_length, foundBefore, Resolution.foundEach_length]
  · rw [reportEach_length, Resolution.foundEach_length]
  · rw [report_topics, found, spoken]

-- Such a range, which reports its reference first.
example : (compile "uint8 x<u..2^33-1>;" ⟨"<input>", true⟩).diagnostics.map Diagnostic.topic? =
    [some .reference, some .literal] := by decide +kernel

end WireFormat
