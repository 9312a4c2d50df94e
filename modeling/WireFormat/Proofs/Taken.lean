import WireFormat.Proofs.Spelling

namespace WireFormat

-- Reading takes whatever spells a tree, and keeps that tree.

def Takes (step : σ → Token → Option σ) (before : σ) (tokens : List Token) (after : σ) : Prop :=
  tokens.foldlM step before = some after

section Takes

variable {step : σ → Token → Option σ}

theorem takes_nil : Takes step before [] after ↔ before = after :=
  Option.some_inj

theorem takes_cons : Takes step before (token :: rest) after ↔
    ∃ middle, step before token = some middle ∧ Takes step middle rest after :=
  Option.bind_eq_some_iff

theorem takes_append : Takes step before (front ++ back) after ↔
    ∃ middle, Takes step before front middle ∧ Takes step middle back after := by
  rw [Takes, List.foldlM_append]
  exact Option.bind_eq_some_iff

theorem Takes.single (next : step before token = some after) : Takes step before [token] after :=
  takes_cons.mpr ⟨after, next, rfl⟩

theorem Takes.cons (next : step before token = some middle) (more : Takes step middle rest after) :
    Takes step before (token :: rest) after := takes_cons.mpr ⟨middle, next, more⟩

theorem Takes.append (first : Takes step before front middle) (more : Takes step middle back after) :
    Takes step before (front ++ back) after := takes_append.mpr ⟨middle, first, more⟩

theorem Takes.snoc (first : Takes step before front middle) (next : step middle token = some after) :
    Takes step before (front ++ [token]) after := first.append (.single next)

theorem Takes.lift {inner : τ → Token → Option τ} (embed : τ → σ)
    (lifts : ∀ state token next, inner state token = some next →
      step (embed state) token = some (embed next))
    (takes : Takes inner start tokens final) : Takes step (embed start) tokens (embed final) := by
  induction tokens generalizing start with
  | nil => exact takes_nil.mpr (congrArg embed (takes_nil.mp takes))
  | cons token rest ih =>
    obtain ⟨middle, next, more⟩ := takes_cons.mp takes
    exact .cons (lifts start token middle next) (ih more)

theorem name_taken (step : σ → Token → Option σ) (plain dotted : Name → σ)
    (joins : ∀ name token, token.kind = .dot → step (plain name) token = some (dotted name))
    (grows : ∀ name token, token.kind = .ident →
      step (dotted name) token = some (plain (name.extend token.text)))
    (spelt : NameSpelt name tokens) :
    ∃ first rest, tokens = first :: rest ∧ first.kind = .ident ∧
      Takes step (plain (.simple first)) rest (plain name) := by
  induction spelt with
  | simple ident => exact ⟨_, [], rfl, ident, rfl⟩
  | extend front joint ident ih =>
    obtain ⟨first, rest, rfl, start, takes⟩ := ih
    refine ⟨first, _, List.cons_append, start, takes.append ?_⟩
    exact .cons (joins _ _ joint) (.single (grows _ _ ident))

end Takes

theorem size_taken (spelt : SizeSpelt size tokens) :
    Takes SizeReading.advance .wanted tokens (.complete size) := by
  cases spelt with
  | literal number => exact .single (by simp [SizeReading.advance, number])
  | power power => exact .single (by simp [SizeReading.advance, power])
  | reference spelt =>
    obtain ⟨first, rest, rfl, ident, takes⟩ := name_taken SizeReading.advance
      (fun name => .complete (.reference name)) .dotted (fun _ _ joint => by simp [SizeReading.advance, joint])
      (fun _ _ ident => by simp [SizeReading.advance, ident]) spelt
    exact .cons (by simp [SizeReading.advance, ident]) takes

theorem type_taken (spelt : TypeSpelt type tokens) :
    ∃ first rest line, tokens = first :: rest ∧ LineReading.start? first = some line ∧
      Takes LineReading.advance line rest (.typed type) := by
  cases spelt with
  | scalar word => exact ⟨_, [], _, rfl, by simp [LineReading.start?, word], rfl⟩
  | named spelt =>
    obtain ⟨first, rest, rfl, ident, takes⟩ := name_taken LineReading.advance
      (fun name => .typed (.named name)) .typeDotted (fun _ _ joint => by simp [LineReading.advance, joint])
      (fun _ _ ident => by simp [LineReading.advance, ident]) spelt
    exact ⟨first, rest, _, rfl, by simp [LineReading.start?, ident], takes⟩

def LineReading.whole (type : TypeRef) (name : Token) : Option Bounds → LineReading
  | none => .named type name
  | some bounds => .bounded type name bounds

theorem inSize_taken (closer : Token.Kind) (stay : SizeReading → LineReading)
    (leave : SizeExpr → LineReading)
    (steps : ∀ size token, (stay size).advance token = LineReading.inSize size token closer stay leave)
    (shut : ∀ size token, token.kind = closer → (SizeReading.complete size).advance token = none)
    (spelt : SizeSpelt size tokens) (closes : right.kind = closer) :
    Takes LineReading.advance (stay .wanted) (tokens ++ [right]) (leave size) := by
  refine .snoc ((size_taken spelt).lift stay fun size token after next => ?_) ?_
  · simp [steps, LineReading.inSize, next]
  · simp [steps, LineReading.inSize, shut size right closes, closes, SizeReading.complete?]

theorem size_shut (closer : Token.Kind) (other : closer ≠ .dot) (size : SizeExpr) (token : Token)
    (closes : token.kind = closer) : (SizeReading.complete size).advance token = none := by
  unfold SizeReading.advance
  split <;> simp_all

theorem bounds_taken (type : TypeRef) (name : Token) (spelt : BoundsSpelt bounds tokens) :
    Takes LineReading.advance (.named type name) tokens (.bounded type name bounds) := by
  cases spelt with
  | @fixed size tokens left right opens spelt closes =>
    have start : (LineReading.named type name).advance left = some (.fixed type name .wanted) := by
      simp [LineReading.advance, opens]
    exact .cons start (inSize_taken .rBracket (.fixed type name) _ (fun _ _ => rfl)
      (size_shut _ (by decide)) spelt closes)
  | @range least front most back left dots right opens low joint high closes =>
    have start : (LineReading.named type name).advance left = some (.low type name .wanted) := by
      simp [LineReading.advance, opens]
    have first := inSize_taken .dots (.low type name) _ (fun _ _ => rfl) (size_shut _ (by decide)) low joint
    have second := inSize_taken .greater (.high type name least) _ (fun _ _ => rfl)
      (size_shut _ (by decide)) high closes
    simpa using (Takes.cons start first).append second

theorem line_taken (typed : TypeSpelt type front) (ident : name.kind = .ident)
    (bounded : Optional BoundsSpelt bounds back) :
    ∃ first rest line, front ++ name :: back = first :: rest ∧ LineReading.start? first = some line ∧
      Takes LineReading.advance line rest (.whole type name bounds) := by
  obtain ⟨first, rest, line, rfl, starts, takes⟩ := type_taken typed
  have named : (LineReading.typed type).advance name = some (.named type name) := by
    cases type <;> simp [LineReading.advance, ident]
  refine ⟨first, rest ++ name :: back, line, List.cons_append, starts, takes.append (.cons named ?_)⟩
  cases bounded with
  | none => rfl
  | some spelt => exact bounds_taken type name spelt

theorem line_shut (line : LineReading) (ends : token.kind = .semi) : line.advance token = none := by
  cases line with
  | typed type => cases type <;> simp [LineReading.advance, ends]
  | typeDotted | named => simp [LineReading.advance, ends]
  | fixed _ _ size | low _ _ size | high _ _ _ size =>
    cases size <;> simp [LineReading.advance, LineReading.inSize, SizeReading.advance, ends]
  | bounded => rfl

theorem field_taken (spelt : FieldSpelt entry tokens) :
    ∃ first rest line last, tokens = first :: rest ++ [entry.close] ∧
      LineReading.start? first = some line ∧ Takes LineReading.advance line rest last ∧
        last.field? entry.close = some entry := by
  obtain ⟨typed, ident, bounded, ends⟩ := spelt
  obtain ⟨first, rest, line, split, starts, takes⟩ := line_taken typed ident bounded
  refine ⟨first, rest, line, _, by rw [split], starts, takes, ?_⟩
  cases bounded <;> simp [LineReading.whole, LineReading.field?, ends]

theorem item_taken (spelt : ItemSpelt item tokens) :
    ∃ first rest line last, tokens = first :: rest ++ [item.close] ∧
      LineReading.start? first = some line ∧ Takes LineReading.advance line rest last ∧
        last.item? item.close = some item := by
  cases spelt with
  | bare typed ends =>
    obtain ⟨first, rest, line, rfl, starts, takes⟩ := type_taken typed
    exact ⟨first, rest, line, _, rfl, starts, takes, by simp [LineReading.item?, ends]⟩
  | named typed ident bounded ends =>
    obtain ⟨first, rest, line, split, starts, takes⟩ := line_taken typed ident bounded
    refine ⟨first, rest, line, _, by rw [split], starts, takes, ?_⟩
    cases bounded <;> simp [LineReading.whole, LineReading.item?, ends]

-- Where an enum can go on after a complete entry. The first entry without a value has
-- a state of its own, because a value could still follow.
structure Entered (withValues : Bool) (entries : List EnumEntry) (reading : EnumReading) : Prop where
  comma : ∀ token, token.kind = .comma →
    reading.advance token = some (.separated withValues entries.toArray)
  closes : ∀ token, token.kind = .rBrace → reading.advance token = some (.closed entries.toArray none)

theorem entered_done (withValues : Bool) (entries : List EnumEntry) :
    Entered withValues entries (.entered withValues entries.toArray) :=
  ⟨fun _ comma => by simp [EnumReading.advance, comma], fun _ closes => by simp [EnumReading.advance, closes]⟩

theorem number_taken (reading : EnumReading) (entries : List EnumEntry) (name : Token)
    (starts : ∀ left, left.kind = .lParen →
      reading.advance left = some (.valueOpened entries.toArray name))
    (spelt : NumberSpelt number tokens) :
    Takes EnumReading.advance reading tokens
      (.entered true (entries ++ [(⟨name, some number⟩ : EnumEntry)]).toArray) := by
  obtain @⟨value, left, right, opens, kind, closes⟩ := spelt
  have second : (EnumReading.valueOpened entries.toArray name).advance value =
      some (.valued entries.toArray name (.literal value)) := by simp [EnumReading.advance, kind]
  have third : (EnumReading.valued entries.toArray name (.literal value)).advance right =
      some (.entered true (entries ++ [(⟨name, some (.literal value)⟩ : EnumEntry)]).toArray) := by
    simp [EnumReading.advance, closes]
  exact .cons (starts left opens) (.cons second (.single third))

theorem first_taken (spelt : EntrySpelt withValues entry tokens) :
    ∃ reading, Takes EnumReading.advance .opened tokens reading ∧ Entered withValues [entry] reading := by
  cases spelt with
  | @plain name ident =>
    refine ⟨.firstNamed name, .single (by simp [EnumReading.advance, ident]), ?_, ?_⟩
    · exact fun token comma => by simp [EnumReading.advance, comma]
    · exact fun token closes => by simp [EnumReading.advance, closes]
  | @valued number tokens name ident value =>
    have start : EnumReading.opened.advance name = some (.firstNamed name) := by
      simp [EnumReading.advance, ident]
    have takes := number_taken (.firstNamed name) [] name
      (fun left opens => by simp [EnumReading.advance, opens]) value
    exact ⟨_, .cons start takes, entered_done true _⟩

theorem entry_taken (spelt : After (EntrySpelt withValues) .comma entry tokens)
    (entered : Entered withValues entries reading) :
    ∃ after, Takes EnumReading.advance reading tokens after ∧
      Entered withValues (entries ++ [entry]) after := by
  obtain ⟨comma, rest, rfl, kind, spelt⟩ := spelt
  have separated := entered.comma comma kind
  cases spelt with
  | @plain name ident =>
    refine ⟨_, .cons separated (.single ?_), entered_done false _⟩
    simp [EnumReading.advance, ident]
  | @valued number tokens name ident value =>
    have start : (EnumReading.separated true entries.toArray).advance name =
        some (.named entries.toArray name) := by simp [EnumReading.advance, ident]
    have takes := number_taken (.named entries.toArray name) entries name
      (fun left opens => by simp [EnumReading.advance, opens]) value
    exact ⟨_, .cons separated (.cons start takes), entered_done true _⟩

theorem entries_taken (spelt : Several (After (EntrySpelt withValues) .comma) others tokens)
    (entered : Entered withValues entries reading) :
    ∃ after, Takes EnumReading.advance reading tokens after ∧
      Entered withValues (entries ++ others) after := by
  induction spelt generalizing entries reading with
  | nil => exact ⟨reading, rfl, by simpa using entered⟩
  | cons head _ ih =>
    obtain ⟨middle, first, entered⟩ := entry_taken head entered
    obtain ⟨after, more, entered⟩ := ih entered
    exact ⟨after, first.append more, by simpa using entered⟩

theorem limit_taken (spelt : Optional (After NumberSpelt .comma) limit tokens)
    (entered : Entered withValues entries reading) (closes : right.kind = .rBrace) :
    Takes EnumReading.advance reading (tokens ++ [right]) (.closed entries.toArray limit) := by
  cases spelt with
  | none => exact .single (entered.closes right closes)
  | some spelt =>
    obtain ⟨comma, _, rfl, kind, @⟨value, left, stop, opens, number, ends⟩⟩ := spelt
    have second : (EnumReading.separated withValues entries.toArray).advance left =
        some (.maxOpened entries.toArray) := by simp [EnumReading.advance, opens]
    have third : (EnumReading.maxOpened entries.toArray).advance value =
        some (.maxRead entries.toArray (.literal value)) := by simp [EnumReading.advance, number]
    have fourth : (EnumReading.maxRead entries.toArray (.literal value)).advance stop =
        some (.maxClosed entries.toArray (.literal value)) := by simp [EnumReading.advance, ends]
    have fifth : (EnumReading.maxClosed entries.toArray (.literal value)).advance right =
        some (.closed entries.toArray (some (.literal value))) := by simp [EnumReading.advance, closes]
    exact .cons (entered.comma comma kind) (.cons second (.cons third (.cons fourth (.single fifth))))

theorem enum_taken (spelt : EnumSpelt listing tokens) :
    ∃ word rest last, tokens = word :: rest ++ [listing.close] ∧ word.kind = .enumWord ∧
      Takes EnumReading.advance .wanted rest last ∧ last.decl? listing.close = some listing := by
  obtain @⟨_, entry, front, entries, middle, limit, back, name, close, enum, left, right,
    word, opens, first, more, last, closes, ident, ends⟩ := spelt
  obtain ⟨reading, takes, entered⟩ := first_taken first
  obtain ⟨after, others, entered⟩ := entries_taken more entered
  have closed := limit_taken last entered closes
  have start : EnumReading.wanted.advance left = some .opened := by simp [EnumReading.advance, opens]
  have named : (EnumReading.closed (entry :: entries).toArray limit).advance name =
      some (.finished (entry :: entries).toArray limit name) := by simp [EnumReading.advance, ident]
  have whole := Takes.cons start (((takes.append others).append closed).snoc named)
  refine ⟨enum, _, _, ?_, word, whole, ?_⟩
  · simp
  · simp [EnumReading.decl?, ends]

theorem enum_shut (reading : EnumReading) (ends : token.kind = .semi) : reading.advance token = none := by
  cases reading <;> simp [EnumReading.advance, ends]

end WireFormat
