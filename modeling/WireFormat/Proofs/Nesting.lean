import WireFormat.Proofs.Finishing

open scoped Computability

namespace WireFormat

-- Nesting: how many bodies the tokens have opened, and what may stand where if there
-- were no limit on them.

def Token.brace (token : Token) : Int :=
  match token.kind with
  | .lBrace => 1
  | .rBrace => -1
  | _ => 0

-- The bodies that the tokens open and do not close. An enum has braces of its own, but
-- no declaration starts within them.
def openBodies : List Token → Int
  | [] => 0
  | token :: rest => token.brace + openBodies rest

def EnumReading.depth : EnumReading → Int
  | .wanted => 0
  | .closed .. => 0
  | .finished .. => 0
  | _ => 1

def SelectReading.depth : SelectReading → Int
  | .braced .. => 1
  | .inArm .. => 1
  | _ => 0

def Focus.depth : Focus → Int
  | .enum listing => listing.depth
  | .select choice => choice.depth
  | _ => 0

def Reader.depth (reader : Reader) : Int := reader.bodies.length + reader.focus.depth

theorem brace_flat {token : Token} (same : token.kind = kind) (flat : (Token.of kind).brace = 0) : token.brace = 0 := by
  rw [Token.brace, same]
  exact flat

theorem size_flat (next : SizeReading.advance size token = some after) : token.brace = 0 := by
  unfold SizeReading.advance at next
  split at next
  · exact brace_flat ‹_› rfl
  · exact brace_flat ‹_› rfl
  · exact brace_flat ‹_› rfl
  · exact brace_flat ‹_› rfl
  · exact brace_flat ‹_› rfl
  · cases next

theorem inSize_flat (other : (Token.of closer).brace = 0)
    (next : LineReading.inSize size token closer stay leave = some line) : token.brace = 0 := by
  rcases inSize_parts next with ⟨_, step, _⟩ | ⟨_, _, closes, _⟩
  · exact size_flat step
  · exact brace_flat closes other

theorem start_flat (starts : LineReading.start? token = some line) : token.brace = 0 := by
  unfold LineReading.start? at starts
  split at starts
  · exact brace_flat ‹_› rfl
  · exact brace_flat ‹_› rfl
  · cases starts

theorem line_flat {line after : LineReading} (next : line.advance token = some after) : token.brace = 0 := by
  cases line with
  | typed type =>
    simp only [LineReading.advance] at next
    split at next
    · exact brace_flat ‹_› rfl
    · exact brace_flat ‹_› rfl
    · cases next
  | typeDotted => exact brace_flat (Option.ite_none_right_eq_some.mp next).1 rfl
  | named =>
    simp only [LineReading.advance] at next
    split at next
    · exact brace_flat ‹_› rfl
    · exact brace_flat ‹_› rfl
    · cases next
  | fixed | low | high => exact inSize_flat rfl next
  | bounded => cases next

theorem field_flat (done : LineReading.field? line token = some entry) : token.brace = 0 := by
  unfold LineReading.field? at done
  split at done
  · cases done
  · rename_i ends
    exact brace_flat (Decidable.not_not.mp ends) rfl

theorem item_flat (done : LineReading.item? line token = some entry) : token.brace = 0 := by
  unfold LineReading.item? at done
  split at done
  · cases done
  · rename_i ends
    exact brace_flat (Decidable.not_not.mp ends) rfl

theorem arm_flat {arm after : ArmReading} (next : arm.advance token = some after) : token.brace = 0 := by
  cases arm with
  | cased | labelled | signing | signedDotted | clause => exact brace_flat (Option.ite_none_right_eq_some.mp next).1 rfl
  | coloned =>
    simp only [ArmReading.advance] at next
    split at next
    · exact brace_flat ‹_› rfl
    · exact brace_flat ‹_› rfl
    · exact brace_flat ‹_› rfl
    · obtain ⟨_, starts, _⟩ := Option.map_eq_some_iff.mp next
      exact start_flat starts
  | signed =>
    simp only [ArmReading.advance] at next
    split at next
    · exact brace_flat ‹_› rfl
    · exact brace_flat ‹_› rfl
    · cases next
  | item =>
    simp only [ArmReading.advance] at next
    split at next
    · exact item_flat ‹_›
    · obtain ⟨_, step, _⟩ := Option.map_eq_some_iff.mp next
      exact line_flat step
  | complete => cases next

theorem enum_balance {listing after : EnumReading} (next : listing.advance token = some after) :
    after.depth = listing.depth + token.brace := by
  unfold EnumReading.advance at next
  split at next <;> cases next <;> simp [EnumReading.depth, Token.brace, *]

theorem select_balance {choice after : SelectReading} (next : choice.advance token = some after) :
    after.depth = choice.depth + token.brace := by
  cases choice with
  | wanted | opened | choosingDotted | selected | braced | closed =>
    simp only [SelectReading.advance, Option.ite_none_right_eq_some] at next
    obtain ⟨same, ⟨⟩⟩ := next
    simp [SelectReading.depth, Token.brace, same]
  | choosing =>
    simp only [SelectReading.advance] at next
    split at next <;> cases next <;> simp [SelectReading.depth, Token.brace, *]
  | inArm =>
    simp only [SelectReading.advance] at next
    split at next
    · cases next
      simp [SelectReading.depth, Token.brace, *]
    · cases next
      simp [SelectReading.depth, Token.brace, *]
    · obtain ⟨_, step, rfl⟩ := Option.map_eq_some_iff.mp next
      simp [SelectReading.depth, arm_flat step]
  | named => cases next

theorem enum_end {listing : EnumReading} (done : listing.decl? token = some decl) :
    listing.depth = 0 ∧ token.brace = 0 := by
  unfold EnumReading.decl? at done
  split at done
  · exact ⟨rfl, brace_flat ‹_› rfl⟩
  · cases done

theorem select_end {choice : SelectReading} (done : choice.select? token = some decl) :
    choice.depth = 0 ∧ token.brace = 0 := by
  unfold SelectReading.select? at done
  split at done
  · cases done
  · rename_i ends
    have flat : token.brace = 0 := brace_flat (Decidable.not_not.mp ends) rfl
    split at done
    · exact ⟨rfl, flat⟩
    · exact ⟨rfl, flat⟩
    · cases done

theorem start_balance {reader after : Reader} (idle : reader.focus = .idle) (next : reader.start token = some after) :
    after.depth = reader.depth + token.brace := by
  obtain ⟨decls, bodies, focus⟩ := reader
  obtain rfl : focus = .idle := idle
  simp only [Reader.start] at next
  split at next
  · cases next
    simp [Reader.depth, Reader.moveTo, Focus.depth, Token.brace, *]
  · cases next
    simp [Reader.depth, Reader.moveTo, Focus.depth, EnumReading.depth, Token.brace, *]
  · obtain ⟨_, ⟨⟩⟩ := Option.ite_none_left_eq_some.mp next
    simp [Reader.depth, Reader.moveTo, Focus.depth, Token.brace, *]
  · obtain ⟨_, ⟨⟩⟩ := Option.ite_none_left_eq_some.mp next
    simp [Reader.depth, Reader.moveTo, Focus.depth, SelectReading.depth, Token.brace, *]
  · cases next
    simp only [Reader.depth, Focus.depth, Token.brace, List.length_cons, *]
    omega
  · obtain ⟨line, starts, rfl⟩ := Option.map_eq_some_iff.mp next
    simp [Reader.depth, Reader.moveTo, Focus.depth, start_flat starts]

theorem add_depth (reader : Reader) (member : Member) : (reader.add member).depth = reader.bodies.length := by
  obtain ⟨decls, bodies, focus⟩ := reader
  cases bodies <;> simp [Reader.add, Reader.declare, Reader.depth, Focus.depth]

theorem advance_balance {reader after : Reader} (next : reader.advance token = some after) :
    after.depth = reader.depth + token.brace := by
  obtain ⟨decls, bodies, focus⟩ := reader
  cases focus with
  | idle => exact start_balance rfl next
  | externWord | external | structWord | structClosed =>
    obtain ⟨same, ⟨⟩⟩ := Option.ite_none_right_eq_some.mp next
    simp [Reader.depth, Reader.moveTo, Reader.declare, Focus.depth, Token.brace, same]
  | structNamed =>
    obtain ⟨same, ⟨⟩⟩ := Option.ite_none_right_eq_some.mp next
    rw [add_depth]
    simp [Reader.depth, Focus.depth, Token.brace, same]
  | line =>
    simp only [Reader.advance] at next
    split at next
    · cases next
      rw [add_depth]
      simp [Reader.depth, Focus.depth, field_flat ‹_›]
    · obtain ⟨_, step, rfl⟩ := Option.map_eq_some_iff.mp next
      simp [Reader.depth, Reader.moveTo, Focus.depth, line_flat step]
  | enum =>
    simp only [Reader.advance] at next
    split at next
    · cases next
      obtain ⟨shut, flat⟩ := enum_end ‹_›
      simp [Reader.depth, Reader.declare, Focus.depth, shut, flat]
    · obtain ⟨_, step, rfl⟩ := Option.map_eq_some_iff.mp next
      simp [Reader.depth, Reader.moveTo, Focus.depth, enum_balance step, Int.add_assoc]
  | select =>
    simp only [Reader.advance] at next
    split at next
    · cases next
      obtain ⟨shut, flat⟩ := select_end ‹_›
      rw [add_depth]
      simp [Reader.depth, Focus.depth, shut, flat]
    · obtain ⟨_, step, rfl⟩ := Option.map_eq_some_iff.mp next
      simp [Reader.depth, Reader.moveTo, Focus.depth, select_balance step, Int.add_assoc]

theorem takes_balance {reader after : Reader} (takes : Takes Reader.advance reader tokens after) :
    after.depth = reader.depth + openBodies tokens := by
  induction tokens generalizing reader with
  | nil =>
    obtain rfl := takes_nil.mp takes
    exact (Int.add_zero _).symm
  | cons token rest ih =>
    obtain ⟨middle, next, takes⟩ := takes_cons.mp takes
    rw [ih takes, advance_balance next, openBodies, Int.add_assoc]

theorem idle_balance {reader : Reader} (takes : Takes Reader.advance .initial tokens reader)
    (idle : reader.focus = .idle) : openBodies tokens = reader.bodies.length := by
  have balance := takes_balance takes
  rw [Reader.depth, idle] at balance
  simpa [Reader.depth, Reader.initial, Focus.depth] using balance.symm

namespace Grammar

-- The grammar of schemas in which `limit` bodies may be open at once.
def declWithin (limit : Nat) : Language Token.Kind := external + enum + member limit

def schemaWithin (limit : Nat) : Language Token.Kind := declWithin limit * (declWithin limit)∗

theorem schema_within : schema = schemaWithin maxNesting := rfl

end Grammar

-- After some tokens a declaration may start with the next one, if the limit allows it.
def Startable (taken : List Token) (token : Token) : Prop :=
  ∃ limit more, Reads (Grammar.schemaWithin limit) (taken ++ token :: more)

theorem Several.mono (wider : ∀ item tokens, spelt item tokens → other item tokens)
    (given : Several spelt items tokens) : Several other items tokens := by
  induction given with
  | nil => exact .nil
  | cons head _ ih => exact .cons (wider _ _ head) ih

theorem member_mono (le : n ≤ limit) (member : Member) (tokens : List Token) (spelt : MemberSpelt n member tokens) :
    MemberSpelt limit member tokens := by
  induction n generalizing limit member tokens with
  | zero =>
    obtain ⟨entry, rfl, spelt⟩ := spelt
    exact field_member limit spelt
  | succ n ih =>
    obtain ⟨limit, rfl⟩ := Nat.exists_eq_succ_of_ne_zero (Nat.ne_of_gt (Nat.lt_of_lt_of_le n.succ_pos le))
    cases spelt with
    | line spelt => exact .line spelt
    | struct word opens members closes ident ends =>
      have inner := members.mono (ih (Nat.le_of_succ_le_succ le))
      exact .struct word opens inner closes ident ends
    | select spelt => exact .select spelt

theorem bodies_completed (held : BodiesHeld bodies front) (spelt : MemberSpelt n member back) :
    ∃ limit outermost more, MemberSpelt limit outermost (front ++ back ++ more) := by
  induction held generalizing n member back with
  | none => exact ⟨n, member, [], by simpa using spelt⟩
  | @body bodies front struct left inner body outer room word opens members ih =>
    have least : n ≤ max n (maxNesting - (bodies.length + 1)) := Nat.le_max_left ..
    have most : maxNesting - (bodies.length + 1) ≤ max n (maxNesting - (bodies.length + 1)) := Nat.le_max_right ..
    have longer := (members.mono (member_mono most)).snoc (member_mono least _ _ spelt)
    have closes : (Token.of .rBrace).kind = .rBrace := rfl
    have ident : (Token.of .ident).kind = .ident := rfl
    have ends : (Token.of .semi).kind = .semi := rfl
    have whole : MemberSpelt (max n (maxNesting - (bodies.length + 1)) + 1) _ _ :=
      NestedSpelt.struct word opens longer closes ident ends
    obtain ⟨limit, outermost, more, spelt⟩ := ih whole
    exact ⟨limit, outermost, [.of .rBrace, .of .ident, .of .semi] ++ more, by simpa using spelt⟩

theorem nested_started (nested : token.kind = .structWord ∨ token.kind = .selectWord) :
    ∃ member more, MemberSpelt 1 member (token :: more) := by
  have ident : (Token.of .ident).kind = .ident := rfl
  have left : (Token.of .lBrace).kind = .lBrace := rfl
  have right : (Token.of .rBrace).kind = .rBrace := rfl
  have semi : (Token.of .semi).kind = .semi := rfl
  rcases nested with struct | select
  · exact ⟨_, _, NestedSpelt.struct struct left .nil right ident semi⟩
  · have before : (Token.of .lParen).kind = .lParen := rfl
    have after : (Token.of .rParen).kind = .rParen := rfl
    have word : (Token.of .caseWord).kind = .caseWord := rfl
    have colon : (Token.of .colon).kind = .colon := rfl
    have arm : ArmSpelt ⟨[⟨.of .ident, .of .colon⟩], [], .of .rBrace⟩ _ :=
      .arm (.label word ident colon) .nil (.empty semi)
    exact ⟨_, _, NestedSpelt.select (.choice select before (.simple ident) after left (.last arm rfl) right .none semi)⟩

theorem decls_within (le : maxNesting ≤ limit) (given : Several DeclSpelt decls tokens) :
    Reads ((Grammar.declWithin limit)∗) tokens := by
  induction given with
  | nil => exact Language.nil_mem_kstar _
  | @cons decl front decls back head _ ih =>
    refine (Reads.once ?_).repeated ih
    rcases reads_add.mp (derives_decl.reads head) with other | member
    · exact reads_add.mpr (.inl other)
    · obtain ⟨member, spelt⟩ := (derives_member maxNesting front).mp member
      exact reads_add.mpr (.inr ((derives_member limit).reads (member_mono le _ _ spelt)))

theorem idle_startable (held : ReaderHeld reader taken) (idle : reader.focus = .idle)
    (nested : token.kind = .structWord ∨ token.kind = .selectWord) : Startable taken token := by
  obtain ⟨decls, inner, inside⟩ := held
  obtain rfl : _ = Focus.idle := idle
  cases inside
  obtain ⟨member, rest, started⟩ := nested_started nested
  obtain ⟨limit, outermost, more, spelt⟩ := bodies_completed inner started
  have most : limit ≤ max maxNesting limit := Nat.le_max_right ..
  have last : Reads (Grammar.declWithin (max maxNesting limit)) _ :=
    reads_add.mpr (.inr ((derives_member _).reads (member_mono most _ _ spelt)))
  have whole := (decls_within (Nat.le_max_left maxNesting limit) decls).append last
  refine ⟨max maxNesting limit, rest ++ more, ?_⟩
  rw [Grammar.schemaWithin, ← Language.mul_self_kstar_comm]
  simpa using whole

namespace Reader

-- A step that pays no heed to the limit.
def advanceFreely (reader : Reader) (token : Token) : Option Reader :=
  match reader.focus, token.kind with
  | .idle, .structWord => some (reader.moveTo .structWord)
  | .idle, .selectWord => some (reader.moveTo (.select .wanted))
  | _, _ => reader.advance token

theorem advance_freely (reader : Reader) (token : Token) (next : Reader) (step : reader.advance token = some next) :
    reader.advanceFreely token = some next := by
  unfold advanceFreely
  split
  · rename_i idle word
    simp only [advance, idle, start, word] at step
    exact (Option.ite_none_left_eq_some.mp step).2
  · rename_i idle word
    simp only [advance, idle, start, word] at step
    exact (Option.ite_none_left_eq_some.mp step).2
  · exact step

theorem freely_refused {reader : Reader} (refused : reader.advance token = none)
    (step : reader.advanceFreely token = some next) : reader.refusal token = .tooDeep := by
  unfold advanceFreely at step
  split at step
  · rename_i idle word
    simp only [advance, idle, start, word, ite_eq_left_iff] at refused
    simp_all [refusal, isIdle]
  · rename_i idle word
    simp only [advance, idle, start, word, ite_eq_left_iff] at refused
    simp_all [refusal, isIdle]
  · rw [refused] at step
    cases step

theorem takes_freely (takes : Takes advance reader tokens after) : Takes advanceFreely reader tokens after :=
  takes.lift id advance_freely

theorem member_freely (n : Nat) (reader : Reader) (spelt : MemberSpelt n member tokens) :
    Takes advanceFreely (reader.moveTo .idle) tokens (reader.add member) := by
  induction n generalizing reader member tokens with
  | zero =>
    obtain ⟨entry, rfl, spelt⟩ := spelt
    exact takes_freely (field_inside reader spelt)
  | succ n ih =>
    cases spelt with
    | line spelt => exact takes_freely (field_inside reader spelt)
    | select spelt =>
      obtain ⟨word, rest, rfl, kind, takes⟩ := select_rest reader spelt
      have starts : (reader.moveTo .idle).advanceFreely word = some (reader.moveTo (.select .wanted)) := by
        simp [advanceFreely, moveTo, kind]
      exact .cons starts (takes_freely takes)
    | @struct body tokens name close struct left right word opens members closes ident ends =>
      have first : (reader.moveTo .idle).advanceFreely struct = some (reader.moveTo .structWord) := by
        simp [advanceFreely, moveTo, word]
      have second : (reader.moveTo .structWord).advance left =
          some ⟨reader.decls, #[] :: reader.bodies, .idle⟩ := by simp [advance, moveTo, opens]
      have inside := members_inside reader.decls reader.bodies
        (fun body member tokens spelt => ih ⟨reader.decls, body :: reader.bodies, .idle⟩ spelt) members #[]
      have closed := takes_freely (struct_rest reader ((#[] : Array Member) ++ body) closes ident ends)
      have whole := (Takes.cons first (.cons (advance_freely _ _ _ second) inside)).append closed
      simpa using whole

theorem decl_freely (decls : Array Decl) (reads : Reads (Grammar.declWithin limit) tokens) :
    ∃ after, Takes advanceFreely ⟨decls, [], .idle⟩ tokens ⟨after, [], .idle⟩ := by
  rcases reads_add.mp reads with other | member
  · obtain ⟨decl, spelt⟩ := (derives_decl tokens).mp (reads_add.mpr (.inl other))
    exact ⟨_, takes_freely (decl_inside decls spelt)⟩
  · obtain ⟨member, spelt⟩ := (derives_member limit tokens).mp member
    exact ⟨_, member_freely limit ⟨decls, [], .idle⟩ spelt⟩

theorem decls_freely (decls : Array Decl) (reads : Reads ((Grammar.declWithin limit)∗) tokens) :
    ∃ after, Takes advanceFreely ⟨decls, [], .idle⟩ tokens ⟨after, [], .idle⟩ := by
  obtain ⟨words, split, all⟩ := Language.mem_kstar.mp reads
  clear reads
  induction words generalizing decls tokens with
  | nil =>
    rw [List.flatten_nil, List.map_eq_nil_iff] at split
    subst split
    exact ⟨decls, takes_nil.mpr rfl⟩
  | cons word words ih =>
    obtain ⟨front, back, rfl, rfl, rest⟩ := List.map_eq_append_iff.mp split
    obtain ⟨first, others⟩ := List.forall_mem_cons.mp all
    obtain ⟨middle, takes⟩ := decl_freely decls first
    obtain ⟨after, more⟩ := ih middle rest others
    exact ⟨after, takes.append more⟩

theorem startable_refused {reader : Reader} (takes : Takes advance initial taken reader)
    (refused : reader.advance token = none) (startable : Startable taken token) :
    reader.refusal token = .tooDeep := by
  obtain ⟨limit, more, reads⟩ := startable
  obtain ⟨after, all⟩ := decls_freely #[] reads.plus
  obtain ⟨middle, first, rest⟩ := takes_append.mp all
  obtain rfl : middle = reader := Option.some.inj (first.symm.trans (takes_freely takes))
  obtain ⟨next, step, _⟩ := takes_cons.mp rest
  exact freely_refused refused step

end Reader

end WireFormat
