import WireFormat.Proofs.Grammar
import WireFormat.Proofs.Spelling

open scoped Computability

namespace WireFormat

-- The tokens whose kinds are derivable are those that spell a tree. Nothing here is
-- about reading.

def Reads (language : Language Token.Kind) (tokens : List Token) : Prop :=
  tokens.map Token.kind ∈ language

def Derives (spelt : α → List Token → Prop) (language : Language Token.Kind) : Prop :=
  ∀ tokens, Reads language tokens ↔ ∃ item, spelt item tokens

section Reads

variable {one two : Language Token.Kind} {tokens : List Token}

theorem reads_tok (kind : Token.Kind) :
    Reads (Grammar.tok kind) tokens ↔ ∃ token, tokens = [token] ∧ token.kind = kind := by
  exact List.map_eq_singleton_iff

theorem reads_add : Reads (one + two) tokens ↔ Reads one tokens ∨ Reads two tokens :=
  Language.mem_add _ _ _

theorem reads_one : Reads 1 tokens ↔ tokens = [] := by
  rw [Reads, Language.mem_one, List.map_eq_nil_iff]

theorem reads_mul :
    Reads (one * two) tokens ↔ ∃ front back, tokens = front ++ back ∧ Reads one front ∧ Reads two back := by
  constructor
  · intro given
    obtain ⟨kinds, first, others, second, split⟩ := given
    obtain ⟨front, back, rfl, rfl, rfl⟩ := List.map_eq_append_iff.mp split.symm
    exact ⟨front, back, rfl, first, second⟩
  · intro given
    obtain ⟨front, back, rfl, first, second⟩ := given
    exact ⟨_, first, _, second, List.map_append.symm⟩

theorem reads_tok_mul (kind : Token.Kind) : Reads (Grammar.tok kind * one) tokens ↔
    ∃ token rest, tokens = token :: rest ∧ token.kind = kind ∧ Reads one rest := by
  rw [reads_mul]
  constructor
  · intro given
    obtain ⟨front, back, rfl, first, second⟩ := given
    obtain ⟨token, rfl, same⟩ := (reads_tok kind).mp first
    exact ⟨token, back, rfl, same, second⟩
  · intro given
    obtain ⟨token, rest, rfl, same, reads⟩ := given
    exact ⟨[token], rest, rfl, (reads_tok kind).mpr ⟨token, rfl, same⟩, reads⟩

theorem Reads.append (first : Reads one front) (second : Reads two back) : Reads (one * two) (front ++ back) :=
  reads_mul.mpr ⟨front, back, rfl, first, second⟩

theorem Reads.single (same : token.kind = kind) : Reads (Grammar.tok kind) [token] :=
  (reads_tok kind).mpr ⟨token, rfl, same⟩

theorem Reads.once (reads : Reads one tokens) : Reads (one∗) tokens :=
  Language.mem_kstar.mpr ⟨[tokens.map Token.kind], by simp, List.forall_mem_singleton.mpr reads⟩

theorem Reads.repeated (first : Reads (one∗) front) (second : Reads (one∗) back) :
    Reads (one∗) (front ++ back) := by
  obtain ⟨words, split, all⟩ := Language.mem_kstar.mp first
  obtain ⟨others, rest, more⟩ := Language.mem_kstar.mp second
  refine Language.mem_kstar.mpr ⟨words ++ others, ?_, List.forall_mem_append.mpr ⟨all, more⟩⟩
  rw [List.map_append, split, rest, List.flatten_append]

theorem Reads.plus (reads : Reads (one * one∗) tokens) : Reads (one∗) tokens := by
  obtain ⟨front, back, rfl, first, more⟩ := reads_mul.mp reads
  exact first.once.repeated more

end Reads

section Derives

variable {language : Language Token.Kind} {spelt : α → List Token → Prop}

theorem derives_optional (derives : Derives spelt language) :
    Derives (Optional spelt) (Grammar.optional language) := by
  intro tokens
  rw [Grammar.optional, reads_add, reads_one, derives]
  constructor
  · intro given
    rcases given with rfl | ⟨item, part⟩
    · exact ⟨none, .none⟩
    · exact ⟨some item, .some part⟩
  · intro given
    rcases given with ⟨_, _ | part⟩
    · exact .inl rfl
    · exact .inr ⟨_, part⟩

theorem derives_after (derives : Derives spelt language) (kind : Token.Kind) :
    Derives (After spelt kind) (Grammar.tok kind * language) := by
  intro tokens
  rw [reads_tok_mul]
  constructor
  · intro given
    obtain ⟨token, rest, rfl, same, reads⟩ := given
    obtain ⟨item, part⟩ := (derives rest).mp reads
    exact ⟨item, token, rest, rfl, same, part⟩
  · intro given
    obtain ⟨item, token, rest, rfl, same, part⟩ := given
    exact ⟨token, rest, rfl, same, (derives rest).mpr ⟨item, part⟩⟩

theorem derives_several (derives : Derives spelt language) : Derives (Several spelt) (language∗) := by
  intro tokens
  constructor
  · intro reads
    obtain ⟨words, split, all⟩ := Language.mem_kstar.mp reads
    induction words generalizing tokens with
    | nil =>
      rw [List.flatten_nil, List.map_eq_nil_iff] at split
      exact ⟨[], split ▸ .nil⟩
    | cons word words ih =>
      obtain ⟨front, back, rfl, rfl, rest⟩ := List.map_eq_append_iff.mp split
      obtain ⟨first, others⟩ := List.forall_mem_cons.mp all
      obtain ⟨item, head⟩ := (derives front).mp first
      obtain ⟨items, tail⟩ := ih back (Language.mem_kstar.mpr ⟨words, rest, others⟩) rest others
      exact ⟨item :: items, .cons head tail⟩
  · intro given
    obtain ⟨items, all⟩ := given
    induction all with
    | nil => exact Language.nil_mem_kstar language
    | @cons item front items back head tail ih =>
      exact (Reads.once ((derives front).mpr ⟨item, head⟩)).repeated ih

end Derives

theorem Derives.reads (derives : Derives spelt language) (part : spelt item tokens) : Reads language tokens :=
  (derives tokens).mpr ⟨item, part⟩

theorem derives_ident : Derives IdentSpelt (Grammar.tok .ident) := by
  intro tokens
  rw [reads_tok]
  constructor
  · intro given
    obtain ⟨token, rfl, ident⟩ := given
    exact ⟨token, .ident ident⟩
  · intro given
    obtain ⟨token, ⟨ident⟩⟩ := given
    exact ⟨token, rfl, ident⟩

theorem derives_name : Derives NameSpelt Grammar.name := by
  intro tokens
  rw [Grammar.name, reads_mul]
  constructor
  · intro given
    obtain ⟨front, back, rfl, first, more⟩ := given
    obtain ⟨token, rfl, ident⟩ := (reads_tok _).mp first
    obtain ⟨segments, joined⟩ := (derives_several (derives_after derives_ident .dot) back).mp more
    have grows : ∀ name front, NameSpelt name front → ∃ longer, NameSpelt longer (front ++ back) := by
      clear more
      induction joined with
      | nil => exact fun name front spelt => ⟨name, by rwa [List.append_nil]⟩
      | cons head _ ih =>
        obtain ⟨dot, _, rfl, joint, ⟨ident⟩⟩ := head
        intro name front spelt
        rw [← List.append_assoc]
        exact ih _ _ (.extend spelt joint ident)
    exact grows _ _ (.simple ident)
  · intro given
    obtain ⟨name, spelt⟩ := given
    induction spelt with
    | @simple token ident => exact ⟨[token], [], rfl, .single ident, Language.nil_mem_kstar _⟩
    | @extend _ tokens dot token _ joint ident ih =>
      obtain ⟨front, back, rfl, first, more⟩ := ih
      have segment : Reads _ [dot, token] := (Reads.single joint).append (.single ident)
      exact ⟨front, back ++ [dot, token], List.append_assoc _ _ _, first, more.repeated segment.once⟩

theorem derives_type : Derives TypeSpelt Grammar.type := by
  intro tokens
  rw [Grammar.type, reads_add, derives_name]
  constructor
  · intro given
    rcases given with ⟨type, split⟩ | ⟨name, spelt⟩
    · obtain ⟨token, rfl, word⟩ := List.map_eq_singleton_iff.mp split
      exact ⟨.scalar type, .scalar word⟩
    · exact ⟨.named name, .named spelt⟩
  · intro given
    rcases given with ⟨_, @⟨type, token, word⟩ | @⟨name, _, spelt⟩⟩
    · exact .inl ⟨type, by simp [word]⟩
    · exact .inr ⟨name, spelt⟩

theorem derives_size : Derives SizeSpelt Grammar.size := by
  intro tokens
  rw [Grammar.size, reads_add, reads_add, reads_tok, reads_tok, derives_name]
  constructor
  · intro given
    rcases given with (⟨token, rfl, number⟩ | ⟨token, rfl, power⟩) | ⟨name, spelt⟩
    · exact ⟨_, .literal number⟩
    · exact ⟨_, .power power⟩
    · exact ⟨_, .reference spelt⟩
  · intro given
    rcases given with ⟨_, number | power | spelt⟩
    · exact .inl (.inl ⟨_, rfl, number⟩)
    · exact .inl (.inr ⟨_, rfl, power⟩)
    · exact .inr ⟨_, spelt⟩

theorem derives_bounds : Derives BoundsSpelt Grammar.bounds := by
  intro tokens
  constructor
  · intro reads
    simp only [Grammar.bounds, reads_add, mul_assoc, reads_mul, reads_tok, derives_size _] at reads
    rcases reads with ⟨_, _, rfl, ⟨left, rfl, opens⟩, _, _, rfl, ⟨size, spelt⟩, right, rfl, closes⟩ |
      ⟨_, _, rfl, ⟨left, rfl, opens⟩, _, _, rfl, ⟨least, low⟩, _, _, rfl, ⟨dots, rfl, joint⟩, _, _, rfl,
        ⟨most, high⟩, right, rfl, closes⟩
    · exact ⟨_, .fixed opens spelt closes⟩
    · exact ⟨_, by simpa using BoundsSpelt.range opens low joint high closes⟩
  · rintro ⟨_, @⟨left, size, tokens, right, opens, spelt, closes⟩ |
      @⟨left, least, front, dots, most, back, right, opens, low, joint, high, closes⟩⟩
    · exact reads_add.mpr (.inl (((Reads.single opens).append (derives_size.reads spelt)).append
        (.single closes)))
    · have reads := ((((Reads.single opens).append (derives_size.reads low)).append
        (.single joint)).append (derives_size.reads high)).append (.single closes)
      exact reads_add.mpr (.inr (by simpa using reads))

theorem derives_line : Derives FieldSpelt Grammar.line := by
  intro tokens
  constructor
  · intro reads
    simp only [Grammar.line, mul_assoc, reads_mul, reads_tok, derives_type _,
      derives_optional derives_bounds _] at reads
    obtain ⟨front, _, rfl, ⟨type, typed⟩, _, _, rfl, ⟨name, rfl, ident⟩, back, _, rfl, ⟨bounds, bounded⟩,
      close, rfl, ends⟩ := reads
    exact ⟨_, by simpa using FieldSpelt.line typed ident bounded ends⟩
  · intro given
    obtain ⟨_, typed, ident, bounded, ends⟩ := given
    have reads : Reads Grammar.line _ := (((derives_type.reads typed).append (.single ident)).append
      ((derives_optional derives_bounds).reads bounded)).append (.single ends)
    simpa using reads

theorem derives_paren : Derives NumberSpelt Grammar.paren := by
  intro tokens
  constructor
  · intro reads
    simp only [Grammar.paren, mul_assoc, reads_mul, reads_tok] at reads
    obtain ⟨_, _, rfl, ⟨left, rfl, opens⟩, _, _, rfl, ⟨token, rfl, number⟩, right, rfl, closes⟩ := reads
    exact ⟨_, .paren opens number closes⟩
  · intro given
    obtain ⟨_, opens, number, closes⟩ := given
    exact ((Reads.single opens).append (.single number)).append (.single closes)

theorem derives_entry (withValues : Bool) : Derives (EntrySpelt withValues) (Grammar.entry withValues) := by
  intro tokens
  cases withValues with
  | false =>
    constructor
    · intro reads
      obtain ⟨name, rfl, ident⟩ := (reads_tok _).mp reads
      exact ⟨_, .plain ident⟩
    · intro given
      obtain ⟨_, ⟨ident⟩⟩ := given
      exact Reads.single ident
  | true =>
    constructor
    · intro reads
      obtain ⟨name, rest, rfl, ident, value⟩ := (reads_tok_mul _).mp reads
      obtain ⟨number, spelt⟩ := (derives_paren rest).mp value
      exact ⟨_, .valued ident spelt⟩
    · intro given
      rcases given with ⟨_, _ | ⟨ident, value⟩⟩
      exact (Reads.single ident).append (derives_paren.reads value)

theorem reads_entries (withValues : Bool) : Reads (Grammar.entries withValues) tokens ↔
    ∃ entry entries limit front middle back, tokens = front ++ middle ++ back ∧
      EntrySpelt withValues entry front ∧ Several (After (EntrySpelt withValues) .comma) entries middle ∧
        Optional (After NumberSpelt .comma) limit back := by
  have rest := derives_several (derives_after (derives_entry withValues) .comma)
  have last := derives_optional (derives_after derives_paren .comma)
  constructor
  · intro reads
    obtain ⟨_, back, rfl, reads, ends⟩ := reads_mul.mp reads
    obtain ⟨front, middle, rfl, first, more⟩ := reads_mul.mp reads
    obtain ⟨entry, first⟩ := (derives_entry withValues front).mp first
    obtain ⟨entries, more⟩ := (rest middle).mp more
    obtain ⟨limit, ends⟩ := (last back).mp ends
    exact ⟨entry, entries, limit, front, middle, back, rfl, first, more, ends⟩
  · intro given
    obtain ⟨entry, entries, limit, front, middle, back, rfl, first, more, ends⟩ := given
    exact (((derives_entry withValues).reads first).append (rest.reads more)).append (last.reads ends)

theorem Reads.either (entries : Reads (Grammar.entries withValues) tokens) :
    Reads (Grammar.entries false + Grammar.entries true) tokens := by
  cases withValues with
  | false => exact reads_add.mpr (.inl entries)
  | true => exact reads_add.mpr (.inr entries)

theorem derives_enum : Derives EnumSpelt Grammar.enum := by
  intro tokens
  constructor
  · intro reads
    simp only [Grammar.enum, mul_assoc, reads_mul, reads_tok] at reads
    obtain ⟨_, _, rfl, ⟨enum, rfl, word⟩, _, _, rfl, ⟨left, rfl, opens⟩, _, _, rfl, either,
      _, _, rfl, ⟨right, rfl, closes⟩, _, _, rfl, ⟨name, rfl, ident⟩, close, rfl, ends⟩ := reads
    rcases reads_add.mp either with entries | entries
    all_goals
      obtain ⟨entry, entries, limit, front, middle, back, rfl, first, more, last⟩ :=
        (reads_entries _).mp entries
      exact ⟨_, by simpa using EnumSpelt.listing word opens first more last closes ident ends⟩
  · intro given
    obtain ⟨_, word, opens, first, more, last, closes, ident, ends⟩ := given
    have entries := (reads_entries _).mpr ⟨_, _, _, _, _, _, rfl, first, more, last⟩
    have reads : Reads Grammar.enum _ := (((((Reads.single word).append (.single opens)).append
      entries.either).append (.single closes)).append (.single ident)).append (.single ends)
    simpa using reads

theorem derives_label : Derives LabelSpelt Grammar.label := by
  intro tokens
  constructor
  · intro reads
    simp only [Grammar.label, mul_assoc, reads_mul, reads_tok] at reads
    obtain ⟨_, _, rfl, ⟨case, rfl, word⟩, _, _, rfl, ⟨name, rfl, ident⟩, colon, rfl, ends⟩ := reads
    exact ⟨_, .label word ident ends⟩
  · intro given
    obtain ⟨_, word, ident, ends⟩ := given
    exact ((Reads.single word).append (.single ident)).append (.single ends)

theorem reads_reference (head : Language Token.Kind) (sort : TypeRef → Prop)
    (types : ∀ tokens, Reads head tokens ↔ ∃ type, TypeSpelt type tokens ∧ sort type) :
    Reads (Grammar.reference head) tokens ↔ ∃ item, ItemSpelt item tokens ∧ sort item.type := by
  constructor
  · intro reads
    simp only [Grammar.reference, mul_assoc, reads_mul, reads_tok, types] at reads
    obtain ⟨front, _, rfl, ⟨type, typed, sorted⟩, back, _, rfl, rest, close, rfl, ends⟩ := reads
    rcases reads_add.mp rest with none | named
    · obtain rfl := reads_one.mp none
      exact ⟨_, .bare typed ends, sorted⟩
    · obtain ⟨name, tail, rfl, ident, reads⟩ := (reads_tok_mul _).mp named
      obtain ⟨bounds, bounded⟩ := (derives_optional derives_bounds tail).mp reads
      have spelt := ItemSpelt.named typed ident bounded ends
      rw [List.append_assoc] at spelt
      exact ⟨⟨false, type, some name, bounds, close⟩, spelt, sorted⟩
  · intro given
    rcases given with ⟨_, ⟨typed, ends⟩ | ⟨typed, ident, bounded, ends⟩, sorted⟩
    · have reads : Reads (Grammar.reference head) _ := (((types _).mpr ⟨_, typed, sorted⟩).append
        (reads_add.mpr (.inl (reads_one.mpr rfl)))).append (.single ends)
      simpa using reads
    · have named := (Reads.single ident).append ((derives_optional derives_bounds).reads bounded)
      exact (((types _).mpr ⟨_, typed, sorted⟩).append (reads_add.mpr (.inr named))).append (.single ends)

theorem derives_item : Derives ItemSpelt (Grammar.reference Grammar.type) := by
  intro tokens
  have items : Reads (Grammar.reference Grammar.type) tokens ↔
      ∃ item, ItemSpelt item tokens ∧ True := reads_reference _ (fun _ => True) fun tokens => by
    simpa using derives_type tokens
  simpa using items

theorem reads_named : Reads (Grammar.reference Grammar.name) tokens ↔
    ∃ item, ItemSpelt item tokens ∧ ∃ name, item.type = .named name := by
  apply reads_reference _ (fun type => ∃ name, type = .named name)
  intro tokens
  rw [derives_name]
  constructor
  · intro given
    obtain ⟨name, spelt⟩ := given
    exact ⟨.named name, .named spelt, name, rfl⟩
  · intro given
    rcases given with ⟨_, _ | spelt, name, same⟩
    · cases same
    · exact ⟨_, spelt⟩

theorem derives_clause : Derives ClauseSpelt (Grammar.tok .signedWord * Grammar.name * Grammar.tok .semi) := by
  intro tokens
  constructor
  · intro reads
    simp only [mul_assoc, reads_mul, reads_tok, derives_name _] at reads
    obtain ⟨_, _, rfl, ⟨signed, rfl, word⟩, _, _, rfl, ⟨name, spelt⟩, close, rfl, ends⟩ := reads
    exact ⟨_, .clause word spelt ends⟩
  · intro given
    obtain ⟨_, word, spelt, ends⟩ := given
    exact ((Reads.single word).append (derives_name.reads spelt)).append (.single ends)

theorem derives_body : Derives BodySpelt Grammar.body := by
  intro tokens
  rw [Grammar.body, reads_add, reads_add, reads_tok, derives_item, reads_mul]
  constructor
  · intro given
    rcases given with (⟨close, rfl, ends⟩ | ⟨front, back, rfl, signs, follows⟩) | ⟨item, spelt⟩
    · exact ⟨_, .empty ends⟩
    · obtain ⟨signature, signs⟩ := (derives_clause front).mp signs
      rcases reads_add.mp follows with none | named
      · obtain rfl := reads_one.mp none
        rw [List.append_nil]
        exact ⟨_, .clause signs⟩
      · obtain ⟨item, spelt, name, named⟩ := reads_named.mp named
        exact ⟨_, .followed signs spelt named⟩
    · exact ⟨_, .single spelt⟩
  · intro given
    rcases given with ⟨_, ends | spelt | signs | ⟨signs, spelt, named⟩⟩
    · exact .inl (.inl ⟨_, rfl, ends⟩)
    · exact .inr ⟨_, spelt⟩
    · exact .inl (.inr ⟨_, [], (List.append_nil _).symm, derives_clause.reads signs,
        reads_add.mpr (.inl (reads_one.mpr rfl))⟩)
    · exact .inl (.inr ⟨_, _, rfl, derives_clause.reads signs,
        reads_add.mpr (.inr (reads_named.mpr ⟨_, spelt, _, named⟩))⟩)

theorem reads_arm : Reads Grammar.arm tokens ↔ ∀ follow, ∃ arm, ArmSpelt arm tokens ∧ arm.follow = follow := by
  have labels := derives_several derives_label
  constructor
  · intro reads follow
    obtain ⟨_, back, rfl, reads, body⟩ := reads_mul.mp reads
    obtain ⟨front, middle, rfl, first, more⟩ := reads_mul.mp reads
    obtain ⟨label, first⟩ := (derives_label front).mp first
    obtain ⟨others, more⟩ := (labels middle).mp more
    obtain ⟨items, body⟩ := (derives_body back).mp body
    exact ⟨⟨label :: others, items, follow⟩, .arm first more body, rfl⟩
  · intro arms
    obtain ⟨_, ⟨first, more, body⟩, _⟩ := arms (Token.endAt 1)
    exact ((derives_label.reads first).append (labels.reads more)).append (derives_body.reads body)

theorem arm_followed {arm : Arm} (spelt : ArmSpelt arm tokens) (follow : Token) :
    ArmSpelt { arm with follow } tokens := by
  obtain ⟨first, more, body⟩ := spelt
  exact .arm first more body

theorem arm_some (spelt : ArmSpelt arm tokens) : tokens ≠ [] := by
  obtain ⟨⟨_, _, _⟩, _, _⟩ := spelt
  simp

theorem arms_spelt (right : Token) (first : Reads Grammar.arm front) (more : Reads (Grammar.arm∗) back) :
    ∃ arms, ArmsSpelt right arms (front ++ back) := by
  obtain ⟨words, split, all⟩ := Language.mem_kstar.mp more
  clear more
  induction words generalizing front back with
  | nil =>
    obtain ⟨arm, spelt, next⟩ := reads_arm.mp first right
    rw [List.flatten_nil, List.map_eq_nil_iff] at split
    subst split
    exact ⟨[arm], by simpa using ArmsSpelt.last spelt next⟩
  | cons word words ih =>
    obtain ⟨middle, back, rfl, rfl, rest⟩ := List.map_eq_append_iff.mp split
    obtain ⟨second, others⟩ := List.forall_mem_cons.mp all
    obtain ⟨arms, tail⟩ := ih second rest others
    obtain ⟨_, some, _⟩ := reads_arm.mp second right
    obtain ⟨token, letters, rfl⟩ := List.exists_cons_of_ne_nil (arm_some some)
    obtain ⟨arm, head, next⟩ := reads_arm.mp first token
    exact ⟨arm :: arms, .cons head (by rw [next]; rfl) tail⟩

theorem reads_arms (right : Token) :
    Reads (Grammar.arm * Grammar.arm∗) tokens ↔ ∃ arms, ArmsSpelt right arms tokens := by
  constructor
  · intro reads
    obtain ⟨front, back, rfl, first, more⟩ := reads_mul.mp reads
    exact arms_spelt right first more
  · intro given
    obtain ⟨arms, spelt⟩ := given
    induction spelt with
    | @last arm tokens spelt _ =>
      have first := reads_arm.mpr fun follow => ⟨{ arm with follow }, arm_followed spelt follow, rfl⟩
      exact reads_mul.mpr ⟨tokens, [], (List.append_nil tokens).symm, first, Language.nil_mem_kstar _⟩
    | @cons arm front back arms spelt _ more ih =>
      have first := reads_arm.mpr fun follow => ⟨{ arm with follow }, arm_followed spelt follow, rfl⟩
      exact first.append ih.plus

theorem derives_select : Derives SelectSpelt Grammar.select := by
  intro tokens
  constructor
  · intro reads
    have named := derives_optional derives_ident
    simp only [Grammar.select, mul_assoc, reads_mul, reads_tok, derives_name _, named _] at reads
    obtain ⟨_, _, rfl, ⟨select, rfl, word⟩, _, _, rfl, ⟨left, rfl, before⟩, front, _, rfl,
      ⟨selector, chosen⟩, _, _, rfl, ⟨right, rfl, after⟩, _, _, rfl, ⟨opening, rfl, opens⟩, _, _, rfl,
      first, _, _, rfl, more, _, _, rfl, ⟨brace, rfl, closes⟩, _, _, rfl, ⟨name, given⟩,
      close, rfl, ends⟩ := reads
    obtain ⟨arms, cases⟩ := arms_spelt brace first more
    exact ⟨_, by simpa using SelectSpelt.choice word before chosen after opens cases closes given ends⟩
  · intro given
    obtain ⟨_, word, before, chosen, after, opens, cases, closes, named, ends⟩ := given
    have reads : Reads Grammar.select _ := ((((((((Reads.single word).append (.single before)).append
      (derives_name.reads chosen)).append (.single after)).append (.single opens)).append
      ((reads_arms _).mpr ⟨_, cases⟩)).append (.single closes)).append
      ((derives_optional derives_ident).reads named)).append (.single ends)
    simpa using reads

theorem derives_member (n : Nat) : Derives (MemberSpelt n) (Grammar.member n) := by
  induction n with
  | zero =>
    intro tokens
    rw [Grammar.member, derives_line]
    constructor
    · intro given
      obtain ⟨entry, spelt⟩ := given
      exact ⟨.field entry, entry, rfl, spelt⟩
    · intro given
      obtain ⟨_, entry, rfl, spelt⟩ := given
      exact ⟨entry, spelt⟩
  | succ n ih =>
    intro tokens
    rw [Grammar.member, reads_add, reads_add, derives_line, derives_select]
    constructor
    · intro given
      rcases given with (⟨entry, spelt⟩ | struct) | ⟨choice, spelt⟩
      · exact ⟨_, .line spelt⟩
      · simp only [mul_assoc, reads_mul, reads_tok, derives_several ih _] at struct
        obtain ⟨_, _, rfl, ⟨struct, rfl, word⟩, _, _, rfl, ⟨left, rfl, opens⟩, _, _, rfl, ⟨body, members⟩,
          _, _, rfl, ⟨right, rfl, closes⟩, _, _, rfl, ⟨name, rfl, ident⟩, close, rfl, ends⟩ := struct
        exact ⟨_, NestedSpelt.struct word opens members closes ident ends⟩
      · exact ⟨_, .select spelt⟩
    · intro given
      rcases given with ⟨_, spelt | ⟨word, opens, members, closes, ident, ends⟩ | spelt⟩
      · exact .inl (.inl ⟨_, spelt⟩)
      · have reads := (((((Reads.single word).append (.single opens)).append
          ((derives_several ih).reads members)).append (.single closes)).append (.single ident)).append
          (.single ends)
        exact .inl (.inr (by simpa using reads))
      · exact .inr ⟨_, spelt⟩

theorem derives_decl : Derives DeclSpelt Grammar.decl := by
  intro tokens
  rw [Grammar.decl, reads_add, reads_add, derives_enum, derives_member]
  constructor
  · intro given
    rcases given with (external | ⟨listing, spelt⟩) | ⟨member, spelt⟩
    · simp only [Grammar.external, mul_assoc, reads_mul, reads_tok] at external
      obtain ⟨_, _, rfl, ⟨head, rfl, word⟩, _, _, rfl, ⟨name, rfl, ident⟩, close, rfl, ends⟩ := external
      exact ⟨_, .external word ident ends⟩
    · exact ⟨_, .enum spelt⟩
    · exact ⟨_, .member member spelt⟩
  · intro given
    rcases given with ⟨_, ⟨word, ident, ends⟩ | spelt | ⟨member, spelt⟩⟩
    · exact .inl (.inl (((Reads.single word).append (.single ident)).append (.single ends)))
    · exact .inl (.inr ⟨_, spelt⟩)
    · exact .inr ⟨member, spelt⟩

theorem derives_schema : Derives SchemaSpelt Grammar.schema := by
  intro tokens
  rw [Grammar.schema, reads_mul]
  constructor
  · intro given
    obtain ⟨front, back, rfl, first, more⟩ := given
    obtain ⟨decl, head⟩ := (derives_decl front).mp first
    obtain ⟨decls, tail⟩ := (derives_several derives_decl back).mp more
    exact ⟨decl :: decls, List.cons_ne_nil decl decls, .cons head tail⟩
  · intro given
    obtain ⟨decls, some, all⟩ := given
    cases all with
    | nil => exact absurd rfl some
    | cons head tail =>
      exact ⟨_, _, rfl, derives_decl.reads head, (derives_several derives_decl).reads tail⟩

end WireFormat
