import Std.Data.HashMap.Lemmas
import WireFormat.Proofs.Operated

namespace WireFormat

-- The stores of names as they are kept for speed: what was added stands in an array, and a
-- hash table has the place of each name.

structure IndexedScope where
  kind : Scope.Kind
  owner : String
  symbols : Array Symbol
  index : Std.HashMap String Nat

namespace IndexedScope

def empty (kind : Scope.Kind) (owner : String) : IndexedScope := ⟨kind, owner, #[], ∅⟩

def lookup (scope : IndexedScope) (name : String) : Option Symbol :=
  scope.index[name]?.bind fun place => scope.symbols[place]?

def contains (scope : IndexedScope) (name : String) : Bool := scope.index.contains name

def declare (scope : IndexedScope) (symbol : Symbol) : IndexedScope × Bool :=
  if scope.index.contains symbol.name then (scope, false)
  else
    let index := scope.index.insert symbol.name scope.symbols.size
    ({ scope with symbols := scope.symbols.push symbol, index }, true)

def step (scope : IndexedScope) : Scope.Op → IndexedScope × Scope.Answer
  | .declare symbol => ((scope.declare symbol).1, .accepted (scope.declare symbol).2)
  | .lookup name => (scope, .found (scope.lookup name))
  | .contains name => (scope, .known (scope.contains name))
  | .size => (scope, .size scope.symbols.size)
  | .isEmpty => (scope, .isEmpty scope.symbols.isEmpty)
  | .symbols => (scope, .symbols scope.symbols.toList)

def listed (scope : IndexedScope) : Scope := ⟨scope.kind, scope.owner, scope.symbols.toList⟩

-- The table has the place of each symbol under its name, and nothing else.
structure Sound (scope : IndexedScope) : Prop where
  placed {name : String} {place : Nat} : scope.index[name]? = some place →
    ∃ symbol : Symbol, scope.symbols[place]? = some symbol ∧ symbol.name = name
  indexed {place : Nat} {symbol : Symbol} : scope.symbols[place]? = some symbol →
    scope.index[symbol.name]? = some place

theorem empty_sound (kind : Scope.Kind) (owner : String) : (empty kind owner).Sound where
  placed found := by
    rw [empty, Std.HashMap.getElem?_empty] at found
    cases found
  indexed found := by
    rw [empty, Array.getElem?_empty] at found
    cases found

theorem Sound.lookup_listed {scope : IndexedScope} (sound : scope.Sound) (name : String) :
    scope.lookup name = scope.listed.lookup name := by
  rw [lookup, Scope.lookup, listed]
  cases entry : scope.index[name]? with
  | none =>
    refine (List.find?_eq_none.mpr fun symbol member => ?_).symm
    obtain ⟨place, here⟩ := List.mem_iff_getElem?.mp member
    rw [Array.getElem?_toList] at here
    intro same
    rw [← of_decide_eq_true same, sound.indexed here] at entry
    cases entry
  | some place =>
    obtain ⟨symbol, here, rfl⟩ := sound.placed entry
    rw [Option.bind_some, here]
    have member : symbol ∈ scope.symbols.toList := by
      rw [List.mem_iff_getElem?]
      exact ⟨place, by rwa [Array.getElem?_toList]⟩
    -- whichever symbol is the first of that name stands at the one place that the table has
    cases first : scope.symbols.toList.find? fun other => other.name = symbol.name with
    | none => exact absurd rfl (of_decide_eq_false (Bool.eq_false_iff.mpr (List.find?_eq_none.mp first symbol member)))
    | some other =>
      have same := List.find?_some (p := fun other : Symbol => other.name = symbol.name) first
      rw [decide_eq_true_iff] at same
      obtain ⟨elsewhere, there⟩ := List.mem_iff_getElem?.mp (List.mem_of_find?_eq_some first)
      rw [Array.getElem?_toList] at there
      have places := sound.indexed there
      rw [same, entry] at places
      cases places
      exact here.symm.trans there

theorem Sound.index_known {scope : IndexedScope} (sound : scope.Sound) (name : String) :
    scope.index[name]?.isSome = (scope.lookup name).isSome := by
  rw [lookup]
  cases entry : scope.index[name]? with
  | none => rfl
  | some place =>
    obtain ⟨symbol, here, _⟩ := sound.placed entry
    rw [Option.bind_some, here]
    rfl

theorem Sound.contains_listed {scope : IndexedScope} (sound : scope.Sound) (name : String) :
    scope.contains name = scope.listed.contains name := by
  rw [contains, Std.HashMap.contains_eq_isSome_getElem?, sound.index_known, sound.lookup_listed, Scope.lookup_isSome]

theorem declare_refused (scope : IndexedScope) (symbol : Symbol) (refused : (scope.declare symbol).2 = false) :
    (scope.declare symbol).1 = scope := by
  unfold declare at refused ⊢
  split
  · rfl
  · rename_i free
    rw [if_neg free] at refused
    cases refused

theorem Sound.pushed {scope : IndexedScope} (sound : scope.Sound) (symbol : Symbol)
    (free : scope.index[symbol.name]? = none) :
    Sound { scope with
      symbols := scope.symbols.push symbol, index := scope.index.insert symbol.name scope.symbols.size } where
  placed {name place} found := by
    simp only [Std.HashMap.getElem?_insert, beq_iff_eq] at found
    split at found
    · rename_i same
      cases found
      exact ⟨symbol, Array.getElem?_push_size, same⟩
    · obtain ⟨other, here, same⟩ := sound.placed found
      refine ⟨other, ?_, same⟩
      rw [Array.getElem?_push, if_neg (Nat.ne_of_lt (Array.getElem?_eq_some_iff.mp here).1), here]
  indexed {place other} found := by
    simp only [Array.getElem?_push] at found
    simp only [Std.HashMap.getElem?_insert, beq_iff_eq]
    split at found
    · rename_i last
      cases found
      rw [if_pos rfl, last]
    · have known := sound.indexed found
      rw [if_neg fun same => ?_, known]
      rw [← same, free] at known
      cases known

theorem Sound.declare {scope : IndexedScope} (sound : scope.Sound) (symbol : Symbol) :
    (scope.declare symbol).1.Sound ∧ (scope.declare symbol).1.listed = (scope.listed.declare symbol).1 ∧
      (scope.declare symbol).2 = (scope.listed.declare symbol).2 := by
  have same := sound.contains_listed symbol.name
  rw [contains] at same
  rw [IndexedScope.declare, Scope.declare, ← same]
  split
  · exact ⟨sound, rfl, rfl⟩
  · rename_i free
    rw [Std.HashMap.contains_eq_isSome_getElem?, Option.not_isSome_iff_eq_none] at free
    refine ⟨sound.pushed symbol free, ?_, rfl⟩
    simp only [listed, Array.toList_push]

theorem Sound.step {scope : IndexedScope} (sound : scope.Sound) (op : Scope.Op) :
    ((scope.step op).1.Sound ∧ (scope.step op).1.listed = (scope.listed.step op).1) ∧
      (scope.step op).2 = (scope.listed.step op).2 := by
  cases op with
  | declare symbol =>
    obtain ⟨kept, grown, accepted⟩ := sound.declare symbol
    exact ⟨⟨kept, grown⟩, congrArg Scope.Answer.accepted accepted⟩
  | lookup name => exact ⟨⟨sound, rfl⟩, congrArg Scope.Answer.found (sound.lookup_listed name)⟩
  | contains name => exact ⟨⟨sound, rfl⟩, congrArg Scope.Answer.known (sound.contains_listed name)⟩
  | size | isEmpty | symbols =>
    refine ⟨⟨sound, rfl⟩, ?_⟩
    simp only [IndexedScope.step, Scope.step, listed, Array.length_toList, Array.isEmpty_toList]

theorem run_listed (kind : Scope.Kind) (owner : String) (ops : List Scope.Op) :
    ((operate step (empty kind owner) ops).1.Sound ∧
      (operate step (empty kind owner) ops).1.listed = (operate Scope.step (.empty kind owner) ops).1) ∧
      (operate step (empty kind owner) ops).2 = (operate Scope.step (.empty kind owner) ops).2 :=
  operate_related (fun (kept : IndexedScope) plain => kept.Sound ∧ kept.listed = plain)
    (by rintro kept _ op ⟨sound, rfl⟩; exact sound.step op) ops ⟨empty_sound kind owner, rfl⟩

def filled (kind : Scope.Kind) (owner : String) (symbols : List Symbol) : IndexedScope :=
  (operate step (empty kind owner) (symbols.map .declare)).1

end IndexedScope

-- The innermost scope is the last.
structure IndexedStack where
  scopes : Array IndexedScope

namespace IndexedStack

def empty : IndexedStack := ⟨#[]⟩
def push (stack : IndexedStack) (scope : IndexedScope) : IndexedStack := ⟨stack.scopes.push scope⟩
def pop (stack : IndexedStack) : IndexedStack × Option IndexedScope := (⟨stack.scopes.pop⟩, stack.scopes.back?)

def lookup (stack : IndexedStack) (name : String) : Option Symbol :=
  stack.scopes.findSomeRev? fun scope => scope.lookup name

def declare (stack : IndexedStack) (symbol : Symbol) : IndexedStack × Option Bool :=
  match stack.scopes.back? with
  | none => (stack, none)
  | some scope => (⟨stack.scopes.pop.push (scope.declare symbol).1⟩, some (scope.declare symbol).2)

def step (stack : IndexedStack) : ScopeStack.Op → IndexedStack × ScopeStack.Answer
  | .push kind owner symbols => (stack.push (.filled kind owner symbols), .pushed)
  | .pop => (stack.pop.1, .popped (stack.pop.2.map IndexedScope.listed))
  | .declare symbol => ((stack.declare symbol).1, .accepted (stack.declare symbol).2)
  | .lookup name => (stack, .found (stack.lookup name))

def listed (stack : IndexedStack) : ScopeStack := ⟨(stack.scopes.toList.map IndexedScope.listed).reverse⟩
def Sound (stack : IndexedStack) : Prop := ∀ scope ∈ stack.scopes, scope.Sound

theorem empty_or_pushed (stack : IndexedStack) : stack = empty ∨ ∃ outer scope, stack = push outer scope := by
  obtain ⟨scopes⟩ := stack
  by_cases none : scopes = #[]
  · exact .inl (congrArg mk none)
  · obtain ⟨outer, scope, rfl⟩ := Array.exists_push_of_ne_empty none
    exact .inr ⟨⟨outer⟩, scope, rfl⟩

theorem listed_push (stack : IndexedStack) (scope : IndexedScope) :
    (stack.push scope).listed = stack.listed.push scope.listed := by
  simp only [push, listed, ScopeStack.push, Array.toList_push, List.map_append, List.map_cons, List.map_nil,
    List.reverse_append, List.reverse_cons, List.reverse_nil, List.nil_append, List.cons_append]

theorem sound_push {stack : IndexedStack} {scope : IndexedScope} :
    (stack.push scope).Sound ↔ stack.Sound ∧ scope.Sound := by
  simp only [Sound, push, Array.mem_push, or_imp, forall_and, forall_eq]

theorem pop_push (stack : IndexedStack) (scope : IndexedScope) : (stack.push scope).pop = (stack, some scope) := by
  rw [pop, push, Array.pop_push, Array.back?_push]

theorem declare_push (stack : IndexedStack) (scope : IndexedScope) (symbol : Symbol) :
    (stack.push scope).declare symbol = (stack.push (scope.declare symbol).1, some (scope.declare symbol).2) := by
  simp only [declare, push, Array.back?_push, Array.pop_push]

theorem Sound.lookup_listed {stack : IndexedStack} (sound : stack.Sound) (name : String) :
    stack.lookup name = stack.listed.lookup name := by
  have each : stack.scopes.toList.reverse.map (fun scope => scope.lookup name) =
      stack.scopes.toList.reverse.map fun scope => scope.listed.lookup name :=
    List.map_congr_left fun scope member => (sound scope (by simpa using member)).lookup_listed name
  have first := congrArg (List.findSome? id) each
  rw [List.findSome?_map, List.findSome?_map] at first
  rw [lookup, Array.findSomeRev?_eq_findSome?_reverse, ← Array.findSome?_toList, Array.toList_reverse,
    ScopeStack.lookup, listed, ← List.map_reverse, List.findSome?_map]
  exact first

theorem Sound.step {stack : IndexedStack} (sound : stack.Sound) (op : ScopeStack.Op) :
    ((stack.step op).1.Sound ∧ (stack.step op).1.listed = (stack.listed.step op).1) ∧
      (stack.step op).2 = (stack.listed.step op).2 := by
  cases op with
  | push kind owner symbols =>
    obtain ⟨⟨filled, plain⟩, _⟩ := IndexedScope.run_listed kind owner (symbols.map .declare)
    refine ⟨⟨sound_push.mpr ⟨sound, filled⟩, ?_⟩, rfl⟩
    rw [IndexedStack.step, listed_push]
    exact congrArg stack.listed.push plain
  | pop =>
    obtain rfl | ⟨outer, scope, rfl⟩ := stack.empty_or_pushed
    · exact ⟨⟨sound, rfl⟩, rfl⟩
    · rw [IndexedStack.step, pop_push, listed_push]
      exact ⟨⟨(sound_push.mp sound).1, rfl⟩, rfl⟩
  | declare symbol =>
    obtain rfl | ⟨outer, scope, rfl⟩ := stack.empty_or_pushed
    · exact ⟨⟨sound, rfl⟩, rfl⟩
    · obtain ⟨others, inner⟩ := sound_push.mp sound
      obtain ⟨kept, grown, accepted⟩ := inner.declare symbol
      rw [IndexedStack.step, declare_push, listed_push outer scope]
      refine ⟨⟨sound_push.mpr ⟨others, kept⟩, ?_⟩, ?_⟩
      · rw [listed_push, grown]
        rfl
      · rw [accepted]
        rfl
  | lookup name => exact ⟨⟨sound, rfl⟩, congrArg ScopeStack.Answer.found (sound.lookup_listed name)⟩

theorem run_listed (ops : List ScopeStack.Op) :
    ((operate step empty ops).1.Sound ∧ (operate step empty ops).1.listed = (operate ScopeStack.step .empty ops).1) ∧
      (operate step empty ops).2 = (operate ScopeStack.step .empty ops).2 :=
  operate_related (fun (kept : IndexedStack) plain => kept.Sound ∧ kept.listed = plain)
    (by rintro kept _ op ⟨sound, rfl⟩; exact sound.step op) ops ⟨nofun, rfl⟩

theorem frames : ScopeStack.Frames step fun base top => ∃ scope, top = base.push scope where
  pushed := ⟨_, rfl⟩
  declared := by
    rintro base _ symbol ⟨scope, rfl⟩
    exact ⟨(scope.declare symbol).1, congrArg Prod.fst (declare_push base scope symbol)⟩
  looked inner := inner
  popped := by
    rintro base _ ⟨scope, rfl⟩
    exact congrArg Prod.fst (pop_push base scope)

end IndexedStack

structure IndexedArena where
  definitions : Array Definition
  names : Std.HashMap String Nat

namespace IndexedArena

def empty : IndexedArena := ⟨#[], ∅⟩
def get? (arena : IndexedArena) (id : Nat) : Option Definition := arena.definitions[id]?
def lookup (arena : IndexedArena) (name : String) : Option Nat := arena.names[name]?

def push (arena : IndexedArena) (definition : Definition) : IndexedArena × Nat :=
  ({ arena with definitions := arena.definitions.push definition }, arena.definitions.size)

def bind (arena : IndexedArena) (name : String) (id : Nat) : IndexedArena × Bool :=
  if arena.names.contains name then (arena, false) else ({ arena with names := arena.names.insert name id }, true)

def step (arena : IndexedArena) : Arena.Op → IndexedArena × Arena.Answer
  | .push definition => ((arena.push definition).1, .pushed (arena.push definition).2)
  | .bind name id => ((arena.bind name id).1, .bound (arena.bind name id).2)
  | .get id => (arena, .definition (arena.get? id))
  | .lookup name => (arena, .named (arena.lookup name))
  | .size => (arena, .size arena.definitions.size)
  | .isEmpty => (arena, .isEmpty arena.definitions.isEmpty)

structure Alike (arena : IndexedArena) (plain : Arena) : Prop where
  definitions : arena.definitions = plain.definitions
  names : ∀ name, arena.lookup name = plain.lookup name

theorem bind_exact (arena : IndexedArena) (name : String) (id : Nat) :
    ((arena.bind name id).2 = true ↔ arena.lookup name = none) ∧
      ((arena.bind name id).2 = false → (arena.bind name id).1 = arena) := by
  rw [bind, Std.HashMap.contains_eq_isSome_getElem?, lookup]
  cases arena.names[name]? <;> simp

theorem bind_lookup (arena : IndexedArena) (name : String) (id : Nat) (other : String) :
    (arena.bind name id).1.lookup other = (arena.lookup other).or ([(name, id)].lookup other) := by
  rw [List.lookup_cons, List.lookup_nil, bind, Std.HashMap.contains_eq_isSome_getElem?]
  cases free : arena.names[name]? with
  | some taken =>
    by_cases same : other = name
    · simp [lookup, same, free]
    · simp [beq_false_of_ne same]
  | none =>
    by_cases same : other = name
    · simp [lookup, same, free]
    · simp [lookup, beq_false_of_ne same, Std.HashMap.getElem?_insert, Ne.symm same]

theorem Alike.step (alike : Alike arena plain) (op : Arena.Op) :
    Alike (arena.step op).1 (plain.step op).1 ∧ (arena.step op).2 = (plain.step op).2 := by
  obtain ⟨definitions, names⟩ := alike
  cases op with
  | push definition =>
    refine ⟨⟨?_, names⟩, ?_⟩
    · rw [IndexedArena.step, Arena.step, push, Arena.push, definitions]
    · rw [IndexedArena.step, Arena.step, push, Arena.push, definitions, Arena.size]
  | bind name id =>
    have free : arena.names.contains name = (plain.lookup name).isSome := by
      rw [← names, lookup, Std.HashMap.contains_eq_isSome_getElem?]
    refine ⟨⟨?_, fun other => ?_⟩, ?_⟩
    · rw [IndexedArena.step, Arena.step, IndexedArena.bind, Arena.bind]
      split <;> split <;> exact definitions
    · rw [IndexedArena.step, Arena.step, bind_lookup, Arena.bind_last, names]
    · rw [IndexedArena.step, Arena.step, IndexedArena.bind, Arena.bind, free]
      split <;> rfl
  | get id => exact ⟨⟨definitions, names⟩, by rw [IndexedArena.step, Arena.step, get?, Arena.get?, definitions]⟩
  | lookup name => exact ⟨⟨definitions, names⟩, congrArg Arena.Answer.named (names name)⟩
  | size =>
    have same := congrArg Array.size definitions
    exact ⟨⟨definitions, names⟩, congrArg Arena.Answer.size same⟩
  | isEmpty =>
    have same := congrArg Array.isEmpty definitions
    exact ⟨⟨definitions, names⟩, congrArg Arena.Answer.isEmpty same⟩

theorem run_alike (ops : List Arena.Op) :
    Alike (operate step empty ops).1 (operate Arena.step .empty ops).1 ∧
      (operate step empty ops).2 = (operate Arena.step .empty ops).2 :=
  operate_related Alike (fun _ _ op alike => alike.step op) ops ⟨rfl, fun _ => Std.HashMap.getElem?_empty⟩

theorem get_pushed (ops more : List Arena.Op) (definition : Definition) :
    ((operate step empty ops).1.push definition).2 = (Arena.pushed ops).length ∧
      (operate step ((operate step empty ops).1.push definition).1 more).1.get?
        ((operate step empty ops).1.push definition).2 = some definition := by
  have kept (ops : List Arena.Op) : (operate step empty ops).1.definitions.toList = Arena.pushed ops := by
    rw [(run_alike ops).1.definitions]
    exact (Arena.run_told ops).1.definitions
  have place : ((operate step empty ops).1.push definition).2 = (Arena.pushed ops).length := by
    rw [push, ← kept, Array.length_toList]
  have all := kept (ops ++ .push definition :: more)
  rw [operate_append, operate] at all
  refine ⟨place, ?_⟩
  rw [place, get?, ← Array.getElem?_toList]
  refine (congrArg (fun definitions => definitions[(Arena.pushed ops).length]?) all).trans ?_
  simp [Arena.pushed, Arena.Op.definition?]

end IndexedArena

-- A scope keeps the first symbol under each name. A stack is asked from the inside out, and
-- what is opened in it and closed again leaves it as it was. An arena keeps definitions in
-- order, and the first binding of each name.
theorem stores_refined :
    (∀ (kind : Scope.Kind) (owner : String) (ops : List Scope.Op), ∃ scope : IndexedScope,
      operate IndexedScope.step (.empty kind owner) ops = (scope, toldBy Scope.answer ops) ∧ scope.Sound ∧
      operate Scope.step (.empty kind owner) ops = (scope.listed, toldBy Scope.answer ops) ∧
      scope.listed = ⟨kind, owner, Scope.accepted ops⟩ ∧
      ((Scope.accepted ops).map (·.name)).Nodup ∧ (Scope.accepted ops).Sublist (Scope.declared ops) ∧
      ∀ symbol, if symbol.name ∈ (Scope.accepted ops).map (·.name) then scope.declare symbol = (scope, false)
        else (scope.declare symbol).2 = true ∧
          (scope.declare symbol).1.listed = ⟨kind, owner, Scope.accepted ops ++ [symbol]⟩) ∧
    (∀ ops : List ScopeStack.Op, ∃ (stack : IndexedStack) (answers : List ScopeStack.Answer),
      operate IndexedStack.step .empty ops = (stack, answers) ∧ stack.Sound ∧
      operate ScopeStack.step .empty ops = (stack.listed, answers) ∧
      (∀ name symbol, stack.lookup name = some symbol ↔
        ∃ inner scope outer, stack.listed.scopes = inner ++ scope :: outer ∧ scope.lookup name = some symbol ∧
          ∀ other ∈ inner, other.contains name = false) ∧
      (∀ scope symbol, (stack.push scope).declare symbol =
        (stack.push (scope.declare symbol).1, some (scope.declare symbol).2)) ∧
      ∀ kind owner symbols more, ScopeStack.Balanced more →
        (operate IndexedStack.step stack (.push kind owner symbols :: (more ++ [.pop]))).1 = stack ∧
        (operate ScopeStack.step stack.listed (.push kind owner symbols :: (more ++ [.pop]))).1 = stack.listed) ∧
    ∀ ops : List Arena.Op, ∃ (arena : IndexedArena) (plain : Arena),
      operate IndexedArena.step .empty ops = (arena, toldBy Arena.answer ops) ∧
      operate Arena.step .empty ops = (plain, toldBy Arena.answer ops) ∧ arena.Alike plain ∧
      (∀ definition more, (arena.push definition).2 = (Arena.pushed ops).length ∧
        (operate IndexedArena.step (arena.push definition).1 more).1.get? (arena.push definition).2 = some definition) ∧
      ∀ name id, ((arena.bind name id).2 = true ↔ arena.lookup name = none) ∧
        ((arena.bind name id).2 = false → (arena.bind name id).1 = arena) := by
  refine ⟨fun kind owner ops => ?_, fun ops => ?_, fun ops => ?_⟩
  · obtain ⟨⟨sound, plain⟩, answers⟩ := IndexedScope.run_listed kind owner ops
    obtain ⟨kept, told⟩ := Scope.run_told kind owner ops
    rw [told] at answers
    rw [kept] at plain
    refine ⟨_, Prod.ext rfl answers, sound, Prod.ext (kept.trans plain.symm) told, plain, firstsAfter_nodup _ [] _,
      firsts_sublist _ _, fun symbol => ?_⟩
    obtain ⟨_, grown, accepted⟩ := sound.declare symbol
    rw [plain] at grown accepted
    have held : (⟨kind, owner, Scope.accepted ops⟩ : Scope).contains symbol.name = true ↔ _ := Scope.contains_exact _ _
    split
    · rename_i taken
      rw [Scope.declare_taken _ _ (held.mpr taken)] at accepted
      exact Prod.ext (IndexedScope.declare_refused _ symbol accepted) accepted
    · rename_i free
      rw [Scope.declare_fresh _ _ (Bool.eq_false_iff.mpr (mt held.mp free))] at grown accepted
      exact ⟨accepted, grown⟩
  · obtain ⟨⟨sound, plain⟩, answers⟩ := IndexedStack.run_listed ops
    refine ⟨_, _, rfl, sound, Prod.ext plain.symm answers.symm, fun name symbol => ?_,
      IndexedStack.declare_push _, fun kind owner symbols more balanced => ⟨?_, ?_⟩⟩
    · rw [sound.lookup_listed]
      exact ScopeStack.lookup_innermost _ name symbol
    · exact IndexedStack.frames.restored balanced _ kind owner symbols
    · exact ScopeStack.frames.restored balanced _ kind owner symbols
  · obtain ⟨alike, answers⟩ := IndexedArena.run_alike ops
    rw [(Arena.run_told ops).2] at answers
    exact ⟨_, _, Prod.ext rfl answers, Prod.ext rfl (Arena.run_told ops).2, alike,
      fun definition more => IndexedArena.get_pushed ops more definition, IndexedArena.bind_exact _⟩

theorem stores_refined_nested :
    let outer := (operate IndexedStack.step .empty [.push .struct "s" [⟨"a", .member, 1, .unsized, none⟩]]).1
    let more := [.lookup "a", .push .select "" [], .declare ⟨"b", .member, 2, .unsized, none⟩, .pop]
    ScopeStack.Balanced more ∧
      (operate IndexedStack.step outer (.push .struct "t" [] :: (more ++ [.pop]))).1 = outer := by
  intro outer more
  have inner : ScopeStack.Balanced [.declare ⟨"b", .member, 2, .unsized, none⟩] := .declare _ .nil
  have balanced : ScopeStack.Balanced more := .lookup "a" (inner.nested .nil)
  obtain ⟨stack, _, run, _, _, _, _, restored⟩ :=
    stores_refined.2.1 [.push .struct "s" [⟨"a", .member, 1, .unsized, none⟩]]
  have reached : outer = stack := congrArg Prod.fst run
  exact ⟨balanced, reached ▸ (restored .struct "t" [] more balanced).1⟩

end WireFormat
