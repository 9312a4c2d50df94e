import WireFormat.Proofs.Numeric
import WireFormat.Proofs.Repeats
import WireFormat.Scope

namespace WireFormat

-- The stores of names under operations, told by what was asked of them and not by what
-- they keep.

section Runs

-- A store after some operations, and what each of them gave back.
def operate (step : σ → ο → σ × ρ) (store : σ) : List ο → σ × List ρ
  | [] => (store, [])
  | op :: rest =>
    ((operate step (step store op).1 rest).1, (step store op).2 :: (operate step (step store op).1 rest).2)

-- The answers that a history calls for, each from the operations before it.
def toldBy (answer : List ο → ο → ρ) (ops : List ο) : List ρ := (preceded ops).map fun pair => answer pair.1 pair.2

variable {step : σ → ο → σ × ρ} {other : τ → ο → τ × ρ}

theorem operate_append (store : σ) (front back : List ο) :
    operate step store (front ++ back) =
      ((operate step (operate step store front).1 back).1,
        (operate step store front).2 ++ (operate step (operate step store front).1 back).2) := by
  induction front generalizing store with
  | nil => rfl
  | cons op rest ih => simp only [List.cons_append, operate, ih]

theorem operate_related (related : σ → τ → Prop)
    (steps : ∀ one two op, related one two →
      related (step one op).1 (other two op).1 ∧ (step one op).2 = (other two op).2)
    (ops : List ο) (start : related one two) :
    related (operate step one ops).1 (operate other two ops).1 ∧
      (operate step one ops).2 = (operate other two ops).2 := by
  induction ops generalizing one two with
  | nil => exact ⟨start, rfl⟩
  | cons op rest ih =>
    obtain ⟨next, answer⟩ := steps one two op start
    obtain ⟨final, answers⟩ := ih next
    exact ⟨final, congrArg₂ List.cons answer answers⟩

theorem operate_after (stands : List ο → σ → Prop) (answer : List ο → ο → ρ)
    (steps : ∀ before store op, stands before store →
      stands (before ++ [op]) (step store op).1 ∧ (step store op).2 = answer before op)
    (ops : List ο) (start : stands before store) : stands (before ++ ops) (operate step store ops).1 ∧
      (operate step store ops).2 = (preceded ops).map fun pair => answer (before ++ pair.1) pair.2 := by
  induction ops generalizing before store with
  | nil => exact ⟨by rwa [List.append_nil], rfl⟩
  | cons op rest ih =>
    obtain ⟨next, first⟩ := steps before store op start
    obtain ⟨final, others⟩ := ih next
    rw [List.append_assoc, List.singleton_append] at final
    refine ⟨final, ?_⟩
    simp only [operate, first, others, preceded_cons, List.map_cons, List.map_map, List.append_nil]
    refine congrArg _ (List.map_congr_left fun pair _ => ?_)
    simp only [Function.comp_apply, List.append_assoc, List.singleton_append]

theorem operate_told (stands : List ο → σ → Prop) (answer : List ο → ο → ρ)
    (steps : ∀ before store op, stands before store →
      stands (before ++ [op]) (step store op).1 ∧ (step store op).2 = answer before op)
    (ops : List ο) (start : stands [] store) :
    stands ops (operate step store ops).1 ∧ (operate step store ops).2 = toldBy answer ops :=
  operate_after stands answer steps ops start

end Runs

namespace Scope

inductive Op where
  | declare (symbol : Symbol)
  | lookup (name : String)
  | contains (name : String)
  | size
  | isEmpty
  | symbols

inductive Answer where
  | accepted (fresh : Bool)
  | found (symbol : Option Symbol)
  | known (held : Bool)
  | size (count : Nat)
  | isEmpty (none : Bool)
  | symbols (all : List Symbol)

def step (scope : Scope) : Op → Scope × Answer
  | .declare symbol => ((scope.declare symbol).1, .accepted (scope.declare symbol).2)
  | .lookup name => (scope, .found (scope.lookup name))
  | .contains name => (scope, .known (scope.contains name))
  | .size => (scope, .size scope.symbols.length)
  | .isEmpty => (scope, .isEmpty scope.symbols.isEmpty)
  | .symbols => (scope, .symbols scope.symbols)

def Op.symbol? : Op → Option Symbol
  | .declare symbol => some symbol
  | _ => none

def declared (before : List Op) : List Symbol := before.filterMap Op.symbol?
def accepted (before : List Op) : List Symbol := firsts (·.name) (declared before)

def answer (before : List Op) : Op → Answer
  | .declare symbol => .accepted (symbol.name ∉ (accepted before).map (·.name))
  | .lookup name => .found ((declared before).find? fun symbol => symbol.name = name)
  | .contains name => .known (name ∈ (accepted before).map (·.name))
  | .size => .size (accepted before).length
  | .isEmpty => .isEmpty (accepted before).isEmpty
  | .symbols => .symbols (accepted before)

theorem accepted_names (before : List Op) (name : String) :
    name ∈ (accepted before).map (·.name) ↔ name ∈ (declared before).map (·.name) := by
  rw [accepted, firsts_keys, List.mem_eraseDups]

theorem declared_snoc (before : List Op) (op : Op) :
    declared (before ++ [op]) = declared before ++ op.symbol?.toList := by
  cases op <;> simp [declared, Op.symbol?]

theorem accepted_snoc (before : List Op) (symbol : Symbol) : accepted (before ++ [.declare symbol]) =
    accepted before ++ if symbol.name ∈ (accepted before).map (·.name) then [] else [symbol] := by
  simp only [accepted_names]
  rw [accepted, declared_snoc]
  exact firsts_snoc Symbol.name (declared before) symbol

def Stands (kind : Kind) (owner : String) (before : List Op) (scope : Scope) : Prop :=
  scope = ⟨kind, owner, accepted before⟩

theorem step_told {kind : Kind} {owner : String} (stands : Stands kind owner before scope) (op : Op) :
    Stands kind owner (before ++ [op]) (scope.step op).1 ∧ (scope.step op).2 = answer before op := by
  have holds (name : String) : scope.contains name = decide (name ∈ (accepted before).map (·.name)) := by
    rw [Bool.eq_iff_iff, contains_exact, decide_eq_true_iff, stands]
  have same (quiet : op.symbol? = none) : Stands kind owner (before ++ [op]) scope := by
    rw [Stands, accepted, declared_snoc, quiet, Option.toList_none, List.append_nil]
    exact stands
  cases op with
  | declare symbol =>
    rw [Stands, accepted_snoc]
    by_cases taken : symbol.name ∈ (accepted before).map (·.name)
    · have full : scope.contains symbol.name = true := by rw [holds, decide_eq_true taken]
      rw [step, declare_taken scope symbol full, if_pos taken, List.append_nil]
      exact ⟨stands, congrArg Answer.accepted (decide_eq_false (not_not.mpr taken)).symm⟩
    · have free : scope.contains symbol.name = false := by rw [holds, decide_eq_false taken]
      rw [step, declare_fresh scope symbol free, if_neg taken, stands]
      exact ⟨rfl, congrArg Answer.accepted (decide_eq_true taken).symm⟩
  | lookup name =>
    refine ⟨same rfl, congrArg Answer.found ?_⟩
    rw [stands]
    exact firsts_find Symbol.name (declared before) name
  | contains name => exact ⟨same rfl, congrArg Answer.known (holds name)⟩
  | size | isEmpty | symbols => exact ⟨same rfl, by rw [stands]; rfl⟩

theorem run_told (kind : Kind) (owner : String) (ops : List Op) :
    Stands kind owner ops (operate step (empty kind owner) ops).1 ∧
      (operate step (empty kind owner) ops).2 = toldBy answer ops :=
  operate_told (Stands kind owner) answer (fun _ _ op stands => step_told stands op) ops rfl

end Scope

namespace Arena

inductive Op where
  | push (definition : Definition)
  | bind (name : String) (id : Nat)
  | get (id : Nat)
  | lookup (name : String)
  | size
  | isEmpty

inductive Answer where
  | pushed (id : Nat)
  | bound (fresh : Bool)
  | definition (found : Option Definition)
  | named (id : Option Nat)
  | size (count : Nat)
  | isEmpty (none : Bool)

def step (arena : Arena) : Op → Arena × Answer
  | .push definition => ((arena.push definition).1, .pushed (arena.push definition).2)
  | .bind name id => ((arena.bind name id).1, .bound (arena.bind name id).2)
  | .get id => (arena, .definition (arena.get? id))
  | .lookup name => (arena, .named (arena.lookup name))
  | .size => (arena, .size arena.size)
  | .isEmpty => (arena, .isEmpty (arena.size == 0))

def Op.definition? : Op → Option Definition
  | .push definition => some definition
  | _ => none

def Op.binding? : Op → Option (String × Nat)
  | .bind name id => some (name, id)
  | _ => none

def pushed (before : List Op) : List Definition := before.filterMap Op.definition?
def bound (before : List Op) : List (String × Nat) := before.filterMap Op.binding?

def answer (before : List Op) : Op → Answer
  | .push _ => .pushed (pushed before).length
  | .bind name _ => .bound (name ∉ (bound before).map Prod.fst)
  | .get id => .definition (pushed before)[id]?
  | .lookup name => .named ((bound before).lookup name)
  | .size => .size (pushed before).length
  | .isEmpty => .isEmpty (pushed before).isEmpty

structure Stands (before : List Op) (arena : Arena) : Prop where
  definitions : arena.definitions.toList = pushed before
  bindings : ∀ name, arena.lookup name = (bound before).lookup name

theorem pushed_snoc (before : List Op) (op : Op) :
    pushed (before ++ [op]) = pushed before ++ op.definition?.toList := by
  cases op <;> simp [pushed, Op.definition?]

theorem bound_snoc (before : List Op) (op : Op) :
    bound (before ++ [op]) = bound before ++ op.binding?.toList := by
  cases op <;> simp [bound, Op.binding?]

theorem lookup_known (entries : List (String × Nat)) (name : String) :
    (entries.lookup name).isSome = decide (name ∈ entries.map Prod.fst) := by
  rw [Bool.eq_iff_iff, decide_eq_true_iff, List.lookup_isSome_iff]
  constructor
  · rintro ⟨entry, listed, same⟩
    exact beq_iff_eq.mp same ▸ List.mem_map_of_mem listed
  · intro member
    obtain ⟨entry, listed, rfl⟩ := List.mem_map.mp member
    exact ⟨entry, listed, beq_self_eq_true _⟩

theorem bind_last (arena : Arena) (name : String) (id : Nat) (other : String) :
    (arena.bind name id).1.lookup other = (arena.lookup other).or ([(name, id)].lookup other) := by
  rw [List.lookup_cons, List.lookup_nil]
  cases free : arena.lookup name with
  | some taken =>
    have turned : arena.bind name id = (arena, false) := if_pos (by rw [free]; rfl)
    rw [turned]
    by_cases same : other = name
    · simp [same, free]
    · simp [beq_false_of_ne same]
  | none =>
    rw [bind_lookup arena id free]
    by_cases same : other = name
    · simp [same, free]
    · simp [same, beq_false_of_ne same]

theorem step_told (stands : Stands before arena) (op : Op) :
    Stands (before ++ [op]) (arena.step op).1 ∧ (arena.step op).2 = answer before op := by
  obtain ⟨definitions, bindings⟩ := stands
  have size : arena.size = (pushed before).length := by rw [← definitions, Array.length_toList]; rfl
  have same (quiet : op.definition? = none) (unbound : op.binding? = none) : Stands (before ++ [op]) arena := by
    refine ⟨?_, fun name => ?_⟩
    · rw [pushed_snoc, quiet, Option.toList_none, List.append_nil, definitions]
    · rw [bound_snoc, unbound, Option.toList_none, List.append_nil, bindings]
  cases op with
  | push definition =>
    refine ⟨⟨?_, fun name => ?_⟩, congrArg Answer.pushed size⟩
    · simp [step, push, definitions, pushed_snoc, Op.definition?]
    · rw [bound_snoc, show (Op.push definition).binding? = none from rfl, Option.toList_none, List.append_nil,
        ← bindings]
      rfl
  | bind name id =>
    have known : (arena.lookup name).isSome = decide (name ∈ (bound before).map Prod.fst) := by
      rw [bindings, lookup_known]
    refine ⟨⟨?_, fun other => ?_⟩, congrArg Answer.bound ?_⟩
    · rw [pushed_snoc, ← definitions]
      simp only [step, bind]
      split <;> simp [Op.definition?]
    · rw [bound_snoc, List.lookup_append, ← bindings]
      exact arena.bind_last name id other
    · rw [bind, known]
      by_cases taken : name ∈ (bound before).map Prod.fst <;> simp only [taken, decide_true, decide_false,
        not_true_eq_false, not_false_eq_true, Bool.false_eq_true, if_true, if_false]
  | get id =>
    refine ⟨same rfl rfl, congrArg Answer.definition ?_⟩
    rw [get?, ← definitions, Array.getElem?_toList]
  | lookup name => exact ⟨same rfl rfl, congrArg Answer.named (bindings name)⟩
  | size => exact ⟨same rfl rfl, congrArg Answer.size size⟩
  | isEmpty =>
    refine ⟨same rfl rfl, congrArg Answer.isEmpty ?_⟩
    rw [size]
    cases pushed before <;> rfl

theorem run_told (ops : List Op) : Stands ops (operate step empty ops).1 ∧
    (operate step empty ops).2 = toldBy answer ops :=
  operate_told Stands answer (fun _ _ op stands => step_told stands op) ops ⟨rfl, fun _ => rfl⟩

end Arena

-- A scope made by declaring some symbols, accepted or not.
def Scope.filled (kind : Scope.Kind) (owner : String) (symbols : List Symbol) : Scope :=
  (operate Scope.step (.empty kind owner) (symbols.map .declare)).1

namespace ScopeStack

inductive Op where
  | push (kind : Scope.Kind) (owner : String) (symbols : List Symbol)
  | pop
  | declare (symbol : Symbol)
  | lookup (name : String)

inductive Answer where
  | pushed
  | popped (scope : Option Scope)
  | accepted (fresh : Option Bool)
  | found (symbol : Option Symbol)

def step (stack : ScopeStack) : Op → ScopeStack × Answer
  | .push kind owner symbols => (stack.push (.filled kind owner symbols), .pushed)
  | .pop => (stack.pop.1, .popped stack.pop.2)
  | .declare symbol => ((stack.declare symbol).1, .accepted (stack.declare symbol).2)
  | .lookup name => (stack, .found (stack.lookup name))

-- Operations in which every scope that is pushed is popped again, and no other.
inductive Balanced : List Op → Prop where
  | nil : Balanced []
  | declare (symbol : Symbol) (more : Balanced ops) : Balanced (.declare symbol :: ops)
  | lookup (name : String) (more : Balanced ops) : Balanced (.lookup name :: ops)
  | nested (inner : Balanced ops) (more : Balanced rest) : Balanced (.push kind owner symbols :: (ops ++ .pop :: rest))

-- When the second state is the first with one scope more on top, operations on the top
-- keep it so, and to pop gives the first state back.
structure Frames (step : σ → Op → σ × ρ) (under : σ → σ → Prop) : Prop where
  pushed : under base (step base (.push kind owner symbols)).1
  declared : under base top → under base (step top (.declare symbol)).1
  looked : under base top → under base (step top (.lookup name)).1
  popped : under base top → (step top .pop).1 = base

theorem Frames.balanced {step : σ → Op → σ × ρ} (frames : Frames step under) (balanced : Balanced ops)
    (inner : under base top) : under base (operate step top ops).1 := by
  induction balanced generalizing top base with
  | nil => exact inner
  | declare _ _ ih => exact ih (frames.declared inner)
  | lookup _ _ ih => exact ih (frames.looked inner)
  | @nested ops _ kind owner symbols _ _ inside after =>
    have back : (step (operate step (step top (.push kind owner symbols)).1 ops).1 .pop).1 = top :=
      frames.popped (inside frames.pushed)
    rw [operate, operate_append, operate, back]
    exact after inner

theorem Frames.restored {step : σ → Op → σ × ρ} (frames : Frames step under) (balanced : Balanced ops) (base : σ)
    (kind : Scope.Kind) (owner : String) (symbols : List Symbol) :
    (operate step base (.push kind owner symbols :: (ops ++ [.pop]))).1 = base := by
  rw [operate, operate_append]
  exact frames.popped (frames.balanced balanced frames.pushed)

theorem frames : Frames step fun base top => ∃ scope, top = base.push scope where
  pushed := ⟨_, rfl⟩
  declared := by
    rintro base _ symbol ⟨scope, rfl⟩
    exact ⟨(scope.declare symbol).1, rfl⟩
  looked inner := inner
  popped := by
    rintro _ _ ⟨_, rfl⟩
    rfl

variable (stack : ScopeStack)

theorem lookup_innermost (name : String) (symbol : Symbol) : stack.lookup name = some symbol ↔
    ∃ inner scope outer, stack.scopes = inner ++ scope :: outer ∧ scope.lookup name = some symbol ∧
      ∀ other ∈ inner, other.contains name = false := by
  have lacks (scope : Scope) : scope.contains name = false ↔ scope.lookup name = none := by
    rw [← Scope.lookup_isSome, Option.isSome_eq_false_iff, Option.isNone_iff_eq_none]
  simp only [lookup, List.findSome?_eq_some_iff, lacks]

end ScopeStack

end WireFormat
