import WireFormat.Proofs.RelinedCheck
import WireFormat.Proofs.Stream

namespace WireFormat

-- Two sources with the same tokens, laid out as they may be: what comes from them differs
-- in line numbers only, and these are the lines of the same tokens.

def SameTexts (first second : List Token) : Prop :=
  first.map (fun token => (token.kind, token.text)) = second.map fun token => (token.kind, token.text)

-- Each token on the line of its index. Both sources come from this one.
def numbered (tokens : List Token) : List Token :=
  tokens.mapIdx fun index token => { token with line := index }

def lineAt (tokens : List Token) (index : Nat) : Nat := (tokens[index]?.map Token.line).getD 0

theorem numbered_get (tokens : List Token) (index : Nat) :
    (numbered tokens)[index]? = tokens[index]?.map fun token => { token with line := index } := by
  rw [numbered, List.getElem?_mapIdx]

theorem numbered_relined (tokens : List Token) : (numbered tokens).map (Token.reline (lineAt tokens)) = tokens := by
  apply List.ext_getElem?
  intro index
  rw [List.getElem?_map, numbered_get]
  cases found : tokens[index]? with
  | none => rfl
  | some token => simp [Token.reline, lineAt, found]

theorem numbered_same (same : SameTexts first second) : numbered first = numbered second := by
  apply List.ext_getElem?
  intro index
  have here := congrArg (fun texts => texts[index]?) same
  simp only [List.getElem?_map] at here
  rw [numbered_get, numbered_get]
  cases one : first[index]? <;> cases two : second[index]? <;> simp_all

theorem numbered_ordered (tokens : List Token) :
    (numbered tokens).Pairwise fun earlier later => earlier.line ≤ later.line := by
  rw [List.pairwise_iff_getElem]
  intro front back _ _ before
  simp only [numbered, List.getElem_mapIdx]
  exact Nat.le_of_lt before

theorem numbered_at (present : token ∈ numbered tokens) : ∃ own, tokens[token.line]? = some own ∧ own.text = token.text := by
  obtain ⟨index, found⟩ := List.mem_iff_getElem?.mp present
  rw [numbered_get] at found
  obtain ⟨own, here, rfl⟩ := Option.map_eq_some_iff.mp found
  exact ⟨own, here, rfl⟩

theorem numbered_end (ended : ∃ token ∈ tokens, token.kind = .eof) : ∃ token ∈ numbered tokens, token.kind = .eof := by
  obtain ⟨token, present, ended⟩ := ended
  obtain ⟨index, found⟩ := List.mem_iff_getElem?.mp present
  refine ⟨{ token with line := index }, List.mem_iff_getElem?.mpr ⟨index, ?_⟩, ended⟩
  rw [numbered_get, found, Option.map_some]

@[simps]
def Compilation.reline (lines : Nat → Nat) (compilation : Compilation) : Compilation :=
  ⟨compilation.label,
    compilation.schema.map fun read => (read.1.map (Decl.reline lines), read.2.reline lines),
    compilation.diagnostics.map (Diagnostic.reline lines)⟩

def compiled (options : Options) (parsed : Parsed) : Compilation :=
  ⟨options.label, some (parsed.decls, (analyze parsed.decls).1),
    report options.noteOnce false (analyze parsed.decls).2 ++ parsed.error.toList.map SyntaxError.diagnostic⟩

theorem compile_read (options : Options) (read : tokenize source = .ok tokens) :
    compile source options = compiled options (parse tokens) := by
  rw [compile, read]
  rfl

theorem compiled_relined (lines : Nat → Nat) (options : Options) (parsed : Parsed) :
    compiled options (parsed.reline lines) = (compiled options parsed).reline lines := by
  simp only [compiled, Parsed.reline, analyze_relined, report_relined, Compilation.reline, List.map_append]
  cases parsed.error <;> rfl

theorem compile_numbered (options : Options) (read : tokenize source = .ok tokens) :
    compile source options = (compiled options (parse (numbered tokens))).reline (lineAt tokens) := by
  obtain ⟨token, rest, refuses⟩ := Reader.feed_refuses (numbered_end (laid_end (tokenize_laid read)))
  have parsed := parse_relined (lineAt tokens) refuses
  rw [numbered_relined] at parsed
  rw [compile_read options read, parsed, compiled_relined]

theorem compiled_at (options : Options) (ended : ∃ token ∈ tokens, token.kind = .eof) :
    ∀ one ∈ (compiled options (parse (numbered tokens))).diagnostics, one.At (numbered tokens) := by
  obtain ⟨spans, rest, parted⟩ := parse_parted (numbered_end ended)
  have listed := (parted_streamed parted (numbered_ordered tokens) options.noteOnce).listed parted
  rw [reportDecls_flatten] at listed
  exact listed

structure SameReport (first second : List Token) (one two : Diagnostic) : Prop where
  kind : one.kind = two.kind
  near : one.near = two.near
  message : one.message = two.message
  note : one.note = two.note
  anchored : ∃ (index : Nat) (here there : Token), first[index]? = some here ∧ second[index]? = some there ∧
    (one.near = here.text ∧ one.line = here.line) ∧ two.near = there.text ∧ two.line = there.line

namespace Compilation

def names (compilation : Compilation) : Option (List (Option String)) :=
  compilation.schema.map fun read => read.1.map fun decl => decl.name?.map Token.text

def outlined (compilation : Compilation) : Option String := compilation.schema.map fun read => outline read.1

-- What the names resolve to, with no lines.
def resolved (compilation : Compilation) : Option Resolution :=
  compilation.schema.map fun read => read.2.reline fun _ => 0

variable (lines : Nat → Nat) (compilation : Compilation)

theorem names_relined : (compilation.reline lines).names = compilation.names := by
  have text : Token.text ∘ Token.reline lines = Token.text := rfl
  have named (decl : Decl) : (decl.reline lines).name?.map Token.text = decl.name?.map Token.text := by
    cases decl with
    | select choice => exact (Option.map_map ..).trans (by rw [text]; rfl)
    | field | external | enum | struct => rfl
  simp [names, Function.comp_def, named]

theorem outlined_relined : (compilation.reline lines).outlined = compilation.outlined := by
  simp [outlined, Function.comp_def, outline_relined]

theorem resolved_relined : (compilation.reline lines).resolved = compilation.resolved := by
  have erased (resolution : Resolution) : (resolution.reline lines).reline (fun _ => 0) = resolution.reline fun _ => 0 := by
    simp [Resolution.reline, Arena.reline, Scope.reline, Definition.reline, Symbol.reline, Function.comp_def]
  simp [resolved, Function.comp_def, erased]

end Compilation

structure Relaid (first second : List Token) (one two : Compilation) : Prop where
  label : one.label = two.label
  read : one.schema.isSome ∧ two.schema.isSome
  names : one.names = two.names
  outlined : one.outlined = two.outlined
  resolved : one.resolved = two.resolved
  diagnostics : List.Forall₂ (SameReport first second) one.diagnostics two.diagnostics

theorem At.sameReport (same : SameTexts first second) (stands : Diagnostic.At (numbered first) one) :
    SameReport first second (one.reline (lineAt first)) (one.reline (lineAt second)) := by
  obtain ⟨token, present, near, line⟩ := stands
  obtain ⟨here, found, text⟩ := numbered_at present
  rw [numbered_same same] at present
  obtain ⟨there, other, again⟩ := numbered_at present
  refine ⟨rfl, rfl, rfl, rfl, token.line, here, there, found, other, ⟨?_, ?_⟩, ?_, ?_⟩
  · exact near.trans text.symm
  · simp [line, lineAt, found]
  · exact near.trans again.symm
  · simp [line, lineAt, other]

-- Blanks, newlines and comments decide over nothing but the lines that are reported.
theorem compile_relaid (first : tokenize source = .ok tokens) (second : tokenize other = .ok others)
    (same : SameTexts tokens others) (options : Options) :
    Relaid tokens others (compile source options) (compile other options) := by
  have stand := compiled_at options (laid_end (tokenize_laid first))
  have read : (compiled options (parse (numbered tokens))).schema.isSome := rfl
  rw [compile_numbered options first, compile_numbered options second, ← numbered_same same]
  generalize compiled options (parse (numbered tokens)) = compilation at stand read
  refine ⟨rfl, ?_, ?_, ?_, ?_, ?_⟩
  · exact ⟨by simpa using read, by simpa using read⟩
  · rw [Compilation.names_relined, Compilation.names_relined]
  · rw [Compilation.outlined_relined, Compilation.outlined_relined]
  · rw [Compilation.resolved_relined, Compilation.resolved_relined]
  · rw [Compilation.reline_diagnostics, Compilation.reline_diagnostics, List.forall₂_map_left_iff,
      List.forall₂_map_right_iff, List.forall₂_same]
    exact fun one member => At.sameReport same (stand one member)

def oneLine : List Token :=
  [⟨.scalar .bytes, "opaque", 1⟩, ⟨.ident, "a", 1⟩, ⟨.semi, ";", 1⟩, ⟨.ident, "b", 1⟩, ⟨.ident, "c", 1⟩,
   ⟨.semi, ";", 1⟩, .endAt 1]

def threeLines : List Token :=
  [⟨.scalar .bytes, "opaque", 1⟩, ⟨.ident, "a", 1⟩, ⟨.semi, ";", 1⟩, ⟨.ident, "b", 2⟩, ⟨.ident, "c", 3⟩,
   ⟨.semi, ";", 3⟩, .endAt 3]

theorem compile_relaid_lines : tokenize "opaque a;b c;" = .ok oneLine ∧
    tokenize "opaque a ; // bytes\n b\n c ;" = .ok threeLines ∧ SameTexts oneLine threeLines ∧
      Relaid oneLine threeLines (compile "opaque a;b c;" {})
        (compile "opaque a ; // bytes\n b\n c ;" {}) := by
  have first : tokenize "opaque a;b c;" = .ok oneLine := by decide +kernel
  have second : tokenize "opaque a ; // bytes\n b\n c ;" = .ok threeLines := by decide +kernel
  have same : SameTexts oneLine threeLines := rfl
  exact ⟨first, second, same, compile_relaid first second same {}⟩

end WireFormat
