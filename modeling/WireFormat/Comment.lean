namespace WireFormat

-- Where a position of a source stands. `block n` is inside n + 1 open block
-- comments; openers and closers mean nothing inside a line comment.
inductive Region where
  | code
  | line
  | block (outer : Nat)
  deriving DecidableEq, Repr

-- Where a closer leads that ends the innermost of `outer + 1` comments.
def Region.closing : Nat → Region
  | 0 => .code
  | outer + 1 => .block outer

-- Blanks out block comments, which nest, and leaves everything else as it is. A
-- character becomes a space and a newline stays, so no position and no line moves.
-- There is no result when the source ends inside a block comment.
def maskFrom : Region → Array Char → List Char → Option (Array Char)
  | .block _, _, [] => none
  | _, out, [] => some out
  | .code, out, '/' :: '/' :: rest => maskFrom .line ((out.push '/').push '/') rest
  | .code, out, '/' :: '*' :: rest => maskFrom (.block 0) ((out.push ' ').push ' ') rest
  | .code, out, c :: rest => maskFrom .code (out.push c) rest
  | .line, out, c :: rest => maskFrom (if c = '\n' then .code else .line) (out.push c) rest
  | .block outer, out, '/' :: '*' :: rest =>
    maskFrom (.block (outer + 1)) ((out.push ' ').push ' ') rest
  | .block outer, out, '*' :: '/' :: rest =>
    maskFrom (.closing outer) ((out.push ' ').push ' ') rest
  | .block outer, out, c :: rest =>
    maskFrom (.block outer) (out.push (if c = '\n' then '\n' else ' ')) rest

-- What has been written has no bearing on what follows.
theorem maskFrom_append (region : Region) (before out : Array Char) (source : List Char) :
    maskFrom region (before ++ out) source = (maskFrom region out source).map (before ++ ·) := by
  fun_induction maskFrom region out source with
  | case1 => simp [maskFrom]
  | case2 region out closed =>
    cases region with
    | block outer => exact absurd rfl (closed outer)
    | _ => rfl
  | _ => simp_all [maskFrom]

def mask? (source : List Char) : Option (List Char) :=
  (maskFrom .code #[] source).map Array.toList

-- The line on which a source ends.
def lastLine (source : List Char) : Nat := source.count '\n' + 1

end WireFormat
