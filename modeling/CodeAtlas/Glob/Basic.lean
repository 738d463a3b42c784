/-
  Patterns for paths and what they match.

  A pattern is a sequence of tokens, each of which takes bytes from the front of a path.  Since a token may take more or
  fewer bytes, matching follows all the rests that the tokens so far can leave; a path matches when the empty rest is
  among them at the end.
-/
import CodeAtlas.Text.Bytes

namespace CodeAtlas.Glob

/-- A part of a pattern. -/
inductive Token where
  | byte (b : UInt8)
  /-- One byte. -/
  | any
  /-- Any number of bytes. -/
  | many
  /-- Any number of whole directories at the front. -/
  | directoriesAhead
  /-- All that is below a directory. -/
  | anythingBelow
  /-- A slash, or two with any number of directories between. -/
  | directoriesBetween
  /-- A byte inside, or outside, some ranges. -/
  | oneOf (negated : Bool) (ranges : List (UInt8 × UInt8))
  /-- One of several patterns. -/
  | either (branches : List (List Token))

/-- The byte that separates directories. -/
def slash : UInt8 := 47

/-- The rests of a path after some of its first bytes, all of which satisfy a condition. -/
def restsWhile (p : UInt8 → Bool) : List UInt8 → List (List UInt8)
  | [] => [[]]
  | b :: rest => (b :: rest) :: if p b then restsWhile p rest else []

/-- The rests of a path after each of its slashes. -/
def restsAfterSlash : List UInt8 → List (List UInt8)
  | [] => []
  | b :: rest => if b == slash then rest :: restsAfterSlash rest else restsAfterSlash rest

mutual

/-- Whether a token has nothing to match. -/
def Token.isVoid : Token → Bool
  | .either branches => branchesVoid branches
  | _ => false

/-- Whether a pattern has nothing to match. -/
def tokensVoid : List Token → Bool
  | [] => true
  | t :: rest => t.isVoid && tokensVoid rest

/-- Whether several patterns have nothing to match. -/
def branchesVoid : List (List Token) → Bool
  | [] => true
  | b :: rest => tokensVoid b && branchesVoid rest

end

mutual

/-- The rests that a token can leave of a path; `crosses` says whether `any` and `many` take slashes. Among
alternatives those with nothing to match do not count, unless all are like that. -/
def Token.rests (crosses : Bool) : Token → List UInt8 → List (List UInt8)
  | .byte b, path => if path.head? == some b then [path.tail] else []
  | .any, path =>
    match path with
    | b :: rest => if crosses || b != slash then [rest] else []
    | [] => []
  | .many, path => restsWhile (fun b => crosses || b != slash) path
  | .directoriesAhead, path => path :: restsAfterSlash path
  | .anythingBelow, path => if path.head? == some slash then restsWhile (fun _ => true) path.tail else []
  | .directoriesBetween, path => if path.head? == some slash then path.tail :: restsAfterSlash path.tail else []
  | .oneOf negated ranges, path =>
    match path with
    | b :: rest => if (ranges.any fun r => r.1 ≤ b && b ≤ r.2) != negated then [rest] else []
    | [] => []
  | .either branches, path => if branchesVoid branches then [path] else restsAny crosses branches path

/-- The rests that a pattern can leave of some paths. -/
def restsAll (crosses : Bool) : List Token → List (List UInt8) → List (List UInt8)
  | [], paths => paths
  | t :: rest, paths => restsAll crosses rest (paths.flatMap (t.rests crosses)).eraseDups

/-- The rests that one of several patterns can leave of a path. -/
def restsAny (crosses : Bool) : List (List Token) → List UInt8 → List (List UInt8)
  | [], _ => []
  | b :: rest, path => (if tokensVoid b then [] else restsAll crosses b [path]) ++ restsAny crosses rest path

end

mutual

/-- Whether all ranges of a token go upward. -/
def Token.isOrdered : Token → Bool
  | .oneOf _ ranges => ranges.all fun r => r.1 ≤ r.2
  | .either branches => branchesOrdered branches
  | _ => true

/-- Whether all ranges of a pattern go upward. -/
def tokensOrdered : List Token → Bool
  | [] => true
  | t :: rest => t.isOrdered && tokensOrdered rest

/-- Whether all ranges of several patterns go upward. -/
def branchesOrdered : List (List Token) → Bool
  | [] => true
  | b :: rest => tokensOrdered b && branchesOrdered rest

end

end CodeAtlas.Glob

namespace CodeAtlas

/-- A pattern for paths. -/
structure Glob where
  tokens : List Glob.Token
  /-- Whether wildcards take slashes. -/
  crosses : Bool

namespace Glob

/-- Whether a pattern that is only a run of directories, and thus matches all paths. -/
def isEverything (g : Glob) : Bool :=
  match g.tokens with
  | [.directoriesAhead] => true
  | _ => false

/-- Whether a path matches. -/
def accepts (g : Glob) (path : String) : Bool :=
  g.isEverything || (restsAll g.crosses g.tokens [Text.bytes path]).contains []

/-- Whether all ranges of the pattern go upward. -/
def isUsable (g : Glob) : Bool :=
  tokensOrdered g.tokens

end Glob

end CodeAtlas
