/-
  Reading patterns.

  `?` stands for one byte and `*` for any number of them; `**` between slashes, or at an end of the pattern, stands for
  any number of directories.  Brackets hold a set of characters, braces hold alternatives with commas between, and a
  backslash takes away the meaning of the next character.
-/
import CodeAtlas.Glob.Basic

namespace CodeAtlas.Glob

/-- The bytes of a character. -/
def bytesOf (c : Char) : List UInt8 :=
  Text.bytes c.toString

/-- The ranges of bytes of a range of characters; of longer encodings only the two bytes next to the dash make a
range. -/
def byteRanges (range : Char × Char) : List (UInt8 × UInt8) :=
  let single (b : UInt8) : UInt8 × UInt8 := (b, b)
  let low := bytesOf range.1
  let high := bytesOf range.2
  if range.1 == range.2 then low.map single
  else
    match low.getLast?, high with
    | some l, h :: more => low.dropLast.map single ++ (l, h) :: more.map single
    | _, _ => []

/-- What follows an opening bracket. -/
inductive BracketScan where
  | closed (ranges : List (Char × Char)) (rest : List Char)
  | unclosed
  | unordered

/-- The set up to its closing bracket, behind the ranges already read, the last one first. A bracket or dash that comes
first stands for itself, and so does a dash that comes last. -/
def scanBracket : (first inRange : Bool) → (ranges : List (Char × Char)) → List Char → BracketScan
  | _, _, _, [] => .unclosed
  | first, inRange, ranges, c :: rest =>
    if c == ']' && !first then .closed (if inRange then ('-', '-') :: ranges else ranges).reverse rest
    else if c == '-' && !first && !inRange then scanBracket false true ranges rest
    else
      match inRange, ranges with
      | true, (low, _) :: more =>
        if c < low then .unordered else scanBracket false false ((low, c) :: more) rest
      | _, ranges => scanBracket false false ((c, c) :: ranges) rest

/-- A pattern while it is read. -/
structure Draft where
  /-- The tokens of the current branch, the last one first. -/
  tokens : List Token
  /-- For each open brace, the innermost first, the branches before the current one, the last one first, and the tokens
  in front of the brace. -/
  groups : List (List (List Token) × List Token)
  /-- Whether a bracket was found unclosed, so that all later ones stand for themselves. -/
  plainBrackets : Bool

namespace Draft

/-- The draft with tokens added in order. -/
def push (d : Draft) (tokens : List Token) : Draft :=
  { d with tokens := tokens.reverse ++ d.tokens }

/-- The draft with a character that stands for itself. -/
def pushChar (d : Draft) (c : Char) : Draft :=
  d.push ((bytesOf c).map .byte)

/-- The draft with the token of a run of directories in place of the slash before it; two runs in sequence are one. -/
def pushDirectories (d : Draft) (t : Token) : Draft :=
  match d.tokens with
  | .directoriesAhead :: _ | .anythingBelow :: _ => d
  | _ :: before => { d with tokens := t :: before }
  | [] => { d with tokens := [t] }

end Draft

/-- The draft after a step, the last character read, and the rest. -/
abbrev Step : Type := Draft × Char × List Char

/-- The step of two stars after the character `prev`: a run of directories between slashes and at the ends of the
pattern or of a branch, and else two wildcards. -/
def doubleStar (d : Draft) (prev : Option Char) (rest : List Char) : Step :=
  let plain : Step := (d.push [.many, .many], '*', rest)
  if d.tokens.isEmpty then
    match rest with
    | [] => (d.push [.directoriesAhead], '*', [])
    | '/' :: rest => (d.push [.directoriesAhead], '/', rest)
    | _ => plain
  else if prev != some '/' && (d.groups.isEmpty || (prev != some ',' && prev != some '\x7b')) then plain
  else
    match rest with
    | [] => (d.pushDirectories .anythingBelow, '*', [])
    | '/' :: rest => (d.pushDirectories .directoriesBetween, '/', rest)
    | c :: _ =>
      if (c == ',' || c == '\x7d') && !d.groups.isEmpty then (d.pushDirectories .anythingBelow, '*', rest) else plain

/-- The step of an opening bracket. An unclosed one stands for itself where `lenient` allows it. -/
def bracket? (lenient : Bool) (d : Draft) (cs : List Char) : Option Step :=
  let (negated, inner) := match cs with
    | '!' :: inner | '^' :: inner => (true, inner)
    | inner => (false, inner)
  match scanBracket true false [] inner with
  | .closed ranges rest => some (d.push [.oneOf negated (ranges.flatMap byteRanges)], ']', rest)
  | .unclosed => if lenient then some ({ d.pushChar '[' with plainBrackets := true }, '[', cs) else none
  | .unordered => none

/-- The step of a character `c` after the character `prev`. -/
def step? (lenient : Bool) (d : Draft) (prev : Option Char) (c : Char) (rest : List Char) : Option Step :=
  match c, rest, d.groups with
  | '?', _, _ => some (d.push [.any], c, rest)
  | '*', '*' :: rest, _ => some (doubleStar d prev rest)
  | '*', _, _ => some (d.push [.many], c, rest)
  | '[', _, _ => if d.plainBrackets then some (d.pushChar c, c, rest) else bracket? lenient d rest
  | '{', _, groups => some ({ d with tokens := [], groups := ([], d.tokens) :: groups }, c, rest)
  | '}', _, (branches, before) :: groups =>
    some ({ d with tokens := .either (d.tokens.reverse :: branches.map List.reverse).reverse :: before, groups }, c, rest)
  | '}', _, [] => none
  | ',', _, (branches, before) :: groups =>
    some ({ d with tokens := [], groups := (d.tokens :: branches, before) :: groups }, c, rest)
  | '\\', next :: rest, _ => some (d.pushChar next, next, rest)
  | '\\', [], _ => none
  | c, _, _ => some (d.pushChar c, c, rest)

/-- The draft after all characters. -/
def steps? (lenient : Bool) : (fuel : Nat) → Draft → (prev : Option Char) → List Char → Option Draft
  | _, d, _, [] => some d
  | 0, _, _, _ :: _ => none
  | fuel + 1, d, prev, c :: rest =>
    (step? lenient d prev c rest).bind fun (d, last, rest) => steps? lenient fuel d (some last) rest

/-- The pattern that a text spells. `crosses` says whether wildcards take slashes, `lenient` whether an unclosed bracket
stands for itself. -/
def parse? (crosses lenient : Bool) (s : String) : Option Glob :=
  match steps? lenient s.toList.length ⟨[], [], false⟩ none s.toList with
  | some ⟨tokens, [], _⟩ => some ⟨tokens.reverse, crosses⟩
  | _ => none

end CodeAtlas.Glob
