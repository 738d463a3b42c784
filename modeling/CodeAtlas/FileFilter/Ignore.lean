/-
  The rules of ignore files.

  Each line is a pattern.  A pattern without a slash inside matches at any depth, one with a slash from the top; a slash
  at its end restricts it to directories, and an exclamation mark in front makes it take files back in.  The last rule
  that matches a path decides, and a path about which no rule says anything goes by the directories around it.
-/
import CodeAtlas.Glob.Parser
import CodeAtlas.Text.Blank
import CodeAtlas.Text.Lines

namespace CodeAtlas

/-- A rule of an ignore file. -/
structure IgnoreRule where
  glob : Glob
  /-- Whether matching paths are taken back in. -/
  restores : Bool
  directoriesOnly : Bool

namespace IgnoreRule

/-- The text of a line without blanks at its end; a blank after a backslash stays. -/
def lineText (line : String) : String :=
  if Text.endsWith line "\\ " then line else Text.trimEnd line

/-- A text without a mark in front, and whether the mark was there. -/
def mark (lead s : String) : Bool × String :=
  match Text.stripStart? s lead with
  | some rest => (true, rest)
  | none => (false, s)

/-- A text without a slash at its end, escaped or not, and whether the slash was there. -/
def endMark (s : String) : Bool × String :=
  match Text.stripEnd? s "/" with
  | some rest => (true, (Text.stripEnd? rest "\\").getD rest)
  | none => (false, s)

/-- The pattern that is matched against whole paths. -/
def wholePattern (rooted : Bool) (pattern : String) : String :=
  let anywhere := !rooted && !Text.contains pattern "/" && pattern != "**"
  let pattern := if anywhere then "**/" ++ pattern else pattern
  if Text.endsWith pattern "/**" then pattern ++ "/*" else pattern

/-- The rule of a line; none for blank lines, comments and malformed patterns. -/
def ofLine? (line : String) : Option IgnoreRule :=
  let text := lineText line
  if Text.startsWith line "#" || text.isEmpty then none
  else
    let escaped := Text.startsWith text "\\!" || Text.startsWith text "\\#"
    let (restores, text) := if escaped then (false, Text.dropStart text "\\") else mark "!" text
    let (rooted, text) := if escaped then (false, text) else mark "/" text
    let (directoriesOnly, text) := endMark text
    (Glob.parse? false true (wholePattern rooted text)).map fun glob => { glob, restores, directoriesOnly }

/-- The rules of an ignore file; marks of the byte order at its front do not count. -/
def ofFile (content : String) : List IgnoreRule :=
  (Text.lines (.ofList (content.toList.dropWhile (· == '\ufeff')))).filterMap ofLine?

/-- Whether the rules say that a path is ignored, or that it is not; none when they say nothing. -/
def verdict? (rules : List IgnoreRule) (path : String) (isDirectory : Bool) : Option Bool :=
  (rules.reverse.find? fun r => (isDirectory || !r.directoriesOnly) && r.glob.accepts path).map fun r => !r.restores

end IgnoreRule

end CodeAtlas
