/-
  Which files of a folder are read: those in a known language that lie in no directory of tools or results, are not
  ignored, match one of the patterns asked for, and match none of the patterns to be left out.
-/
import CodeAtlas.Config
import CodeAtlas.FileFilter.Ignore
import CodeAtlas.Language

namespace CodeAtlas

/-- The compiled rules for a folder. -/
structure FileFilter where
  ignored : List IgnoreRule
  /-- The patterns asked for, none when all files are. -/
  includes : Option (List Glob)
  excludes : List Glob

namespace FileFilter

/-- Directories whose content is never read. -/
def internalDirectories : List String :=
  [".git", ".hg", ".svn", "target", "node_modules", "dist", "build", ".venv", "venv", "__pycache__"]

/-- The names of ignore files, in the order in which their rules are read. -/
def ignoreFileNames : List String :=
  [".gitignore", ".ignore"]

/-- The patterns of a list of texts. -/
def globs (patterns : List String) : Except Failure (List Glob) :=
  patterns.mapM fun p =>
    match (Glob.parse? true false p).filter Glob.isUsable with
    | some g => .ok g
    | none => .error (.invalidConfig ("invalid glob pattern '" ++ p ++ "'"))

/-- The rules of ignore files that are read one after the other. -/
def ignoreRules (contents : List String) : Except Failure (List IgnoreRule) :=
  let rules := contents.flatMap IgnoreRule.ofFile
  if rules.all fun r => r.glob.isUsable then .ok rules else .error (.invalidConfig "ignore rules")

/-- The filter of a configuration for a folder with ignore files of the given contents. -/
def ofConfig (config : FilterConfig) (ignoreFiles : List String) : Except Failure FileFilter := do
  let ignored ← if config.respectIgnoreFiles then ignoreRules ignoreFiles else .ok []
  let includes ← if config.includes.isEmpty then .ok none else (globs config.includes).map some
  let excludes ← globs config.excludes
  .ok { ignored, includes, excludes }

/-- Whether a segment of a path leads nowhere. -/
def isIdle (segment : String) : Bool :=
  segment.isEmpty || segment == "."

/-- The rests of a list. -/
def tails {α : Type} : List α → List (List α)
  | [] => [[]]
  | a :: rest => (a :: rest) :: tails rest

/-- A path and the directories around it, nearest first, the folder itself last; the folder is the empty path. -/
def upward (path : String) : List String :=
  let segments := (Text.dropEndWhile isIdle ((Text.splitChar '/' path).dropWhile isIdle)).reverse
  ((tails segments).filter fun t => !t.head?.any isIdle).map fun t => Text.join "/" t.reverse

/-- Whether the rules ignore a file: the first verdict about its path or a directory around it counts. -/
def isIgnored (rules : List IgnoreRule) (path : String) : Bool :=
  match upward path with
  | [] => false
  | file :: directories =>
    ((IgnoreRule.verdict? rules file false).or
      (directories.findSome? fun d => IgnoreRule.verdict? rules d true)).getD false

/-- Whether a file, given by its path in the folder, is read. -/
def accepts (f : FileFilter) (path : String) : Bool :=
  let whole := (upward path).head?.getD ""
  !(Text.splitChar '/' path).any internalDirectories.contains
    && (Language.ofPath? path).isSome
    && !isIgnored f.ignored path
    && f.includes.all (fun globs => globs.any fun g => g.accepts whole)
    && !f.excludes.any fun g => g.accepts whole

end FileFilter

/-- A folder: the contents of its files by path. -/
structure Folder where
  files : List (String × String)

namespace Folder

/-- The content of a file. -/
def get? (f : Folder) (path : String) : Option String :=
  (f.files.find? fun e => e.1 == path).map (·.2)

/-- The folder at a path inside a folder; none when no file lies in it. -/
def below? (f : Folder) (path : String) : Option Folder :=
  match FileFilter.upward path with
  | [] | [_] => some f
  | directory :: _ =>
    match f.files.filterMap fun e => (Text.stripStart? e.1 (directory ++ "/")).map fun rest => (rest, e.2) with
    | [] => none
    | files => some ⟨files⟩

/-- The files of a folder that a configuration lets through, in the order of their paths. -/
def sources (f : Folder) (config : FilterConfig) : Except Failure (List (String × String)) := do
  let filter ← FileFilter.ofConfig config (FileFilter.ignoreFileNames.filterMap f.get?)
  .ok ((f.files.filter fun e => filter.accepts e.1).mergeSort fun a b => decide (a.1 ≤ b.1))

/-- The sources of the folder at a path inside a folder. -/
def sourcesBelow (f : Folder) (path : String) (config : FilterConfig) : Except Failure (List (String × String)) :=
  match f.below? path with
  | some folder => folder.sources config
  | none => .error (.unreadable path "scan root is not a directory")

end Folder

end CodeAtlas
