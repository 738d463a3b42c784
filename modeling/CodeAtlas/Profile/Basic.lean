/-
  What the analysis knows about each file, and which files are entry points or covered by tests.
-/
import CodeAtlas.Extraction
import CodeAtlas.Profile.Behavior
import CodeAtlas.Profile.FileType
import CodeAtlas.Profile.Layer

namespace CodeAtlas

namespace Path

/-- Whether flows start at a file: it is flagged, or it is no test and is named `app`, `main` or `index`, or its path
speaks of routes or pages. -/
def isEntryPoint (path : String) (flagged : Bool) : Bool :=
  flagged ||
    let whole := Text.lower (forwardSlashes path)
    let name := fileName whole
    !Text.containsAny whole [".test.", ".spec."]
      && (Text.startsWith name "app." || Text.startsWith name "main." || Text.startsWith name "index."
        || Text.contains whole "route" || Text.contains whole "page")

/-- The stem of the file that a test file is about, in lower case; none for a name that follows no convention. -/
def testSubject? (path : String) : Option String :=
  let name := fileName path
  let stem := fileStem path
  let dotted := (Text.cutFirst? ".test." name).or (Text.cutFirst? ".spec." name)
  let suffixed := (Text.stripEnd? stem "Test").filter fun s => !s.isEmpty
  let subject := (dotted.map (·.1)).or ((Text.stripStart? stem "test_").or ((Text.stripEnd? stem "_test").or suffixed))
  subject.map Text.lower

end Path

/-- What is known about one file. -/
structure FileProfile where
  path : String
  fileType : FileType
  layer : Layer
  language : Option Language
  lines : Nat
  complexity : Nat
  isEntryPoint : Bool
  /-- Whether a test file is about this file. -/
  hasTest : Bool
  behavior : Behavior
  deriving DecidableEq, Repr, Inhabited

namespace FileProfile

/-- The profile of an extracted file. -/
def of (e : Extraction) : FileProfile :=
  { path := e.path
    fileType := .classify e.path e.content
    layer := .classify e.path e.content
    language := e.language
    lines := e.lineCount
    complexity := estimateComplexity e.content
    isEntryPoint := Path.isEntryPoint e.path e.entryPoint
    hasTest := false
    behavior := .of e.content }

/-- The stems that the test files among the profiles are about. -/
def testSubjects (profiles : List FileProfile) : List String :=
  (profiles.filter fun p => p.fileType == .test).filterMap fun p => Path.testSubject? p.path

/-- The profiles with every file marked that some test file is about. -/
def markTested (profiles : List FileProfile) : List FileProfile :=
  let subjects := testSubjects profiles
  profiles.map fun p =>
    { p with hasTest := p.fileType != .test && subjects.contains (Text.lower (Path.fileStem p.path)) }

/-- The profile of a path; of several the last one. -/
def ofPath? (profiles : List FileProfile) (path : String) : Option FileProfile :=
  profiles.reverse.find? fun p => p.path == path

end FileProfile

end CodeAtlas
