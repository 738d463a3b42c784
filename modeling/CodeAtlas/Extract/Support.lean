/-
  What is known about each language: the rules that find symbols, the names that calls call, the kinds of nodes that use
  names, and the comment style.  A registry holds the languages with such knowledge; for the others nodes are counted.
-/
import CodeAtlas.Comment
import CodeAtlas.Extract.CFamily
import CodeAtlas.Extract.EcmaScript
import CodeAtlas.Extract.Java
import CodeAtlas.Extract.Python
import CodeAtlas.Extract.Rust

namespace CodeAtlas

open Syntax (Tree Site Visit)

/-- The knowledge about one language. -/
structure Support where
  language : Language
  /-- The findings at a node of a file with the given text and root; none when nodes are only counted. -/
  rule : Option (String → Tree → Site → List Finding × Visit)
  callTarget : Tree → Option Tree
  identifiers : List String
  comments : CommentStyle

namespace Support

/-- A language of which only the grammar is known. -/
def grammarOnly (language : Language) : Support :=
  { language, rule := none, callTarget := fun _ => none, identifiers := ["identifier"], comments := .cFamily }

/-- The knowledge about a language of the ECMAScript family. -/
def ecmaScript (language : Language) (identifiers : List String) : Support :=
  { language
    rule := some fun source _ site => EcmaScript.rule source site
    callTarget := EcmaScript.callTarget?
    identifiers
    comments := .cFamily }

/-- What is known about each language. -/
def builtin : Language → Support
  | .javascript => ecmaScript .javascript EcmaScript.identifiers
  | .typescript => ecmaScript .typescript (EcmaScript.identifiers ++ ["type_identifier"])
  | .tsx => ecmaScript .tsx (EcmaScript.identifiers ++ ["type_identifier"])
  | .python =>
    { language := .python
      rule := some fun source _ site => Python.rule source site
      callTarget := Python.callTarget?
      identifiers := ["identifier"]
      comments := .hash }
  | .rust =>
    { language := .rust
      rule := some fun source _ site => Rust.rule source site
      callTarget := Rust.callTarget?
      identifiers := Rust.identifiers
      comments := .cFamily }
  | .java =>
    { language := .java
      rule := some fun source root site => Java.rule source (Java.packageName? source root) site
      callTarget := Java.callTarget?
      identifiers := Java.identifiers
      comments := .cFamily }
  | .c =>
    { language := .c
      rule := some fun source _ site => CFamily.rule source site
      callTarget := CFamily.callTarget?
      identifiers := CFamily.identifiers
      comments := .cFamily }
  | .cpp =>
    { language := .cpp
      rule := some fun source _ site => CFamily.rule source site
      callTarget := CFamily.callOrNewTarget?
      identifiers := CFamily.identifiers ++ ["namespace_identifier"]
      comments := .cFamily }

/-- The symbols of a file. -/
def symbols (support : Support) (source : String) (root : Tree) : SymbolSet :=
  match support.rule with
  | some rule => .collect support.language root ((Site.mk root []).gather (rule source root))
  | none => .counted support.language root

end Support

/-- The languages about which something is known. -/
structure Registry where
  supports : List Support

namespace Registry

/-- What is known about a language. -/
def get? (r : Registry) (language : Language) : Option Support :=
  r.supports.find? fun s => s.language == language

/-- The registry with the knowledge about a language added or replaced. -/
def register (r : Registry) (support : Support) : Registry :=
  ⟨support :: r.supports.filter fun s => s.language != support.language⟩

/-- The registry that knows every language. -/
def builtin : Registry :=
  ⟨Language.all.map Support.builtin⟩

/-- The registry that knows only the grammars of some languages. -/
def grammars (languages : List Language) : Registry :=
  languages.foldl (fun r l => r.register (.grammarOnly l)) ⟨[]⟩

/-- Whether something is known about a language. -/
def contains (r : Registry) (language : Language) : Bool :=
  (r.get? language).isSome

/-- The known languages in order. -/
def languages (r : Registry) : List Language :=
  Language.all.filter r.contains

/-- The knowledge used for a language: what is registered, or the grammar alone. -/
def getD (r : Registry) (language : Language) : Support :=
  (r.get? language).getD
    { Support.grammarOnly language with comments := if language == .python then .hash else .cFamily }

end Registry

end CodeAtlas
