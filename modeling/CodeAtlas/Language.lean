/-
  The programming languages that files are read in, found from a file's extension or from a hint by name.
-/
import CodeAtlas.Path
import CodeAtlas.Text.Blank

namespace CodeAtlas

/-- A language with a grammar. -/
inductive Language where
  | javascript
  | typescript
  | tsx
  | python
  | rust
  | java
  | c
  | cpp
  deriving DecidableEq, Repr, Inhabited

namespace Language

/-- Every language, in the order in which lists of languages are sorted. -/
def all : List Language :=
  [.javascript, .typescript, .tsx, .python, .rust, .java, .c, .cpp]

theorem mem_all (l : Language) : l ∈ all := by
  cases l <;> decide

/-- The tag of a language. -/
def name : Language → String
  | .javascript => "javascript"
  | .typescript => "typescript"
  | .tsx => "tsx"
  | .python => "python"
  | .rust => "rust"
  | .java => "java"
  | .c => "c"
  | .cpp => "cpp"

/-- The language with a given tag. -/
def ofName? (s : String) : Option Language :=
  all.find? fun l => l.name == s

/-- The language of a file extension, in any case. -/
def ofExtension? (extension : String) : Option Language :=
  match Text.lower extension with
  | "js" | "jsx" | "mjs" | "cjs" => some .javascript
  | "ts" | "mts" | "cts" => some .typescript
  | "tsx" => some .tsx
  | "py" | "pyi" => some .python
  | "rs" => some .rust
  | "java" => some .java
  | "c" | "h" => some .c
  | "cpp" | "cc" | "cxx" | "hpp" | "hh" | "hxx" => some .cpp
  | _ => none

/-- The language of a path. -/
def ofPath? (path : String) : Option Language :=
  (Path.extension? path).bind ofExtension?

/-- The language that a hint names, in any case and with the usual short names. -/
def ofHint? (hint : String) : Option Language :=
  match Text.lower (Text.trim hint) with
  | "javascript" | "js" | "jsx" => some .javascript
  | "typescript" | "ts" => some .typescript
  | "tsx" => some .tsx
  | "python" | "py" => some .python
  | "rust" | "rs" => some .rust
  | "java" => some .java
  | "c" => some .c
  | "cpp" | "c++" | "cxx" => some .cpp
  | _ => none

/-- The languages that share the import rules of ECMAScript. -/
def isEcmaScript : Language → Bool
  | .javascript | .typescript | .tsx => true
  | _ => false

end Language

end CodeAtlas
