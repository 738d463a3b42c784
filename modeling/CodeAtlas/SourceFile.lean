/-
  Files handed in for processing.  A file carries its path and, where they are at hand, its content and its syntax tree;
  content that is not at hand is read from disk.  `Engine.parse` chooses the language and checks the tree.
-/
import CodeAtlas.Config
import CodeAtlas.Digest.StableId
import CodeAtlas.Extract.Support

namespace CodeAtlas

open Syntax (Tree)

/-- A file on disk: its bytes and when it was last changed. -/
structure DiskFile where
  bytes : List UInt8
  modifiedNanos : Nat

/-- The files on disk by path. -/
abbrev Disk : Type := String → Option DiskFile

/-- The disk without files. -/
def Disk.empty : Disk :=
  fun _ => none

/-- A file to be processed. -/
structure SourceFile where
  path : String
  content : Option String
  /-- Whether flows start here whatever the name says. -/
  entryPoint : Bool
  hint : Option Language
  /-- Where the file lies on disk when that differs from its path. -/
  diskPath : Option String
  /-- The syntax tree that the grammar of the file's language gives for its content. -/
  tree : Option Tree
  deriving Inhabited

/-- The content of a file, and when it was last changed if it was read from disk. -/
structure Loaded where
  content : String
  modifiedNanos : Option Nat

namespace SourceFile

/-- Where the file lies on disk. -/
def location (f : SourceFile) : String :=
  f.diskPath.getD f.path

/-- When the file was last changed; none for content at hand and for files that do not exist. -/
def modifiedNanos? (f : SourceFile) (disk : Disk) : Option Nat :=
  if f.content.isSome then none else (disk f.location).map (·.modifiedNanos)

/-- The content at hand, or else the text of the file on disk. -/
def load (f : SourceFile) (disk : Disk) : Except Failure Loaded :=
  match f.content with
  | some content => .ok ⟨content, none⟩
  | none =>
    match disk f.location with
    | none => .error (.notFound f.location)
    | some file =>
      match Text.decode file.bytes with
      | .ok content => .ok ⟨content, some file.modifiedNanos⟩
      | .error offset => .error (.notText f.location offset)

/-- What tells two versions of a file apart: a digest of content at hand, or the time of the last change. -/
def versionKey (f : SourceFile) (disk : Disk) : String :=
  match f.content with
  | some content => "sha256:" ++ shortHash content
  | none =>
    match f.modifiedNanos? disk with
    | some nanos => "mtime:" ++ toString nanos
    | none => "missing"

end SourceFile

/-- A file with its language and tree. -/
structure Parsed where
  path : String
  language : Language
  tree : Tree
  content : String

/-- What is known about languages, and whether syntax errors are accepted. -/
structure Engine where
  registry : Registry
  tolerant : Bool

namespace Engine

/-- The engine that knows every language and accepts no syntax errors. -/
def strict : Engine :=
  ⟨.builtin, false⟩

/-- The language that the hint gives, or else the extension. -/
def language (path : String) (hint : Option Language) : Except Failure Language :=
  match hint.or (Language.ofPath? path) with
  | some l => .ok l
  | none =>
    .error (.unsupportedLanguage path ("no grammar for extension '" ++ Path.extensionLabel path ++ "'"))

/-- Why a tree with errors is rejected: the line, counted from 1, and the column of the first error. -/
def syntaxError (content : String) (tree : Tree) : String :=
  match tree.firstError? with
  | some node =>
    let position := Text.Position.of (Text.bytes content) node.start
    "syntax error at " ++ toString (position.row + 1) ++ ":" ++ toString position.column
  | none => "syntax error"

/-- The file with its language, given the tree that the grammar makes of the content. -/
def parse (e : Engine) (path content : String) (hint : Option Language) (tree : Option Tree) :
    Except Failure Parsed := do
  let language ← language path hint
  match tree with
  | none => .error (.parseFailure path "parser produced no tree")
  | some tree =>
    if tree.tag.hasError && !e.tolerant then .error (.parseFailure path (syntaxError content tree))
    else .ok ⟨path, language, tree, content⟩

/-- The file whose content is given in bytes; bytes that are no text are rejected before all else. -/
def parseBytes (e : Engine) (path : String) (bytes : List UInt8) (hint : Option Language) (tree : Option Tree) :
    Except Failure Parsed :=
  match Text.decode bytes with
  | .ok content => e.parse path content hint tree
  | .error offset => .error (.notText path offset)

/-- The symbols of a file. -/
def symbols (e : Engine) (p : Parsed) : SymbolSet :=
  (e.registry.getD p.language).symbols p.content p.tree

/-- The comment style of a language. -/
def comments (e : Engine) (language : Language) : CommentStyle :=
  (e.registry.getD language).comments

end Engine

end CodeAtlas
