/-
  The files that imports can refer to.  An index is the list of their normalised paths in increasing order; every lookup
  is a search in that list, so the answers depend on the set of paths alone.
-/
import CodeAtlas.Resolve.Paths

namespace CodeAtlas

/-- The paths in increasing order, each once. -/
def sortedDistinct (paths : List String) : List String :=
  (paths.mergeSort fun a b => decide (a ≤ b)).eraseReps

/-- The files of a project. -/
structure FileIndex where
  paths : List String
  deriving Repr

/-- The languages whose modules are named by dotted paths. -/
inductive DottedFamily where
  | python
  | java
  deriving DecidableEq, Repr

namespace FileIndex

/-- The index of a list of paths. -/
def ofPaths (paths : List String) : FileIndex :=
  ⟨sortedDistinct (paths.map Path.normalize)⟩

/-- Whether a path is one of the files. -/
def contains (x : FileIndex) (path : String) : Bool :=
  x.paths.contains path

/-- The first Rust file with a module path. -/
def rustModule? (x : FileIndex) (module : String) : Option String :=
  x.paths.find? fun p => Text.endsWith p ".rs" && Resolve.rustModulePath p == module

/-- The segments of the module that a file of a dotted family holds. -/
def dottedSegments? (family : DottedFamily) (path : String) : Option (List String) :=
  match family with
  | .python => (Text.stripEnd? path ".py").map fun m => Path.segments ((Text.stripEnd? m "/__init__").getD m)
  | .java => (Text.stripEnd? path ".java").map Path.segments

/-- Whether some non-empty run of segments up to the last one spells a dotted name. -/
def spells (name : String) : List String → Bool
  | [] => false
  | s :: rest => Text.join "." (s :: rest) == name || spells name rest

/-- Whether a file of a family can be called by a dotted name. -/
def hasDottedName (family : DottedFamily) (name path : String) : Bool :=
  (dottedSegments? family path).any (spells name)

/-- Of two paths the shorter one, and of equally long ones the first. -/
def shorter (best : Option String) (path : String) : Option String :=
  match best with
  | none => some path
  | some b => if path.utf8ByteSize < b.utf8ByteSize then some path else some b

/-- The shortest file of a family with a dotted name, the first in order among equally short ones. -/
def dotted? (x : FileIndex) (family : DottedFamily) (name : String) : Option String :=
  (x.paths.filter (hasDottedName family name)).foldl shorter none

/-- The files with a name, in whatever directory. -/
def named (x : FileIndex) (name : String) : List String :=
  x.paths.filter fun p => Path.fileName p == name

end FileIndex

end CodeAtlas
