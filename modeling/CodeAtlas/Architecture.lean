/-
  The layers of a project and the dependencies that point upward, from a deeper layer to a higher one.
-/
import CodeAtlas.Dependency.Basic
import CodeAtlas.Profile.Basic

namespace CodeAtlas

/-- The files of a layer, tests left out. -/
structure LayerSummary where
  layer : Layer
  files : List String
  count : Nat
  averageComplexity : Rat
  /-- The share of the files that have a test. -/
  testCoverage : Rat
  deriving DecidableEq

/-- A dependency that points upward. -/
structure LayerViolation where
  source : String
  target : String
  sourceLayer : Layer
  targetLayer : Layer
  deriving DecidableEq, Repr

/-- The layers and the violations of their order. -/
structure Architecture where
  layers : List LayerSummary
  violations : List LayerViolation

/-- The sum of a list of natural numbers. -/
def total (l : List Nat) : Nat :=
  l.foldl (· + ·) 0

namespace Architecture

/-- The summary of one layer. -/
def summarize (profiles : List FileProfile) (layer : Layer) : LayerSummary :=
  let members := profiles.filter fun p => p.layer == layer && p.fileType != .test
  let count := members.length
  let average (n : Nat) : Rat := if count = 0 then 0 else quotient n count
  { layer
    files := members.map (·.path)
    count
    averageComplexity := average (total (members.map (·.complexity)))
    testCoverage := average (members.filter (·.hasTest)).length }

/-- The violation that an internal dependency makes, if it points upward. -/
def violation? (profiles : List FileProfile) (d : Dependency) : Option LayerViolation := do
  if d.external then none
  let source ← FileProfile.ofPath? profiles d.source
  let target ← FileProfile.ofPath? profiles d.target
  let sourceDepth ← source.layer.depth?
  let targetDepth ← target.layer.depth?
  if targetDepth < sourceDepth then some ⟨d.source, d.target, source.layer, target.layer⟩ else none

/-- The layers and violations of a project. -/
def of (profiles : List FileProfile) (dependencies : List Dependency) : Architecture :=
  { layers := Layer.all.map (summarize profiles)
    violations := dependencies.filterMap (violation? profiles) }

end Architecture

end CodeAtlas
