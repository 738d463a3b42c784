/-
  What a file's content does, judged by keywords, and how branched it is.
-/
import CodeAtlas.Text.Alphabet
import CodeAtlas.Text.Split

namespace CodeAtlas

/-- Flags about the content of a file. -/
structure Behavior where
  isAsync : Bool
  hasStateChange : Bool
  hasApiCall : Bool
  hasUserInteraction : Bool
  deriving DecidableEq, Repr, Inhabited

namespace Behavior

def asyncKeywords : List String :=
  ["async ", "await ", ".then(", "Promise", "tokio::"]

def stateKeywords : List String :=
  ["useState", "setState", "useReducer", "dispatch(", "this.state", "store.", "commit(", "localStorage."]

def apiKeywords : List String :=
  ["fetch(", "axios", "XMLHttpRequest", "http.get", "http.post", "requests.", "HttpClient", "reqwest"]

def interactionKeywords : List String :=
  ["onClick", "onSubmit", "onChange", "onPress", "addEventListener", "handleSubmit", "input("]

/-- A flag is set when one of its keywords stands in the content. -/
def of (content : String) : Behavior :=
  { isAsync := Text.containsAny content asyncKeywords
    hasStateChange := Text.containsAny content stateKeywords
    hasApiCall := Text.containsAny content apiKeywords
    hasUserInteraction := Text.containsAny content interactionKeywords }

end Behavior

/-- The words that open a branch. -/
def decisionWords : List String :=
  ["if", "for", "while", "case", "catch", "except", "elif", "match"]

/-- One more than the number of decision points: branching words, logical connectives and conditional operators. -/
def estimateComplexity (content : String) : Nat :=
  let tokens := Text.splitAny (fun c => !Text.isAlphanumeric c && c != '_') content
  1 + (tokens.filter decisionWords.contains).length + Text.occurrences content "&&" + Text.occurrences content "||"
    + Text.occurrences content " ? "

end CodeAtlas
