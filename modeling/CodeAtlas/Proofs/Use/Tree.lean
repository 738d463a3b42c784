/-
  Use trees, their tokens and the names that they bind.

  A use tree ends with a name, with a wildcard or with a group of use trees, each behind a path.  Cut at all commas, the
  tokens of its group are entries: braces open in front of a path, a name or wildcard stands behind it, and braces close
  (`Entry`).  Whatever the groups inside, the entries bind the names of the tree in their order (`UseTree.reads_tokens`).
-/
import CodeAtlas.Text.Blank

namespace CodeAtlas.Rust

/-- The characters of all tokens that are not words. -/
def marks : List Char :=
  ['\x7b', '\x7d', ',', ':', '*']

/-- A word of a use declaration: a segment of a path, or an alias. -/
structure Word where
  text : String
  ne_empty : text ≠ ""
  /-- The keyword in front of an alias is no word of its own. -/
  ne_as : text ≠ "as"
  plain : ∀ c ∈ text.toList, Text.isBlank c = false ∧ c ∉ marks

/-- A token of a use declaration. -/
inductive Token where
  | word (w : Word)
  | colons
  | star
  | opening
  | closing
  | comma
  /-- The keyword in front of an alias. -/
  | keyword

namespace Token

def text : Token → String
  | word w => w.text
  | colons => "::"
  | star => "*"
  | opening => "\x7b"
  | closing => "\x7d"
  | comma => ","
  | keyword => "as"

/-- The character that only tokens like that have. -/
def mark? : Token → Option Char
  | colons => some ':'
  | star => some '*'
  | opening => some '\x7b'
  | closing => some '\x7d'
  | comma => some ','
  | word _ | keyword => none

def isComma : Token → Bool
  | comma => true
  | _ => false

/-- Whether a token runs into the next one like that without a blank between them. -/
def isWordLike : Token → Bool
  | word _ | keyword => true
  | _ => false

end Token

/-- The path in front of the end of a use tree, with colons behind each segment. -/
structure Lead where
  /-- Whether there are colons in front as well, for the root of all crates. -/
  rooted : Bool
  segments : List Word

def Lead.tokens (lead : Lead) : List Token :=
  (if lead.rooted then [.colons] else []) ++ lead.segments.flatMap fun w => [.word w, .colons]

/-- A use tree. -/
inductive UseTree where
  | name (lead : Lead) (last : Word) (renamed : Option Word)
  | glob (lead : Lead)
  /-- The items in braces, with or without a comma behind the last one. -/
  | group (lead : Lead) (items : List UseTree) (trailing : Bool)

namespace UseTree

mutual

/-- The tokens of a use tree. -/
def tokens : UseTree → List Token
  | name lead last none => lead.tokens ++ [.word last]
  | name lead last (some w) => lead.tokens ++ [.word last, .keyword, .word w]
  | glob lead => lead.tokens ++ [.star]
  | group lead items trailing => lead.tokens ++ .opening :: (tokensAll trailing items ++ [.closing])

/-- The tokens of the items of a group. -/
def tokensAll (trailing : Bool) : List UseTree → List Token
  | [] => []
  | t :: rest => tokens t ++ ((if !rest.isEmpty || trailing then [.comma] else []) ++ tokensAll trailing rest)

end

mutual

/-- The names that a use tree binds, from left to right. -/
def names : UseTree → List String
  | name _ last none => [last.text]
  | name _ _ (some w) => [w.text]
  | glob _ => ["*"]
  | group _ items _ => namesAll items

/-- The names that the items of a group bind. -/
def namesAll : List UseTree → List String
  | [] => []
  | t :: rest => names t ++ namesAll rest

end

end UseTree

/-! ## Entries -/

/-- Braces that are opened, each behind its path, and the path in front of a name. -/
inductive Front : List Token → Prop where
  | nil : Front []
  | colons {l : List Token} (rest : Front l) : Front (.colons :: l)
  | opening {l : List Token} (rest : Front l) : Front (.opening :: l)
  | segment (w : Word) {l : List Token} (rest : Front l) : Front (.word w :: .colons :: l)

/-- What stands between two commas of a use tree, and the name that it binds if it holds one. -/
inductive Entry : List Token → Option String → Prop where
  | bare {front closers : List Token} (hfront : Front front) (hclosers : ∀ t ∈ closers, t = .closing) :
      Entry (front ++ closers) none
  | name {front closers : List Token} (hfront : Front front) (w : Word) (hclosers : ∀ t ∈ closers, t = .closing) :
      Entry (front ++ .word w :: closers) (some w.text)
  | glob {front closers : List Token} (hfront : Front front) (hclosers : ∀ t ∈ closers, t = .closing) :
      Entry (front ++ .star :: closers) (some "*")
  | renamed {front closers : List Token} (hfront : Front front) (v w : Word) (hclosers : ∀ t ∈ closers, t = .closing) :
      Entry (front ++ .word v :: .keyword :: .word w :: closers) (some w.text)

/-- Tokens whose entries bind the given names. -/
inductive Reads : List Token → List String → Prop where
  | last {entry : List Token} {name : Option String} (h : Entry entry name) : Reads entry name.toList
  | next {entry rest : List Token} {name : Option String} {names : List String} (h : Entry entry name)
      (hrest : Reads rest names) : Reads (entry ++ .comma :: rest) (name.toList ++ names)

variable {front l rest : List Token} {name : Option String} {names others : List String}

theorem Front.append (hfront : Front front) (h : Front l) : Front (front ++ l) := by
  induction hfront with
  | nil => exact h
  | colons _ ih => exact .colons ih
  | opening _ ih => exact .opening ih
  | segment w _ ih => exact .segment w ih

theorem Lead.front_tokens (lead : Lead) : Front lead.tokens := by
  have hsegments (segments : List Word) : Front (segments.flatMap fun w => [.word w, .colons]) := by
    induction segments with
    | nil => exact .nil
    | cons w segments ih => exact .segment w ih
  unfold tokens
  split
  · exact .colons (hsegments lead.segments)
  · exact hsegments lead.segments

/-- More may be opened in front of an entry. -/
theorem Entry.behind (hfront : Front front) (h : Entry l name) : Entry (front ++ l) name := by
  cases h with
  | bare h hclosers =>
    rw [← List.append_assoc]
    exact .bare (hfront.append h) hclosers
  | name h w hclosers =>
    rw [← List.append_assoc]
    exact .name (hfront.append h) w hclosers
  | glob h hclosers =>
    rw [← List.append_assoc]
    exact .glob (hfront.append h) hclosers
  | renamed h v w hclosers =>
    rw [← List.append_assoc]
    exact .renamed (hfront.append h) v w hclosers

/-- A brace may be closed behind an entry. -/
theorem Entry.closed (h : Entry l name) : Entry (l ++ [.closing]) name := by
  have hconcat {closers : List Token} (hclosers : ∀ t ∈ closers, t = .closing) :
      ∀ t ∈ closers ++ [.closing], t = .closing :=
    List.forall_mem_append.mpr ⟨hclosers, List.forall_mem_singleton.mpr rfl⟩
  cases h with
  | bare h hclosers =>
    rw [List.append_assoc]
    exact .bare h (hconcat hclosers)
  | name h w hclosers =>
    rw [List.append_assoc]
    exact .name h w (hconcat hclosers)
  | glob h hclosers =>
    rw [List.append_assoc]
    exact .glob h (hconcat hclosers)
  | renamed h v w hclosers =>
    rw [List.append_assoc]
    exact .renamed h v w (hconcat hclosers)

theorem Reads.behind (hfront : Front front) (h : Reads l names) : Reads (front ++ l) names := by
  cases h with
  | last h => exact .last (h.behind hfront)
  | next h hrest =>
    rw [← List.append_assoc]
    exact .next (h.behind hfront) hrest

theorem Reads.closed (h : Reads l names) : Reads (l ++ [.closing]) names := by
  induction h with
  | last h => exact .last h.closed
  | next h _ ih =>
    rw [List.append_assoc]
    exact .next h ih

theorem Reads.comma (h : Reads l names) (hrest : Reads rest others) : Reads (l ++ .comma :: rest) (names ++ others) := by
  induction h with
  | last h => exact .next h hrest
  | next h _ ih =>
    rw [List.append_assoc, List.append_assoc]
    exact .next h ih

theorem reads_nil : Reads [] [] :=
  .last (.bare .nil fun _ h => absurd h List.not_mem_nil)

namespace UseTree

mutual

/-- The entries of a use tree bind its names. -/
theorem reads_tokens (t : UseTree) : Reads t.tokens t.names := by
  have hnone : ∀ t ∈ ([] : List Token), t = .closing := fun _ h => absurd h List.not_mem_nil
  cases t with
  | name lead last renamed =>
    cases renamed with
    | none => exact .last (.name lead.front_tokens last hnone)
    | some w => exact .last (.renamed lead.front_tokens last w hnone)
  | glob lead => exact .last (.glob lead.front_tokens hnone)
  | group lead items trailing =>
    have hfront : Front (lead.tokens ++ [.opening]) := lead.front_tokens.append (.opening .nil)
    have hgroup := (reads_tokensAll trailing items).closed.behind hfront
    rw [List.append_assoc] at hgroup
    exact hgroup

theorem reads_tokensAll (trailing : Bool) (items : List UseTree) : Reads (tokensAll trailing items) (namesAll items) := by
  cases items with
  | nil => exact reads_nil
  | cons t rest =>
    unfold tokensAll namesAll
    split
    · exact (reads_tokens t).comma (reads_tokensAll trailing rest)
    · rename_i hlast
      have hrest : rest = [] := by
        rw [Bool.or_eq_true, not_or] at hlast
        simpa using hlast.1
      rw [hrest, tokensAll, namesAll, List.nil_append, List.append_nil, List.append_nil]
      exact reads_tokens t

end

end UseTree

end CodeAtlas.Rust
