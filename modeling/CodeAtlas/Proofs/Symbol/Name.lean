/-
  The names of symbols.

  A name is what is left of a text without the blanks around it (`Text.trimmed_trim`).  Qualified in a scope it comes
  last, after the innermost name of the scope and a separator (`Scope.exists_front_qualify`,
  `Scope.exists_front_innermost`), and what is put in front of it or marked later leaves that alone (`Symbol.Named`).
-/
import CodeAtlas.Proofs.Text.Split
import CodeAtlas.Symbol.Basic

namespace CodeAtlas

/-! ## Blanks -/

namespace Text

/-- A text with neither a blank first nor a blank last character. -/
structure Trimmed (s : String) : Prop where
  ne_empty : s ≠ ""
  first : ∀ c, s.toList.head? = some c → isBlank c = false
  last : ∀ c, s.toList.getLast? = some c → isBlank c = false

theorem not_of_head?_dropWhile {α : Type} {p : α → Bool} {l : List α} {a : α} (h : (l.dropWhile p).head? = some a) :
    p a = false := by
  have hnot := List.head?_dropWhile_not p l
  rwa [h] at hnot

/-- What is dropped at the end leaves the first element alone. -/
theorem head?_of_dropEndWhile {α : Type} {p : α → Bool} {l : List α} {a : α} (h : (dropEndWhile p l).head? = some a) :
    l.head? = some a := by
  unfold dropEndWhile at h
  rw [List.head?_reverse] at h
  rw [← List.getLast?_reverse]
  obtain ⟨front, hfront⟩ := List.dropWhile_suffix p (l := l.reverse)
  rw [← hfront, List.getLast?_append, h, Option.some_or]

theorem trimmed_trim {s : String} (h : trim s ≠ "") : Trimmed (trim s) := by
  refine ⟨h, fun c hc => ?_, fun c hc => ?_⟩
  · unfold trim at hc
    rw [String.toList_ofList] at hc
    exact not_of_head?_dropWhile (head?_of_dropEndWhile hc)
  · unfold trim dropEndWhile at hc
    rw [String.toList_ofList, List.getLast?_reverse] at hc
    exact not_of_head?_dropWhile hc

end Text

/-! ## Scopes -/

/-- What stands between the parts of the qualified names of a language. -/
def Language.separator : Language → Separator
  | .rust | .c | .cpp => .doubleColon
  | .javascript | .typescript | .tsx | .python | .java => .dot

namespace Scope

variable {scope : Scope} {name : String}

theorem qualify_of_empty (h : scope.current = "") : scope.qualify name = name := by
  unfold qualify
  simp [h]

theorem qualify_of_ne_empty (h : scope.current ≠ "") (hname : name ≠ "") :
    scope.qualify name = scope.current ++ scope.separator.text ++ name := by
  unfold qualify
  simp [h, hname]

/-- A qualified name ends with the name. -/
theorem exists_front_qualify (hname : name ≠ "") : ∃ front, scope.qualify name = front ++ name := by
  by_cases hcurrent : scope.current = ""
  · exact ⟨"", by rw [qualify_of_empty hcurrent, String.empty_append]⟩
  · exact ⟨scope.current ++ scope.separator.text, qualify_of_ne_empty hcurrent hname⟩

/-- The qualified name of a scope ends with its innermost name. -/
theorem exists_front_current {parent : String} (h : scope.innermost? = some parent) :
    ∃ front, scope.current = front ++ parent := by
  obtain ⟨outer, houter⟩ := List.getLast?_eq_some_iff.mp h
  unfold current
  rw [houter]
  exact Text.exists_lead_join _ outer parent

/-- A name in a scope comes after the innermost name of the scope. -/
theorem exists_front_innermost {parent : String} (h : scope.innermost? = some parent) (hparent : parent ≠ "")
    (hname : name ≠ "") : ∃ front, scope.qualify name = front ++ parent ++ scope.separator.text ++ name := by
  obtain ⟨front, hfront⟩ := exists_front_current h
  have hcurrent : scope.current ≠ "" := by
    rw [hfront]
    simp [hparent]
  exact ⟨front, by rw [qualify_of_ne_empty hcurrent hname, hfront]⟩

theorem separator_foldl_push (scope : Scope) (names : List String) :
    (names.foldl push scope).separator = scope.separator := by
  induction names generalizing scope with
  | nil => rfl
  | cons name names ih => exact ih (scope.push name)

end Scope

/-! ## Symbols -/

namespace Symbol

/-- A symbol whose qualified name is made of its name, and of that of its scope before a separator. -/
structure Named (separator : Separator) (s : Symbol) : Prop where
  trimmed : Text.Trimmed s.name
  fqn_ends : ∃ front, s.fqn = front ++ s.name
  fqn_scoped : ∀ parent, s.parent = some parent → parent ≠ "" →
    ∃ front, s.fqn = front ++ parent ++ separator.text ++ s.name

variable {separator : Separator} {s : Symbol}

theorem named_of_at? {source : String} {node nameNode : Syntax.Tree} {kind : SymbolKind}
    (h : at? source node nameNode kind = some s) : s.Named separator := by
  unfold at? at h
  dsimp only at h
  split at h
  · cases h
  · rename_i hnonempty
    have hname : Text.trim (nameNode.text source) ≠ "" := by simpa using hnonempty
    rw [← Option.some.inj h]
    exact ⟨Text.trimmed_trim hname, ⟨"", String.empty_append.symm⟩, fun _ hparent => nomatch hparent⟩

namespace Named

theorem within (h : s.Named separator) {scope : Scope} (hscope : scope.separator = separator) :
    (s.within scope).Named separator := by
  refine ⟨h.trimmed, Scope.exists_front_qualify h.trimmed.ne_empty, fun parent hparent hne => ?_⟩
  rw [← hscope]
  exact Scope.exists_front_innermost hparent hne h.trimmed.ne_empty

theorem inFront (h : s.Named separator) (outer : String) : Named separator { s with fqn := outer ++ s.fqn } := by
  refine ⟨h.trimmed, ?_, fun parent hparent hne => ?_⟩
  · obtain ⟨front, hfront⟩ := h.fqn_ends
    exact ⟨outer ++ front, by rw [hfront, String.append_assoc]⟩
  · obtain ⟨front, hfront⟩ := h.fqn_scoped parent hparent hne
    exact ⟨outer ++ front, by simp only [hfront, String.append_assoc]⟩

theorem marked (h : s.Named separator) (isAsync isPublic isExported : Bool) :
    Named separator { s with isAsync, isPublic, isExported } :=
  ⟨h.trimmed, h.fqn_ends, h.fqn_scoped⟩

end Named

end Symbol

end CodeAtlas
