/-
  What is read off a tree over a text.

  Symbols are declared in the text, stand in the order of their positions and are marked as exported when their name
  is; imports have their lines in order, exports are distinct names, and all nodes are counted
  (`SymbolSet.WellFormed`).  Each part follows from how findings are collected and from what holds of every finding,
  so it holds for every language (`Support.symbols_are_wellFormed`).
-/
import CodeAtlas.Proofs.Dependency
import CodeAtlas.Proofs.Symbol.Place
import CodeAtlas.Proofs.Syntax.Preorder

namespace CodeAtlas

open Syntax (Tree Site)

namespace SymbolSet

variable {source : String} {language : Language} {separator : Separator} {root : Tree} {findings : List Finding}

/-! ## Order -/

theorem before_iff {a b : Symbol} :
    before a b = true ↔ a.byteStart < b.byteStart ∨ (a.byteStart = b.byteStart ∧ a.nameByteStart ≤ b.nameByteStart) := by
  unfold before
  simp

theorem before_trans (a b c : Symbol) (hab : before a b = true) (hbc : before b c = true) : before a c = true := by
  rw [before_iff] at hab hbc ⊢
  omega

theorem before_total (a b : Symbol) : (before a b || before b a) = true := by
  rw [Bool.or_eq_true, before_iff, before_iff]
  omega

theorem ordered_collect (language : Language) (root : Tree) (findings : List Finding) :
    (collect language root findings).symbols.Pairwise fun a b => before a b = true := by
  have hsorted (symbols : List Symbol) : (symbols.mergeSort before).Pairwise fun a b => before a b = true :=
    List.pairwise_mergeSort before_trans before_total symbols
  refine List.pairwise_map.mpr (((hsorted _).sublist (dropRepeats_sublist ..)).imp fun {a b} hab => ?_)
  -- the mark of an export is no part of the position
  rw [before_iff] at hab ⊢
  split <;> split <;> exact hab

/-! ## Imports and exports -/

theorem imported_of_mem_collect {i : Import} (h : i ∈ (collect language root findings).imports) :
    .imported i ∈ findings := by
  obtain ⟨f, hf, himport⟩ := List.mem_filterMap.mp h
  split at himport
  · exact Option.some.inj himport ▸ hf
  · cases himport

theorem empty_notMem_exports : "" ∉ (collect language root findings).exports := by
  intro h
  obtain ⟨f, -, hname⟩ := List.mem_filterMap.mp (mem_firstOccurrences.mp h)
  split at hname
  · split at hname
    · cases hname
    · rename_i hnonempty
      rw [Option.some.inj hname] at hnonempty
      exact hnonempty rfl
  · cases hname

/-- A symbol outside all scopes is marked when its name is exported. -/
theorem isExported_of_mem_exports {s : Symbol} (h : s ∈ (collect language root findings).symbols)
    (hparent : s.parent = none) (hname : s.name ∈ (collect language root findings).exports) : s.isExported = true := by
  obtain ⟨d, -, hsd, hmark⟩ := mark_of_mem_collect h
  rw [hsd] at hparent hname
  exact hmark.mpr (Or.inr ⟨hparent, hname⟩)

/-! ## All of a set -/

/-- What is read off a tree over a text. -/
structure WellFormed (separator : Separator) (source : String) (root : Tree) (set : SymbolSet) : Prop where
  declared : ∀ s ∈ set.symbols, s.Declared separator source
  lines : ∀ s ∈ set.symbols, 1 ≤ s.startLine ∧ s.startLine ≤ s.endLine
  ordered : set.symbols.Pairwise fun a b =>
    a.byteStart < b.byteStart ∨ (a.byteStart = b.byteStart ∧ a.nameByteStart ≤ b.nameByteStart)
  imports : ∀ i ∈ set.imports, 1 ≤ i.line ∧ i.line ≤ i.endLine
  exports_nodup : set.exports.Nodup
  exports_named : "" ∉ set.exports
  exported : ∀ s ∈ set.symbols, s.parent = none → s.name ∈ set.exports → s.isExported = true
  /-- Every node of the tree is counted. -/
  nodeCount_eq : set.nodeCount = root.preorder.length

theorem wellFormed_collect (hfindings : ∀ f ∈ findings, f.Sound separator source) :
    (collect language root findings).WellFormed separator source root where
  declared _ hs := declared_of_mem_collect hfindings hs
  lines _ hs :=
    have hplaced := (declared_of_mem_collect hfindings hs).placed
    ⟨hplaced.startLine_pos, hplaced.startLine_le_endLine⟩
  ordered := (ordered_collect language root findings).imp before_iff.mp
  imports _ hi :=
    have hordered : Import.Ordered _ := hfindings _ (imported_of_mem_collect hi)
    ⟨hordered.line_pos, hordered.line_le⟩
  exports_nodup := nodup_firstOccurrences _
  exports_named := empty_notMem_exports
  exported _ hs hparent hname := isExported_of_mem_exports hs hparent hname
  nodeCount_eq := by
    rw [Syntax.Tree.length_preorder]
    exact congrArg Prod.fst (Site.mk root []).countNodes_eq

end SymbolSet

namespace Support

theorem exists_rule (language : Language) : ∃ rule, (builtin language).rule = some rule := by
  cases language <;> exact ⟨_, rfl⟩

/-- For every language, what is read off a tree over a text is well formed. -/
theorem symbols_are_wellFormed (language : Language) (source : String) (root : Tree)
    (hroot : root.Fits source.utf8ByteSize) :
    ((builtin language).symbols source root).WellFormed language.separator source root := by
  obtain ⟨rule, hrule⟩ := exists_rule language
  have hfindings := sound_of_gather hrule hroot
  unfold symbols
  rw [hrule]
  exact SymbolSet.wellFormed_collect hfindings

/-- The tree of a member that is defined outside its class. -/
def outside : Tree :=
  let inner (kind field : String) (start stop : Nat) (children : List Tree) : Tree :=
    .node ⟨kind, field, start, stop, true, false, false, false⟩ children
  inner "translation_unit" "" 0 14
    [inner "function_definition" "" 0 14
      [inner "primitive_type" "type" 0 4 [],
       inner "function_declarator" "declarator" 5 11
        [inner "qualified_identifier" "declarator" 5 9
          [inner "namespace_identifier" "scope" 5 6 [], inner "identifier" "name" 8 9 []],
         inner "parameter_list" "parameters" 9 11 []],
       inner "compound_statement" "body" 12 14 []]]

theorem fits_outside : outside.Fits 14 := by
  decide

/-- The member is named after the class that its name spells. -/
theorem symbols_are_wellFormed_outside :
    outside.Fits "void A::f() \x7b\x7d".utf8ByteSize ∧
      ((builtin .cpp).symbols "void A::f() \x7b\x7d" outside).symbols.map (fun s => (s.name, s.parent, s.fqn)) =
        [("f", some "A", "A::f")] ∧
      ((builtin .cpp).symbols "void A::f() \x7b\x7d" outside).WellFormed .doubleColon "void A::f() \x7b\x7d" outside :=
  ⟨fits_outside, by decide +kernel, symbols_are_wellFormed .cpp _ outside fits_outside⟩

end Support

end CodeAtlas
