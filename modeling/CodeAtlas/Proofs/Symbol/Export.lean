/-
  Which symbols of a module are marked as exported.

  The walk collects exported names and marks the symbols outside all scopes that bear one.  It takes every name that an
  export statement writes last: that of a declaration or default value, the alias of a specifier where there is one, and
  also the names that another module exports (`EcmaScript.Published`).  The local bindings that a module exports are those
  of default values, and those that specifiers name in statements without a module (`EcmaScript.ExportsLocal`).  So the mark
  of a declaration at module level follows its binding exactly when the declaration is in an export statement or both agree
  on its name (`EcmaScript.exported_iff_published`).
-/
import CodeAtlas.Proofs.Dependency
import CodeAtlas.Proofs.Symbol.WellFormed
import CodeAtlas.Proofs.Syntax.Visits

namespace CodeAtlas

open Syntax (Tree Site Visit)

/-- What repeats the last element kept before it has that in its place. -/
theorem exists_same_of_mem_dropRepeats {α : Type} (same : α → α → Bool) (hsame : ∀ a, same a a = true) {a : α} {l : List α}
    (last : Option α) (h : a ∈ l) : ∃ b, (b ∈ dropRepeats same last l ∨ last = some b) ∧ same a b = true := by
  induction l generalizing last with
  | nil => cases h
  | cons c l ih =>
    have hkeep (h : a ∈ c :: l) : ∃ b, b ∈ c :: dropRepeats same (some c) l ∧ same a b = true := by
      rcases List.mem_cons.mp h with rfl | h
      · exact ⟨a, List.mem_cons_self, hsame a⟩
      · obtain ⟨b, hb | hb, hab⟩ := ih (some c) h
        · exact ⟨b, List.mem_cons_of_mem _ hb, hab⟩
        · exact ⟨c, List.mem_cons_self, Option.some.inj hb ▸ hab⟩
    cases last with
    | none =>
      obtain ⟨b, hb, hab⟩ := hkeep h
      exact ⟨b, Or.inl hb, hab⟩
    | some last =>
      unfold dropRepeats
      split
      · rename_i hdrop
        rcases List.mem_cons.mp h with rfl | h
        · exact ⟨last, Or.inr rfl, hdrop⟩
        · exact ih (some last) h
      · obtain ⟨b, hb, hab⟩ := hkeep h
        exact ⟨b, Or.inl hb, hab⟩

namespace SymbolSet

variable {language : Language} {root : Tree} {findings : List Finding} {s : Symbol} {name : String}

theorem mem_exports_iff (hname : name ≠ "") :
    name ∈ (collect language root findings).exports ↔ .exported name ∈ findings := by
  unfold collect
  rw [mem_firstOccurrences, List.mem_filterMap]
  constructor
  · rintro ⟨f, hf, hfound⟩
    split at hfound
    · split at hfound
      · cases hfound
      · exact Option.some.inj hfound ▸ hf
    · cases hfound
  · exact fun h => ⟨.exported name, h, by simp [hname]⟩

/-- Every symbol that was found has one of its kind with the name in the same place. -/
theorem exists_symbol_of_mem_findings (language : Language) (root : Tree) {d : Symbol} (h : .symbol d ∈ findings) :
    ∃ s ∈ (collect language root findings).symbols, s.nameByteStart = d.nameByteStart ∧ s.kind = d.kind := by
  unfold collect
  dsimp only
  generalize hsymbols : (List.filterMap _ findings : List Symbol) = symbols
  have hfound : d ∈ symbols.mergeSort before := by
    rw [← hsymbols]
    exact List.mem_mergeSort.mpr (List.mem_filterMap.mpr ⟨_, h, rfl⟩)
  obtain ⟨b, hb | hb, hsame⟩ := exists_same_of_mem_dropRepeats
    (fun a b : Symbol => a.nameByteStart == b.nameByteStart && a.kind == b.kind) (fun _ => by simp) none hfound
  · rw [Bool.and_eq_true, beq_iff_eq, beq_iff_eq] at hsame
    refine ⟨_, List.mem_map.mpr ⟨b, hb, rfl⟩, ?_⟩
    split <;> exact ⟨hsame.1.symm, hsame.2.symm⟩
  · cases hb

end SymbolSet

namespace Symbol

/-- A symbol just read off a node, outside all scopes and without marks. -/
structure Fresh (source : String) (nameNode : Tree) (kind : SymbolKind) (s : Symbol) : Prop where
  kind_eq : s.kind = kind
  name_eq : s.name = Text.trim (nameNode.text source)
  name_ne : s.name ≠ ""
  parent : s.parent = none
  isExported : s.isExported = false

variable {source : String} {node nameNode : Tree} {kind : SymbolKind} {s : Symbol}

theorem fresh_of_at? (h : at? source node nameNode kind = some s) : s.Fresh source nameNode kind := by
  unfold at? at h
  dsimp only at h
  split at h
  · cases h
  · rename_i hnonempty
    rw [← Option.some.inj h]
    exact ⟨rfl, rfl, by simpa using hnonempty, rfl, rfl⟩

theorem exists_at? (node : Tree) (kind : SymbolKind) (h : Text.trim (nameNode.text source) ≠ "") :
    ∃ s, at? source node nameNode kind = some s := by
  unfold at?
  exact ⟨_, if_neg (by simpa using h)⟩

end Symbol

namespace EcmaScript

variable {source : String} {root : Tree} {site : Site} {d s : Symbol} {name : String}

/-! ## What export statements say -/

/-- Bindings are declared with `const`, `let` or `var`. -/
def bindingKinds : List String :=
  ["lexical_declaration", "variable_declaration"]

/-- A name that the walk takes for an exported one. -/
inductive Published (source : String) (root : Tree) : String → Prop where
  | declaration {site : Site} {declaration nameNode : Tree} (under : (Site.mk root []).Under site)
      (isExport : site.tree.kind = "export_statement") (declared : site.tree.child? "declaration" = some declaration)
      (named : declaration.child? "name" = some nameNode) : Published source root (nameNode.text source)
  | default {site : Site} {value : Tree} (under : (Site.mk root []).Under site)
      (isExport : site.tree.kind = "export_statement") (valued : site.tree.child? "value" = some value)
      (identifier : value.kind = "identifier") : Published source root (value.text source)
  /-- The alias of a specifier, or else its name, also when the binding is one of another module. -/
  | specifier {site : Site} {clause specifier nameNode : Tree} (under : (Site.mk root []).Under site)
      (isExport : site.tree.kind = "export_statement") (listed : site.tree.childOfKind? "export_clause" = some clause)
      (mem : specifier ∈ clause.children) (isSpecifier : specifier.kind = "export_specifier")
      (named : (specifier.child? "alias").or (specifier.child? "name") = some nameNode) :
      Published source root (nameNode.text source)
  /-- A binding of an exported declaration at module level. -/
  | binding {site : Site} {declarator nameNode : Tree} (under : (Site.mk root []).Under site)
      (isBinding : site.tree.kind ∈ bindingKinds) (level : isModuleLevel site = true)
      (exported : isExportedDeclaration site = true) (mem : declarator ∈ site.tree.children)
      (isDeclarator : declarator.kind = "variable_declarator") (named : declarator.child? "name" = some nameNode)
      (identifier : nameNode.kind = "identifier") : Published source root (Text.trim (nameNode.text source))

/-- The name of a local binding that an export statement exports without declaring it. -/
inductive ExportsLocal (source : String) (root : Tree) : String → Prop where
  | default {site : Site} {value : Tree} (under : (Site.mk root []).Under site)
      (isExport : site.tree.kind = "export_statement") (valued : site.tree.child? "value" = some value)
      (identifier : value.kind = "identifier") : ExportsLocal source root (value.text source)
  /-- The name of a specifier, whatever its alias, when the statement names no other module. -/
  | specifier {site : Site} {clause specifier nameNode : Tree} (under : (Site.mk root []).Under site)
      (isExport : site.tree.kind = "export_statement") (own : site.tree.child? "source" = none)
      (listed : site.tree.childOfKind? "export_clause" = some clause)
      (mem : specifier ∈ clause.children) (isSpecifier : specifier.kind = "export_specifier")
      (named : specifier.child? "name" = some nameNode) : ExportsLocal source root (nameNode.text source)

/-! ## What the walk finds -/

/-- Whatever is found at a node comes from one of its readings. -/
theorem cases_of_mem_rule {f : Finding} (h : f ∈ (rule source site).1) :
    (∃ kind s, named? source site kind = some s ∧ f = .symbol s) ∨
    (∃ s, method? source site = some s ∧ f = .symbol s) ∨
    (∃ s, typed? source site = some s ∧ f = .symbol s) ∨
    (site.tree.kind ∈ bindingKinds ∧ isModuleLevel site = true ∧ f ∈ bindings source site) ∨
    (site.tree.kind = "export_statement" ∧ f ∈ exportStatement source site) ∨
    ∃ i, f = .imported i := by
  have hsymbol {found : Option Symbol} (h : f ∈ (found.map Finding.symbol).toList) :
      ∃ s, found = some s ∧ f = .symbol s := by
    obtain ⟨s, hs, hf⟩ := Option.map_eq_some_iff.mp (Option.mem_toList.mp h)
    exact ⟨s, hs, hf.symm⟩
  have hbinding (hkind : site.tree.kind ∈ bindingKinds) (h : f ∈ if isModuleLevel site then bindings source site else []) :
      site.tree.kind ∈ bindingKinds ∧ isModuleLevel site = true ∧ f ∈ bindings source site := by
    split at h
    · rename_i hlevel
      exact ⟨hkind, hlevel, h⟩
    · cases h
  unfold rule at h
  dsimp only at h
  split at h
  · exact Or.inl ⟨_, hsymbol h⟩
  · exact Or.inl ⟨_, hsymbol h⟩
  · exact Or.inl ⟨_, hsymbol h⟩
  · exact Or.inl ⟨_, hsymbol h⟩
  · exact Or.inr (Or.inl (hsymbol h))
  · rename_i hkind
    exact Or.inr (Or.inr (Or.inr (Or.inl (hbinding (by rw [hkind]; decide) h))))
  · rename_i hkind
    exact Or.inr (Or.inr (Or.inr (Or.inl (hbinding (by rw [hkind]; decide) h))))
  · unfold importStatement at h
    split at h
    · cases h
    · exact Or.inr (Or.inr (Or.inr (Or.inr (Or.inr ⟨_, List.mem_singleton.mp h⟩))))
  · rename_i hkind
    exact Or.inr (Or.inr (Or.inr (Or.inr (Or.inl ⟨hkind, h⟩))))
  · obtain ⟨i, -, hf⟩ := Option.map_eq_some_iff.mp (Option.mem_toList.mp h)
    exact Or.inr (Or.inr (Or.inr (Or.inr (Or.inr ⟨i, hf.symm⟩))))
  · exact Or.inr (Or.inr (Or.inl (hsymbol h)))

theorem exported_mem_exportStatement : .exported name ∈ exportStatement source site ↔
    (∃ declaration nameNode, site.tree.child? "declaration" = some declaration ∧
      declaration.child? "name" = some nameNode ∧ nameNode.text source = name) ∨
    (∃ value, site.tree.child? "value" = some value ∧ value.kind = "identifier" ∧ value.text source = name) ∨
    (∃ clause specifier nameNode, site.tree.childOfKind? "export_clause" = some clause ∧ specifier ∈ clause.children ∧
      specifier.kind = "export_specifier" ∧ (specifier.child? "alias").or (specifier.child? "name") = some nameNode ∧
      nameNode.text source = name) := by
  have hreexport (module : Option Tree) : Finding.exported name ∉ (module.map fun module =>
      Finding.imported (Import.ofNode source site.tree (Text.unquote (module.text source)) .static)).toList := by
    intro h
    obtain ⟨_, -, h⟩ := Option.map_eq_some_iff.mp (Option.mem_toList.mp h)
    cases h
  unfold exportStatement
  dsimp only
  rw [List.mem_append, or_iff_left (hreexport _), List.mem_map]
  simp only [List.mem_append, or_and_right, exists_or, Option.mem_toList, Finding.exported.injEq, or_assoc]
  refine or_congr ?_ (or_congr ?_ ?_)
  · constructor
    · rintro ⟨nameNode, hname, rfl⟩
      obtain ⟨declaration, hdeclaration, hname⟩ := Option.bind_eq_some_iff.mp hname
      exact ⟨declaration, nameNode, hdeclaration, hname, rfl⟩
    · rintro ⟨declaration, nameNode, hdeclaration, hname, rfl⟩
      exact ⟨nameNode, Option.bind_eq_some_iff.mpr ⟨declaration, hdeclaration, hname⟩, rfl⟩
  · refine exists_congr fun value => ?_
    rw [Option.filter_eq_some_iff, beq_iff_eq, and_assoc]
  · constructor
    · rintro ⟨nameNode, hname, rfl⟩
      split at hname
      · rename_i clause hclause
        obtain ⟨specifier, hmem, hname⟩ := List.mem_filterMap.mp hname
        split at hname
        · rename_i hkind
          exact ⟨clause, specifier, nameNode, hclause, hmem, beq_iff_eq.mp hkind, hname, rfl⟩
        · cases hname
      · cases hname
    · rintro ⟨clause, specifier, nameNode, hclause, hmem, hkind, hname, rfl⟩
      refine ⟨nameNode, ?_, rfl⟩
      rw [hclause]
      exact List.mem_filterMap.mpr ⟨specifier, hmem, by rw [if_pos (beq_iff_eq.mpr hkind)]; exact hname⟩

theorem symbol_notMem_exportStatement : .symbol d ∉ exportStatement source site := by
  intro h
  rcases List.mem_append.mp h with h | h
  · obtain ⟨_, -, h⟩ := List.mem_map.mp h
    cases h
  · obtain ⟨_, -, h⟩ := Option.map_eq_some_iff.mp (Option.mem_toList.mp h)
    cases h

/-- A declarator binds one name when that is an identifier. -/
theorem exists_binding?_iff {isConst exported : Bool} {declarator : Tree} (hname : name ≠ "") :
    (∃ s, binding? source isConst exported declarator = some s ∧ s.name = name) ↔
      declarator.kind = "variable_declarator" ∧ ∃ nameNode, declarator.child? "name" = some nameNode ∧
        nameNode.kind = "identifier" ∧ Text.trim (nameNode.text source) = name := by
  unfold binding?
  dsimp only
  constructor
  · rintro ⟨s, hs, rfl⟩
    split at hs
    · cases hs
    · rename_i hkind
      obtain ⟨nameNode, hnameNode, hs⟩ := Option.bind_eq_some_iff.mp hs
      split at hs
      · cases hs
      · rename_i hidentifier
        obtain ⟨symbol, hsymbol, hs⟩ := Option.bind_eq_some_iff.mp hs
        refine ⟨by simpa using hkind, nameNode, hnameNode, by simpa using hidentifier, ?_⟩
        rw [← Option.some.inj hs]
        exact (Symbol.fresh_of_at? hsymbol).name_eq.symm
  · rintro ⟨hkind, nameNode, hnameNode, hidentifier, rfl⟩
    obtain ⟨symbol, hsymbol⟩ := Symbol.exists_at? declarator
      (if (declarator.child? "value").any fun v => functionValues.contains v.kind then .function
        else if isConst then .constantDef else .variableDef) hname
    refine ⟨{ symbol with
      isAsync := (declarator.child? "value").any fun v => v.hasChildOfKind "async"
      isExported := exported
      isPublic := true }, ?_, (Symbol.fresh_of_at? hsymbol).name_eq⟩
    rw [if_neg (by simpa using hkind)]
    refine Option.bind_eq_some_iff.mpr ⟨nameNode, hnameNode, ?_⟩
    rw [if_neg (by simpa using hidentifier)]
    exact Option.bind_eq_some_iff.mpr ⟨symbol, hsymbol, rfl⟩

theorem exported_mem_bindings (hname : name ≠ "") : .exported name ∈ bindings source site ↔
    isExportedDeclaration site = true ∧ ∃ declarator ∈ site.tree.children, declarator.kind = "variable_declarator" ∧
      ∃ nameNode, declarator.child? "name" = some nameNode ∧ nameNode.kind = "identifier" ∧
        Text.trim (nameNode.text source) = name := by
  unfold bindings
  rw [List.mem_flatMap]
  constructor
  · rintro ⟨declarator, hmem, h⟩
    split at h
    · rename_i s hs
      have hexported : isExportedDeclaration site = true ∧ s.name = name := by
        rcases List.mem_append.mp h with h | h
        · split at h
          · rename_i hexported
            exact ⟨hexported, (Finding.exported.inj (List.mem_singleton.mp h)).symm⟩
          · cases h
        · cases List.mem_singleton.mp h
      exact ⟨hexported.1, declarator, hmem, (exists_binding?_iff hname).mp ⟨s, hs, hexported.2⟩⟩
    · cases h
  · rintro ⟨hexported, declarator, hmem, hbinds⟩
    have hbinding : ∃ s, binding? source (site.tree.children.head?.any fun first => first.text source == "const")
        (isExportedDeclaration site) declarator = some s ∧ s.name = name := (exists_binding?_iff hname).mpr hbinds
    obtain ⟨s, hs, rfl⟩ := hbinding
    refine ⟨declarator, hmem, ?_⟩
    rw [hs]
    dsimp only
    rw [if_pos hexported]
    exact List.mem_cons_self

theorem descends (site : Site) : (rule source site).2 = .descend := rfl

theorem rule_of_isExport (h : site.tree.kind = "export_statement") :
    (rule source site).1 = exportStatement source site := by
  unfold rule
  simp only [h]

theorem rule_of_isBinding (h : site.tree.kind ∈ bindingKinds) :
    (rule source site).1 = if isModuleLevel site then bindings source site else [] := by
  unfold rule
  rcases List.mem_cons.mp h with h | h
  · simp only [h]
  · simp only [List.mem_singleton.mp h]

/-- The exported names that the walk through a module finds. -/
theorem exported_mem_gather_iff (hname : name ≠ "") :
    .exported name ∈ (Site.mk root []).gather (rule source) ↔ Published source root name := by
  rw [Site.mem_gather_iff descends]
  constructor
  · rintro ⟨site, hunder, h⟩
    rcases cases_of_mem_rule h with ⟨_, _, -, h⟩ | ⟨_, -, h⟩ | ⟨_, -, h⟩ | ⟨hbinding, hlevel, h⟩ | ⟨hexport, h⟩ | ⟨_, h⟩
    · cases h
    · cases h
    · cases h
    · obtain ⟨hexported, declarator, hmem, hdeclarator, nameNode, hnamed, hidentifier, rfl⟩ :=
        (exported_mem_bindings hname).mp h
      exact .binding hunder hbinding hlevel hexported hmem hdeclarator hnamed hidentifier
    · rcases exported_mem_exportStatement.mp h with ⟨declaration, nameNode, hdeclaration, hnamed, rfl⟩ |
        ⟨value, hvalue, hidentifier, rfl⟩ | ⟨clause, specifier, nameNode, hclause, hmem, hspecifier, hnamed, rfl⟩
      · exact .declaration hunder hexport hdeclaration hnamed
      · exact .default hunder hexport hvalue hidentifier
      · exact .specifier hunder hexport hclause hmem hspecifier hnamed
    · cases h
  · intro h
    cases h with
    | @declaration site declaration nameNode hunder hexport hdeclaration hnamed =>
      refine ⟨site, hunder, ?_⟩
      rw [rule_of_isExport hexport]
      exact exported_mem_exportStatement.mpr (Or.inl ⟨_, _, hdeclaration, hnamed, rfl⟩)
    | @default site value hunder hexport hvalue hidentifier =>
      refine ⟨site, hunder, ?_⟩
      rw [rule_of_isExport hexport]
      exact exported_mem_exportStatement.mpr (Or.inr (Or.inl ⟨_, hvalue, hidentifier, rfl⟩))
    | @specifier site clause specifier nameNode hunder hexport hclause hmem hspecifier hnamed =>
      refine ⟨site, hunder, ?_⟩
      rw [rule_of_isExport hexport]
      exact exported_mem_exportStatement.mpr (Or.inr (Or.inr ⟨_, _, _, hclause, hmem, hspecifier, hnamed, rfl⟩))
    | @binding site declarator nameNode hunder hbinding hlevel hexported hmem hdeclarator hnamed hidentifier =>
      refine ⟨site, hunder, ?_⟩
      rw [rule_of_isBinding hbinding, if_pos hlevel]
      exact (exported_mem_bindings hname).mpr
        ⟨hexported, declarator, hmem, hdeclarator, nameNode, hnamed, hidentifier, rfl⟩

/-! ## Declarations at module level -/

/-- A node at the top of a module, by itself or in an export statement. -/
inductive AtTop (root : Tree) : Site → Prop where
  | bare {t : Tree} (mem : t ∈ root.children) : AtTop root ⟨t, [root]⟩
  | exported {statement t : Tree} (outer : statement ∈ root.children) (isExport : statement.kind = "export_statement")
      (mem : t ∈ statement.children) : AtTop root ⟨t, [statement, root]⟩

/-- A function, class, binding, interface, type alias or enumeration that is declared at a node. -/
def Declares (source : String) (site : Site) (d : Symbol) : Prop :=
  .symbol d ∈ (rule source site).1 ∧ d.kind ≠ .method

theorem AtTop.under (h : AtTop root site) : (Site.mk root []).Under site := by
  cases h with
  | bare mem => exact .child .here mem
  | exported outer _ mem => exact .child (.child .here outer) mem

/-- Outside of classes and interfaces there is no scope. -/
theorem innermost?_scopeOf (h : site.inside scopes = false) : (scopeOf source site).innermost? = none := by
  have hnone : ∀ a ∈ site.ancestors,
      (if scopes.contains a.kind then (a.child? "name").map (·.text source) else none) = none := by
    intro a ha
    rw [if_neg (by simpa using List.any_eq_false.mp h a ha)]
  unfold scopeOf Scope.around Scope.innermost?
  rw [List.filterMap_eq_nil_iff.mpr hnone]
  rfl

theorem AtTop.outside (hroot : root.kind = "program") (h : AtTop root site) : site.inside scopes = false := by
  cases h with
  | bare mem =>
    unfold Site.inside
    simp only [List.any_cons, List.any_nil, hroot]
    decide
  | exported outer isExport mem =>
    unfold Site.inside
    simp only [List.any_cons, List.any_nil, hroot, isExport]
    decide

/-- What is declared at the top of a module stands outside all scopes and is marked when it is in an export statement. -/
structure Bare (site : Site) (d : Symbol) : Prop where
  name_ne : d.name ≠ ""
  parent : d.parent = none
  isExported : d.isExported = isExportedDeclaration site

theorem AtTop.bare_of_named? (hroot : root.kind = "program") (h : AtTop root site) {kind : SymbolKind}
    (hd : named? source site kind = some d) : Bare site d := by
  obtain ⟨nameNode, hname, hd⟩ := Option.bind_eq_some_iff.mp hd
  obtain ⟨symbol, hat, hd⟩ := Option.bind_eq_some_iff.mp hd
  rw [← Option.some.inj hd]
  exact ⟨(Symbol.fresh_of_at? hat).name_ne, innermost?_scopeOf (h.outside hroot), rfl⟩

theorem kind_of_method? (hd : method? source site = some d) : d.kind = .method := by
  obtain ⟨nameNode, hname, hd⟩ := Option.bind_eq_some_iff.mp hd
  obtain ⟨symbol, hat, hd⟩ := Option.bind_eq_some_iff.mp hd
  rw [← Option.some.inj hd]
  exact (Symbol.fresh_of_at? hat).kind_eq

theorem bare_of_typed? (hd : typed? source site = some d) : Bare site d := by
  unfold typed? at hd
  split at hd
  all_goals
    obtain ⟨kind, -, hd⟩ := Option.bind_eq_some_iff.mp hd
    obtain ⟨nameNode, hname, hd⟩ := Option.bind_eq_some_iff.mp hd
    obtain ⟨symbol, hat, hd⟩ := Option.bind_eq_some_iff.mp hd
    have hfresh := Symbol.fresh_of_at? hat
    rw [← Option.some.inj hd]
    exact ⟨hfresh.name_ne, hfresh.parent, rfl⟩

theorem bare_of_mem_bindings (hd : .symbol d ∈ bindings source site) : Bare site d := by
  obtain ⟨declarator, -, hd⟩ := List.mem_flatMap.mp hd
  split at hd
  · rename_i s hs
    have hsd : d = s := by
      rcases List.mem_append.mp hd with hd | hd
      · split at hd
        · cases List.mem_singleton.mp hd
        · cases hd
      · exact Finding.symbol.inj (List.mem_singleton.mp hd)
    rw [hsd]
    unfold binding? at hs
    dsimp only at hs
    split at hs
    · cases hs
    · obtain ⟨nameNode, hnameNode, hs⟩ := Option.bind_eq_some_iff.mp hs
      split at hs
      · cases hs
      · obtain ⟨symbol, hat, hs⟩ := Option.bind_eq_some_iff.mp hs
        have hfresh := Symbol.fresh_of_at? hat
        rw [← Option.some.inj hs]
        exact ⟨hfresh.name_ne, hfresh.parent, rfl⟩
  · cases hd

theorem AtTop.bare_of_declares (hroot : root.kind = "program") (h : AtTop root site) (hd : Declares source site d) :
    Bare site d := by
  obtain ⟨hd, hkind⟩ := hd
  rcases cases_of_mem_rule hd with ⟨_, s, hs, hd⟩ | ⟨s, hs, hd⟩ | ⟨s, hs, hd⟩ | ⟨-, -, hd⟩ | ⟨-, hd⟩ | ⟨_, hd⟩
  · exact h.bare_of_named? hroot (Finding.symbol.inj hd ▸ hs)
  · exact absurd (kind_of_method? (Finding.symbol.inj hd ▸ hs)) hkind
  · exact bare_of_typed? (Finding.symbol.inj hd ▸ hs)
  · exact bare_of_mem_bindings hd
  · exact absurd hd symbol_notMem_exportStatement
  · cases hd

/-! ## The marks of a module -/

theorem symbols_eq {language : Language} (hlanguage : language.isEcmaScript = true) (source : String) (root : Tree) :
    (Support.builtin language).symbols source root =
      .collect language root ((Site.mk root []).gather (rule source)) := by
  cases language <;> first | rfl | cases hlanguage

/-- No two symbols of one kind have their names in one place. -/
def NamesApart (source : String) (root : Tree) : Prop :=
  ∀ a b : Symbol, .symbol a ∈ (Site.mk root []).gather (rule source) → .symbol b ∈ (Site.mk root []).gather (rule source) →
    a.nameByteStart = b.nameByteStart → a.kind = b.kind → a = b

/-- In a module whose names stand apart, every declaration at the top has just one symbol.  It is marked exactly when the
declaration is in an export statement or its name is published.  So the mark says whether the binding is exported exactly
when the declaration is in an export statement, or its name is published just if the binding is exported. -/
theorem exported_iff_published {language : Language} (hlanguage : language.isEcmaScript = true) {source : String}
    {root : Tree} (hroot : root.kind = "program") (hapart : NamesApart source root) {site : Site} {d : Symbol}
    (htop : AtTop root site) (hd : Declares source site d) :
    ∃ s ∈ ((Support.builtin language).symbols source root).symbols,
      s = { d with isExported := s.isExported } ∧
      (∀ t ∈ ((Support.builtin language).symbols source root).symbols,
        t.nameByteStart = d.nameByteStart → t.kind = d.kind → t = s) ∧
      (s.isExported = true ↔ isExportedDeclaration site = true ∨ Published source root d.name) ∧
      ((s.isExported = true ↔ isExportedDeclaration site = true ∨ ExportsLocal source root d.name) ↔
        isExportedDeclaration site = true ∨ (Published source root d.name ↔ ExportsLocal source root d.name)) := by
  have hfound : .symbol d ∈ (Site.mk root []).gather (rule source) :=
    (Site.mem_gather_iff descends).mpr ⟨site, htop.under, hd.1⟩
  have hbare := htop.bare_of_declares hroot hd
  rw [symbols_eq hlanguage]
  -- every symbol in the place of the declaration is that of the declaration, with the same mark
  have hmark (t : Symbol) (ht : t ∈ (SymbolSet.collect language root ((Site.mk root []).gather (rule source))).symbols)
      (hplace : t.nameByteStart = d.nameByteStart) (hkind : t.kind = d.kind) :
      t = { d with isExported := t.isExported } ∧
        (t.isExported = true ↔ isExportedDeclaration site = true ∨ Published source root d.name) := by
    obtain ⟨d', hd', htd, hmark⟩ := SymbolSet.mark_of_mem_collect ht
    have hdd : d' = d := by
      refine hapart d' d hd' hfound ?_ ?_
      · rw [← hplace, htd]
      · rw [← hkind, htd]
    rw [hdd] at htd hmark
    refine ⟨htd, ?_⟩
    rw [hmark, hbare.isExported, and_iff_right hbare.parent, SymbolSet.mem_exports_iff hbare.name_ne,
      exported_mem_gather_iff hbare.name_ne]
  obtain ⟨s, hs, hplace, hkind⟩ := SymbolSet.exists_symbol_of_mem_findings language root hfound
  obtain ⟨hsd, hexported⟩ := hmark s hs hplace hkind
  refine ⟨s, hs, hsd, fun t ht htplace htkind => ?_, hexported, ?_⟩
  · obtain ⟨htd, htexported⟩ := hmark t ht htplace htkind
    have hsame : t.isExported = s.isExported := Bool.eq_iff_iff.mpr (htexported.trans hexported.symm)
    rw [htd, hsd, hsame]
  · rw [hexported]
    by_cases h : isExportedDeclaration site = true
    · simp [h]
    · simp [h]

/-- A module that exports a function under another name only. -/
def aliasText : String :=
  "function b() \x7b\x7d\nexport \x7b b as beta \x7d;\n"

/-- The declaration of the function. -/
def aliasFunction : Tree :=
  .plain "function_declaration" "" 0 15
    [.plain "function" "" 0 8 [], .plain "identifier" "name" 9 10 [], .plain "formal_parameters" "parameters" 10 12 [],
     .plain "statement_block" "body" 13 15 []]

/-- The export of the function under another name. -/
def aliasStatement : Tree :=
  .plain "export_statement" "" 16 37
    [.plain "export_clause" "" 23 36
      [.plain "export_specifier" "" 25 34
        [.plain "identifier" "name" 25 26 [], .plain "identifier" "alias" 30 34 []]]]

/-- The tree of the module. -/
def aliasTree : Tree :=
  .plain "program" "" 0 38 [aliasFunction, aliasStatement]

/-- The function as it is declared. -/
def aliasSymbol : Symbol :=
  { name := "b", kind := .function, fqn := "b", parent := none, signature := "function b()", byteStart := 0, byteEnd := 15
    nameByteStart := 9, startLine := 1, startCol := 0, endLine := 1, endCol := 15, isAsync := false, isPublic := true
    isExported := false }

theorem gather_aliasTree :
    (Site.mk aliasTree []).gather (rule aliasText) = [.symbol aliasSymbol, .exported "beta"] := by
  decide +kernel

theorem namesApart_aliasTree : NamesApart aliasText aliasTree := by
  intro a b ha hb _ _
  rw [gather_aliasTree] at ha hb
  simp only [List.mem_cons, Finding.symbol.injEq, List.not_mem_nil, reduceCtorEq, or_false] at ha hb
  rw [ha, hb]

/-- The binding of the function is exported. -/
theorem exportsLocal_aliasTree : ExportsLocal aliasText aliasTree "b" := by
  have hunder : (Site.mk aliasTree []).Under ⟨aliasStatement, [aliasTree]⟩ :=
    .child .here (List.mem_cons_of_mem _ List.mem_cons_self)
  have htext : (Tree.plain "identifier" "name" 25 26 []).text aliasText = "b" := by decide +kernel
  exact htext ▸ .specifier hunder rfl rfl rfl List.mem_cons_self rfl rfl

/-- The function is not marked, since only its other name is published. -/
theorem exported_iff_published_alias :
    ExportsLocal aliasText aliasTree "b" ∧
      ∃ s ∈ ((Support.builtin .javascript).symbols aliasText aliasTree).symbols, s.name = "b" ∧ s.isExported = false := by
  have hd : Declares aliasText ⟨aliasFunction, [aliasTree]⟩ aliasSymbol := ⟨by decide +kernel, by decide⟩
  have hunpublished : ¬ Published aliasText aliasTree "b" := by
    rw [← exported_mem_gather_iff (by decide), gather_aliasTree]
    decide
  have hlanguage : Language.javascript.isEcmaScript = true := rfl
  obtain ⟨s, hs, hsd, -, hmark, -⟩ :=
    exported_iff_published hlanguage rfl namesApart_aliasTree (.bare List.mem_cons_self) hd
  refine ⟨exportsLocal_aliasTree, s, hs, by rw [hsd]; rfl, Bool.eq_false_iff.mpr fun hexported => ?_⟩
  rcases hmark.mp hexported with h | h
  · exact absurd h (by decide)
  · exact hunpublished h

end EcmaScript

end CodeAtlas
