/-
  Where symbols stand in their file.

  A symbol is `Placed` when its name begins in the range of its declaration, that range lies in the text, and its
  lines are the rows of that range.  Then its first line is a line of the text (`Placed.startLine_le_lines`).

  Every rule names a node by something below it, puts the symbol in its scope and marks it (`Declared`), and imports
  take the lines of their nodes (`Import.Ordered`).  So all that is found at the nodes of a tree over a text is sound
  (`Support.sound_of_rule`), and all symbols are placed (`Support.placed_of_mem_symbols`).
-/
import CodeAtlas.Extraction
import CodeAtlas.Proofs.Symbol.Name
import CodeAtlas.Proofs.Syntax.Nested
import CodeAtlas.Proofs.Text.Lines

namespace CodeAtlas

open Syntax (Tree Site Visit)

namespace Symbol

/-- A symbol in its place in a text. -/
structure Placed (source : String) (s : Symbol) : Prop where
  start_le : s.byteStart ≤ s.nameByteStart
  name_lt : s.nameByteStart < s.byteEnd
  end_le : s.byteEnd ≤ source.utf8ByteSize
  startLine_eq : s.startLine = (Text.Position.of (Text.bytes source) s.byteStart).row + 1
  endLine_eq : s.endLine = (Text.Position.of (Text.bytes source) s.byteEnd).row + 1

variable {source : String} {s : Symbol} {node nameNode : Tree} {kind : SymbolKind}

namespace Placed

theorem startLine_pos (h : s.Placed source) : 0 < s.startLine := by
  rw [h.startLine_eq]
  exact Nat.succ_pos _

theorem startLine_le_endLine (h : s.Placed source) : s.startLine ≤ s.endLine := by
  rw [h.startLine_eq, h.endLine_eq]
  exact Nat.succ_le_succ (Text.row_mono _ (Nat.le_of_lt (Nat.lt_of_le_of_lt h.start_le h.name_lt)))

/-- A symbol starts in a line of the text. -/
theorem startLine_le_lines (h : s.Placed source) : s.startLine ≤ (Text.lines source).length := by
  rw [h.startLine_eq]
  exact Text.row_lt_length_lines (Nat.lt_of_lt_of_le (Nat.lt_of_le_of_lt h.start_le h.name_lt) h.end_le)

/-- Scope and marks are no part of the place. -/
theorem marked (h : s.Placed source) (fqn : String) (parent : Option String) (isAsync isPublic isExported : Bool) :
    Placed source { s with fqn, parent, isAsync, isPublic, isExported } :=
  ⟨h.start_le, h.name_lt, h.end_le, h.startLine_eq, h.endLine_eq⟩

end Placed

/-- A declaration whose name lies in its range is placed. -/
theorem placed_of_at? (hnode : node.Fits source.utf8ByteSize) (hname : nameNode.Within node.start node.stop)
    (h : at? source node nameNode kind = some s) : s.Placed source := by
  unfold at? at h
  dsimp only at h
  split at h
  · cases h
  · rename_i hnonempty
    have htext : Text.slice source nameNode.start nameNode.stop ≠ "" := by
      intro hempty
      unfold Tree.text at hnonempty
      rw [hempty] at hnonempty
      exact hnonempty rfl
    rw [← Option.some.inj h]
    exact ⟨hname.first_le, Nat.lt_of_lt_of_le (Text.lt_of_slice htext).1 hname.le_last, hnode.le_last, rfl, rfl⟩

/-- A symbol that is named and placed as its declaration. -/
structure Declared (separator : Separator) (source : String) (s : Symbol) : Prop where
  placed : s.Placed source
  named : s.Named separator

variable {separator : Separator}

namespace Declared

theorem within (h : s.Declared separator source) {scope : Scope} (hscope : scope.separator = separator) :
    (s.within scope).Declared separator source :=
  ⟨h.placed.marked .., h.named.within hscope⟩

theorem inFront (h : s.Declared separator source) (outer : String) :
    Declared separator source { s with fqn := outer ++ s.fqn } :=
  ⟨h.placed.marked .., h.named.inFront outer⟩

theorem marked (h : s.Declared separator source) (isAsync isPublic isExported : Bool) :
    Declared separator source { s with isAsync, isPublic, isExported } :=
  ⟨h.placed.marked .., h.named.marked isAsync isPublic isExported⟩

end Declared

/-- A declaration whose name lies in its range. -/
theorem declared_of_at? (hnode : node.Fits source.utf8ByteSize) (hname : nameNode.Within node.start node.stop)
    (h : at? source node nameNode kind = some s) : s.Declared separator source :=
  ⟨placed_of_at? hnode hname h, named_of_at? h⟩

/-- A declaration that is marked after its name was found in its range. -/
theorem declared_of_mark {mark : Symbol → Symbol}
    (hmark : ∀ s, s.Declared separator source → (mark s).Declared separator source)
    (hnode : node.Fits source.utf8ByteSize) (hname : nameNode.Within node.start node.stop)
    (h : ((at? source node nameNode kind).bind fun symbol => some (mark symbol)) = some s) :
    s.Declared separator source := by
  obtain ⟨symbol, hat, h⟩ := Option.bind_eq_some_iff.mp h
  rw [← Option.some.inj h]
  exact hmark symbol (declared_of_at? hnode hname hat)

/-- A declaration that is marked after its name was found in a child. -/
theorem declared_of_markChild {field : String} {kind : Tree → SymbolKind} {mark : Tree → Symbol → Symbol}
    (hmark : ∀ t s, s.Declared separator source → (mark t s).Declared separator source)
    (hnode : node.Fits source.utf8ByteSize)
    (h : ((node.child? field).bind fun nameNode => (at? source node nameNode (kind nameNode)).bind fun symbol =>
      some (mark nameNode symbol)) = some s) : s.Declared separator source := by
  obtain ⟨nameNode, hname, h⟩ := Option.bind_eq_some_iff.mp h
  exact declared_of_mark (hmark nameNode) hnode (hnode.nested.child (Tree.mem_of_child? hname)) h

end Symbol

variable {source : String} {site : Site} {s : Symbol} {separator : Separator}

/-! ## Imports -/

namespace Import

/-- The lines of an import are counted from 1 and in order. -/
structure Ordered (i : Import) : Prop where
  line_pos : 1 ≤ i.line
  line_le : i.line ≤ i.endLine

theorem ordered_of_lines {i : Import} {node : Tree} (hnode : node.Nested) (hline : i.line = node.startLine source)
    (hend : i.endLine = node.endLine source) : i.Ordered := by
  have hspan : node.start ≤ node.stop := by
    cases hnode with
    | node ordered _ _ => exact ordered
  rw [Tree.startLine] at hline
  rw [Tree.endLine] at hend
  have hrows := Text.row_mono (Text.bytes source) hspan
  exact ⟨by omega, by omega⟩

theorem Ordered.widen {i : Import} (h : i.Ordered) (source : String) (node : Tree) : (i.widen source node).Ordered := by
  refine ⟨Nat.le_min.mpr ⟨h.line_pos, Nat.succ_pos _⟩, ?_⟩
  exact Nat.le_trans (Nat.min_le_left ..) (Nat.le_trans h.line_le (Nat.le_max_left ..))

theorem Ordered.naming {i : Import} (h : i.Ordered) (names : List String) : Ordered { i with names } :=
  ⟨h.line_pos, h.line_le⟩

end Import

/-! ## Findings -/

namespace Finding

/-- What is found is declared as it should be. -/
def Sound (separator : Separator) (source : String) : Finding → Prop
  | symbol s => s.Declared separator source
  | imported i => i.Ordered
  | exported _ => True

theorem sound_of_symbol? {found : Option Symbol} (h : ∀ s, found = some s → s.Declared separator source) :
    ∀ f ∈ (found.map symbol).toList, f.Sound separator source := by
  intro f hf
  obtain ⟨s, hs, rfl⟩ := Option.map_eq_some_iff.mp (Option.mem_toList.mp hf)
  exact h s hs

theorem sound_of_import? {found : Option Import} (h : ∀ i, found = some i → i.Ordered) :
    ∀ f ∈ (found.map imported).toList, f.Sound separator source := by
  intro f hf
  obtain ⟨i, hi, rfl⟩ := Option.map_eq_some_iff.mp (Option.mem_toList.mp hf)
  exact h i hi

theorem sound_of_symbols {found : List Symbol} (h : ∀ s ∈ found, s.Declared separator source) :
    ∀ f ∈ found.map symbol, f.Sound separator source :=
  List.forall_mem_map.mpr h

theorem sound_of_imports {found : List Import} (h : ∀ i ∈ found, i.Ordered) :
    ∀ f ∈ found.map imported, f.Sound separator source :=
  List.forall_mem_map.mpr h

theorem sound_of_exports (names : List String) : ∀ f ∈ names.map exported, f.Sound separator source :=
  List.forall_mem_map.mpr fun _ _ => trivial

theorem sound_nil : ∀ f ∈ ([] : List Finding), f.Sound separator source :=
  fun _ hf => absurd hf List.not_mem_nil

/-- The export that goes along with a symbol is sound. -/
theorem sound_of_export (isExported : Bool) (name : String) :
    ∀ f ∈ (if isExported then [exported name] else []), f.Sound separator source := by
  split
  · exact List.forall_mem_singleton.mpr trivial
  · exact sound_nil

end Finding

open Finding

/-! ## ECMAScript -/

namespace EcmaScript

theorem declared_of_named? (hsite : site.tree.Fits source.utf8ByteSize) {kind : SymbolKind}
    (h : named? source site kind = some s) : s.Declared .dot source :=
  Symbol.declared_of_markChild (fun _ _ hs => (hs.within rfl).marked ..) hsite h

theorem declared_of_method? (hsite : site.tree.Fits source.utf8ByteSize) (h : method? source site = some s) :
    s.Declared .dot source :=
  Symbol.declared_of_markChild (fun _ _ hs => (hs.within rfl).marked ..) hsite h

theorem declared_of_typed? (hsite : site.tree.Fits source.utf8ByteSize) (h : typed? source site = some s) :
    s.Declared .dot source := by
  unfold typed? at h
  split at h
  all_goals
    obtain ⟨kind, -, h⟩ := Option.bind_eq_some_iff.mp h
    exact Symbol.declared_of_markChild (fun _ _ hs => hs.marked ..) hsite h

theorem declared_of_binding? {isConst exported : Bool} {declarator : Tree}
    (hdeclarator : declarator.Fits source.utf8ByteSize) (h : binding? source isConst exported declarator = some s) :
    s.Declared .dot source := by
  unfold binding? at h
  dsimp only at h
  split at h
  · cases h
  · obtain ⟨nameNode, hname, h⟩ := Option.bind_eq_some_iff.mp h
    split at h
    · cases h
    · exact Symbol.declared_of_mark (fun _ hs => hs.marked ..) hdeclarator
        (hdeclarator.nested.child (Tree.mem_of_child? hname)) h

theorem sound_of_bindings (hsite : site.tree.Fits source.utf8ByteSize) :
    ∀ f ∈ bindings source site, f.Sound .dot source := by
  intro f hf
  obtain ⟨declarator, hdeclarator, hf⟩ := List.mem_flatMap.mp hf
  split at hf
  · rename_i s hbinding
    have hs : (Finding.symbol s).Sound .dot source := declared_of_binding? (hsite.child hdeclarator) hbinding
    exact List.forall_mem_append.mpr ⟨sound_of_export _ s.name, List.forall_mem_singleton.mpr hs⟩ f hf
  · exact sound_nil f hf

theorem sound_of_topLevel (hsite : site.tree.Fits source.utf8ByteSize) :
    ∀ f ∈ (if isModuleLevel site then bindings source site else []), f.Sound .dot source := by
  split
  · exact sound_of_bindings hsite
  · exact sound_nil

theorem sound_of_importStatement (hsite : site.tree.Nested) : ∀ f ∈ importStatement source site, f.Sound .dot source := by
  unfold importStatement
  split
  · exact sound_nil
  · exact List.forall_mem_singleton.mpr (Import.ordered_of_lines hsite rfl rfl)

theorem sound_of_exportStatement (hsite : site.tree.Nested) : ∀ f ∈ exportStatement source site, f.Sound .dot source := by
  refine List.forall_mem_append.mpr ⟨List.forall_mem_map.mpr fun _ _ => trivial, fun f hf => ?_⟩
  obtain ⟨_, _, rfl⟩ := Option.map_eq_some_iff.mp (Option.mem_toList.mp hf)
  exact Import.ordered_of_lines hsite rfl rfl

theorem ordered_of_callImport? (hsite : site.tree.Nested) {i : Import} (h : callImport? source site = some i) :
    i.Ordered := by
  obtain ⟨function, -, h⟩ := Option.bind_eq_some_iff.mp h
  extract_lets importBy at h
  have hordered (kind : ImportKind) (h : importBy kind = some i) : i.Ordered := by
    obtain ⟨arguments, -, h⟩ := Option.bind_eq_some_iff.mp h
    obtain ⟨first, -, h⟩ := Option.bind_eq_some_iff.mp h
    dsimp only at h
    split at h
    · cases h
    · split at h
      · split at h
        · -- a required module takes the lines of the declarator that binds it as well
          split at h
          · rw [← Option.some.inj h]
            exact ((Import.ordered_of_lines hsite rfl rfl).widen source _).naming _
          · rw [← Option.some.inj h]
            exact (Import.ordered_of_lines hsite rfl rfl).widen source _
        · rw [← Option.some.inj h]
          exact Import.ordered_of_lines hsite rfl rfl
      · rw [← Option.some.inj h]
        exact Import.ordered_of_lines hsite rfl rfl
  split at h
  · exact hordered .dynamic h
  · split at h
    · exact hordered .require h
    · cases h
  · cases h

/-- All that is found at a node is sound. -/
theorem sound_of_rule (hsite : site.tree.Fits source.utf8ByteSize) : ∀ f ∈ (rule source site).1, f.Sound .dot source := by
  unfold rule
  dsimp only
  split
  · exact sound_of_symbol? fun s h => declared_of_named? hsite h
  · exact sound_of_symbol? fun s h => declared_of_named? hsite h
  · exact sound_of_symbol? fun s h => declared_of_named? hsite h
  · exact sound_of_symbol? fun s h => declared_of_named? hsite h
  · exact sound_of_symbol? fun s h => declared_of_method? hsite h
  · exact sound_of_topLevel hsite
  · exact sound_of_topLevel hsite
  · exact sound_of_importStatement hsite.nested
  · exact sound_of_exportStatement hsite.nested
  · exact sound_of_import? fun i h => ordered_of_callImport? hsite.nested h
  · exact sound_of_symbol? fun s h => declared_of_typed? hsite h

end EcmaScript

/-! ## C and C++ -/

namespace CFamily

mutual

theorem within_of_declaratorName? {first last : Nat} {t u : Tree} (ht : t.Within first last)
    (h : declaratorName? t = some u) : u.Within first last := by
  cases t with
  | node tag children =>
    unfold declaratorName? at h
    split at h
    · exact ht.child (List.mem_of_find?_eq_some h)
    · split at h
      · split at h
        · rename_i found hfound
          exact within_of_declaratorNameIn? (fun c hc => ht.child hc) (h ▸ hfound)
        · exact within_of_declaratorNameIn? (fun c hc => ht.child hc) (Option.join_eq_some_iff.mp h)
      · cases h

theorem within_of_declaratorNameIn? {first last : Nat} {chosen : Syntax.Tag → Bool} {forest : List Tree} {u : Tree}
    (hforest : ∀ c ∈ forest, c.Within first last) (h : declaratorNameIn? chosen forest = some (some u)) :
    u.Within first last := by
  cases forest with
  | nil => cases h
  | cons t rest =>
    unfold declaratorNameIn? at h
    split at h
    · exact within_of_declaratorName? (hforest t List.mem_cons_self) (Option.some.inj h)
    · exact within_of_declaratorNameIn? (fun c hc => hforest c (List.mem_cons_of_mem t hc)) h

end

mutual

theorem within_of_unqualify? {first last : Nat} {t : Tree} {found : List String × Tree} (ht : t.Within first last)
    (h : unqualify? source t = some found) : found.2.Within first last := by
  cases t with
  | node tag children =>
    unfold unqualify? at h
    split at h
    · obtain ⟨inner, hinner, heq⟩ := Option.map_eq_some_iff.mp h
      have hwithin := within_of_unqualifyIn? (fun c hc => ht.child hc) hinner
      rw [← heq]
      exact hwithin
    · rw [← Option.some.inj h]
      exact ht

theorem within_of_unqualifyIn? {first last : Nat} {forest : List Tree} {found : List String × Tree}
    (hforest : ∀ c ∈ forest, c.Within first last) (h : unqualifyIn? source forest = some found) :
    found.2.Within first last := by
  cases forest with
  | nil => cases h
  | cons t rest =>
    unfold unqualifyIn? at h
    split at h
    · exact within_of_unqualify? (hforest t List.mem_cons_self) h
    · exact within_of_unqualifyIn? (fun c hc => hforest c (List.mem_cons_of_mem t hc)) h

end

theorem declared_of_function? (hsite : site.tree.Fits source.utf8ByteSize) (h : function? source site = some s) :
    s.Declared .doubleColon source := by
  obtain ⟨nameNode, hname, h⟩ := Option.bind_eq_some_iff.mp h
  obtain ⟨⟨owners, leaf⟩, hleaf, h⟩ := Option.bind_eq_some_iff.mp h
  obtain ⟨declarator, hdeclarator, hname⟩ := Option.bind_eq_some_iff.mp hname
  have hwithin : nameNode.Within site.tree.start site.tree.stop :=
    within_of_declaratorName? (hsite.nested.child (Tree.mem_of_child? hdeclarator)) hname
  exact Symbol.declared_of_mark (fun _ hs => (hs.within (Scope.separator_foldl_push _ owners)).marked ..) hsite
    (within_of_unqualify? hwithin hleaf) h

theorem declared_of_record? (hsite : site.tree.Fits source.utf8ByteSize) (h : record? source site = some s) :
    s.Declared .doubleColon source := by
  obtain ⟨_, -, h⟩ := Option.bind_eq_some_iff.mp h
  exact Symbol.declared_of_markChild (fun _ _ hs => (hs.within rfl).marked ..) hsite h

theorem declared_of_typeNames (hsite : site.tree.Fits source.utf8ByteSize) :
    ∀ s ∈ typeNames source site, s.Declared .doubleColon source := by
  intro s h
  obtain ⟨declarator, hdeclarator, h⟩ := List.mem_filterMap.mp h
  split at h
  · cases h
  · exact Symbol.declared_of_mark (fun _ hs => (hs.within rfl).marked ..) hsite
      (hsite.nested.child (Tree.mem_of_childrenIn hdeclarator)) h

theorem declared_of_fileVariables (hsite : site.tree.Fits source.utf8ByteSize) :
    ∀ s ∈ fileVariables source site, s.Declared .doubleColon source := by
  intro s h
  obtain ⟨declarator, hdeclarator, h⟩ := List.mem_filterMap.mp h
  have hwithin := hsite.nested.child (Tree.mem_of_childrenIn hdeclarator)
  dsimp only at h
  generalize (if (site.tree.children.any fun c => c.kind == "type_qualifier" && c.text source == "const") then
    SymbolKind.constantDef else .variableDef) = kind at h
  split at h
  · obtain ⟨nameNode, hname, h⟩ := Option.bind_eq_some_iff.mp h
    exact Symbol.declared_of_mark (fun _ hs => (hs.within rfl).marked ..) hsite (Option.some.inj hname ▸ hwithin) h
  · obtain ⟨nameNode, hname, h⟩ := Option.bind_eq_some_iff.mp h
    have hchild := Tree.mem_of_child? (Option.filter_eq_some_iff.mp hname).1
    exact Symbol.declared_of_mark (fun _ hs => (hs.within rfl).marked ..) hsite (hwithin.child hchild) h
  · cases h

theorem sound_of_declared {found : List Symbol} (hfound : ∀ s ∈ found, s.Declared separator source) :
    ∀ f ∈ found.flatMap declared, f.Sound separator source := by
  intro f hf
  obtain ⟨s, hs, hf⟩ := List.mem_flatMap.mp hf
  have hsymbol : (Finding.symbol s).Sound separator source := hfound s hs
  exact List.forall_mem_cons.mpr ⟨hsymbol, sound_of_export s.isExported s.name⟩ f hf

theorem ordered_of_inclusion? (hsite : site.tree.Nested) {i : Import} (h : inclusion? source site = some i) :
    i.Ordered := by
  obtain ⟨path, -, h⟩ := Option.bind_eq_some_iff.mp h
  rw [← Option.some.inj h]
  exact Import.ordered_of_lines hsite rfl rfl

/-- All that is found at a node is sound. -/
theorem sound_of_rule (hsite : site.tree.Fits source.utf8ByteSize) :
    ∀ f ∈ (rule source site).1, f.Sound .doubleColon source := by
  have hrecord := sound_of_declared fun s h => declared_of_record? hsite (Option.mem_toList.mp h)
  unfold rule
  split
  · exact sound_of_declared fun s h => declared_of_function? hsite (Option.mem_toList.mp h)
  · exact hrecord
  · exact hrecord
  · exact hrecord
  · exact hrecord
  · exact sound_of_declared (declared_of_typeNames hsite)
  · dsimp only
    split
    · exact sound_of_declared (declared_of_fileVariables hsite)
    · exact sound_nil
  · exact sound_of_import? fun i h => ordered_of_inclusion? hsite.nested h
  · exact sound_nil

end CFamily

/-! ## Java -/

namespace Java

theorem declared_inPackage {package : Option String} (h : s.Declared separator source) :
    (inPackage package s).Declared separator source := by
  unfold inPackage
  split
  · exact h.inFront _
  · exact h

theorem declared_of_declaration? (hsite : site.tree.Fits source.utf8ByteSize) {package : Option String}
    {kind : SymbolKind} (h : declaration? source package site kind = some s) : s.Declared .dot source :=
  Symbol.declared_of_markChild (fun _ _ hs => declared_inPackage ((hs.within rfl).marked ..)) hsite h

theorem declared_of_fields (hsite : site.tree.Fits source.utf8ByteSize) {package : Option String} :
    ∀ s ∈ fields source package site, s.Declared .dot source := by
  intro s h
  obtain ⟨declarator, hdeclarator, h⟩ := List.mem_filterMap.mp h
  obtain ⟨nameNode, hname, h⟩ := Option.bind_eq_some_iff.mp h
  have hwithin := (hsite.nested.child (Tree.mem_of_childrenIn hdeclarator)).child (Tree.mem_of_child? hname)
  exact Symbol.declared_of_mark (fun _ hs => declared_inPackage ((hs.within rfl).marked ..)) hsite hwithin h

theorem ordered_of_import? (hsite : site.tree.Nested) {i : Import} (h : import? source site = some i) : i.Ordered := by
  obtain ⟨path, -, h⟩ := Option.bind_eq_some_iff.mp h
  rw [← Option.some.inj h]
  exact Import.ordered_of_lines hsite rfl rfl

/-- All that is found at a node is sound. -/
theorem sound_of_rule (hsite : site.tree.Fits source.utf8ByteSize) {package : Option String} :
    ∀ f ∈ (rule source package site).1, f.Sound .dot source := by
  unfold rule
  split
  · exact sound_of_symbols (declared_of_fields hsite)
  · exact sound_of_import? fun i h => ordered_of_import? hsite.nested h
  · split
    · rename_i s hfound
      obtain ⟨kind, -, hdeclared⟩ := Option.bind_eq_some_iff.mp hfound
      exact List.forall_mem_cons.mpr ⟨declared_of_declaration? hsite hdeclared, sound_of_export _ _⟩
    · exact sound_nil

end Java

/-! ## Python -/

namespace Python

theorem declared_of_definition? (hsite : site.tree.Fits source.utf8ByteSize) {kind : SymbolKind}
    (h : definition? source site kind = some s) : s.Declared .dot source :=
  Symbol.declared_of_markChild (fun _ _ hs => (hs.within rfl).marked ..) hsite h

theorem sound_of_assignment (hsite : site.tree.Fits source.utf8ByteSize) :
    ∀ f ∈ assignment source site, f.Sound .dot source := by
  unfold assignment
  split
  · rename_i left _ hleft
    dsimp only
    split
    · exact sound_nil
    · split
      · split
        · exact sound_of_exports _
        · exact sound_nil
      · split
        · exact sound_nil
        · split
          · rename_i symbol hat
            have hwithin := hsite.nested.child (Tree.mem_of_child? hleft)
            exact List.forall_mem_singleton.mpr ((Symbol.declared_of_at? hsite hwithin hat).marked ..)
          · exact sound_nil
  · exact sound_nil

theorem ordered_of_importStatement (hsite : site.tree.Nested) : ∀ i ∈ importStatement source site, i.Ordered := by
  intro i h
  obtain ⟨name, -, h⟩ := List.mem_filterMap.mp h
  dsimp only at h
  split at h
  all_goals
    split at h
    · cases h
    · rw [← Option.some.inj h]
      exact Import.ordered_of_lines hsite rfl rfl

theorem ordered_of_importFrom? (hsite : site.tree.Nested) {i : Import} (h : importFrom? source site = some i) :
    i.Ordered := by
  obtain ⟨module, -, h⟩ := Option.bind_eq_some_iff.mp h
  rw [← Option.some.inj h]
  exact Import.ordered_of_lines hsite rfl rfl

theorem ordered_of_callImport? (hsite : site.tree.Nested) {i : Import} (h : callImport? source site = some i) :
    i.Ordered := by
  obtain ⟨function, -, h⟩ := Option.bind_eq_some_iff.mp h
  split at h
  · cases h
  · obtain ⟨arguments, -, h⟩ := Option.bind_eq_some_iff.mp h
    obtain ⟨first, -, h⟩ := Option.bind_eq_some_iff.mp h
    split at h
    · cases h
    · rw [← Option.some.inj h]
      exact Import.ordered_of_lines hsite rfl rfl

/-- All that is found at a node is sound. -/
theorem sound_of_rule (hsite : site.tree.Fits source.utf8ByteSize) : ∀ f ∈ (rule source site).1, f.Sound .dot source := by
  unfold rule
  dsimp only
  split
  · exact sound_of_symbol? fun s h => declared_of_definition? hsite h
  · exact sound_of_symbol? fun s h => declared_of_definition? hsite h
  · exact sound_of_assignment hsite
  · exact sound_of_imports (ordered_of_importStatement hsite.nested)
  · exact sound_of_import? fun i h => ordered_of_importFrom? hsite.nested h
  · exact sound_of_import? fun i h => ordered_of_callImport? hsite.nested h
  · exact sound_nil

end Python

/-! ## Rust -/

namespace Rust

theorem declared_of_item? (hsite : site.tree.Fits source.utf8ByteSize) {kind : SymbolKind}
    (h : item? source site kind = some s) : s.Declared .doubleColon source :=
  Symbol.declared_of_markChild (fun _ _ hs => (hs.within rfl).marked ..) hsite h

theorem sound_of_useDeclaration (hsite : site.tree.Nested) :
    ∀ f ∈ useDeclaration source site, f.Sound .doubleColon source := by
  unfold useDeclaration
  split
  · exact sound_nil
  · dsimp only
    split
    · exact sound_nil
    · refine List.forall_mem_append.mpr ⟨?_, List.forall_mem_singleton.mpr (Import.ordered_of_lines hsite rfl rfl)⟩
      split
      · exact sound_of_exports _
      · exact sound_nil

theorem sound_of_moduleDeclaration (hsite : site.tree.Nested) :
    ∀ f ∈ moduleDeclaration source site, f.Sound .doubleColon source := by
  unfold moduleDeclaration
  split
  · exact List.forall_mem_singleton.mpr (Import.ordered_of_lines hsite rfl rfl)
  · exact sound_nil

/-- All that is found at a node is sound. -/
theorem sound_of_rule (hsite : site.tree.Fits source.utf8ByteSize) :
    ∀ f ∈ (rule source site).1, f.Sound .doubleColon source := by
  unfold rule
  split
  · dsimp only
    exact sound_of_useDeclaration hsite.nested
  · dsimp only
    exact sound_of_moduleDeclaration hsite.nested
  · split
    · rename_i s hfound
      obtain ⟨kind, -, hitem⟩ := Option.bind_eq_some_iff.mp hfound
      have hs : (Finding.symbol s).Sound .doubleColon source := declared_of_item? hsite hitem
      exact List.forall_mem_append.mpr ⟨sound_of_export s.isExported s.name, List.forall_mem_singleton.mpr hs⟩
    · exact sound_nil

end Rust

/-! ## All languages -/

/-- All that the rules of a language find at a node is sound. -/
theorem Support.sound_of_rule {language : Language} {rule : String → Tree → Site → List Finding × Visit}
    (hrule : (builtin language).rule = some rule) {root : Tree} (hsite : site.tree.Fits source.utf8ByteSize) :
    ∀ f ∈ (rule source root site).1, f.Sound language.separator source := by
  cases language <;> cases hrule
  case javascript | typescript | tsx => exact EcmaScript.sound_of_rule hsite
  case python => exact Python.sound_of_rule hsite
  case rust => exact Rust.sound_of_rule hsite
  case java => exact Java.sound_of_rule hsite
  case c | cpp => exact CFamily.sound_of_rule hsite

theorem dropRepeats_sublist {α : Type} (same : α → α → Bool) (last : Option α) (l : List α) :
    (dropRepeats same last l).Sublist l := by
  induction l generalizing last with
  | nil => cases last <;> exact .slnil
  | cons a rest ih =>
    cases last with
    | none => exact (ih (some a)).cons_cons a
    | some last =>
      unfold dropRepeats
      split
      · exact (ih (some last)).cons a
      · exact (ih (some a)).cons_cons a

namespace SymbolSet

variable {language : Language} {root : Tree} {findings : List Finding}

/-- A symbol is marked when it was found so, or stands outside all scopes under an exported name. -/
theorem mark_of_mem_collect (h : s ∈ (collect language root findings).symbols) :
    ∃ d, .symbol d ∈ findings ∧ s = { d with isExported := s.isExported } ∧
      (s.isExported = true ↔
        d.isExported = true ∨ (d.parent = none ∧ d.name ∈ (collect language root findings).exports)) := by
  obtain ⟨d, hd, hmark⟩ := List.mem_map.mp h
  obtain ⟨f, hf, hsymbol⟩ := List.mem_filterMap.mp (List.mem_mergeSort.mp ((dropRepeats_sublist ..).mem hd))
  have hfinding : f = .symbol d := by
    split at hsymbol
    · exact congrArg Finding.symbol (Option.some.inj hsymbol)
    · cases hsymbol
  refine ⟨d, hfinding ▸ hf, ?_⟩
  split at hmark
  · rename_i hexported
    rw [Bool.and_eq_true, List.contains_iff_mem, Option.isNone_iff_eq_none] at hexported
    rw [← hmark]
    exact ⟨rfl, iff_of_true rfl (Or.inr hexported.symm)⟩
  · rename_i hnot
    rw [Bool.and_eq_true, List.contains_iff_mem, Option.isNone_iff_eq_none] at hnot
    rw [← hmark]
    exact ⟨rfl, (or_iff_left fun h => hnot h.symm).symm⟩

/-- Every symbol of a set was found by the walk, perhaps without the mark of an export. -/
theorem exists_finding (h : s ∈ (collect language root findings).symbols) :
    ∃ s' isExported, .symbol s' ∈ findings ∧ s = { s' with isExported } := by
  obtain ⟨d, hd, hs, -⟩ := mark_of_mem_collect h
  exact ⟨d, s.isExported, hd, hs⟩

/-- Every symbol of sound findings is declared. -/
theorem declared_of_mem_collect (hfindings : ∀ f ∈ findings, f.Sound separator source)
    (h : s ∈ (collect language root findings).symbols) : s.Declared separator source := by
  obtain ⟨s', isExported, hfinding, rfl⟩ := exists_finding h
  have hs' : s'.Declared separator source := hfindings _ hfinding
  exact hs'.marked ..

end SymbolSet

/-- All that a walk through a tree over a text finds is sound. -/
theorem Support.sound_of_gather {language : Language} {rule : String → Tree → Site → List Finding × Visit}
    (hrule : (builtin language).rule = some rule) {root : Tree} (hroot : root.Fits source.utf8ByteSize) :
    ∀ f ∈ (Site.mk root []).gather (rule source root), f.Sound language.separator source := by
  intro f hf
  obtain ⟨site, hsite, hfound⟩ := Site.exists_site_of_mem_gather (P := fun site => site.tree.Fits source.utf8ByteSize)
    (fun site hsite c hc => hsite.child hc) hroot hf
  exact Support.sound_of_rule hrule hsite f hfound

/-- Every symbol of a tree over a text is placed in that text. -/
theorem Support.placed_of_mem_symbols {language : Language} {root : Tree} (hroot : root.Fits source.utf8ByteSize)
    (h : s ∈ ((builtin language).symbols source root).symbols) : s.Placed source := by
  unfold symbols at h
  split at h
  · rename_i rule hrule
    exact (SymbolSet.declared_of_mem_collect (Support.sound_of_gather hrule hroot) h).placed
  · exact absurd h List.not_mem_nil

theorem Registry.getD_builtin (language : Language) : Registry.builtin.getD language = Support.builtin language := by
  cases language <;> rfl

/-- Every symbol of a parsed file is placed in its content. -/
theorem Engine.placed_of_mem_symbols {engine : Engine} (hengine : engine.registry = .builtin) {parsed : Parsed}
    (hroot : parsed.tree.Fits parsed.content.utf8ByteSize) (h : s ∈ (engine.symbols parsed).symbols) :
    s.Placed parsed.content := by
  unfold Engine.symbols at h
  rw [hengine, Registry.getD_builtin] at h
  exact Support.placed_of_mem_symbols hroot h

end CodeAtlas
