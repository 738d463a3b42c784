/-
  Imports of directories.

  A relative ECMAScript specifier that means a directory leads to the index file of it with the first extension, when no
  file has the path of the directory, with an extension or without.  The top of the project is the one directory of which
  this fails: its index files are looked for at the root of all paths (`directory_imports_lead_to_index`).
-/
import CodeAtlas.Proofs.Resolve.Relative

namespace CodeAtlas

/-- A normalised path that does not begin at the root. -/
structure Path.Relative (path : String) : Prop where
  normal : Path.normalize path = path
  below : Text.startsWith path "/" = false

/-- Plain paths are relative. -/
theorem Path.Plain.relative {path : String} (h : Path.Plain path) : Path.Relative path :=
  ⟨h.normalize_eq, h.not_startsWith⟩

namespace Resolve

variable {paths : List String} {index : FileIndex} {dir stem extension specifier : String}

/-- Where some extension makes a file of a path, there is a first one. -/
theorem exists_firstExtension (h : ∃ e ∈ ecmaExtensions, stem ++ e ∈ paths) : ∃ e, FirstExtension paths stem e := by
  have hsome : (ecmaExtensions.find? fun e => decide (stem ++ e ∈ paths)).isSome = true := by
    rw [List.find?_isSome]
    simpa using h
  obtain ⟨e, he⟩ := Option.isSome_iff_exists.mp hsome
  obtain ⟨hmem, before, after, hsplit, hbefore⟩ := List.find?_eq_some_iff_append.mp he
  exact ⟨e, by simpa using hmem, before, after, hsplit, fun b hb => by simpa using hbefore b hb⟩

theorem FirstExtension.unique (hnormal : ∀ p ∈ paths, Path.normalize p = p) (h : FirstExtension paths stem extension)
    {other : String} (hother : FirstExtension paths stem other) : extension = other := by
  have hfound := (find?_of_firstExtension hnormal h).symm.trans (find?_of_firstExtension hnormal hother)
  exact String.append_right_inj stem |>.mp (Option.some.inj hfound)

/-- When no file has a path with an extension or without, the index files are probed. -/
theorem probe?_of_missing (hbase : index.contains dir = false)
    (hextensions : ∀ e ∈ ecmaExtensions, index.contains (dir ++ e) = false) :
    probe? index dir = (ecmaExtensions.map (Text.dropEnd dir "/" ++ "/index" ++ ·)).find? index.contains := by
  have hfile : (dir :: ecmaExtensions.map (dir ++ ·)).find? index.contains = none := by
    rw [List.find?_eq_none]
    refine List.forall_mem_cons.mpr ⟨Bool.eq_false_iff.mp hbase, List.forall_mem_map.mpr fun e he => ?_⟩
    exact Bool.eq_false_iff.mp (hextensions e he)
  unfold probe? ecmaCandidates
  rw [List.find?_append, hfile, Option.none_or]

/-- No index file of the top is found, since all of them are looked for at the root. -/
theorem probe?_top (hbelow : ∀ p ∈ index.paths, Text.startsWith p "/" = false) (hbase : index.contains "" = false)
    (hextensions : ∀ e ∈ ecmaExtensions, index.contains ("" ++ e) = false) : probe? index "" = none := by
  have hroot : ∀ e ∈ ecmaExtensions, Text.startsWith ("" ++ "/index" ++ e) "/" = true := by decide
  rw [probe?_of_missing hbase hextensions, Text.dropEnd_eq_self (by decide), List.find?_eq_none]
  refine List.forall_mem_map.mpr fun e he hin => ?_
  have hfalse := hbelow _ (FileIndex.mem_of_contains hin)
  rw [hroot e he] at hfalse
  cases hfalse

/-- A directory of a file that does not begin at the root does not begin there either. -/
theorem startsWith_of_joinDir {name rest : String} (hname : name ≠ "")
    (h : Text.startsWith (joinDir dir name ++ rest) "/" = false) : Text.startsWith dir "/" = false := by
  by_cases hdir : dir = ""
  · rw [hdir]
    rfl
  · rwa [joinDir_of_ne hdir hname, String.append_assoc, String.append_assoc,
      Text.startsWith_append Path.toList_slash hdir] at h

/-- A specifier that means a directory is joined to it, unless the directory begins at the root. -/
theorem joinRelative_eq_of_meant? {importer : String} (hmeant : Path.meant? importer specifier = some dir)
    (hbelow : Text.startsWith dir "/" = false) : joinRelative (Path.parent importer) specifier = dir := by
  have hdir := Path.eq_of_meant? hmeant
  split at hdir
  · have hstart : Text.startsWith dir "/" = true := Text.startsWith_iff.mpr ⟨_, hdir⟩
    rw [hstart] at hbelow
    cases hbelow
  · rw [hdir, String.empty_append]

/-- A relative specifier that means a directory leads to the index file of it with the first extension, from any other
file, when no file has the path of the directory, with an extension or without; unless the directory is the top of the
project, whose index files are never found. -/
theorem directory_imports_lead_to_index {paths : List String} (hpaths : ∀ p ∈ paths, Path.Relative p) {dir : String}
    (hindex : ∃ e ∈ ecmaExtensions, joinDir dir "index" ++ e ∈ paths) (hfile : dir ∉ paths)
    (hextensions : ∀ e ∈ ecmaExtensions, dir ++ e ∉ paths) :
    ∃ extension, FirstExtension paths (joinDir dir "index") extension ∧
      ∀ importer specifier (language : Language), language.isEcmaScript = true → isRelative specifier = true →
        Path.meant? (Path.normalize importer) specifier = some dir →
        joinDir dir "index" ++ extension ≠ Path.normalize importer →
          (FileIndex.ofPaths paths).resolve importer (some language) specifier =
            if dir = "" then .unresolved else .internal (joinDir dir "index" ++ extension) := by
  have hnormal : ∀ p ∈ paths, Path.normalize p = p := fun p hp => (hpaths p hp).normal
  obtain ⟨extension, hfirst⟩ := exists_firstExtension hindex
  refine ⟨extension, hfirst, fun importer specifier language hlanguage hrelative hmeant hother => ?_⟩
  have hindexed : ∀ p ∈ (FileIndex.ofPaths paths).paths, Text.startsWith p "/" = false := by
    intro p hp
    exact (hpaths p ((FileIndex.contains_ofPaths hnormal).mp (List.contains_iff_mem.mpr hp))).below
  have hmissing : ∀ p, p ∉ paths → (FileIndex.ofPaths paths).contains p = false := fun p hp =>
    Bool.eq_false_iff.mpr (mt (FileIndex.contains_ofPaths hnormal).mp hp)
  have hbelow : Text.startsWith dir "/" = false :=
    startsWith_of_joinDir (by decide) (hpaths _ hfirst.1).below
  have hjoined : joinRelative (Path.parent (Path.normalize importer)) specifier = dir :=
    joinRelative_eq_of_meant? hmeant hbelow
  have hlookup : (FileIndex.ofPaths paths).lookup (Path.normalize importer) (some language) specifier =
      .ofFile? (probe? (FileIndex.ofPaths paths) dir) := by
    rw [FileIndex.lookup_of_isEcmaScript hlanguage, ecmaScript_of_isRelative hrelative, hjoined]
  split
  case isTrue htop =>
    subst htop
    refine FileIndex.resolve_of_not_internal ?_ (by simp)
    rw [hlookup, probe?_top hindexed (hmissing "" hfile) fun e he => hmissing _ (hextensions e he)]
    rfl
  case isFalse hdir =>
    have hend : Text.endsWith dir "/" = false := hjoined ▸ Path.endsWith_joinRelative _ _
    have hstem : dir ++ "/index" = joinDir dir "index" := by
      rw [joinDir_of_ne hdir (by decide), String.append_assoc]
      rfl
    refine FileIndex.resolve_of_lookup ?_ hother
    rw [hlookup, probe?_of_missing (hmissing dir hfile) fun e he => hmissing _ (hextensions e he),
      Text.dropEnd_eq_self hend, hstem, find?_of_firstExtension hnormal hfirst]
    rfl

/-- From a page to the directory beside its own, which has two index files; from the page beside the index file of the top
nowhere. -/
theorem directory_imports_lead_to_index_parts :
    let paths := ["index.js", "main.js", "src/pages/a.js", "src/parts/index.ts", "src/parts/index.tsx"]
    (∀ p ∈ paths, Path.Relative p) ∧ FirstExtension paths (joinDir "src/parts" "index") ".ts" ∧
      Path.meant? (Path.normalize "src/pages/a.js") "../parts/" = some "src/parts" ∧
      (FileIndex.ofPaths paths).resolve "src/pages/a.js" (some .javascript) "../parts/" = .internal "src/parts/index.ts" ∧
      FirstExtension paths (joinDir "" "index") ".js" ∧ Path.meant? (Path.normalize "main.js") "." = some "" ∧
      (FileIndex.ofPaths paths).resolve "main.js" (some .javascript) "." = .unresolved := by
  intro paths
  have hplain : ∀ p ∈ paths, Path.Plain p := by decide
  have hpaths : ∀ p ∈ paths, Path.Relative p := fun p hp => (hplain p hp).relative
  have hnormal : ∀ p ∈ paths, Path.normalize p = p := fun p hp => (hpaths p hp).normal
  have hpage := hnormal "src/pages/a.js" (by decide)
  have hmain := hnormal "main.js" (by decide)
  have hparts : FirstExtension paths (joinDir "src/parts" "index") ".ts" :=
    ⟨by decide, [".js", ".jsx"], [".tsx", ".mjs", ".cjs", ".mts", ".cts"], rfl, by decide⟩
  have htop : FirstExtension paths (joinDir "" "index") ".js" :=
    ⟨by decide, [], [".jsx", ".ts", ".tsx", ".mjs", ".cjs", ".mts", ".cts"], rfl, by decide⟩
  have hthere : Path.meant? (Path.normalize "src/pages/a.js") "../parts/" = some "src/parts" := by
    rw [hpage]
    decide +kernel
  have hhere : Path.meant? (Path.normalize "main.js") "." = some "" := by
    rw [hmain]
    decide +kernel
  obtain ⟨e, hfirst, hleads⟩ :=
    @directory_imports_lead_to_index paths hpaths "src/parts" ⟨".ts", by decide, hparts.1⟩ (by decide) (by decide)
  obtain rfl := hfirst.unique hnormal hparts
  obtain ⟨e, htopFirst, hnowhere⟩ :=
    @directory_imports_lead_to_index paths hpaths "" ⟨".js", by decide, htop.1⟩ (by decide) (by decide)
  obtain rfl := htopFirst.unique hnormal htop
  refine ⟨hpaths, hparts, hthere, ?_, htop, hhere, ?_⟩
  · exact hleads "src/pages/a.js" "../parts/" .javascript rfl (by decide) hthere (by rw [hpage]; decide)
  · exact hnowhere "main.js" "." .javascript rfl (by decide) hhere (by rw [hmain]; decide)

end Resolve

end CodeAtlas
