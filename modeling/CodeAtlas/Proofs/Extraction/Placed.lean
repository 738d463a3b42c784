/-
  The places of extracted symbols, cached ones included.

  An extractor that extracted some files before, each with a tree over its content, has nothing in its cache but what it
  found in these trees (`Extractor.Caching`).  So what holds of the symbols of every tree over a text holds of all symbols
  that are extracted (`Extraction.Produced.symbols`), and these are placed in the content of their file, or in another one
  with the same digest (`Extractor.placed_of_answer`).
-/
import CodeAtlas.Proofs.Cache.Order
import CodeAtlas.Proofs.Extraction
import CodeAtlas.Proofs.Extraction.Shape
import CodeAtlas.Proofs.Symbol.Place

namespace CodeAtlas

/-- A file to be extracted, and how. -/
structure Request where
  disk : Disk
  now : Nat
  file : SourceFile
  project : String
  commit : Option String

namespace Request

/-- A text that the file of a request is loaded with. -/
def Loads (r : Request) (content : String) : Prop :=
  ∃ loaded, r.file.load r.disk = .ok loaded ∧ loaded.content = content

theorem Loads.unique {r : Request} {content content' : String} (h : r.Loads content) (h' : r.Loads content') :
    content = content' := by
  obtain ⟨loaded, hload, rfl⟩ := h
  obtain ⟨loaded', hload', rfl⟩ := h'
  rw [hload] at hload'
  rw [Except.ok.inj hload']

/-- The tree of a request, if there is one, lies over the content of the file. -/
def Fits (r : Request) : Prop :=
  ∀ content tree, r.Loads content → r.file.tree = some tree → tree.Fits content.utf8ByteSize

end Request

/-- A parsed file has the tree that it was given with. -/
theorem Engine.tree_of_parse {e : Engine} {path content : String} {l : Language} {tree : Option Syntax.Tree}
    {parsed : Parsed} (h : e.parse path content (some l) tree = .ok parsed) : tree = some parsed.tree := by
  cases tree with
  | none => cases h
  | some t =>
    change (if t.tag.hasError && !e.tolerant then Except.error _ else Except.ok _) = Except.ok parsed at h
    split at h
    · cases h
    · cases h
      rfl

namespace Extractor

/-- What a request extracts, and the extractor after it. -/
def answer (x : Extractor) (r : Request) : Except Failure Extraction × Extractor :=
  x.extract r.disk r.now r.file r.project r.commit

/-- The extractor after some requests. -/
def after (x : Extractor) : List Request → Extractor
  | [] => x
  | r :: requests => (x.answer r).2.after requests

/-- The symbols that may be cached under a key after some requests: those placed in a content that has the key. -/
def SeenIn (requests : List Request) (key : String) (symbols : SymbolSet) : Prop :=
  ∃ r ∈ requests, ∃ content, r.Loads content ∧ key = cacheKey r.file.path content ∧
    ∀ s ∈ symbols.symbols, s.Placed content

variable {requests history : List Request} {r : Request} {x : Extractor}

/-! ## What is cached -/

/-- An extractor that knows the built-in languages and caches nothing but what is right. -/
structure Caching (right : String → SymbolSet → Prop) (x : Extractor) : Prop where
  registry : x.engine.registry = .builtin
  symbols : x.cache.Holds right

/-- All that a request can newly extract is right. -/
def Yields (right : String → SymbolSet → Prop) (r : Request) : Prop :=
  ∀ (engine : Engine) (parsed : Parsed), engine.registry = .builtin → r.Loads parsed.content →
    parsed.tree.Fits parsed.content.utf8ByteSize → right (cacheKey r.file.path parsed.content) (engine.symbols parsed)

variable {right : String → SymbolSet → Prop}

theorem caching_ofConfig (config : Config) (right : String → SymbolSet → Prop) : Caching right (ofConfig config) :=
  ⟨rfl, Cache.holds_new _ _⟩

theorem Caching.cachedSymbols (hx : Caching right x) {path : String} {parsed : Parsed}
    (hright : right (cacheKey path parsed.content) (x.engine.symbols parsed)) (now : Nat) :
    right (cacheKey path parsed.content) (x.cachedSymbols path parsed now).1 ∧
      Caching right (x.cachedSymbols path parsed now).2 := by
  obtain ⟨hvalue, hcache⟩ := hx.symbols.get (cacheKey path parsed.content) now
  unfold Extractor.cachedSymbols
  dsimp only
  generalize x.cache.get (cacheKey path parsed.content) now = lookup at hvalue hcache ⊢
  obtain ⟨hit, cache⟩ := lookup
  cases hit with
  | some symbols => exact ⟨hvalue symbols rfl, hx.registry, hcache⟩
  | none => exact ⟨hright, hx.registry, hcache.put hright now⟩

/-- A request extracts symbols that are right, if any, and the cache stays right. -/
theorem Caching.answer (hx : Caching right x) (hfits : r.Fits) (hyields : Yields right r) :
    Caching right (x.answer r).2 ∧
      ∀ e, (x.answer r).1 = .ok e →
        r.Loads e.content ∧ (e.symbols = .empty ∨ right (cacheKey r.file.path e.content) e.symbols) := by
  unfold Extractor.answer Extractor.extract
  cases hload : r.file.load r.disk with
  | error f => exact ⟨hx, fun e he => by cases he⟩
  | ok loaded =>
    rw [language_eq]
    cases hl : r.file.language? with
    | none =>
      refine ⟨hx, fun e he => ?_⟩
      rw [← Except.ok.inj he]
      exact ⟨⟨loaded, hload, rfl⟩, Or.inl rfl⟩
    | some l =>
      dsimp only
      cases hp : x.engine.parse r.file.path loaded.content (some l) r.file.tree with
      | error f => exact ⟨hx, fun e he => by cases he⟩
      | ok parsed =>
        have hcontent : parsed.content = loaded.content := (Engine.parse_eq_ok hp).2
        have hloads : r.Loads parsed.content := ⟨loaded, hload, hcontent.symm⟩
        obtain ⟨hsymbols, hcaching⟩ := hx.cachedSymbols
          (hyields x.engine parsed hx.registry hloads (hfits _ _ hloads (Engine.tree_of_parse hp))) r.now
        refine ⟨hcaching, fun e he => ?_⟩
        rw [← Except.ok.inj he]
        exact ⟨hloads, Or.inr hsymbols⟩

/-- After some requests the cache is still right. -/
theorem Caching.after (hx : Caching right x) (hfits : ∀ r ∈ history, r.Fits)
    (hyields : ∀ r ∈ history, Yields right r) : Caching right (x.after history) := by
  induction history generalizing x with
  | nil => exact hx
  | cons r history ih =>
    rw [List.forall_mem_cons] at hfits hyields
    exact ih (hx.answer hfits.1 hyields.1).1 hfits.2 hyields.2

/-! ## Places -/

theorem yields_seenIn (hr : r ∈ requests) : Yields (SeenIn requests) r :=
  fun _ parsed hregistry hloads htree =>
    ⟨r, hr, parsed.content, hloads, rfl, fun _ hs => Engine.placed_of_mem_symbols hregistry htree hs⟩

/-- Whatever was extracted before, all symbols of an extraction are placed in its content, as long as no other content has
the same digest. -/
theorem placed_of_answer (config : Config) (hfits : ∀ r' ∈ r :: history, r'.Fits)
    (hdigests : ∀ r' ∈ history, ∀ content content', r'.Loads content → r.Loads content' →
      contentHash content = contentHash content' → content = content') {e : Extraction}
    (he : (((ofConfig config).after history).answer r).1 = .ok e) :
    ∀ s ∈ e.symbols.symbols, s.Placed e.content := by
  have hseen : Caching (SeenIn (r :: history)) ((ofConfig config).after history) :=
    (caching_ofConfig config _).after (fun r' hr' => hfits r' (List.mem_cons_of_mem r hr'))
      fun r' hr' => yields_seenIn (List.mem_cons_of_mem r hr')
  obtain ⟨hloads, hempty | ⟨r', hr', content, hloads', hkey, hplaced⟩⟩ :=
    (hseen.answer (hfits r List.mem_cons_self) (yields_seenIn List.mem_cons_self)).2 e he
  · exact fun s hs => absurd (hempty ▸ hs) List.not_mem_nil
  · rcases List.mem_cons.mp hr' with rfl | hr'
    · rwa [← hloads'.unique hloads]
    · rwa [← hdigests r' hr' content e.content hloads' hloads (cacheKey_inj hkey).2.symm]

end Extractor

namespace Extraction

/-- What an extractor makes of a file, perhaps after other files, all of them with a tree over their content. -/
def Produced (e : Extraction) : Prop :=
  ∃ (config : Config) (history : List Request) (r : Request),
    (∀ r' ∈ r :: history, r'.Fits) ∧ (((Extractor.ofConfig config).after history).answer r).1 = .ok e

variable {e : Extraction}

theorem Produced.extracted (h : e.Produced) : e.Extracted := by
  obtain ⟨config, history, r, -, he⟩ := h
  exact ⟨_, r.disk, r.now, r.file, r.project, r.commit, he⟩

/-- What holds of the symbols of every tree over a text holds of those of an extraction, cached ones included. -/
theorem Produced.symbols (h : e.Produced) {right : SymbolSet → Prop} (hempty : right .empty)
    (hright : ∀ (engine : Engine) (parsed : Parsed), engine.registry = .builtin →
      parsed.tree.Fits parsed.content.utf8ByteSize → right (engine.symbols parsed)) : right e.symbols := by
  obtain ⟨config, history, r, hfits, he⟩ := h
  rw [List.forall_mem_cons] at hfits
  have hyields (r' : Request) : Extractor.Yields (fun _ => right) r' :=
    fun engine parsed hregistry _ htree => hright engine parsed hregistry htree
  have hcaching := (Extractor.caching_ofConfig config fun _ => right).after hfits.2 fun r' _ => hyields r'
  rcases ((hcaching.answer hfits.1 (hyields r)).2 e he).2 with hnone | hsymbols
  · rwa [hnone]
  · exact hsymbols

/-! ## Two functions of one name -/

/-- The text of two functions of one name in one line. -/
def twinsText : String :=
  "function f() \x7b\x7d function f() \x7b\x7d"

/-- The tree of a function that begins at a byte. -/
def twinAt (start : Nat) : Syntax.Tree :=
  .plain "function_declaration" "" start (start + 15)
    [.plain "identifier" "name" (start + 9) (start + 10) [],
     .plain "formal_parameters" "parameters" (start + 10) (start + 12) [],
     .plain "statement_block" "body" (start + 13) (start + 15) []]

def twinsTree : Syntax.Tree :=
  .plain "program" "" 0 31 [twinAt 0, twinAt 16]

/-- The file with the two functions. -/
def twinsFile : Request :=
  { disk := .empty, now := 0, project := "demo", commit := none
    file := ⟨"m.js", some twinsText, false, none, none, some twinsTree⟩ }

/-- The extraction of the file. -/
def twins : Extraction :=
  .ofSymbols ⟨.builtin, false⟩ 2 twinsFile.file ⟨"m.js", .javascript, twinsTree, twinsText⟩
    ((Support.builtin .javascript).symbols twinsText twinsTree) "demo" none

theorem produced_twins : twins.Produced := by
  refine ⟨{}, [], twinsFile, List.forall_mem_singleton.mpr ?_, (fresh_eq rfl {} .empty 0 "demo" none).trans rfl⟩
  intro content tree hloads htree
  obtain ⟨loaded, hload, rfl⟩ := hloads
  cases hload
  cases htree
  decide

/-- The second function ends further on. -/
theorem exists_symbols_twins : ∃ s t, twins.symbols.symbols = [s, t] ∧
    (s.name, s.kind, s.startLine, s.byteEnd) = ("f", .function, 1, 15) ∧
    (t.name, t.kind, t.startLine, t.byteEnd) = ("f", .function, 1, 31) := by
  have hsymbols : twins.symbols.symbols.map (fun s => (s.name, s.kind, s.startLine, s.byteEnd)) =
      [("f", .function, 1, 15), ("f", .function, 1, 31)] := by
    show (SymbolSet.collect .javascript twinsTree ((Syntax.Site.mk twinsTree []).gather _)).symbols.map _ = _
    unfold SymbolSet.collect
    dsimp only
    -- the symbols are found in the order of their positions
    rw [List.mergeSort_of_pairwise (by decide +kernel)]
    decide +kernel
  obtain ⟨s, rest, hrest, hs, hsymbols⟩ := List.map_eq_cons_iff.mp hsymbols
  obtain ⟨t, none, rfl, ht, hsymbols⟩ := List.map_eq_cons_iff.mp hsymbols
  rw [List.map_eq_nil_iff.mp hsymbols] at hrest
  exact ⟨s, t, hrest, hs, ht⟩

end Extraction

end CodeAtlas
