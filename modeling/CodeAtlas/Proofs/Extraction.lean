/-
  What the extraction of a file depends on.

  `Extraction.ofLoaded` is the extraction without a cache.  A fresh extractor gives just that, and so does every
  extractor whose cache holds the right symbols (`extract_eq`).  It depends on the path, the content, the language with
  the tree, and the entry mark; the keys of the caches hold the path and a digest of the content only, so that files
  with one key have one extraction exactly when language and entry mark agree as well (`fresh_of_same_key`).
-/
import CodeAtlas.Extraction
import CodeAtlas.Proofs.Cache.Order

namespace CodeAtlas

open Syntax (Tree)

/-- The trees that the grammars of the languages make of texts, where they make one. -/
abbrev Grammar : Type := Language → String → Option Tree

namespace SourceFile

/-- The language of a file: that of the hint, or else that of the extension. -/
def language? (f : SourceFile) : Option Language :=
  f.hint.or (Language.ofPath? f.path)

/-- The content of a file is at hand, and its tree is the one of its own language. -/
def ParsedBy (f : SourceFile) (grammar : Grammar) (content : String) : Prop :=
  f.content = some content ∧ ∀ l, f.language? = some l → f.tree = grammar l content

theorem load_of_content {f : SourceFile} {content : String} (h : f.content = some content) (disk : Disk) :
    f.load disk = .ok ⟨content, none⟩ := by
  unfold load
  rw [h]

theorem versionKey_of_content {f : SourceFile} {content : String} (h : f.content = some content) (disk : Disk) :
    f.versionKey disk = "sha256:" ++ shortHash content := by
  unfold versionKey
  rw [h]

end SourceFile

/-! ## Keys -/

theorem length_hex (bytes : List UInt8) : (Text.hex bytes).toList.length = 2 * bytes.length := by
  unfold Text.hex
  rw [String.toList_ofList]
  induction bytes with
  | nil => rfl
  | cons b bytes ih =>
    rw [List.flatMap_cons, List.length_append, ih, List.length_cons, List.length_cons, List.length_cons]
    simp only [List.length_nil]
    omega

theorem length_contentHash (content : String) : (contentHash content).toList.length = 64 := by
  unfold contentHash
  rw [length_hex]
  rfl

/-- The key of the symbols of a file tells paths and digests apart, whatever characters the path has. -/
theorem cacheKey_inj {path path' content content' : String}
    (h : Extractor.cacheKey path content = Extractor.cacheKey path' content') :
    path = path' ∧ contentHash content = contentHash content' := by
  have hl := congrArg String.toList h
  unfold Extractor.cacheKey at hl
  rw [String.toList_append, String.toList_append, String.toList_append, String.toList_append] at hl
  have hlen : (contentHash content).toList.length = (contentHash content').toList.length := by
    rw [length_contentHash, length_contentHash]
  obtain ⟨hleft, hhash⟩ := List.append_inj' hl hlen
  obtain ⟨hpath, _⟩ := List.append_inj' hleft rfl
  exact ⟨String.toList_inj.mp hpath, String.toList_inj.mp hhash⟩

theorem shortHash_eq_of_contentHash_eq {content content' : String} (h : contentHash content = contentHash content') :
    shortHash content = shortHash content' := by
  unfold shortHash
  rw [h]

theorem shortHash_eq_of_versionKey_eq {a b : SourceFile} {ca cb : String} (ha : a.content = some ca)
    (hb : b.content = some cb) {disk : Disk} (h : a.versionKey disk = b.versionKey disk) :
    shortHash ca = shortHash cb := by
  rw [SourceFile.versionKey_of_content ha, SourceFile.versionKey_of_content hb] at h
  have hl := congrArg String.toList h
  rw [String.toList_append, String.toList_append] at hl
  exact String.toList_inj.mp (List.append_cancel_left hl)

/-! ## Extraction without a cache -/

theorem Engine.parse_eq_ok {e : Engine} {path content : String} {l : Language} {tree : Option Tree} {parsed : Parsed}
    (h : e.parse path content (some l) tree = .ok parsed) : parsed.language = l ∧ parsed.content = content := by
  cases tree with
  | none => cases h
  | some t =>
    change (if t.tag.hasError && !e.tolerant then Except.error _ else Except.ok _) = Except.ok parsed at h
    split at h
    · cases h
    · cases h
      exact ⟨rfl, rfl⟩

theorem Registry.language_builtin (l : Language) : (Registry.builtin.getD l).language = l := by
  cases l <;> rfl

theorem Support.language_symbols (s : Support) (source : String) (root : Tree) :
    (s.symbols source root).language = some s.language := by
  unfold symbols
  split <;> rfl

/-- The extraction of a file with the given content when nothing is cached. -/
def Extraction.ofLoaded (engine : Engine) (contextLines : Nat) (file : SourceFile) (content project : String)
    (commit : Option String) : Except Failure Extraction :=
  match file.language? with
  | none => .ok (.ofUnknown file content project commit)
  | some l => (engine.parse file.path content (some l) file.tree).map fun parsed =>
      .ofSymbols engine contextLines file parsed (engine.symbols parsed) project commit

namespace Extraction

variable {engine : Engine} {contextLines : Nat} {content project : String} {commit : Option String}

/-- What is read of a file besides its content: its path, its language with the tree, and its entry mark. -/
theorem ofLoaded_congr {a b : SourceFile} (hpath : a.path = b.path) (hlang : a.language? = b.language?)
    (htree : ∀ l, a.language? = some l → a.tree = b.tree) (hentry : a.entryPoint = b.entryPoint) :
    ofLoaded engine contextLines a content project commit = ofLoaded engine contextLines b content project commit := by
  unfold ofLoaded
  rw [← hlang]
  cases hl : a.language? with
  | none =>
    simp only [ofUnknown, hpath, hentry]
  | some l =>
    simp only [ofSymbols, hpath, hentry, htree l hl]

/-- An extraction tells the language and the entry mark of its file, and its symbols tell the language as well. -/
theorem of_ofLoaded_eq_ok {file : SourceFile} {e : Extraction} (hbuiltin : engine.registry = .builtin)
    (h : ofLoaded engine contextLines file content project commit = .ok e) :
    e.language = file.language? ∧ e.symbols.language = file.language? ∧ e.entryPoint = file.entryPoint := by
  unfold ofLoaded at h
  cases hl : file.language? with
  | none =>
    rw [hl] at h
    cases h
    exact ⟨rfl, rfl, rfl⟩
  | some l =>
    rw [hl] at h
    cases hp : engine.parse file.path content (some l) file.tree with
    | error f =>
      simp only [hp, Except.map] at h
      cases h
    | ok parsed =>
      simp only [hp, Except.map] at h
      cases h
      have hlang : parsed.language = l := (Engine.parse_eq_ok hp).1
      refine ⟨congrArg some hlang, ?_, rfl⟩
      show (engine.symbols parsed).language = some l
      unfold Engine.symbols
      rw [Support.language_symbols, hbuiltin, Registry.language_builtin, hlang]

/-- The symbols do not depend on the entry mark. -/
theorem symbols_congr {a b : SourceFile} {ea eb : Extraction} (hpath : a.path = b.path)
    (hlang : a.language? = b.language?) (htree : ∀ l, a.language? = some l → a.tree = b.tree)
    (hea : ofLoaded engine contextLines a content project commit = .ok ea)
    (heb : ofLoaded engine contextLines b content project commit = .ok eb) : ea.symbols = eb.symbols := by
  unfold ofLoaded at hea heb
  rw [← hlang] at heb
  cases hl : a.language? with
  | none =>
    rw [hl] at hea heb
    cases hea
    cases heb
    rfl
  | some l =>
    rw [hl] at hea heb
    dsimp only at hea heb
    rw [hpath, htree l hl] at hea
    cases hp : engine.parse b.path content (some l) b.tree with
    | error f =>
      simp only [hp, Except.map] at hea
      cases hea
    | ok parsed =>
      simp only [hp, Except.map] at hea heb
      cases hea
      cases heb
      rfl

end Extraction

/-! ## Extraction with a cache -/

namespace Extractor

theorem language_eq (file : SourceFile) :
    Engine.language file.path file.hint =
      match file.language? with
      | some l => .ok l
      | none => .error (.unsupportedLanguage file.path
          ("no grammar for extension '" ++ Path.extensionLabel file.path ++ "'")) := rfl

/-- The symbols that may be cached under a key: those of every given file with that key. -/
def SymbolsOf (engine : Engine) (files : Set SourceFile) (key : String) (symbols : SymbolSet) : Prop :=
  ∀ f ∈ files, ∀ content l parsed, f.content = some content → cacheKey f.path content = key → f.language? = some l →
    engine.parse f.path content (some l) f.tree = .ok parsed → symbols = engine.symbols parsed

/-- Files with one key have one tree. -/
def OneTree (files : Set SourceFile) : Prop :=
  ∀ f ∈ files, ∀ g ∈ files, ∀ content content', f.content = some content → g.content = some content' →
    cacheKey f.path content = cacheKey g.path content' →
    content = content' ∧ f.language? = g.language? ∧ ∀ l, f.language? = some l → f.tree = g.tree

variable {files : Set SourceFile} {x : Extractor} {file : SourceFile} {content : String}

theorem cachedSymbols_eq (hone : OneTree files) (hx : x.cache.Holds (SymbolsOf x.engine files)) (hf : file ∈ files)
    (hc : file.content = some content) {l : Language} (hl : file.language? = some l) {parsed : Parsed}
    (hp : x.engine.parse file.path content (some l) file.tree = .ok parsed) (now : Nat) :
    ∃ cache, x.cachedSymbols file.path parsed now = (x.engine.symbols parsed, { x with cache }) ∧
      cache.Holds (SymbolsOf x.engine files) := by
  have hcontent : parsed.content = content := (Engine.parse_eq_ok hp).2
  obtain ⟨hvalue, hcache⟩ := hx.get (cacheKey file.path content) now
  unfold cachedSymbols
  rw [hcontent]
  dsimp only
  generalize x.cache.get (cacheKey file.path content) now = lookup at hvalue hcache ⊢
  obtain ⟨hit, cache⟩ := lookup
  cases hit with
  | some symbols =>
    have hright : symbols = x.engine.symbols parsed := hvalue symbols rfl file hf content l parsed hc rfl hl hp
    exact ⟨cache, by rw [← hright], hcache⟩
  | none =>
    refine ⟨cache.put (cacheKey file.path content) (x.engine.symbols parsed) now, rfl, hcache.put ?_ now⟩
    -- the new symbols are those of every other file with this key, since that one has the same tree
    intro g hg content' l' parsed' hc' hkey hl' hp'
    obtain ⟨rfl, hlang, htree⟩ := hone g hg file hf content' content hc' hc hkey
    rw [hlang, hl] at hl'
    cases hl'
    rw [(cacheKey_inj hkey).1, htree l (hlang.trans hl), hp] at hp'
    cases hp'
    rfl

/-- An extractor whose cache is right extracts what it would extract without a cache, and its cache stays right. -/
theorem extract_eq (hone : OneTree files) (hx : x.cache.Holds (SymbolsOf x.engine files)) (hf : file ∈ files)
    (hc : file.content = some content) (disk : Disk) (now : Nat) (project : String) (commit : Option String) :
    ∃ cache, x.extract disk now file project commit =
        (Extraction.ofLoaded x.engine x.contextLines file content project commit, { x with cache }) ∧
      cache.Holds (SymbolsOf x.engine files) := by
  unfold extract Extraction.ofLoaded
  rw [SourceFile.load_of_content hc, language_eq]
  cases hl : file.language? with
  | none => exact ⟨x.cache, rfl, hx⟩
  | some l =>
    dsimp only
    cases hp : x.engine.parse file.path content (some l) file.tree with
    | error f => exact ⟨x.cache, rfl, hx⟩
    | ok parsed =>
      obtain ⟨cache, hsymbols, hcache⟩ := cachedSymbols_eq hone hx hf hc hl hp now
      refine ⟨cache, ?_, hcache⟩
      dsimp only
      rw [hsymbols]
      rfl

theorem oneTree_singleton (file : SourceFile) : OneTree {file} := by
  rintro f rfl g rfl content content' hf hg -
  rw [hf] at hg
  cases hg
  exact ⟨rfl, rfl, fun _ _ => rfl⟩

end Extractor

/-! ## What the keys leave open -/

theorem SourceFile.ParsedBy.tree_eq {a b : SourceFile} {grammar : Grammar} {content : String}
    (ha : a.ParsedBy grammar content) (hb : b.ParsedBy grammar content) (hlang : a.language? = b.language?) {l : Language}
    (hl : a.language? = some l) : a.tree = b.tree :=
  (ha.2 l hl).trans (hb.2 l (hlang ▸ hl)).symm

namespace Extraction

/-- The extraction of a file by a fresh extractor. -/
def fresh (config : Config) (disk : Disk) (now : Nat) (project : String) (commit : Option String)
    (file : SourceFile) : Except Failure Extraction :=
  ((Extractor.ofConfig config).extract disk now file project commit).1

theorem fresh_eq {file : SourceFile} {content : String} (hc : file.content = some content) (config : Config)
    (disk : Disk) (now : Nat) (project : String) (commit : Option String) :
    fresh config disk now project commit file =
      ofLoaded ⟨.builtin, config.parse.tolerateSyntaxErrors⟩ config.chunking.referenceContextLines file content project
        commit := by
  have hx : (Extractor.ofConfig config).cache.Holds (Extractor.SymbolsOf (Extractor.ofConfig config).engine {file}) :=
    Cache.holds_new _ _
  obtain ⟨_, heq, _⟩ :=
    Extractor.extract_eq (Extractor.oneTree_singleton file) hx rfl hc disk now project commit
  exact congrArg Prod.fst heq

/-- Two files with the same path and the same version have the same fresh extraction exactly when both fail alike or
they agree in language and entry mark, neither of which is in the key.  Two files with the same path and the same
content have the same symbols exactly when they agree in language, which is not in that key either. -/
theorem fresh_of_same_key (grammar : Grammar) (config : Config) (disk : Disk) (now : Nat) (project : String)
    (commit : Option String) {a b : SourceFile} {ca cb : String} (ha : a.ParsedBy grammar ca)
    (hb : b.ParsedBy grammar cb) (hdigest : shortHash ca = shortHash cb → ca = cb) (hpath : a.path = b.path) :
    (a.versionKey disk = b.versionKey disk →
      (fresh config disk now project commit a = fresh config disk now project commit b ↔
        (∃ f, fresh config disk now project commit a = .error f ∧ fresh config disk now project commit b = .error f) ∨
          (a.language? = b.language? ∧ a.entryPoint = b.entryPoint))) ∧
    (ca = cb → ∀ ea eb, fresh config disk now project commit a = .ok ea →
      fresh config disk now project commit b = .ok eb → (ea.symbols = eb.symbols ↔ a.language? = b.language?)) := by
  rw [fresh_eq ha.1, fresh_eq hb.1]
  constructor
  · intro hkey
    obtain rfl : ca = cb := hdigest (shortHash_eq_of_versionKey_eq ha.1 hb.1 hkey)
    constructor
    · intro heq
      cases hra : ofLoaded ⟨.builtin, config.parse.tolerateSyntaxErrors⟩ config.chunking.referenceContextLines
          a ca project commit with
      | error f => exact Or.inl ⟨f, rfl, heq ▸ hra⟩
      | ok e =>
        obtain ⟨hla, -, hea⟩ := of_ofLoaded_eq_ok rfl hra
        obtain ⟨hlb, -, heb⟩ := of_ofLoaded_eq_ok rfl (heq ▸ hra)
        exact Or.inr ⟨hla.symm.trans hlb, hea.symm.trans heb⟩
    · rintro (⟨f, hfa, hfb⟩ | ⟨hlang, hentry⟩)
      · rw [hfa, hfb]
      · exact ofLoaded_congr hpath hlang (fun l hl => ha.tree_eq hb hlang hl) hentry
  · rintro rfl ea eb hea heb
    constructor
    · intro hsymbols
      obtain ⟨-, hla, -⟩ := of_ofLoaded_eq_ok rfl hea
      obtain ⟨-, hlb, -⟩ := of_ofLoaded_eq_ok rfl heb
      rw [← hla, ← hlb, hsymbols]
    · intro hlang
      exact symbols_congr hpath hlang (fun l hl => ha.tree_eq hb hlang hl) hea heb

/-- A text of unknown language, once as it is and once marked as an entry, has one key and two extractions; hinted to be
Python and hinted to be Java, it has one key and two sets of symbols. -/
theorem fresh_of_same_key_notes :
    let tree : Tree := .node ⟨"module", "", 0, 0, true, false, false, false⟩ []
    let plain : SourceFile := ⟨"notes.txt", some "", false, none, none, some tree⟩
    let marked : SourceFile := { plain with entryPoint := true }
    plain.versionKey .empty = marked.versionKey .empty ∧
      fresh {} .empty 0 "demo" none plain ≠ fresh {} .empty 0 "demo" none marked ∧
      ∃ python java, fresh {} .empty 0 "demo" none { plain with hint := some .python } = .ok python ∧
        fresh {} .empty 0 "demo" none { plain with hint := some .java } = .ok java ∧ python.symbols ≠ java.symbols := by
  intro tree plain marked
  have hparsed (f : SourceFile) (hc : f.content = some "") (ht : f.tree = some tree) :
      f.ParsedBy (fun _ _ => some tree) "" := ⟨hc, fun _ _ => ht⟩
  have hkey : plain.versionKey .empty = marked.versionKey .empty := rfl
  refine ⟨hkey, fun heq => ?_, _, _, rfl, rfl, fun heq => ?_⟩
  · have hiff := (fresh_of_same_key (fun _ _ => some tree) {} .empty 0 "demo" none (hparsed plain rfl rfl)
      (hparsed marked rfl rfl) (fun _ => rfl) rfl).1 hkey
    rcases hiff.mp heq with ⟨f, hf, -⟩ | ⟨-, hentry⟩
    · have hunknown : plain.language? = none := by decide
      rw [fresh_eq rfl, ofLoaded, hunknown] at hf
      cases hf
    · cases hentry
  · have hiff := (fresh_of_same_key (fun _ _ => some tree) {} .empty 0 "demo" none
      (hparsed { plain with hint := some .python } rfl rfl) (hparsed { plain with hint := some .java } rfl rfl)
      (fun _ => rfl) rfl).2 rfl _ _ rfl rfl
    cases hiff.mp heq

end Extraction

end CodeAtlas
