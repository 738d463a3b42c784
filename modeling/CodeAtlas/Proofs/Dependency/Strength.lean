/-
  More use never weakens a dependency.

  The lines of a text that ends with its last line are the first ones when text is appended, and they keep their
  numbers, so that an import is used in them as often as before (`count_append`).  A higher number of uses never lowers
  the score (`scoreOf_mono`), nor a higher score the strength (`rank_ofScore_mono`).  So every dependency of a file is
  still there when text is appended to it, and is no weaker (`appended_text_weakens_nothing`).
-/
import CodeAtlas.Proofs.Analysis.Order
import CodeAtlas.Proofs.Dependency.Usage
import CodeAtlas.Proofs.Text.Lines
import Mathlib.Tactic.Linarith
import Mathlib.Algebra.Order.Ring.Rat

namespace CodeAtlas

/-! ## Uses in a longer text -/

namespace Usage

variable {c : String}

/-- The lines outside of an import stay what they are when text is appended behind the last one. -/
theorem exists_linesOutside_append (i : Import) (hc : c = "" ∨ Text.endsWith c "\n" = true) (d : String) :
    ∃ more, linesOutside i (c ++ d) = linesOutside i c ++ more := by
  rcases hc with rfl | hc
  · have hnil : linesOutside i "" = [] := rfl
    exact ⟨linesOutside i d, by rw [String.empty_append, hnil, List.nil_append]⟩
  · obtain ⟨front, rfl⟩ := Text.endsWith_iff.mp hc
    unfold linesOutside
    rw [Text.lines_append_newline, List.zipIdx_append, List.filter_append, List.map_append]
    exact ⟨_, rfl⟩

/-- An import is used no less when text is appended. -/
theorem count_append (i : Import) (hc : c = "" ∨ Text.endsWith c "\n" = true) (d : String) :
    count c i ≤ count (c ++ d) i := by
  by_cases hne : usableNames i = []
  · unfold count
    dsimp only
    rw [hne]
    exact Nat.le_refl 1
  · obtain ⟨more, hmore⟩ := exists_linesOutside_append i hc d
    rw [count_eq_sum hne, count_eq_sum hne, hmore, List.map_append, List.sum_append]
    exact Nat.le_add_right _ _

end Usage

/-! ## Score and strength -/

namespace Dependency

theorem scoreOf_mono {u v : Nat} (h : u ≤ v) (kind : ImportKind) (conditional critical : Bool) :
    scoreOf u kind conditional critical ≤ scoreOf v kind conditional critical := by
  have hbase : mkRat (min u usageCap) 2 + kindWeight kind ≤ mkRat (min v usageCap) 2 + kindWeight kind := by
    have hcapped : ((min u usageCap : Nat) : Rat) ≤ (min v usageCap : Nat) := by
      exact_mod_cast min_le_min_right usageCap h
    rw [Rat.mkRat_eq_div, Rat.mkRat_eq_div]
    push_cast at hcapped ⊢
    linarith
  have hfactor : (0 : Rat) ≤ mkRat 3 5 := by decide
  have hweighed := mul_le_mul_of_nonneg_right hbase hfactor
  unfold scoreOf
  dsimp only
  cases conditional <;> cases critical <;> simp only [if_true, Bool.false_eq_true, if_false] <;> linarith

end Dependency

/-- A higher score never has a lower strength. -/
theorem Strength.rank_ofScore_mono {a b : Rat} (h : a ≤ b) : (ofScore a).rank ≤ (ofScore b).rank := by
  unfold ofScore
  split
  · exact Nat.zero_le _
  · rename_i hmedium
    rw [if_neg fun hb => hmedium (lt_of_le_of_lt h hb)]
    split
    · split
      · exact Nat.le_refl _
      · split <;> decide
    · rename_i hstrong
      rw [if_neg fun hb => hstrong (lt_of_le_of_lt h hb)]
      split
      · split <;> decide
      · rename_i hcritical
        rw [if_neg fun hb => hcritical (lt_of_le_of_lt h hb)]

/-! ## Dependencies of a longer file -/

/-- A file with text appended: it has the path and the language of the shorter one, and the imports of that are still
among its own. -/
structure Extraction.Extends (text : String) (e e' : Extraction) : Prop where
  path : e'.path = e.path
  language : e'.language = e.language
  content : e'.content = e.content ++ text
  imports : ∀ i ∈ e.symbols.imports, i ∈ e'.symbols.imports

/-- Two dependencies are one and the same, by the same import, and the second is of no less use and no weaker. -/
structure Dependency.AtMost (d d' : Dependency) : Prop where
  source : d'.source = d.source
  target : d'.target = d.target
  line : d'.line = d.line
  names : d'.names = d.names
  isConditional : d'.isConditional = d.isConditional
  external : d'.external = d.external
  usageCount : d.usageCount ≤ d'.usageCount
  strength : d.strength.rank ≤ d'.strength.rank

namespace Analysis

variable {index : FileIndex} {profiles profiles' : List FileProfile} {e e' : Extraction} {i : Import}
  {d d' : Dependency}

/-- An import that is used no less makes the same dependency, and no weaker one, whatever is known about the files. -/
theorem exists_atMost (hpath : e'.path = e.path) (hlanguage : e'.language = e.language)
    (hcount : Usage.count e.content i ≤ Usage.count e'.content i) (h : dependency? index profiles e i = some d) :
    ∃ d', dependency? index profiles' e' i = some d' ∧ d.AtMost d' := by
  have hstrength (critical : Bool) :
      (Strength.ofScore (Dependency.scoreOf (Usage.count e.content i) i.kind i.isConditional critical)).rank ≤
        (Strength.ofScore (Dependency.scoreOf (Usage.count e'.content i) i.kind i.isConditional critical)).rank :=
    Strength.rank_ofScore_mono (Dependency.scoreOf_mono hcount _ _ _)
  unfold dependency? at h ⊢
  dsimp only at h ⊢
  rw [hpath, hlanguage]
  split at h
  · rw [← Option.some.inj h]
    refine ⟨_, rfl, rfl, rfl, rfl, rfl, rfl, rfl, hcount, ?_⟩
    dsimp only
    exact hstrength _
  · rw [← Option.some.inj h]
    refine ⟨_, rfl, rfl, rfl, rfl, rfl, rfl, rfl, hcount, ?_⟩
    dsimp only
    exact hstrength _
  · cases h

/-- Marking cycles leaves all but the mark. -/
theorem atMost_marked (h : d.AtMost d') (circular circular' : String → String → Bool) :
    (marked circular d).AtMost (marked circular' d') := by
  obtain ⟨hsource, htarget, hline, hnames, hconditional, hexternal, husage, hstrength⟩ := h
  unfold marked
  split <;> split <;> exact ⟨hsource, htarget, hline, hnames, hconditional, hexternal, husage, hstrength⟩

variable {config : AnalysisConfig} {extractions before after : List Extraction} {text : String}

/-- The dependencies of a project are those of the imports of its files. -/
theorem mem_dependencies_iff : d ∈ (ofExtractions config extractions).dependencies ↔
    ∃ e ∈ extractions, ∃ i ∈ e.symbols.imports, ∃ found,
      dependency? (.ofPaths (listed extractions)) (profilesOf extractions) e i = some found ∧
        marked (Cycle.detect (arcs (resolveImports extractions (profilesOf extractions)).1)).isCircular found = d := by
  rw [dependencies_eq, List.mem_flatMap]
  unfold dependenciesIn dependenciesOf
  simp only [List.mem_map, List.mem_filterMap]
  constructor
  · rintro ⟨e, he, found, ⟨i, hi, hfound⟩, hd⟩
    exact ⟨e, he, i, hi, found, hfound, hd⟩
  · rintro ⟨e, he, i, hi, found, hfound, hd⟩
    exact ⟨e, he, found, ⟨i, hi, hfound⟩, hd⟩

theorem listed_extends (h : e.Extends text e') :
    listed (before ++ e' :: after) = listed (before ++ e :: after) := by
  unfold listed
  rw [List.map_append, List.map_append, List.map_cons, List.map_cons, h.path]

/-- Text that is appended to a file behind its last line weakens none of its uses: no import is used less, more use
never means less strength, and so every dependency of a project, with its strength at least, is one of the project with
the longer file. -/
theorem appended_text_weakens_nothing {c : String} (hc : c = "" ∨ Text.endsWith c "\n" = true) (text : String) :
    (∀ i, Usage.count c i ≤ Usage.count (c ++ text) i) ∧
      (∀ u v, u ≤ v → ∀ kind conditional critical,
        (Strength.ofScore (Dependency.scoreOf u kind conditional critical)).rank ≤
          (Strength.ofScore (Dependency.scoreOf v kind conditional critical)).rank) ∧
      ∀ config before after e e', e.content = c → e.Extends text e' →
        ∀ d ∈ (ofExtractions config (before ++ e :: after)).dependencies,
          ∃ d' ∈ (ofExtractions config (before ++ e' :: after)).dependencies, d.AtMost d' := by
  refine ⟨fun i => Usage.count_append i hc text,
    fun u v h _ _ _ => Strength.rank_ofScore_mono (Dependency.scoreOf_mono h _ _ _),
    fun config before after e e' hcontent hextends d hd => ?_⟩
  obtain ⟨f, hf, i, hi, found, hfound, rfl⟩ := mem_dependencies_iff.mp hd
  rw [← listed_extends hextends] at hfound
  -- the file of the dependency is another one, or the one to which text is appended
  have hfile : ∃ f' ∈ before ++ e' :: after, i ∈ f'.symbols.imports ∧ f'.path = f.path ∧ f'.language = f.language ∧
      Usage.count f.content i ≤ Usage.count f'.content i := by
    rcases List.mem_append.mp hf with hbefore | hrest
    · exact ⟨f, List.mem_append_left _ hbefore, hi, rfl, rfl, Nat.le_refl _⟩
    · rcases List.mem_cons.mp hrest with rfl | hafter
      · refine ⟨e', List.mem_append_right _ List.mem_cons_self, hextends.imports i hi, hextends.path,
          hextends.language, ?_⟩
        rw [hextends.content, hcontent]
        exact Usage.count_append i hc text
      · exact ⟨f, List.mem_append_right _ (List.mem_cons_of_mem _ hafter), hi, rfl, rfl, Nat.le_refl _⟩
  obtain ⟨f', hf', hi', hpath, hlanguage, hcount⟩ := hfile
  obtain ⟨found', hfound', hatMost⟩ := exists_atMost hpath hlanguage hcount hfound
  exact ⟨_, mem_dependencies_iff.mpr ⟨f', hf', i, hi', found', hfound', rfl⟩, atMost_marked hatMost _ _⟩

/-- A script that imports `ajax` from a package in its first line. -/
def scriptOf (content : String) : Extraction :=
  { path := "a.js", language := some .javascript, nodes := [], edges := [], references := []
    symbols := { SymbolSet.empty with imports := [Usage.importInFront "jquery" ["ajax"]] }, content
    entryPoint := false, degraded := false }

/-- An import statement alone. -/
def ajaxText : String :=
  "import { ajax } from 'jquery';\n"

/-- The unused import of a script is a weak dependency; a call behind it is a use, and the dependency is no weaker
then. -/
theorem appended_text_weakens_nothing_ajax :
    Text.endsWith ajaxText "\n" = true ∧ (scriptOf ajaxText).Extends "ajax(x);" (scriptOf (ajaxText ++ "ajax(x);")) ∧
      ∃ d ∈ (ofExtractions {} [scriptOf ajaxText]).dependencies,
        d.target = "jquery" ∧ d.usageCount = 0 ∧ d.strength = .weak ∧
          ∃ d' ∈ (ofExtractions {} [scriptOf (ajaxText ++ "ajax(x);")]).dependencies, d.AtMost d' := by
  have hends : Text.endsWith ajaxText "\n" = true := by decide
  have hextends : (scriptOf ajaxText).Extends "ajax(x);" (scriptOf (ajaxText ++ "ajax(x);")) :=
    ⟨rfl, rfl, rfl, fun _ hi => hi⟩
  have hcount : Usage.count ajaxText (Usage.importInFront "jquery" ["ajax"]) = 0 := by decide
  have hweak : Strength.ofScore (Dependency.scoreOf 0 .static false (Dependency.isCriticalPath "jquery")) = .weak := by
    decide +kernel
  have hresolve (index : FileIndex) : index.resolve "a.js" (some .javascript) "jquery" = .external "jquery" := by
    rfl
  have hfound (index : FileIndex) (profiles : List FileProfile) :
      ∃ d, dependency? index profiles (scriptOf ajaxText) (Usage.importInFront "jquery" ["ajax"]) = some d ∧
        d.external = true ∧ d.target = "jquery" ∧ d.usageCount = 0 ∧ d.strength = .weak := by
    unfold dependency?
    dsimp only
    rw [show index.resolve (scriptOf ajaxText).path (scriptOf ajaxText).language
      (Usage.importInFront "jquery" ["ajax"]).specifier = .external "jquery" from hresolve index]
    refine ⟨_, rfl, rfl, rfl, hcount, ?_⟩
    rw [show (scriptOf ajaxText).content = ajaxText from rfl, hcount]
    exact hweak
  obtain ⟨d, hd, hexternal, htarget, husage, hstrength⟩ := hfound (.ofPaths (listed [scriptOf ajaxText]))
    (profilesOf [scriptOf ajaxText])
  have hmem : d ∈ (ofExtractions {} [scriptOf ajaxText]).dependencies :=
    mem_dependencies_iff.mpr ⟨_, List.mem_singleton_self _, _, List.mem_singleton_self _, d, hd, by
      unfold marked
      rw [if_pos hexternal]⟩
  exact ⟨hends, hextends, d, hmem, htarget, husage, hstrength,
    (appended_text_weakens_nothing (Or.inr hends) "ajax(x);").2.2 {} [] [] _ _ rfl hextends d hmem⟩

end Analysis

end CodeAtlas
