/-
  Counting uses is counting words.

  A use begins and ends at word boundaries.  So a name that is made of word characters fits where a run of these begins
  exactly if it is the whole run (`fits_run`), inside a run nothing is looked for (`countFrom_inside`), and between the
  runs no name fits (`countFrom_between`).  Read run after run, a line has as many uses as runs that are names
  (`countFrom_eq_countP`).  The lines of the import are left out (`countLines_eq`), which gives the main result,
  `usage_counts_words`.
-/
import CodeAtlas.Dependency.Usage
import CodeAtlas.Proofs.Text.Runs
import Mathlib.Algebra.BigOperators.Group.List.Defs
import Mathlib.Algebra.GroupWithZero.Nat

namespace CodeAtlas.Usage

variable {names : List (List Char)} {name run rest : List Char} {prev : Option Char} {c : Char} {i : Import}

/-! ## Names and lines -/

theorem mem_usableNames : name ∈ usableNames i ↔ ∃ s ∈ i.names, s ≠ "*" ∧ s ≠ "" ∧ s.toList = name := by
  unfold usableNames
  simp [and_assoc]

theorem nil_notMem_usableNames (i : Import) : [] ∉ usableNames i := by
  intro h
  obtain ⟨s, -, -, hne, hnil⟩ := mem_usableNames.mp h
  exact hne (String.toList_eq_nil_iff.mp hnil)

/-- The lines of a text before and behind an import statement. -/
def linesOutside (i : Import) (content : String) : List String :=
  (((Text.lines content).zipIdx 1).filter fun l => l.2 < i.line || max i.line i.endLine < l.2).map (·.1)

theorem not_spansLine (i : Import) (line : Nat) :
    (!i.spansLine line) = (decide (line < i.line) || decide (max i.line i.endLine < line)) := by
  unfold Import.spansLine
  rw [Bool.not_and, ← decide_not, ← decide_not, Nat.max_comm]
  simp only [Nat.not_le]

theorem countLines_eq (i : Import) (names : List (List Char)) (line : Nat) (lines : List String) :
    countLines i names line lines =
      (((lines.zipIdx line).filter fun l => l.2 < i.line || max i.line i.endLine < l.2).map
        fun l => countLine names l.1).sum := by
  induction lines generalizing line with
  | nil => rfl
  | cons l lines ih =>
    rw [countLines, ih, List.zipIdx_cons]
    cases hspans : i.spansLine line with
    | true =>
      rw [List.filter_cons_of_neg (by rw [← not_spansLine, hspans]; exact Bool.false_ne_true), if_pos rfl, Nat.zero_add]
    | false =>
      rw [List.filter_cons_of_pos (by rw [← not_spansLine, hspans]; rfl), List.map_cons, List.sum_cons,
        if_neg Bool.false_ne_true]

/-- The uses of an import are those in the lines outside of it. -/
theorem count_eq_sum (hne : usableNames i ≠ []) (content : String) :
    count content i = ((linesOutside i content).map (countLine (usableNames i))).sum := by
  unfold count linesOutside
  dsimp only
  rw [if_neg (mt List.isEmpty_iff.mp hne), countLines_eq, List.map_map]
  rfl

/-! ## One line -/

/-- Where a name fits at a word boundary, it is counted and passed over. -/
theorem countFrom_of_fits (hboundary : isBoundary prev (some c) = true)
    (hfind : names.find? (fits (c :: rest)) = some name) :
    countFrom names prev 0 (c :: rest) = 1 + countFrom names (some c) (name.length - 1) rest := by
  rw [countFrom, if_pos hboundary, hfind]

/-- Without a word boundary or a name that fits, the next character is looked at. -/
theorem countFrom_of_not (h : isBoundary prev (some c) = true → names.find? (fits (c :: rest)) = none) :
    countFrom names prev 0 (c :: rest) = countFrom names (some c) 0 rest := by
  rw [countFrom]
  split
  · rename_i hfound
    split at hfound
    · rename_i hboundary
      rw [h hboundary] at hfound
      cases hfound
    · cases hfound
  · rfl

/-- What is passed over is as good as read. -/
theorem countFrom_skip (names : List (List Char)) (prev : Option Char) (front rest : List Char) :
    countFrom names prev front.length (front ++ rest) = countFrom names (front.getLast?.or prev) 0 rest := by
  induction front generalizing prev with
  | nil => rfl
  | cons c front ih =>
    rw [List.length_cons, List.cons_append, countFrom, ih, List.getLast?_cons]
    cases front.getLast? <;> rfl

theorem fits_iff {text : List Char} :
    fits text name = true ↔ ∃ rest, text = name ++ rest ∧ isBoundary name.getLast? rest.head? = true := by
  unfold fits
  rw [Bool.and_eq_true, List.isPrefixOf_iff_prefix]
  constructor
  · rintro ⟨⟨rest, rfl⟩, hboundary⟩
    rw [List.drop_left] at hboundary
    exact ⟨rest, rfl, hboundary⟩
  · rintro ⟨rest, rfl, hboundary⟩
    rw [List.drop_left]
    exact ⟨List.prefix_append _ _, hboundary⟩

/-- A word fits where a run of word characters begins exactly if it is the run. -/
theorem fits_run (hne : name ≠ []) (hname : ∀ c ∈ name, Text.isWordChar c = true)
    (hrun : ∀ c ∈ run, Text.isWordChar c = true) (hrest : rest.head?.any Text.isWordChar = false) :
    fits (run ++ rest) name = true ↔ name = run := by
  have hlast : name.getLast?.any Text.isWordChar = true := by
    rw [List.getLast?_eq_some_getLast hne]
    exact hname _ (List.getLast_mem hne)
  rw [fits_iff]
  constructor
  · rintro ⟨tail, heq, hboundary⟩
    have htail : tail.head?.any Text.isWordChar = false := by
      unfold isBoundary at hboundary
      rw [hlast] at hboundary
      simpa using hboundary
    -- the longer of the two has a word character where the other one ends
    rcases List.append_eq_append_iff.mp heq with ⟨more, hmore, hrest'⟩ | ⟨more, hmore, htail'⟩
    · cases more with
      | nil => rw [hmore, List.append_nil]
      | cons c more =>
        have hc := hname c (by rw [hmore]; simp)
        rw [hrest'] at hrest
        exact Bool.noConfusion (hc.symm.trans hrest)
    · cases more with
      | nil => rw [hmore, List.append_nil]
      | cons c more =>
        have hc := hrun c (by rw [hmore]; simp)
        rw [htail'] at htail
        exact Bool.noConfusion (hc.symm.trans htail)
  · rintro rfl
    refine ⟨rest, rfl, ?_⟩
    unfold isBoundary
    rw [hlast, hrest]
    rfl

/-- Inside a run of word characters there is no boundary. -/
theorem countFrom_inside (hprev : prev.any Text.isWordChar = true) (hrun : ∀ c ∈ run, Text.isWordChar c = true)
    (rest : List Char) : countFrom names prev 0 (run ++ rest) = countFrom names (run.getLast?.or prev) 0 rest := by
  induction run generalizing prev with
  | nil => rfl
  | cons c run ih =>
    obtain ⟨hc, hrun⟩ := List.forall_mem_cons.mp hrun
    have hnone : isBoundary prev (some c) = true → names.find? (fits (c :: (run ++ rest))) = none := by
      unfold isBoundary
      rw [hprev, Option.any_some, hc]
      exact fun h => Bool.noConfusion h
    rw [List.cons_append, countFrom_of_not hnone, ih (show (some c).any Text.isWordChar = true from hc) hrun,
      List.getLast?_cons]
    cases run.getLast? <;> rfl

section Words

variable (hnil : [] ∉ names) (hwords : ∀ n ∈ names, ∀ c ∈ n, Text.isWordChar c = true)

include hnil hwords

/-- No word fits where a character stands that belongs to none. -/
theorem countFrom_between (hc : Text.isWordChar c = false) (prev : Option Char) (rest : List Char) :
    countFrom names prev 0 (c :: rest) = countFrom names (some c) 0 rest := by
  refine countFrom_of_not fun _ => List.find?_eq_none.mpr fun name hname hfits => ?_
  obtain ⟨tail, heq, -⟩ := fits_iff.mp hfits
  cases name with
  | nil => exact hnil hname
  | cons d name =>
    have hd := hwords _ hname d List.mem_cons_self
    rw [← (List.cons.inj heq).1, hc] at hd
    cases hd

/-- A run of word characters is one use if it is a name, and none otherwise. -/
theorem countFrom_run (hprev : prev.any Text.isWordChar = false) (hne : run ≠ [])
    (hrun : ∀ c ∈ run, Text.isWordChar c = true) (hrest : rest.head?.any Text.isWordChar = false) :
    countFrom names prev 0 (run ++ rest) = (if run ∈ names then 1 else 0) + countFrom names run.getLast? 0 rest := by
  have hfits : ∀ n ∈ names, (fits (run ++ rest) n = true ↔ n = run) := fun n hn =>
    fits_run (fun h => hnil (h ▸ hn)) (hwords n hn) hrun hrest
  cases run with
  | nil => exact absurd rfl hne
  | cons c run =>
    obtain ⟨hc, htail⟩ := List.forall_mem_cons.mp hrun
    have hlast : (c :: run).getLast? = run.getLast?.or (some c) := by
      rw [List.getLast?_cons]
      cases run.getLast? <;> rfl
    rw [hlast]
    by_cases hmem : c :: run ∈ names
    · have hboundary : isBoundary prev (some c) = true := by
        unfold isBoundary
        rw [hprev, Option.any_some, hc]
        rfl
      have hfind : names.find? (fits (c :: (run ++ rest))) = some (c :: run) := by
        cases hfound : names.find? (fits (c :: (run ++ rest))) with
        | none => exact absurd ((hfits _ hmem).mpr rfl) (List.find?_eq_none.mp hfound _ hmem)
        | some name => rw [(hfits name (List.mem_of_find?_eq_some hfound)).mp (List.find?_some hfound)]
      rw [List.cons_append, countFrom_of_fits hboundary hfind, List.length_cons, Nat.add_sub_cancel, countFrom_skip,
        if_pos hmem]
    · have hnone : names.find? (fits (c :: (run ++ rest))) = none :=
        List.find?_eq_none.mpr fun n hn h => hmem ((hfits n hn).mp h ▸ hn)
      rw [List.cons_append, countFrom_of_not fun _ => hnone,
        countFrom_inside (show (some c).any Text.isWordChar = true from hc) htail, if_neg hmem, Nat.zero_add]

/-- The uses in a text are the runs of word characters that are names. -/
theorem countFrom_eq_countP (hprev : prev.any Text.isWordChar = false) (text : List Char) :
    countFrom names prev 0 text = (Text.runs Text.isWordChar text).countP fun run => run ∈ names := by
  induction text using Text.runs_induction (p := Text.isWordChar) generalizing prev with
  | last run hrun =>
    by_cases hne : run = []
    · rw [hne]
      rfl
    · have hend : ([] : List Char).head?.any Text.isWordChar = false := rfl
      have hone := countFrom_run hnil hwords hprev hne hrun hend
      rw [List.append_nil] at hone
      rw [hone, Text.runs_of_forall hrun hne, List.countP_singleton]
      simp only [countFrom, decide_eq_true_eq, Nat.add_zero]
  | next run c rest hrun hc ih =>
    have hnext : countFrom names (some c) 0 rest =
        (Text.runs Text.isWordChar rest).countP fun run => run ∈ names := ih hc
    have hend : (c :: rest).head?.any Text.isWordChar = false := hc
    rw [Text.runs_append hc, List.countP_append]
    by_cases hne : run = []
    · rw [hne, List.nil_append, countFrom_between hnil hwords hc, hnext, Text.runs_nil, List.countP_nil, Nat.zero_add]
    · rw [countFrom_run hnil hwords hprev hne hrun hend, countFrom_between hnil hwords hc, hnext,
        Text.runs_of_forall hrun hne, List.countP_singleton]
      simp only [decide_eq_true_eq]

end Words

/-! ## All lines -/

/-- The uses of an import whose names are words are the words outside of the import that are one of its names, whatever
the order of the names, however often each is listed, and whether or not one begins with another. -/
theorem usage_counts_words (content : String) (i : Import) (hne : usableNames i ≠ [])
    (hwords : ∀ n ∈ usableNames i, ∀ c ∈ n, Text.isWordChar c = true) :
    count content i = ((linesOutside i content).map fun line =>
        (Text.runs Text.isWordChar line.toList).countP fun run => run ∈ usableNames i).sum ∧
      ∀ j : Import, j.line = i.line → max j.line j.endLine = max i.line i.endLine →
        (∀ n, n ∈ usableNames j ↔ n ∈ usableNames i) → count content j = count content i := by
  have hcount (k : Import) (hsame : ∀ n, n ∈ usableNames k ↔ n ∈ usableNames i) :
      count content k = ((linesOutside k content).map fun line =>
        (Text.runs Text.isWordChar line.toList).countP fun run => run ∈ usableNames i).sum := by
    have hnek : usableNames k ≠ [] := by
      obtain ⟨n, hn⟩ := List.exists_mem_of_ne_nil _ hne
      exact List.ne_nil_of_mem ((hsame n).mpr hn)
    rw [count_eq_sum hnek]
    refine congrArg List.sum (List.map_congr_left fun line _ => ?_)
    unfold countLine
    rw [countFrom_eq_countP (nil_notMem_usableNames k) (fun n hn => hwords n ((hsame n).mp hn)) rfl]
    simp only [hsame]
  refine ⟨hcount i fun _ => Iff.rfl, fun j hline hend hsame => ?_⟩
  rw [hcount j hsame, hcount i fun _ => Iff.rfl]
  unfold linesOutside
  rw [hline, ← hend, hline]

/-- A static import of some names in the first line. -/
def importInFront (specifier : String) (names : List String) : Import :=
  { specifier, names, kind := .static, line := 1, endLine := 1, isConditional := false }

/-- A text in which two names, of which one begins with the other, are used three times. -/
def loginText : String :=
  "import { log, login } from './auth';\nlogin(x);\nlog(login, logins);\n"

theorem usage_counts_words_login :
    usableNames (importInFront "./auth" ["log", "login"]) ≠ [] ∧
      (∀ n ∈ usableNames (importInFront "./auth" ["log", "login"]), ∀ c ∈ n, Text.isWordChar c = true) ∧
      count loginText (importInFront "./auth" ["log", "login"]) = 3 ∧
      count loginText (importInFront "./auth" ["login", "*", "log", "login"]) = 3 := by
  have hne : usableNames (importInFront "./auth" ["log", "login"]) ≠ [] := by decide
  have hall : ((usableNames (importInFront "./auth" ["log", "login"])).all fun n => n.all Text.isWordChar) = true := by
    decide
  have hwords : ∀ n ∈ usableNames (importInFront "./auth" ["log", "login"]), ∀ c ∈ n, Text.isWordChar c = true :=
    fun n hn => List.all_eq_true.mp (List.all_eq_true.mp hall n hn)
  have hnames : usableNames (importInFront "./auth" ["login", "*", "log", "login"]) =
      "login".toList :: usableNames (importInFront "./auth" ["log", "login"]) := by decide
  have hlogin : "login".toList ∈ usableNames (importInFront "./auth" ["log", "login"]) := by decide
  have hsame : ∀ n, n ∈ usableNames (importInFront "./auth" ["login", "*", "log", "login"]) ↔
      n ∈ usableNames (importInFront "./auth" ["log", "login"]) := by
    intro n
    rw [hnames, List.mem_cons]
    exact or_iff_right_of_imp fun h => h ▸ hlogin
  obtain ⟨hcount, horder⟩ := usage_counts_words loginText _ hne hwords
  have hthree : count loginText (importInFront "./auth" ["log", "login"]) = 3 := hcount.trans (by decide)
  exact ⟨hne, hwords, hthree,
    (horder (importInFront "./auth" ["login", "*", "log", "login"]) rfl rfl hsame).trans hthree⟩

end CodeAtlas.Usage
