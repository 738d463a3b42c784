/-
  Paths written in names.

  A path is plain when it consists of names with forward slashes between them: it is normalised already
  (`Plain.normalize_eq`) and its names give it back (`Plain.join_segments`).  The segments of a specifier lead from one
  directory to another (`follow?`), and joining a specifier to a directory is to follow them, as long as they do not lead
  out of the top (`joinRelative_eq`); what is joined neither begins nor ends with a slash.  Between two plain paths there
  is a specifier that leads up from the one and down to the other (`follow?_specifierOf`, `refers_canonicalSpecifier`).
-/
import CodeAtlas.Proofs.Resolve
import CodeAtlas.Resolve.Paths
import Mathlib.Data.List.Induction

namespace CodeAtlas.Path

/-- A segment that names a file or a directory. -/
def IsName (segment : String) : Prop :=
  segment ≠ "" ∧ segment ≠ "." ∧ segment ≠ ".."

instance : DecidablePred IsName :=
  fun _ => inferInstanceAs (Decidable (_ ∧ _))

/-- A path of names with forward slashes between them. -/
structure Plain (path : String) : Prop where
  names : ∀ s ∈ Text.splitChar '/' path, IsName s
  forward : '\\' ∉ path.toList

instance : DecidablePred Plain :=
  fun path => decidable_of_iff ((∀ s ∈ Text.splitChar '/' path, IsName s) ∧ '\\' ∉ path.toList)
    ⟨fun h => ⟨h.1, h.2⟩, fun h => ⟨h.names, h.forward⟩⟩

variable {path importer specifier : String} {dir names : List String}

theorem toList_slash : "/".toList = ['/'] := rfl

/-- Normalising a path again changes nothing. -/
theorem normalize_normalize (path : String) : normalize (normalize path) = normalize path := by
  have hchars : (normalize path).toList = Text.dropLeads "./".toList (forwardSlashes path).toList := String.toList_ofList
  refine normalize_eq_self (fun hback => ?_) ?_
  · rw [hchars] at hback
    have hforward := (Text.dropLeads_suffix _ _).subset hback
    rw [forwardSlashes, String.toList_ofList] at hforward
    obtain ⟨c, -, hc⟩ := List.mem_map.mp hforward
    split at hc
    · cases hc
    · rename_i hne
      exact hne (beq_iff_eq.mpr hc)
  · rw [Text.startsWith, hchars]
    exact Text.not_isPrefixOf_dropLeads (List.cons_ne_nil _ _) _

/-- The first segment of what begins with a name and a slash. -/
theorem splitChar_lead {segment : String} (h : '/' ∉ segment.toList) (rest : String) :
    Text.splitChar '/' (segment ++ "/" ++ rest) = segment :: Text.splitChar '/' rest := by
  rw [Text.splitChar_append toList_slash, Text.splitChar_of_notMem h, List.singleton_append]

/-! ## Segments -/

theorem Plain.segments_eq (h : Plain path) : segments path = Text.splitChar '/' path := by
  refine List.filter_eq_self.mpr fun s hs => ?_
  simpa using (h.names s hs).1

theorem Plain.segments_ne_nil (h : Plain path) : segments path ≠ [] := by
  rw [h.segments_eq]
  exact Text.splitChar_ne_nil '/' path

theorem Plain.isName (h : Plain path) {s : String} (hs : s ∈ segments path) : IsName s :=
  h.names s (h.segments_eq ▸ hs)

/-- The names of a path give it back. -/
theorem Plain.join_segments (h : Plain path) : Text.join "/" (segments path) = path := by
  rw [h.segments_eq, Text.join_splitChar toList_slash]

theorem of_mem_segments {s : String} (hs : s ∈ segments path) : s ≠ "" ∧ '/' ∉ s.toList := by
  obtain ⟨hsplit, hne⟩ := List.mem_filter.mp hs
  exact ⟨by simpa using hne, Text.notMem_of_mem_splitChar hsplit⟩

/-- Nothing about a plain path needs to be normalised. -/
theorem Plain.normalize_eq (h : Plain path) : normalize path = path := by
  refine normalize_eq_self h.forward (Bool.eq_false_iff.mpr fun hdot => ?_)
  obtain ⟨rest, hrest⟩ := Text.startsWith_iff.mp hdot
  have hfirst : "." ∈ Text.splitChar '/' path := by
    rw [hrest, show "./" = "." ++ "/" from rfl, splitChar_lead (by decide)]
    exact List.mem_cons_self
  exact (h.names "." hfirst).2.1 rfl

theorem Plain.not_startsWith (h : Plain path) : Text.startsWith path "/" = false := by
  refine Bool.eq_false_iff.mpr fun hstart => ?_
  obtain ⟨rest, hrest⟩ := Text.startsWith_iff.mp hstart
  have hfirst : "" ∈ Text.splitChar '/' path := by
    rw [hrest, show "/" ++ rest = "" ++ "/" ++ rest by rw [String.empty_append], splitChar_lead (by decide)]
    exact List.mem_cons_self
  exact (h.names "" hfirst).1 rfl

theorem segments_join (h : ∀ s ∈ names, s ≠ "" ∧ '/' ∉ s.toList) : segments (Text.join "/" names) = names := by
  by_cases hnil : names = []
  · subst hnil
    rfl
  · unfold segments
    rw [Text.splitChar_join toList_slash (fun s hs => (h s hs).2) hnil]
    exact List.filter_eq_self.mpr fun s hs => by simpa using (h s hs).1

/-- The directory of joined names. -/
theorem parent_join {name : String} (dirs : List String) (h : '/' ∉ name.toList) :
    parent (Text.join "/" (dirs ++ [name])) = Text.join "/" dirs := by
  unfold parent
  by_cases hnil : dirs = []
  · rw [hnil, List.nil_append, Text.join_singleton, Text.cutLast?_of_notMem toList_slash h]
    rfl
  · rw [Text.join_concat hnil, Text.cutLast?_append toList_slash _ h]

/-- The directory of a plain path has all of its names but the last. -/
theorem Plain.segments_parent (h : Plain path) : segments (parent path) = (segments path).dropLast := by
  obtain ⟨dirs, name, hsegments⟩ : ∃ dirs name, segments path = dirs ++ [name] :=
    ⟨_, _, (List.dropLast_append_getLast h.segments_ne_nil).symm⟩
  have hnames : ∀ s ∈ dirs ++ [name], s ≠ "" ∧ '/' ∉ s.toList := fun s hs => of_mem_segments (hsegments ▸ hs)
  have hpath : path = Text.join "/" (dirs ++ [name]) := by rw [← hsegments, h.join_segments]
  have hname : '/' ∉ name.toList := (hnames name (List.mem_append_right _ List.mem_cons_self)).2
  rw [hsegments, List.dropLast_concat, hpath, parent_join dirs hname]
  exact segments_join fun s hs => hnames s (List.mem_append_left _ hs)

/-! ## Following segments -/

/-- The directory, as the list of its names, to which segments lead from another one: an empty segment and `.` stay where
they are, `..` leads to the directory around, of which there is none at the top, and a name leads inside. -/
def follow? : List String → List String → Option (List String)
  | dir, [] => some dir
  | dir, segment :: rest =>
    if segment = "" ∨ segment = "." then follow? dir rest
    else if segment = ".." then if dir = [] then none else follow? dir.dropLast rest
    else follow? (dir ++ [segment]) rest

theorem foldl_pushSegment {dir steps : List String} {names : List String} (h : follow? dir steps = some names) :
    steps.foldl Resolve.pushSegment dir.reverse = names.reverse := by
  induction steps generalizing dir with
  | nil => rw [Option.some.inj h, List.foldl_nil]
  | cons segment rest ih =>
    have hstay : (segment == "" || segment == ".") = true ↔ segment = "" ∨ segment = "." := by simp
    unfold follow? at h
    rw [List.foldl_cons, Resolve.pushSegment]
    split at h
    case isTrue hsame =>
      rw [if_pos (hstay.mpr hsame)]
      exact ih h
    case isFalse hsame =>
      rw [if_neg (mt hstay.mp hsame)]
      split at h
      case isTrue hup =>
        rw [if_pos (beq_iff_eq.mpr hup), List.tail_reverse]
        split at h
        case isTrue => cases h
        case isFalse => exact ih h
      case isFalse hname =>
        rw [if_neg (mt beq_iff_eq.mp hname), ← List.reverse_concat]
        exact ih h

/-- A specifier is joined to a directory by following its segments. -/
theorem joinRelative_eq {dir : String} (h : follow? (segments dir) (Text.splitChar '/' specifier) = some names) :
    Resolve.joinRelative dir specifier = Text.join "/" names := by
  unfold Resolve.joinRelative
  dsimp only
  rw [foldl_pushSegment h, List.reverse_reverse]

/-- Names lead inside, one after the other. -/
theorem follow?_names (dir : List String) (hnames : ∀ s ∈ names, IsName s) : follow? dir names = some (dir ++ names) := by
  induction names generalizing dir with
  | nil => rw [follow?, List.append_nil]
  | cons name names ih =>
    obtain ⟨hempty, hdot, hdots⟩ := hnames name List.mem_cons_self
    rw [follow?, if_neg (not_or.mpr ⟨hempty, hdot⟩), if_neg hdots, ih _ fun s hs => hnames s (List.mem_cons_of_mem _ hs),
      List.append_assoc, List.singleton_append]

/-- As many `..` as there are names lead out of these. -/
theorem follow?_up (dir up rest : List String) :
    follow? (dir ++ up) (List.replicate up.length ".." ++ rest) = follow? dir rest := by
  induction up using List.reverseRecOn with
  | nil => simp
  | append_singleton up name ih =>
    rw [List.length_append, List.length_singleton, List.replicate_succ, List.cons_append, follow?, if_neg (by decide),
      if_pos rfl, if_neg (by simp), ← List.append_assoc, List.dropLast_concat, ih]

/-! ## What is joined -/

theorem mem_pushSegment {stack : List String} {segment s : String} (h : s ∈ Resolve.pushSegment stack segment) :
    s ∈ stack ∨ s = segment ∧ s ≠ "" := by
  unfold Resolve.pushSegment at h
  split at h
  case isTrue => exact Or.inl h
  case isFalse hname =>
    split at h
    case isTrue => exact Or.inl (List.mem_of_mem_tail h)
    case isFalse =>
      rcases List.mem_cons.mp h with rfl | hold
      · exact Or.inr ⟨rfl, fun hempty => hname (by rw [hempty]; rfl)⟩
      · exact Or.inl hold

theorem mem_foldl_pushSegment {stack steps : List String} {s : String} (h : s ∈ steps.foldl Resolve.pushSegment stack) :
    s ∈ stack ∨ s ∈ steps ∧ s ≠ "" := by
  induction steps generalizing stack with
  | nil => exact Or.inl h
  | cons segment rest ih =>
    rcases ih h with hstack | ⟨hrest, hne⟩
    · rcases mem_pushSegment hstack with hold | ⟨rfl, hne⟩
      · exact Or.inl hold
      · exact Or.inr ⟨List.mem_cons_self, hne⟩
    · exact Or.inr ⟨List.mem_cons_of_mem _ hrest, hne⟩

/-- What is joined consists of segments that are not empty. -/
theorem exists_joinRelative (dir specifier : String) :
    ∃ names, (∀ s ∈ names, s ≠ "" ∧ '/' ∉ s.toList) ∧ Resolve.joinRelative dir specifier = Text.join "/" names := by
  refine ⟨_, fun s hs => ?_, rfl⟩
  rcases mem_foldl_pushSegment (List.mem_reverse.mp hs) with hdir | ⟨hspecifier, hne⟩
  · exact of_mem_segments (List.mem_reverse.mp hdir)
  · exact ⟨hne, Text.notMem_of_mem_splitChar hspecifier⟩

/-- Segments that are not empty leave no slash at the ends of what they are joined to. -/
theorem empty_notMem_splitChar_join (h : ∀ s ∈ names, s ≠ "" ∧ '/' ∉ s.toList) (hne : Text.join "/" names ≠ "") :
    "" ∉ Text.splitChar '/' (Text.join "/" names) := by
  have hnil : names ≠ [] := fun hnil => hne (by rw [hnil]; rfl)
  rw [Text.splitChar_join toList_slash (fun s hs => (h s hs).2) hnil]
  exact fun hmem => (h "" hmem).1 rfl

theorem startsWith_joinRelative (dir specifier : String) :
    Text.startsWith (Resolve.joinRelative dir specifier) "/" = false := by
  obtain ⟨names, hnames, hjoined⟩ := exists_joinRelative dir specifier
  refine Bool.eq_false_iff.mpr fun hstart => ?_
  obtain ⟨rest, hrest⟩ := Text.startsWith_iff.mp hstart
  rw [hjoined] at hrest
  refine empty_notMem_splitChar_join hnames (fun hempty => ?_) ?_
  · exact absurd (String.append_eq_empty_iff.mp (hrest.symm.trans hempty)).1 (by decide)
  · rw [hrest, show "/" ++ rest = "" ++ "/" ++ rest by rw [String.empty_append], splitChar_lead (by decide)]
    exact List.mem_cons_self

theorem endsWith_joinRelative (dir specifier : String) :
    Text.endsWith (Resolve.joinRelative dir specifier) "/" = false := by
  obtain ⟨names, hnames, hjoined⟩ := exists_joinRelative dir specifier
  refine Bool.eq_false_iff.mpr fun hend => ?_
  obtain ⟨front, hfront⟩ := Text.endsWith_iff.mp hend
  rw [hjoined] at hfront
  refine empty_notMem_splitChar_join hnames (fun hempty => ?_) ?_
  · exact absurd (String.append_eq_empty_iff.mp (hfront.symm.trans hempty)).2 (by decide)
  · rw [hfront, ← String.append_empty (s := front ++ "/"), Text.splitChar_append toList_slash]
    exact List.mem_append_right _ List.mem_cons_self

/-! ## What a specifier means -/

/-- The path that a specifier means in a file.  The names of the directory of the file stand as they are, and a path from
the root leads to paths from the root. -/
def meant? (importer specifier : String) : Option String :=
  (follow? (segments (parent importer)) (Text.splitChar '/' specifier)).map fun names =>
    (if Text.startsWith importer "/" then "/" else "") ++ Text.join "/" names

theorem eq_of_meant? (h : meant? importer specifier = some path) :
    path = (if Text.startsWith importer "/" then "/" else "") ++ Resolve.joinRelative (parent importer) specifier := by
  obtain ⟨names, hfollow, rfl⟩ := Option.map_eq_some_iff.mp h
  rw [joinRelative_eq hfollow]

/-- What lies in a directory under a name. -/
def inside (dir name : String) : String :=
  if Text.endsWith dir "/" then dir ++ name else dir ++ "/" ++ name

/-! ## Specifiers between files -/

/-- So many steps up. -/
def climb : Nat → String
  | 0 => ""
  | levels + 1 => "../" ++ climb levels

/-- The specifier that leads up so many directories and down along names. -/
def specifierOf (levels : Nat) (names : List String) : String :=
  (if levels = 0 then "./" else climb levels) ++ Text.join "/" names

/-- Whether a specifier leads from a file to a path through some directory that both are in. -/
def Refers (importer path specifier : String) : Prop :=
  ∃ shared up names, (segments importer).dropLast = shared ++ up ∧ segments path = shared ++ names ∧
    specifier = specifierOf up.length names

/-- The specifier from a directory to the names of a path that goes up no further than to the innermost directory that
both are in. -/
def canonicalOf : List String → List String → String
  | d :: dir, t :: u :: names => if d = t then canonicalOf dir (u :: names) else specifierOf (dir.length + 1) (t :: u :: names)
  | dir, names => specifierOf dir.length names

/-- The canonical specifier of a path in a file. -/
def canonicalSpecifier (importer path : String) : String :=
  canonicalOf (segments importer).dropLast (segments path)

theorem exists_canonicalOf (dir names : List String) :
    ∃ shared up rest, dir = shared ++ up ∧ names = shared ++ rest ∧ canonicalOf dir names = specifierOf up.length rest := by
  fun_induction canonicalOf dir names with
  | case1 dir t u names ih =>
    obtain ⟨shared, up, rest, hdir, hnames, hcanonical⟩ := ih
    exact ⟨t :: shared, up, rest, by rw [hdir, List.cons_append], by rw [hnames, List.cons_append], hcanonical⟩
  | case2 d dir t u names hne => exact ⟨[], d :: dir, t :: u :: names, rfl, rfl, rfl⟩
  | case3 dir names => exact ⟨[], dir, names, rfl, rfl, rfl⟩

theorem refers_canonicalSpecifier (importer path : String) : Refers importer path (canonicalSpecifier importer path) :=
  exists_canonicalOf _ _

theorem splitChar_climb (levels : Nat) (rest : String) :
    Text.splitChar '/' (climb levels ++ rest) = List.replicate levels ".." ++ Text.splitChar '/' rest := by
  induction levels with
  | zero => rw [climb, String.empty_append, List.replicate_zero, List.nil_append]
  | succ levels ih =>
    rw [climb, String.append_assoc, show "../" = ".." ++ "/" from rfl, splitChar_lead (by decide), ih, List.replicate_succ,
      List.cons_append]

theorem follow?_splitChar_join (dir : List String) (hnames : ∀ s ∈ names, IsName s) (hslash : ∀ s ∈ names, '/' ∉ s.toList) :
    follow? dir (Text.splitChar '/' (Text.join "/" names)) = some (dir ++ names) := by
  by_cases hnil : names = []
  · subst hnil
    rw [List.append_nil]
    rfl
  · rw [Text.splitChar_join toList_slash hslash hnil, follow?_names dir hnames]

/-- A specifier that leads up out of some directories and down along names leads there. -/
theorem follow?_specifierOf (dir up : List String) (hnames : ∀ s ∈ names, IsName s)
    (hslash : ∀ s ∈ names, '/' ∉ s.toList) :
    follow? (dir ++ up) (Text.splitChar '/' (specifierOf up.length names)) = some (dir ++ names) := by
  unfold specifierOf
  split
  case isTrue hzero =>
    rw [List.length_eq_zero_iff.mp hzero, List.append_nil, show "./" = "." ++ "/" from rfl, splitChar_lead (by decide),
      follow?, if_pos (Or.inr rfl), follow?_splitChar_join dir hnames hslash]
  case isFalse =>
    rw [splitChar_climb, follow?_up, follow?_splitChar_join dir hnames hslash]

/-- A specifier that refers to a plain path is joined to it. -/
theorem Refers.joinRelative_eq (h : Refers importer path specifier) (himporter : Plain importer) (hpath : Plain path) :
    Resolve.joinRelative (parent importer) specifier = path := by
  obtain ⟨shared, up, names, hdir, hsegments, rfl⟩ := h
  have hmem : ∀ s ∈ names, s ∈ segments path := fun s hs => hsegments ▸ List.mem_append_right _ hs
  have hfollow := follow?_specifierOf shared up (fun s hs => hpath.isName (hmem s hs))
    fun s hs => (of_mem_segments (hmem s hs)).2
  rw [← hdir, ← himporter.segments_parent] at hfollow
  rw [Path.joinRelative_eq hfollow, ← hsegments, hpath.join_segments]

/-! ## Extensions -/

theorem exists_front_climb (levels : Nat) : ∃ front, climb (levels + 1) = front ++ "/" := by
  induction levels with
  | zero => exact ⟨"..", rfl⟩
  | succ levels ih =>
    obtain ⟨front, hfront⟩ := ih
    exact ⟨"../" ++ front, by rw [climb, hfront, String.append_assoc]⟩

/-- A specifier without names ends with a slash. -/
theorem exists_front_specifierOf (levels : Nat) : ∃ front, specifierOf levels [] = front ++ "/" := by
  unfold specifierOf
  rw [Text.join, String.intercalate_nil, String.append_empty]
  cases levels with
  | zero => exact ⟨".", rfl⟩
  | succ levels => exact exists_front_climb levels

/-- What is appended to joined names is appended to the last one. -/
theorem join_append (names : List String) (name rest : String) :
    Text.join "/" (names ++ [name]) ++ rest = Text.join "/" (names ++ [name ++ rest]) := by
  by_cases hnil : names = []
  · rw [hnil, List.nil_append, List.nil_append, Text.join_singleton, Text.join_singleton]
  · rw [Text.join_concat hnil, Text.join_concat hnil, String.append_assoc]

theorem specifierOf_append (levels : Nat) (names : List String) (name rest : String) :
    specifierOf levels (names ++ [name]) ++ rest = specifierOf levels (names ++ [name ++ rest]) := by
  unfold specifierOf
  rw [String.append_assoc, join_append]

/-- An extension belongs to the last name of a plain path. -/
theorem Plain.exists_segments_append {base extension : String} (h : Plain base) (hslash : '/' ∉ extension.toList) :
    ∃ dirs stem, segments base = dirs ++ [stem] ∧ segments (base ++ extension) = dirs ++ [stem ++ extension] := by
  obtain ⟨dirs, stem, hstem⟩ : ∃ dirs stem, segments base = dirs ++ [stem] :=
    ⟨_, _, (List.dropLast_append_getLast h.segments_ne_nil).symm⟩
  have hnames : ∀ s ∈ dirs ++ [stem], s ≠ "" ∧ '/' ∉ s.toList := fun s hs => of_mem_segments (hstem ▸ hs)
  obtain ⟨hdirs, hlast⟩ := List.forall_mem_append.mp hnames
  obtain ⟨hstemNe, hstemSlash⟩ := hlast stem List.mem_cons_self
  have happended : ∀ s ∈ dirs ++ [stem ++ extension], s ≠ "" ∧ '/' ∉ s.toList := by
    refine List.forall_mem_append.mpr ⟨hdirs, List.forall_mem_singleton.mpr ⟨?_, ?_⟩⟩
    · exact fun hempty => hstemNe (String.append_eq_empty_iff.mp hempty).1
    · rw [String.toList_append, List.mem_append, not_or]
      exact ⟨hstemSlash, hslash⟩
  refine ⟨dirs, stem, hstem, ?_⟩
  rw [← h.join_segments, hstem, join_append]
  exact segments_join happended

/-- A specifier without the extension of the path that it refers to refers to the path without the extension. -/
theorem Refers.dropExtension {base bare extension : String} (h : Refers importer (base ++ extension) (bare ++ extension))
    (hbase : Plain base) (hslash : '/' ∉ extension.toList) (hne : extension ≠ "") : Refers importer base bare := by
  obtain ⟨shared, up, names, hdir, hsegments, hspecifier⟩ := h
  obtain ⟨dirs, stem, hstem, hpath⟩ := hbase.exists_segments_append hslash
  rcases List.eq_nil_or_concat names with rfl | ⟨inner, name, rfl⟩
  · obtain ⟨front, hfront⟩ := exists_front_specifierOf up.length
    have hchars : bare.toList ++ extension.toList = front.toList ++ ['/'] := by
      rw [← String.toList_append, hspecifier, hfront, String.toList_append]
      rfl
    have hlast : (bare.toList ++ extension.toList).getLast? = some '/' := by
      rw [hchars, List.getLast?_concat]
    rw [List.getLast?_append_of_ne_nil _ (mt String.toList_eq_nil_iff.mp hne)] at hlast
    exact absurd (List.mem_of_getLast? hlast) hslash
  · rw [hpath, List.concat_eq_append, ← List.append_assoc] at hsegments
    obtain ⟨hdirs, hname⟩ := List.append_inj' hsegments rfl
    rw [List.concat_eq_append, ← List.singleton_inj.mp hname, ← specifierOf_append] at hspecifier
    exact ⟨shared, up, inner ++ [stem], hdir, by rw [hstem, hdirs, List.append_assoc],
      (String.append_left_inj extension).mp hspecifier⟩

theorem canonicalOf_cons (d t : String) (dir : List String) (hne : names ≠ []) :
    canonicalOf (d :: dir) (t :: names) =
      if d = t then canonicalOf dir names else specifierOf (dir.length + 1) (t :: names) := by
  obtain ⟨u, names, rfl⟩ := List.exists_cons_of_ne_nil hne
  rw [canonicalOf]

theorem canonicalOf_append (dir dirs : List String) (name rest : String) :
    canonicalOf dir (dirs ++ [name]) ++ rest = canonicalOf dir (dirs ++ [name ++ rest]) := by
  induction dirs generalizing dir with
  | nil =>
    cases dir with
    | nil => exact specifierOf_append _ [] name rest
    | cons d dir => exact specifierOf_append _ [] name rest
  | cons t dirs ih =>
    cases dir with
    | nil => exact specifierOf_append _ (t :: dirs) name rest
    | cons d dir =>
      rw [List.cons_append, List.cons_append, canonicalOf_cons d t dir (List.concat_ne_nil _ _),
        canonicalOf_cons d t dir (List.concat_ne_nil _ _)]
      split
      · exact ih dir
      · exact specifierOf_append _ (t :: dirs) name rest

/-- The canonical specifier of a path has the extension of the path at its end. -/
theorem canonicalSpecifier_append {base extension : String} (h : Plain base) (hslash : '/' ∉ extension.toList) :
    canonicalSpecifier importer (base ++ extension) = canonicalSpecifier importer base ++ extension := by
  obtain ⟨dirs, stem, hstem, hpath⟩ := h.exists_segments_append hslash
  rw [canonicalSpecifier, canonicalSpecifier, hpath, hstem, canonicalOf_append]

end CodeAtlas.Path
