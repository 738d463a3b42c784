/-
  Depth-first search with a greatest depth.

  `Search` is the search without fuel: which files it meets, and at which depths.  It meets each file once, within the
  greatest depth and over a chain of that many steps (`Search.nodup`, `Search.depth_le`, `Search.chain`), and all that
  files met before the greatest depth lead to (`Search.closed`).  Among finitely many files it always comes to an end,
  and the recursion with enough fuel computes what it meets (`computes_visit`).  Where no chain of different files is
  longer than the greatest depth, it is depth-first search without a bound (`Search.depthFirst`).
-/
import CodeAtlas.Proofs.Chain
import CodeAtlas.Proofs.Dependency
import Mathlib.Data.Finset.Card

namespace CodeAtlas.Flow

/-- A search goes to files in their order at a depth when some files are met already, and meets further files, each at its
depth. It passes by what is too deep or met already. -/
inductive Search (next : String → List String) (maxDepth : Nat) :
    (depth : Nat) → (met todo : List String) → (rows : List (String × Nat)) → Prop where
  | done {depth : Nat} {met : List String} : Search next maxDepth depth met [] []
  | pass {depth : Nat} {met rest : List String} {file : String} {rows : List (String × Nat)}
      (blocked : maxDepth < depth ∨ file ∈ met) (further : Search next maxDepth depth met rest rows) :
      Search next maxDepth depth met (file :: rest) rows
  | visit {depth : Nat} {met rest : List String} {file : String} {below rows : List (String × Nat)}
      (shallow : depth ≤ maxDepth) (new : file ∉ met)
      (deeper : Search next maxDepth (depth + 1) (met ++ [file]) (next file) below)
      (further : Search next maxDepth depth (met ++ file :: below.map (·.1)) rest rows) :
      Search next maxDepth depth met (file :: rest) ((file, depth) :: (below ++ rows))

/-- Depth-first search without a bound: the files that it meets in pre-order. -/
inductive DepthFirst (next : String → List String) : (met todo order : List String) → Prop where
  | done {met : List String} : DepthFirst next met [] []
  | pass {met rest order : List String} {file : String} (known : file ∈ met) (further : DepthFirst next met rest order) :
      DepthFirst next met (file :: rest) order
  | visit {met rest below order : List String} {file : String} (new : file ∉ met)
      (deeper : DepthFirst next (met ++ [file]) (next file) below)
      (further : DepthFirst next (met ++ file :: below) rest order) :
      DepthFirst next met (file :: rest) (file :: (below ++ order))

/-- Files of which each is met once stay so with a new one. -/
theorem nodup_append_new {met : List String} {file : String} (hmet : met.Nodup) (hnew : file ∉ met) :
    (met ++ [file]).Nodup :=
  List.nodup_append.mpr ⟨hmet, List.nodup_singleton file, fun _ ha _ hb hab =>
    hnew (List.mem_singleton.mp hb ▸ hab ▸ ha)⟩

/-- No more files are met than there are. -/
theorem length_le_card {files : Finset String} {met : List String} (hmet : met.Nodup) (hknown : ∀ f ∈ met, f ∈ files) :
    met.length ≤ files.card := by
  rw [← List.toFinset_card_of_nodup hmet]
  exact Finset.card_le_card fun f hf => hknown f (List.mem_toFinset.mp hf)

variable {next : String → List String} {maxDepth depth : Nat} {met todo : List String} {rows : List (String × Nat)}

namespace Search

/-! ## What a search meets -/

/-- Each file is met once. -/
theorem nodup (h : Search next maxDepth depth met todo rows) (hmet : met.Nodup) : (met ++ rows.map (·.1)).Nodup := by
  induction h with
  | done => simpa using hmet
  | pass _ _ ih => exact ih hmet
  | @visit depth met rest file below rows _ hnew _ _ ihbelow ih =>
    have hbelow : (met ++ file :: below.map (·.1)).Nodup := by simpa using ihbelow (nodup_append_new hmet hnew)
    simpa using ih hbelow

theorem depth_le (h : Search next maxDepth depth met todo rows) : ∀ r ∈ rows, r.2 ≤ maxDepth := by
  induction h with
  | done => exact fun r hr => absurd hr List.not_mem_nil
  | pass _ _ ih => exact ih
  | visit hshallow _ _ _ ihbelow ih => exact List.forall_mem_cons.mpr ⟨hshallow, List.forall_mem_append.mpr ⟨ihbelow, ih⟩⟩

/-- A file is met at the end of a chain of as many steps as its depth. -/
theorem chain (start : String) (h : Search next maxDepth depth met todo rows)
    (htodo : ∀ file ∈ todo, Chain (fun a b => b ∈ next a) start depth file) :
    ∀ r ∈ rows, Chain (fun a b => b ∈ next a) start r.2 r.1 := by
  induction h with
  | done => exact fun r hr => absurd hr List.not_mem_nil
  | pass _ _ ih => exact ih fun file hfile => htodo file (List.mem_cons_of_mem _ hfile)
  | visit _ _ _ _ ihbelow ih =>
    have hfile := htodo _ List.mem_cons_self
    refine List.forall_mem_cons.mpr ⟨hfile, List.forall_mem_append.mpr ⟨?_, ?_⟩⟩
    · exact ihbelow fun file hnext => hfile.next hnext
    · exact ih fun file hrest => htodo file (List.mem_cons_of_mem _ hrest)

/-- Whatever goes over to the next files holds of all that is met. -/
theorem of_mem {P : String → Prop} (hnext : ∀ f, P f → ∀ g ∈ next f, P g)
    (h : Search next maxDepth depth met todo rows) (htodo : ∀ f ∈ todo, P f) : ∀ f ∈ rows.map (·.1), P f := by
  induction h with
  | done => exact fun f hf => absurd hf List.not_mem_nil
  | pass _ _ ih => exact ih fun f hf => htodo f (List.mem_cons_of_mem _ hf)
  | visit _ _ _ _ ihbelow ih =>
    have hfile := htodo _ List.mem_cons_self
    rw [List.map_cons, List.map_append]
    refine List.forall_mem_cons.mpr ⟨hfile, List.forall_mem_append.mpr ⟨ihbelow (hnext _ hfile), ?_⟩⟩
    exact ih fun f hf => htodo f (List.mem_cons_of_mem _ hf)

/-- Nothing that a search goes to within the greatest depth stays unmet. -/
theorem covers (h : Search next maxDepth depth met todo rows) (hdepth : depth ≤ maxDepth) :
    ∀ file ∈ todo, file ∈ met ++ rows.map (·.1) := by
  induction h with
  | done => exact fun file hfile => absurd hfile List.not_mem_nil
  | @pass depth met rest file rows hblocked _ ih =>
    have hmet : file ∈ met := hblocked.resolve_left (Nat.not_lt.mpr hdepth)
    exact List.forall_mem_cons.mpr ⟨List.mem_append_left _ hmet, ih hdepth⟩
  | @visit depth met rest file below rows _ _ _ _ _ ih =>
    refine List.forall_mem_cons.mpr ⟨by simp, fun f hf => ?_⟩
    have hmem := ih hdepth f hf
    simpa [or_assoc] using hmem

/-- What a file met before the greatest depth leads to is met. -/
theorem closed (h : Search next maxDepth depth met todo rows) :
    ∀ r ∈ rows, r.2 < maxDepth → ∀ file ∈ next r.1, file ∈ met ++ rows.map (·.1) := by
  induction h with
  | done => exact fun r hr => absurd hr List.not_mem_nil
  | pass _ _ ih => exact ih
  | @visit depth met rest file below rows _ _ hdeeper _ ihbelow ih =>
    have hbelow (f : String) : f ∈ met ++ [file] ++ below.map (·.1) ↔ f ∈ met ++ file :: below.map (·.1) := by simp
    have hall (f : String) : f ∈ met ++ ((file, depth) :: (below ++ rows)).map (·.1) ↔
        f ∈ met ++ file :: below.map (·.1) ∨ f ∈ rows.map (·.1) := by simp [or_assoc]
    refine List.forall_mem_cons.mpr ⟨fun hdepth f hf => ?_, List.forall_mem_append.mpr ⟨?_, ?_⟩⟩
    · exact (hall f).mpr (Or.inl ((hbelow f).mp (hdeeper.covers hdepth f hf)))
    · exact fun r hr hdepth f hf => (hall f).mpr (Or.inl ((hbelow f).mp (ihbelow r hr hdepth f hf)))
    · exact fun r hr hdepth f hf => (hall f).mpr (List.mem_append.mp (ih r hr hdepth f hf))

/-- A file is among those that the search goes to at first, or an earlier file leads to it. -/
theorem previous (h : Search next maxDepth depth met todo rows) {before after : List String} {file : String}
    (hsplit : rows.map (·.1) = before ++ file :: after) : file ∈ todo ∨ ∃ f ∈ before, file ∈ next f := by
  induction h generalizing before after with
  | done => simp at hsplit
  | pass _ _ ih => exact (ih hsplit).imp_left (List.mem_cons_of_mem _)
  | @visit depth met rest first below rows _ _ _ _ ihbelow ih =>
    rw [List.map_cons, List.map_append] at hsplit
    cases before with
    | nil => exact Or.inl ((List.cons.inj hsplit).1 ▸ List.mem_cons_self)
    | cons head before =>
      obtain ⟨rfl, htail⟩ := List.cons.inj hsplit
      rcases List.append_eq_append_iff.mp htail with ⟨more, rfl, hrows⟩ | ⟨more, hbelow, hmore⟩
      · rcases ih hrows with hrest | ⟨f, hf, hnext⟩
        · exact Or.inl (List.mem_cons_of_mem _ hrest)
        · exact Or.inr ⟨f, List.mem_cons_of_mem _ (List.mem_append_right _ hf), hnext⟩
      · cases more with
        | nil =>
          have hhead : rows.map (·.1) = [] ++ file :: after := hmore.symm
          rcases ih hhead with hrest | ⟨f, hf, -⟩
          · exact Or.inl (List.mem_cons_of_mem _ hrest)
          · exact absurd hf List.not_mem_nil
        | cons file' more =>
          obtain ⟨rfl, -⟩ := List.cons.inj hmore
          rcases ihbelow hbelow with hnext | ⟨f, hf, hnext⟩
          · exact Or.inr ⟨_, List.mem_cons_self, hnext⟩
          · exact Or.inr ⟨f, List.mem_cons_of_mem _ hf, hnext⟩

/-- At a depth as many files lie behind: there are more rows than the depth of any of them. -/
theorem depth_lt (h : Search next maxDepth depth met todo rows) (hdepth : depth ≤ met.length) :
    ∀ r ∈ rows, r.2 < met.length + rows.length := by
  induction h with
  | done => exact fun r hr => absurd hr List.not_mem_nil
  | pass _ _ ih => exact ih hdepth
  | visit _ _ _ _ ihbelow ih =>
    simp only [List.length_append, List.length_cons, List.length_map, List.length_nil] at ihbelow ih ⊢
    refine List.forall_mem_cons.mpr ⟨by dsimp only; omega, List.forall_mem_append.mpr ⟨fun r hr => ?_, fun r hr => ?_⟩⟩
    · have hlt := ihbelow (by omega) r hr
      omega
    · have hlt := ih (by omega) r hr
      omega

/-- The bound on the depth does not show where a chain of different files is never longer: all that can be met lies in a
set that has at most one file more than the greatest depth. -/
theorem depthFirst (files : Finset String) (hnext : ∀ f ∈ files, ∀ g ∈ next f, g ∈ files)
    (hfew : files.card ≤ maxDepth + 1) (h : Search next maxDepth depth met todo rows) (hmet : met.Nodup)
    (hknown : ∀ f ∈ met, f ∈ files) (htodo : ∀ f ∈ todo, f ∈ files) (hdepth : depth ≤ met.length) :
    DepthFirst next met todo (rows.map (·.1)) := by
  induction h with
  | done => exact .done
  | @pass depth met rest file rows hblocked _ ih =>
    refine .pass ?_ (ih hmet hknown (fun f hf => htodo f (List.mem_cons_of_mem _ hf)) hdepth)
    by_contra hnew
    -- the files met and this one are more than the greatest depth allows
    have hall : ∀ f ∈ met ++ [file], f ∈ files :=
      List.forall_mem_append.mpr ⟨hknown, List.forall_mem_singleton.mpr (htodo file List.mem_cons_self)⟩
    have hmany := length_le_card (nodup_append_new hmet hnew) hall
    rw [List.length_append, List.length_singleton] at hmany
    have hdeep := hblocked.resolve_right hnew
    omega
  | @visit depth met rest file below rows _ hnew hdeeper _ ihbelow ih =>
    have hfile := htodo file List.mem_cons_self
    have hmore := nodup_append_new hmet hnew
    have hbelow : ∀ f ∈ below.map (·.1), f ∈ files := hdeeper.of_mem hnext (hnext file hfile)
    rw [List.map_cons, List.map_append]
    refine .visit hnew (ihbelow hmore ?_ (hnext file hfile) ?_) (ih ?_ ?_ ?_ ?_)
    · exact List.forall_mem_append.mpr ⟨hknown, List.forall_mem_singleton.mpr hfile⟩
    · rw [List.length_append, List.length_singleton]
      exact Nat.succ_le_succ hdepth
    · simpa using hdeeper.nodup hmore
    · exact List.forall_mem_append.mpr ⟨hknown, List.forall_mem_cons.mpr ⟨hfile, hbelow⟩⟩
    · exact fun f hf => htodo f (List.mem_cons_of_mem _ hf)
    · rw [List.length_append]
      exact Nat.le_trans hdepth (Nat.le_add_right ..)

/-! ## The recursion -/

/-- A search meets the same however it is carried out. -/
theorem unique {rows' : List (String × Nat)} (h : Search next maxDepth depth met todo rows)
    (h' : Search next maxDepth depth met todo rows') : rows = rows' := by
  induction h generalizing rows' with
  | done =>
    cases h'
    rfl
  | pass hblocked _ ih =>
    cases h' with
    | pass _ hfurther => exact ih hfurther
    | visit hshallow hnew => exact absurd hblocked (not_or.mpr ⟨Nat.not_lt.mpr hshallow, hnew⟩)
  | visit hshallow hnew _ _ ihbelow ih =>
    cases h' with
    | pass hblocked => exact absurd hblocked (not_or.mpr ⟨Nat.not_lt.mpr hshallow, hnew⟩)
    | visit _ _ hdeeper hfurther =>
      obtain rfl := ihbelow hdeeper
      rw [ih hfurther]

/-- A search of several files goes on where it stopped. -/
theorem append {todo' : List String} {rows' : List (String × Nat)} (h : Search next maxDepth depth met todo rows)
    (h' : Search next maxDepth depth (met ++ rows.map (·.1)) todo' rows') :
    Search next maxDepth depth met (todo ++ todo') (rows ++ rows') := by
  induction h with
  | done => simpa using h'
  | pass hblocked _ ih => exact .pass hblocked (ih h')
  | @visit depth met rest file below rows hshallow hnew hdeeper _ _ ih =>
    rw [List.cons_append, List.cons_append, List.append_assoc]
    exact .visit hshallow hnew hdeeper (ih (by simpa using h'))

end Search

/-- The recursion computes what a search from a file meets. -/
def Computes (next : String → List String) (maxDepth fuel depth : Nat) (file : String) (met : List String) : Prop :=
  ∃ rows, Search next maxDepth depth met [file] rows ∧
    visit next maxDepth fuel depth file met = met ++ rows.map (·.1)

/-- If the recursion computes each search from a file, then one after the other it computes the search from several. -/
theorem exists_search_foldl {P : String → Prop} {fuel size : Nat} (hnext : ∀ f, P f → ∀ g ∈ next f, P g)
    (hcomputes : ∀ (file : String) (met : List String), P file → met.Nodup → (∀ f ∈ met, P f) → size < met.length + fuel →
      Computes next maxDepth fuel depth file met)
    (htodo : ∀ f ∈ todo, P f) (hmet : met.Nodup) (hknown : ∀ f ∈ met, P f) (hfuel : size < met.length + fuel) :
    ∃ rows, Search next maxDepth depth met todo rows ∧
      todo.foldl (fun met f => visit next maxDepth fuel depth f met) met = met ++ rows.map (·.1) := by
  induction todo generalizing met with
  | nil => exact ⟨[], .done, by simp⟩
  | cons file rest ih =>
    have hfile := htodo file List.mem_cons_self
    obtain ⟨below, hsearch, hvisit⟩ := hcomputes file met hfile hmet hknown hfuel
    have hbelow := hsearch.of_mem hnext (List.forall_mem_singleton.mpr hfile)
    obtain ⟨rows, hfurther, hfold⟩ := ih
      (fun f hf => htodo f (List.mem_cons_of_mem _ hf)) (hsearch.nodup hmet) (List.forall_mem_append.mpr ⟨hknown, hbelow⟩)
      (by rw [List.length_append]; omega)
    refine ⟨below ++ rows, hsearch.append hfurther, ?_⟩
    rw [List.foldl_cons, hvisit, hfold, List.map_append, List.append_assoc]

/-- Among finitely many files every search comes to an end, and the recursion computes it when there is more fuel than files
that are not met yet. -/
theorem computes_visit (files : Finset String) (hnext : ∀ f ∈ files, ∀ g ∈ next f, g ∈ files) {fuel : Nat} {file : String}
    (hfile : file ∈ files) (hmet : met.Nodup) (hknown : ∀ f ∈ met, f ∈ files) (hfuel : files.card < met.length + fuel) :
    Computes next maxDepth fuel depth file met := by
  induction fuel generalizing depth file met with
  | zero =>
    have hle := length_le_card hmet hknown
    omega
  | succ fuel ih =>
    unfold Computes visit
    split
    · rename_i hblocked
      refine ⟨[], .pass ?_ .done, by simp⟩
      simpa using hblocked
    · rename_i hnot
      have hfree : depth ≤ maxDepth ∧ file ∉ met := by simpa using hnot
      have hmore := nodup_append_new hmet hfree.2
      have hcomputes (f : String) (seen : List String) (hf : f ∈ files) (hseen : seen.Nodup) (hin : ∀ g ∈ seen, g ∈ files)
          (henough : files.card < seen.length + fuel) : Computes next maxDepth fuel (depth + 1) f seen :=
        ih hf hseen hin henough
      obtain ⟨below, hdeeper, hfold⟩ := exists_search_foldl (P := (· ∈ files)) hnext hcomputes (hnext file hfile) hmore
        (List.forall_mem_append.mpr ⟨hknown, List.forall_mem_singleton.mpr hfile⟩)
        (by rw [List.length_append, List.length_singleton]; omega)
      refine ⟨(file, depth) :: (below ++ []), .visit hfree.1 hfree.2 hdeeper .done, ?_⟩
      rw [hfold]
      simp

end CodeAtlas.Flow
