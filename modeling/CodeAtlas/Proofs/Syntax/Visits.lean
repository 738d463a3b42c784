/-
  What a walk finds.

  What a walk gathers at and below a site is what it finds there, followed by what it gathers below each child if it goes on
  (`Site.gather_eq`).  So it finds all that is to be found at the nodes that it comes to (`Site.gather_below_subset`), and when
  it never stops just what is to be found at all nodes (`Site.mem_gather_iff`).
-/
import CodeAtlas.Proofs.Syntax.Nested

namespace CodeAtlas.Syntax

namespace Site

/-- The sites at and below a site. -/
inductive Under (start : Site) : Site → Prop where
  | here : Under start start
  | child {site : Site} {c : Tree} (outer : Under start site) (mem : c ∈ site.tree.children) : Under start (site.below c)

/-- The visits that add what a rule finds to what has been found. -/
def finder {α : Type} (g : Site → List α × Visit) : Visitor (List α) :=
  fun found _ site => (found ++ (g site).1, (g site).2)

end Site

variable {α : Type} (g : Site → List α × Visit)

mutual

theorem walkTree_finder (ancestors : List Tree) (depth : Nat) (t : Tree) (found : List α) :
    walkTree (Site.finder g) ancestors depth t found = found ++ ((g ⟨t, ancestors⟩).1 ++
      if (g ⟨t, ancestors⟩).2 = .descend then t.children.flatMap fun c => (Site.mk c (t :: ancestors)).gather g
      else []) := by
  cases t with
  | node tag children =>
    rw [walkTree]
    simp only [Site.finder]
    cases (g ⟨.node tag children, ancestors⟩).2 with
    | skip => rw [if_neg nofun, List.append_nil]
    | descend =>
      rw [if_pos rfl, ← List.append_assoc]
      exact walkForest_finder (.node tag children :: ancestors) (depth + 1) children _

theorem walkForest_finder (ancestors : List Tree) (depth : Nat) (forest : List Tree) (found : List α) :
    walkForest (Site.finder g) ancestors depth forest found =
      found ++ forest.flatMap fun c => (Site.mk c ancestors).gather g := by
  cases forest with
  | nil => rw [walkForest, List.flatMap_nil, List.append_nil]
  | cons t rest =>
    -- gathering is the same walk from the top with nothing found so far
    have hgather : (Site.mk t ancestors).gather g = walkTree (Site.finder g) ancestors 0 t [] := rfl
    rw [walkForest, walkForest_finder ancestors depth rest, List.flatMap_cons, hgather, walkTree_finder ancestors depth t,
      walkTree_finder ancestors 0 t, List.nil_append, List.append_assoc]

end

namespace Site

variable {g}

/-- A walk gathers what is found at its start, and then what it gathers below each child unless it stops there. -/
theorem gather_eq (site : Site) : site.gather g =
    (g site).1 ++ if (g site).2 = .descend then site.tree.children.flatMap fun c => (site.below c).gather g else [] :=
  (walkTree_finder g site.ancestors 0 site.tree []).trans (List.nil_append _)

theorem subset_gather (site : Site) : (g site).1 ⊆ site.gather g := by
  rw [gather_eq]
  exact List.subset_append_left _ _

/-- What is gathered below a child is gathered when the walk goes on to it. -/
theorem gather_below_subset {site : Site} (h : (g site).2 = .descend) {c : Tree} (hc : c ∈ site.tree.children) :
    (site.below c).gather g ⊆ site.gather g := by
  rw [gather_eq site, if_pos h]
  exact fun a ha => List.mem_append_right _ (List.mem_flatMap.mpr ⟨c, hc, ha⟩)

variable {start site : Site}

/-- A walk that never stops gathers all that it gathers at the sites below. -/
theorem gather_subset_of_under (hg : ∀ site, (g site).2 = .descend) (h : start.Under site) :
    site.gather g ⊆ start.gather g := by
  induction h with
  | here => exact fun _ h => h
  | child outer mem ih => exact fun _ h => ih (gather_below_subset (hg _) mem h)

/-- A walk that never stops gathers what is found at the sites below its start. -/
theorem mem_gather_iff (hg : ∀ site, (g site).2 = .descend) {a : α} :
    a ∈ start.gather g ↔ ∃ site, start.Under site ∧ a ∈ (g site).1 := by
  constructor
  · exact exists_site_of_mem_gather (fun _ hsite _ hc => hsite.child hc) .here
  · rintro ⟨site, hsite, ha⟩
    exact gather_subset_of_under hg hsite (site.subset_gather ha)

end Site

end CodeAtlas.Syntax
