import Mathlib

namespace Dsac.Library

/-! Forests given by the parent of every vertex, where a root is its own parent. -/

/-- The root is reached from the vertex by so many steps to a parent. -/
inductive Climbs (parents : List Nat) : Nat → Nat → Nat → Prop
  | root {vertex : Nat} (self : parents[vertex]? = some vertex) : Climbs parents 0 vertex vertex
  | step {steps vertex parent root : Nat} (here : parents[vertex]? = some parent) (moves : parent ≠ vertex)
      (climbs : Climbs parents steps parent root) : Climbs parents (steps + 1) vertex root

def RootOf (parents : List Nat) (vertex root : Nat) : Prop := ∃ steps, Climbs parents steps vertex root

/-- Every vertex has the given root. -/
def Roots (parents : List Nat) (root : Nat → Nat) : Prop :=
  ∀ vertex < parents.length, RootOf parents vertex (root vertex)

variable {parents : List Nat} {steps others vertex parent root other : Nat}

theorem Climbs.lt_length (climbs : Climbs parents steps vertex root) : vertex < parents.length := by
  cases climbs with
  | root self => exact (List.getElem?_eq_some_iff.mp self).1
  | step here moves climbs => exact (List.getElem?_eq_some_iff.mp here).1

theorem Climbs.unique (first : Climbs parents steps vertex root) (second : Climbs parents others vertex other) :
    steps = others ∧ root = other := by
  induction first generalizing others with
  | root self =>
      cases second with
      | root again => exact ⟨rfl, rfl⟩
      | step here moves climbs => exact absurd (Option.some.inj (here.symm.trans self)) moves
  | step here moves climbs ih =>
      cases second with
      | root self => exact absurd (Option.some.inj (here.symm.trans self)) moves
      | step again movesAgain climbsAgain =>
          cases here.symm.trans again
          obtain ⟨rfl, rfl⟩ := ih climbsAgain
          exact ⟨rfl, rfl⟩

theorem Climbs.root_self (climbs : Climbs parents steps vertex root) : parents[root]? = some root := by
  induction climbs with
  | root self => exact self
  | step here moves climbs ih => exact ih

/-- The path passes every height below its start. -/
theorem Climbs.exists_below (climbs : Climbs parents steps vertex root) {height : Nat} (below : height ≤ steps) :
    ∃ passed, Climbs parents height passed root := by
  induction climbs with
  | root self =>
      cases Nat.le_zero.mp below
      exact ⟨_, .root self⟩
  | step here moves climbs ih =>
      rcases Nat.le_or_eq_of_le_succ below with lower | rfl
      · exact ih lower
      · exact ⟨_, .step here moves climbs⟩

/-- No path is longer than the forest: its vertices are at different heights. -/
theorem Climbs.steps_lt (climbs : Climbs parents steps vertex root) : steps < parents.length := by
  have passes : ∀ height : Fin (steps + 1), ∃ passed, Climbs parents height passed root :=
    fun height => climbs.exists_below (Nat.le_of_lt_succ height.isLt)
  choose passed climbed using passes
  let place : Fin (steps + 1) → Fin parents.length := fun height => ⟨passed height, (climbed height).lt_length⟩
  have injective : Function.Injective place := by
    intro first second same
    have sameVertex : passed first = passed second := congrArg Fin.val same
    have again := climbed second
    rw [← sameVertex] at again
    exact Fin.ext ((climbed first).unique again).1
  have bounded := Fintype.card_le_of_injective place injective
  rwa [Fintype.card_fin, Fintype.card_fin] at bounded

theorem RootOf.unique (first : RootOf parents vertex root) (second : RootOf parents vertex other) : root = other := by
  obtain ⟨_, climbs⟩ := first
  obtain ⟨_, again⟩ := second
  exact (climbs.unique again).2

theorem RootOf.of_root (self : parents[root]? = some root) : RootOf parents root root := ⟨0, .root self⟩

theorem RootOf.root_self (rootOf : RootOf parents vertex root) : parents[root]? = some root := by
  obtain ⟨_, climbs⟩ := rootOf
  exact climbs.root_self

theorem RootOf.step (here : parents[vertex]? = some parent) (above : RootOf parents parent root) :
    RootOf parents vertex root := by
  by_cases same : parent = vertex
  · rwa [same] at above
  · obtain ⟨steps, climbs⟩ := above
    exact ⟨steps + 1, .step here same climbs⟩

/-- A path is not affected by a change above its start. -/
theorem Climbs.frame (climbs : Climbs parents steps vertex root) {changed : Nat}
    (above : ∀ height ≤ steps, ¬ Climbs parents height changed root) (target : Nat) :
    Climbs (parents.set changed target) steps vertex root := by
  induction climbs with
  | @root place self =>
      have apart : changed ≠ place := by
        rintro rfl
        exact above 0 (Nat.le_refl 0) (.root self)
      exact .root (by rw [List.getElem?_set_ne apart, self])
  | @step steps place parent root here moves climbs ih =>
      have apart : changed ≠ place := by
        rintro rfl
        exact above _ (Nat.le_refl _) (.step here moves climbs)
      exact .step (by rw [List.getElem?_set_ne apart, here]) moves
        (ih fun height below => above height (Nat.le_succ_of_le below))

/-- Linking a vertex to its root moves no vertex to another root. -/
theorem RootOf.compress (rootOf : RootOf parents vertex root) (inner : vertex ≠ root) {from' last : Nat}
    (other : RootOf parents from' last) : RootOf (parents.set vertex root) from' last := by
  have inside : vertex < parents.length := rootOf.choose_spec.lt_length
  have rootSelf : (parents.set vertex root)[root]? = some root := by
    rw [List.getElem?_set_ne inner, rootOf.root_self]
  obtain ⟨steps, climbs⟩ := other
  induction climbs with
  | @root place self =>
      have apart : vertex ≠ place := by
        rintro rfl
        exact inner (RootOf.of_root self |>.unique rootOf)
      exact .of_root (by rw [List.getElem?_set_ne apart, self])
  | @step steps place parent last here moves climbs ih =>
      by_cases same : vertex = place
      · subst same
        have sameRoot : root = last := rootOf.unique ⟨_, .step here moves climbs⟩
        subst sameRoot
        exact .step (List.getElem?_set_self inside) (.of_root rootSelf)
      · exact .step (by rw [List.getElem?_set_ne same, here]) ih

/-- Linking one root to another moves the vertices below it. -/
theorem RootOf.link {first second : Nat} (firstSelf : parents[first]? = some first)
    (secondSelf : parents[second]? = some second) (apart : first ≠ second)
    (rootOf : RootOf parents vertex root) :
    RootOf (parents.set second first) vertex (if root = second then first else root) := by
  have inside : second < parents.length := (List.getElem?_eq_some_iff.mp secondSelf).1
  have firstRoot : (parents.set second first)[first]? = some first := by
    rw [List.getElem?_set_ne apart.symm, firstSelf]
  obtain ⟨steps, climbs⟩ := rootOf
  induction climbs with
  | @root place self =>
      by_cases same : place = second
      · subst same
        rw [if_pos rfl]
        exact .step (List.getElem?_set_self inside) (.of_root firstRoot)
      · rw [if_neg same]
        exact .of_root (by rw [List.getElem?_set_ne (Ne.symm same), self])
  | @step steps place parent last here moves climbs ih =>
      have other : second ≠ place := by
        rintro rfl
        exact moves (Option.some.inj (here.symm.trans secondSelf))
      exact .step (by rw [List.getElem?_set_ne other, here]) ih

theorem Roots.lt_length {rootOf : Nat → Nat} (roots : Roots parents rootOf) (inside : vertex < parents.length) :
    rootOf vertex < parents.length :=
  (List.getElem?_eq_some_iff.mp (roots vertex inside).root_self).1

theorem Roots.idempotent {rootOf : Nat → Nat} (roots : Roots parents rootOf) (inside : vertex < parents.length) :
    rootOf (rootOf vertex) = rootOf vertex :=
  (roots _ (roots.lt_length inside)).unique (.of_root (roots vertex inside).root_self)

end Dsac.Library
