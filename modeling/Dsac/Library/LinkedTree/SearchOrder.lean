import Dsac.Library.LinkedTree
import Dsac.Library.StrictWeakOrder

namespace Dsac.Library

/-! Places in the order of a linked tree, and the search for a value in a tree that is
ordered by a strict weak ordering. -/

variable {α : Type}

namespace Context

/-- A context inside a larger one. -/
def append : Context α → Context α → Context α
  | top, outside => outside
  | under side address value sibling outer, outside =>
      under side address value sibling (outer.append outside)

theorem plug_append (tree : LinkedTree α) (inner outside : Context α) :
    tree.plug (inner.append outside) = (tree.plug inner).plug outside := by
  induction inner generalizing tree with
  | top => rfl
  | under side address value sibling outer ih => exact ih _

theorem before_append (inner outside : Context α) :
    (inner.append outside).before = outside.before ++ inner.before := by
  induction inner with
  | top => simp [append, before]
  | under side address value sibling outer ih => cases side <;> simp [append, before, ih]

theorem after_append (inner outside : Context α) :
    (inner.append outside).after = inner.after ++ outside.after := by
  induction inner with
  | top => simp [append, after]
  | under side address value sibling outer ih => cases side <;> simp [append, after, ih]

theorem append_under_ne_top (inner : Context α) (side : Side) (address : Addr) (value : α)
    (sibling : LinkedTree α) (outer : Context α) :
    inner.append (under side address value sibling outer) ≠ top := by
  cases inner <;> exact nofun

end Context

namespace LinkedTree

/-- The first node in order has no left child. -/
theorem exists_first (address : Addr) (value : α) (left right : LinkedTree α) :
    ∃ first firstValue firstRight inner,
      node address value left right = (node first firstValue nil firstRight).plug inner ∧
        inner.before = [] := by
  induction left generalizing address value right with
  | nil => exact ⟨address, value, right, .top, rfl, rfl⟩
  | node below belowValue belowLeft belowRight leftIH _ =>
      obtain ⟨first, firstValue, firstRight, inner, same, none⟩ := leftIH below belowValue belowRight
      refine ⟨first, firstValue, firstRight, inner.append (.under .left address value right .top), ?_, ?_⟩
      · rw [Context.plug_append, ← same]
        rfl
      · rw [Context.before_append, none]
        rfl

/-- Every node of the order is the root of a subtree. -/
theorem exists_focus {tree : LinkedTree α} {earlier later : List (Addr × α)} {address : Addr}
    {value : α} (split : tree.inorder = earlier ++ (address, value) :: later) :
    ∃ left right context, tree = (node address value left right).plug context ∧
      earlier = context.before ++ left.inorder ∧ later = right.inorder ++ context.after := by
  induction tree generalizing earlier later with
  | nil => simp [inorder] at split
  | node top topValue topLeft topRight leftIH rightIH =>
      rw [inorder, List.append_eq_append_iff] at split
      rcases split with ⟨extra, earlierIs, rest⟩ | ⟨extra, leftIs, rest⟩
      · cases extra with
        | nil =>
            simp only [List.nil_append, List.cons.injEq, Prod.mk.injEq] at rest
            obtain ⟨⟨rfl, rfl⟩, rfl⟩ := rest
            exact ⟨topLeft, topRight, .top, rfl, by simpa [Context.before] using earlierIs,
              by simp [Context.after]⟩
        | cons entry extra =>
            simp only [List.cons_append, List.cons.injEq] at rest
            obtain ⟨rfl, inRight⟩ := rest
            obtain ⟨left, right, inner, same, before, after⟩ := rightIH inRight
            refine ⟨left, right, inner.append (.under .right top topValue topLeft .top), ?_, ?_, ?_⟩
            · rw [Context.plug_append, ← same]
              rfl
            · rw [Context.before_append, earlierIs, before]
              simp [Context.before]
            · rw [Context.after_append, after]
              simp [Context.after]
      · cases extra with
        | nil =>
            simp only [List.nil_append, List.cons.injEq, Prod.mk.injEq] at rest
            obtain ⟨⟨rfl, rfl⟩, rfl⟩ := rest
            exact ⟨topLeft, topRight, .top, rfl, by simpa [Context.before] using leftIs.symm,
              by simp [Context.after]⟩
        | cons entry extra =>
            simp only [List.cons_append, List.cons.injEq] at rest
            obtain ⟨rfl, rfl⟩ := rest
            obtain ⟨left, right, inner, same, before, after⟩ := leftIH leftIs
            refine ⟨left, right, inner.append (.under .left top topValue topRight .top), ?_, ?_, ?_⟩
            · rw [Context.plug_append, ← same]
              rfl
            · rw [Context.before_append, before]
              simp [Context.before]
            · rw [Context.after_append, after]
              simp [Context.after]

section

variable (compare : α → α → Bool) (target : α)

/-- The search for a value: the subtree at which it ends, and its context. -/
def search : LinkedTree α → Context α → LinkedTree α × Context α
  | nil, context => (nil, context)
  | node address value left right, context =>
      if compare target value then left.search (.under .left address value right context)
      else if compare value target then right.search (.under .right address value left context)
      else (node address value left right, context)

/-- The target lies between what comes before and what comes after the place. -/
structure Separates (context : Context α) : Prop where
  before : ∀ entry ∈ context.before, compare entry.2 target
  after : ∀ entry ∈ context.after, compare target entry.2

end

/-- The values are strictly increasing in order. -/
def Ordered (compare : α → α → Bool) (tree : LinkedTree α) : Prop :=
  tree.inorder.Pairwise fun first second => compare first.2 second.2

theorem ordered_iff_values (compare : α → α → Bool) (tree : LinkedTree α) :
    Ordered compare tree ↔ tree.values.Pairwise fun first second => compare first second := by
  rw [values, List.pairwise_map, Ordered]

variable {compare : α → α → Bool} {target value : α} {tree left right : LinkedTree α}
  {context : Context α} {address : Addr}

theorem Separates.values_before (separates : Separates compare target context) :
    ∀ other ∈ context.before.map Prod.snd, compare other target := by
  simp only [List.mem_map]
  rintro _ ⟨entry, member, rfl⟩
  exact separates.before entry member

theorem Separates.values_after (separates : Separates compare target context) :
    ∀ other ∈ context.after.map Prod.snd, compare target other := by
  simp only [List.mem_map]
  rintro _ ⟨entry, member, rfl⟩
  exact separates.after entry member

theorem Ordered.of_plug (ordered : Ordered compare ((node address value left right).plug context)) :
    (∀ entry ∈ left.inorder, compare entry.2 value) ∧ ∀ entry ∈ right.inorder, compare value entry.2 := by
  rw [Ordered, inorder_plug, inorder, List.pairwise_append, List.pairwise_append,
    List.pairwise_append] at ordered
  obtain ⟨⟨_, ⟨_, inner, across⟩, _⟩, _⟩ := ordered
  exact ⟨fun entry member => across entry member _ List.mem_cons_self,
    (List.pairwise_cons.mp inner).1⟩

theorem plug_search (compare : α → α → Bool) (target : α) (tree : LinkedTree α) (context : Context α) :
    (tree.search compare target context).1.plug (tree.search compare target context).2 =
      tree.plug context := by
  induction tree generalizing context with
  | nil => rfl
  | node address value left right leftIH rightIH =>
      rw [search]
      split
      · exact leftIH _
      · split
        · exact rightIH _
        · rfl

theorem search_separates (order : StrictWeakOrder compare)
    (ordered : Ordered compare (tree.plug context)) (separates : Separates compare target context) :
    Separates compare target (tree.search compare target context).2 := by
  induction tree generalizing context with
  | nil => exact separates
  | node address value left right leftIH rightIH =>
      obtain ⟨below, above⟩ := ordered.of_plug
      rw [search]
      split
      next less =>
        refine leftIH ordered ⟨separates.before, ?_⟩
        simp only [Context.after, List.cons_append, List.mem_cons, List.mem_append]
        rintro entry (rfl | inRight | outside)
        · exact less
        · exact order.trans _ _ _ less (above entry inRight)
        · exact separates.after entry outside
      next notLess =>
        split
        next greater =>
          refine rightIH ordered ⟨?_, separates.after⟩
          simp only [Context.before, List.mem_append, List.mem_singleton]
          rintro entry ((outside | inLeft) | rfl)
          · exact separates.before entry outside
          · exact order.trans _ _ _ (below entry inLeft) greater
          · exact greater
        next notGreater => exact separates

/-- The search ends at an equivalent value, or at an empty subtree. -/
theorem search_equivalent (compare : α → α → Bool) (target : α) (tree : LinkedTree α)
    (context : Context α) :
    (tree.search compare target context).1 = nil ∨
      ∃ address value left right,
        (tree.search compare target context).1 = node address value left right ∧
          compare target value = false ∧ compare value target = false := by
  induction tree generalizing context with
  | nil => exact Or.inl rfl
  | node address value left right leftIH rightIH =>
      rw [search]
      split
      next => exact leftIH _
      next notLess =>
        split
        next => exact rightIH _
        next notGreater =>
          exact Or.inr ⟨address, value, left, right, rfl, by simpa using notLess,
            by simpa using notGreater⟩

end LinkedTree

/-! The values of an ordered tree as a set of values up to equivalence. -/

section

variable (compare : α → α → Bool)

def insertUnique (stored : List α) (value : α) : List α :=
  if stored.all fun other => compare value other || compare other value then
    stored.takeWhile (compare · value) ++ value :: stored.dropWhile (compare · value)
  else stored

def eraseEquivalent (stored : List α) (value : α) : List α :=
  stored.filter fun other => compare value other || compare other value

variable {compare} {value : α} {below above : List α}

theorem insertUnique_between (order : StrictWeakOrder compare) (low : ∀ other ∈ below, compare other value)
    (high : ∀ other ∈ above, compare value other) :
    insertUnique compare (below ++ above) value = below ++ value :: above := by
  have all : (below ++ above).all (fun other => compare value other || compare other value) = true := by
    simp only [List.all_eq_true, List.mem_append, Bool.or_eq_true]
    rintro other (inBelow | inAbove)
    · exact Or.inr (low other inBelow)
    · exact Or.inl (high other inAbove)
  have stops : above.takeWhile (compare · value) = [] ∧ above.dropWhile (compare · value) = above := by
    cases above with
    | nil => exact ⟨rfl, rfl⟩
    | cons first rest =>
        have not := order.asymm (high first List.mem_cons_self)
        simp [not]
  rw [insertUnique, if_pos all, List.takeWhile_append_of_pos low, List.dropWhile_append_of_pos low,
    stops.1, stops.2, List.append_nil]

/-- A value between two parts of an ordered list extends the order. -/
theorem pairwise_between (ordered : (below ++ above).Pairwise fun first second => compare first second)
    (low : ∀ other ∈ below, compare other value) (high : ∀ other ∈ above, compare value other) :
    (below ++ value :: above).Pairwise fun first second => compare first second := by
  obtain ⟨inBelow, inAbove, across⟩ := List.pairwise_append.mp ordered
  refine List.pairwise_append.mpr ⟨inBelow, List.pairwise_cons.mpr ⟨high, inAbove⟩, ?_⟩
  intro first member second inside
  rcases List.mem_cons.mp inside with rfl | later
  · exact low first member
  · exact across first member second later

theorem insertUnique_equivalent {other : α} {stored : List α} (member : other ∈ stored)
    (notLess : compare value other = false) (notGreater : compare other value = false) :
    insertUnique compare stored value = stored := by
  refine if_neg fun all => ?_
  have differs := List.all_eq_true.mp all other member
  simp [notLess, notGreater] at differs

/-- A value that is equivalent to none is added, and otherwise nothing is. -/
theorem insertUnique_cases (stored : List α) (value : α) :
    ((∀ other ∈ stored, compare value other ∨ compare other value) ∧
      (insertUnique compare stored value).Perm (value :: stored)) ∨
    (¬ (∀ other ∈ stored, compare value other ∨ compare other value) ∧ insertUnique compare stored value = stored) := by
  by_cases all : ∀ other ∈ stored, compare value other ∨ compare other value
  · left
    refine ⟨all, ?_⟩
    have holds : stored.all (fun other => compare value other || compare other value) = true := by
      simpa only [List.all_eq_true, Bool.or_eq_true] using all
    have parts := @List.perm_middle _ value (stored.takeWhile (compare · value)) (stored.dropWhile (compare · value))
    rw [List.takeWhile_append_dropWhile] at parts
    rw [insertUnique, if_pos holds]
    exact parts
  · right
    refine ⟨all, if_neg ?_⟩
    simpa only [List.all_eq_true, Bool.or_eq_true] using all

theorem length_foldl_insertUnique_le (keys stored : List α) :
    (keys.foldl (insertUnique compare) stored).length ≤ stored.length + keys.length := by
  induction keys generalizing stored with
  | nil => exact Nat.le_refl _
  | cons key keys ih =>
      have rest := ih (insertUnique compare stored key)
      rw [List.foldl_cons, List.length_cons]
      rcases @insertUnique_cases _ compare stored key with ⟨_, grown⟩ | ⟨_, same⟩
      · rw [grown.length_eq, List.length_cons] at rest
        omega
      · rw [same] at rest ⊢
        omega

/-- All of some values are added exactly when no two of them, or of those stored, are equivalent. -/
theorem length_foldl_insertUnique (keys stored : List α) :
    (keys.foldl (insertUnique compare) stored).length = stored.length + keys.length ↔
      keys.Pairwise (fun first second => compare first second ∨ compare second first) ∧
        ∀ key ∈ keys, ∀ other ∈ stored, compare key other ∨ compare other key := by
  induction keys generalizing stored with
  | nil => simp
  | cons key keys ih =>
      rw [List.foldl_cons, List.length_cons, List.pairwise_cons, List.forall_mem_cons]
      rcases @insertUnique_cases _ compare stored key with ⟨apart, grown⟩ | ⟨meets, same⟩
      · have more := ih (insertUnique compare stored key)
        have members : ∀ other, other ∈ insertUnique compare stored key ↔ other = key ∨ other ∈ stored := by
          intro other
          rw [grown.mem_iff, List.mem_cons]
        rw [grown.length_eq, List.length_cons, Nat.add_right_comm] at more
        rw [← Nat.add_assoc, more]
        simp only [members]
        constructor
        · rintro ⟨pairwise, outside⟩
          refine ⟨⟨?_, pairwise⟩, apart, ?_⟩
          · intro other member
            exact (outside other member key (.inl rfl)).symm
          · intro other member stored inside
            exact outside other member stored (.inr inside)
        · rintro ⟨⟨first, pairwise⟩, _, outside⟩
          refine ⟨pairwise, ?_⟩
          rintro other member stored (rfl | inside)
          · exact (first other member).symm
          · exact outside other member stored inside
      · have bound := @length_foldl_insertUnique_le _ compare keys stored
        rw [same]
        constructor
        · intro full
          omega
        · intro all
          exact absurd all.2.1 meets

theorem foldl_insertUnique_perm {keys stored : List α}
    (pairwise : keys.Pairwise fun first second => compare first second ∨ compare second first)
    (apart : ∀ key ∈ keys, ∀ other ∈ stored, compare key other ∨ compare other key) :
    (keys.foldl (insertUnique compare) stored).Perm (keys ++ stored) := by
  induction keys generalizing stored with
  | nil => exact .refl _
  | cons key keys ih =>
      obtain ⟨first, others⟩ := List.pairwise_cons.mp pairwise
      obtain ⟨here, later⟩ := List.forall_mem_cons.mp apart
      rcases @insertUnique_cases _ compare stored key with ⟨_, grown⟩ | ⟨meets, _⟩
      · have rest := @ih (insertUnique compare stored key) others (by
          intro other member value inside
          rcases List.mem_cons.mp (grown.mem_iff.mp inside) with rfl | old
          · exact (first other member).symm
          · exact later other member value old)
        rw [List.foldl_cons]
        exact rest.trans ((List.Perm.append_left keys grown).trans List.perm_middle)
      · exact absurd here meets

theorem eraseEquivalent_between {other : α} (low : ∀ entry ∈ below, compare entry value)
    (high : ∀ entry ∈ above, compare value entry) (notLess : compare value other = false)
    (notGreater : compare other value = false) :
    eraseEquivalent compare (below ++ other :: above) value = below ++ above := by
  rw [eraseEquivalent, List.filter_append, List.filter_cons]
  simp only [notLess, notGreater, Bool.or_false, Bool.false_eq_true, if_false]
  rw [List.filter_eq_self.mpr, List.filter_eq_self.mpr]
  · exact fun entry member => by simp [high entry member]
  · exact fun entry member => by simp [low entry member]

theorem eraseEquivalent_absent (low : ∀ entry ∈ below, compare entry value)
    (high : ∀ entry ∈ above, compare value entry) :
    eraseEquivalent compare (below ++ above) value = below ++ above := by
  refine List.filter_eq_self.mpr ?_
  simp only [List.mem_append, Bool.or_eq_true]
  rintro entry (inBelow | inAbove)
  · exact Or.inr (low entry inBelow)
  · exact Or.inl (high entry inAbove)

end

end Dsac.Library
