import Dsac.Container.Tree.RbTree.Insertions
import Dsac.Library.StableOrder

namespace Dsac.Tree

open Dsac.Library LinkedTree NodeLayout

/-! The keys in the order of the tree. -/

variable {T : Type}

namespace RbTree

variable {heap : Heap (RbNode T)} {parent : Option Addr} {tree : RbTree T} {shape : LinkedTree (T × Color)}

theorem visitImpl_represents {σ : Type} (visitor : σ → T → σ) {fuel : Nat}
    (represents : Represents heap parent shape) (enough : shape.addresses.card ≤ fuel) (state : σ) :
    visitImpl visitor fuel heap shape.root state = .ok ((keysOf shape).foldl visitor state) := by
  induction shape generalizing parent fuel state with
  | nil => cases fuel <;> rfl
  | node address value left right leftIH rightIH =>
      obtain ⟨live, inLeft, inRight⟩ := represents
      simp only [addresses_node, Multiset.card_cons, Multiset.card_add] at enough
      cases fuel with
      | zero => omega
      | succ fuel =>
          have visitLeft := leftIH inLeft (show left.addresses.card ≤ fuel by omega)
          have visitRight := rightIH inRight (show right.addresses.card ≤ fuel by omega)
          change visitImpl visitor (fuel + 1) heap (some address) state = _
          simp only [visitImpl, load_of_get live, bind, Except.bind, RbNode.left_node, RbNode.right_node,
            visitLeft, visitRight, keysOf_node, List.foldl_append, List.foldl_cons]
          rfl

theorem visit_linked {σ : Type} (visitor : σ → T → σ) (linked : Linked tree.heap tree.root_ shape) (state : σ) :
    tree.visit visitor state = .ok ((keysOf shape).foldl visitor state) := by
  rw [visit, linked.top]
  exact visitImpl_represents visitor linked.nodes (Nat.le_succ_of_le linked.card_le_fresh) state

theorem childContains_represents [BEq T] (searchKey : T) {fuel : Nat}
    (represents : Represents heap parent shape) (enough : shape.addresses.card ≤ fuel) :
    childContains searchKey fuel heap shape.root = .ok ((keysOf shape).any (· == searchKey)) := by
  induction shape generalizing parent fuel with
  | nil => cases fuel <;> rfl
  | node address value left right leftIH rightIH =>
      obtain ⟨live, inLeft, inRight⟩ := represents
      simp only [addresses_node, Multiset.card_cons, Multiset.card_add] at enough
      cases fuel with
      | zero => omega
      | succ fuel =>
          have searchLeft := leftIH inLeft (show left.addresses.card ≤ fuel by omega)
          have searchRight := rightIH inRight (show right.addresses.card ≤ fuel by omega)
          change childContains searchKey (fuel + 1) heap (some address) = _
          have here : (node value left.root right.root parent : RbNode T).key = value.1 := rfl
          simp only [childContains, load_of_get live, bind, Except.bind, here, RbNode.left_node,
            RbNode.right_node, searchLeft, searchRight, keysOf_node, List.any_append, List.any_cons]
          cases value.1 == searchKey <;> cases (keysOf left).any (· == searchKey) <;> rfl

theorem contains_linked [BEq T] (linked : Linked tree.heap tree.root_ shape) (key : T) :
    tree.contains key = .ok ((keysOf shape).any (· == key)) := by
  rw [contains, linked.top]
  exact childContains_represents key linked.nodes (Nat.le_succ_of_le linked.card_le_fresh)

theorem keysOf_eq (shape : LinkedTree (T × Color)) : keysOf shape = shape.inorder.map (·.2.1) := by
  rw [keysOf, values, List.map_map]
  rfl

section

variable [LT T] [DecidableLT T] (order : StrictWeakOrder fun first second : T => decide (first < second))
include order

/-- The search leaves the keys that are not greater before the place, and the greater ones after it. -/
theorem Descends.separates {key : T} {place : Context (T × Color)} {low : LinkedTree (T × Color)}
    (descends : Descends key place)
    (ordered : (keysOf (low.plug place)).Pairwise fun first second => decide (second < first) = false) :
    (∀ other ∈ place.before.map (·.2.1), decide (key < other) = false) ∧
      ∀ other ∈ place.after.map (·.2.1), decide (key < other) = true := by
  induction place generalizing low with
  | top => exact ⟨nofun, nofun⟩
  | under side address value sibling outer ih =>
      obtain ⟨turn, above⟩ := descends
      obtain ⟨before, after⟩ := ih above ordered
      have within := ordered
      rw [plug, keysOf_plug, List.pairwise_append, List.pairwise_append] at within
      obtain ⟨⟨_, inside, _⟩, _⟩ := within
      rw [keysOf_join] at inside
      by_cases less : key < value.1
      · rw [if_pos less] at turn
        subst turn
        obtain ⟨_, beyond, _⟩ := List.pairwise_append.mp inside
        have upper := (List.pairwise_cons.mp beyond).1
        refine ⟨before, fun other member => ?_⟩
        simp only [Context.after, List.map_append, List.map_cons, List.mem_append, List.mem_cons] at member
        rcases member with (rfl | inSibling) | later
        · exact decide_eq_true less
        · rw [← keysOf_eq] at inSibling
          -- otherwise the key would not be less than the value here
          by_contra notLess
          have reached := order.not_trans (by simpa using notLess) (upper other inSibling)
          simp only [decide_eq_false_iff_not] at reached
          exact reached less
        · exact after other later
      · rw [if_neg less] at turn
        subst turn
        obtain ⟨_, _, lower⟩ := List.pairwise_append.mp inside
        refine ⟨fun other member => ?_, after⟩
        simp only [Context.before, List.map_append, List.map_cons, List.map_nil, List.mem_append,
          List.mem_singleton] at member
        rcases member with (earlier | inSibling) | rfl
        · exact before other earlier
        · rw [← keysOf_eq] at inSibling
          exact order.not_trans (decide_eq_false less) (lower other inSibling value.1 List.mem_cons_self)
        · exact decide_eq_false less

/-- What the tree holds after some insertions. -/
structure Follows (keys : List T) (tree : RbTree T) (shape : LinkedTree (T × Color)) : Prop where
  linked : Linked tree.heap tree.root_ shape
  balanced : ∃ total, Balanced shape .black total
  sorted : StablySorted (fun first second : T => decide (first < second)) keys (keysOf shape)

theorem Follows.insert {keys : List T} (follows : Follows keys tree shape) (key : T) :
    ∃ next shape' below above, tree.insert key = .ok next ∧ Follows (keys ++ [key]) next shape' ∧
      keysOf shape = below ++ above ∧ (∀ other ∈ below, ¬ key < other) ∧ (∀ other ∈ above, key < other) ∧
      keysOf shape' = below ++ key :: above := by
  obtain ⟨linked, ⟨total, balanced⟩, sorted⟩ := follows
  obtain ⟨place, next, shape', rfl, descends, inserted, nextLinked, nextBalanced, nextKeys⟩ :=
    insert_places linked balanced key
  obtain ⟨low, high⟩ := descends.separates order sorted.ordered
  have empty : keysOf (LinkedTree.nil : LinkedTree (T × Color)) = [] := rfl
  have split : keysOf (LinkedTree.nil.plug place) = place.before.map (·.2.1) ++ place.after.map (·.2.1) := by
    rw [keysOf_plug, empty, List.append_nil]
  rw [split] at sorted
  have nextSorted := sorted.insert order low high
  rw [← nextKeys] at nextSorted
  exact ⟨next, shape', _, _, inserted, ⟨nextLinked, nextBalanced, nextSorted⟩, split,
    fun other member => of_decide_eq_false (low other member),
    fun other member => of_decide_eq_true (high other member), nextKeys⟩

/-- **The tree is a stable sequence.** After any sequence of insertions `Visit` yields the inserted
keys in non-decreasing order, equivalent ones in insertion order, and `Contains` finds exactly the
inserted keys; one more insertion puts its key right after the keys that are not greater. -/
theorem insertions_sort_stably [BEq T] (keys : List T) :
    ∃ tree sequence, Library.run RbTree.insert ({} : RbTree T) keys = .ok tree ∧
      StablySorted (fun first second : T => decide (first < second)) keys sequence ∧
      (∀ {σ : Type} (visitor : σ → T → σ) (state : σ),
        tree.visit visitor state = .ok (sequence.foldl visitor state)) ∧
      (∀ key, tree.contains key = .ok (keys.any (· == key))) ∧
      ∀ key, ∃ next below above, tree.insert key = .ok next ∧ sequence = below ++ above ∧
        (∀ other ∈ below, ¬ key < other) ∧ (∀ other ∈ above, key < other) ∧
        ∀ {σ : Type} (visitor : σ → T → σ) (state : σ),
          next.visit visitor state = .ok ((below ++ key :: above).foldl visitor state) := by
  obtain ⟨tree, ran, shape, follows⟩ :=
    run_invariant RbTree.insert (fun past tree => ∃ shape, Follows past tree shape)
      (fun past tree key ⟨_, follows⟩ _ =>
        let ⟨next, shape', _, _, inserted, nextFollows, _⟩ := follows.insert order key
        ⟨next, inserted, shape', nextFollows⟩)
      (show ∃ shape, Follows [] ({} : RbTree T) shape from
        ⟨.nil, ⟨rfl, trivial, Multiset.nodup_zero⟩, ⟨0, .nil⟩, .nil⟩)
      (Meets.of_forall RbTree.insert (fun _ _ => trivial) {} keys)
  refine ⟨tree, keysOf shape, ran, follows.sorted, ?_, fun key => ?_, fun key => ?_⟩
  · intro σ visitor state
    exact visit_linked visitor follows.linked state
  · rw [contains_linked follows.linked]
    exact congrArg Except.ok (follows.sorted.permuted.any_eq)
  · obtain ⟨next, shape', below, above, inserted, nextFollows, split, low, high, nextKeys⟩ :=
      follows.insert order key
    refine ⟨next, below, above, inserted, split, low, high, ?_⟩
    intro σ visitor state
    rw [← nextKeys]
    exact visit_linked visitor nextFollows.linked state

end

theorem insertions_sort_stably_repeated :
    ∃ (tree : RbTree Nat) (sequence : List Nat), Library.run RbTree.insert {} [3, 1, 3, 2, 1, 3] = .ok tree ∧
      tree.visit (fun visited key => key :: visited) [] = .ok sequence.reverse ∧
      StablySorted (fun first second => decide (first < second)) [3, 1, 3, 2, 1, 3] sequence ∧
      tree.contains 2 = .ok true ∧ tree.contains 4 = .ok false := by
  have order : StrictWeakOrder fun first second : Nat => decide (first < second) := .less
  obtain ⟨tree, sequence, ran, sorted, visits, contains, _⟩ :=
    insertions_sort_stably order [3, 1, 3, 2, 1, 3]
  refine ⟨tree, sequence, ran, ?_, sorted, contains 2, contains 4⟩
  rw [visits]
  simp

end RbTree

end Dsac.Tree
