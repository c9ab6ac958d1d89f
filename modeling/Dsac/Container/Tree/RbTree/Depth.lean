import Dsac.Container.Tree.RbTree.Insertions

namespace Dsac.Tree

open Dsac.Library LinkedTree NodeLayout

/-! The depths of a red-black tree, and the invariant in terms of colors and paths. -/

variable {T : Type}

/-- A null pointer counts as a black node. -/
def rootColor : LinkedTree (T × Color) → Color
  | .nil => .black
  | .node _ value _ _ => value.2

def NoRedRed : LinkedTree (T × Color) → Prop
  | .nil => True
  | .node _ value left right =>
      (value.2 = .red → rootColor left = .black ∧ rootColor right = .black) ∧
        NoRedRed left ∧ NoRedRed right

/-- The numbers of black nodes on the paths from the root to a missing child. -/
def blackCounts : LinkedTree (T × Color) → List Nat
  | .nil => [0]
  | .node _ value left right =>
      (blackCounts left ++ blackCounts right).map (· + if value.2 = .black then 1 else 0)

/-- The depth that `MaxDepth` or `MinDepth` of a node computes. -/
def depthOf (choose : Int → Int → Int) : LinkedTree (T × Color) → Int
  | .nil => 0
  | .node _ _ left right => 1 + choose (depthOf choose left) (depthOf choose right)

namespace Balanced

variable {tree : LinkedTree (T × Color)} {color : Color} {height : Nat}

theorem rootColor_eq (balanced : Balanced tree color height) : rootColor tree = color := by
  cases balanced <;> rfl

theorem noRedRed (balanced : Balanced tree color height) : NoRedRed tree := by
  induction balanced with
  | nil => trivial
  | red inLeft inRight leftIH rightIH =>
      exact ⟨fun _ => ⟨inLeft.rootColor_eq, inRight.rootColor_eq⟩, leftIH, rightIH⟩
  | black inLeft inRight leftIH rightIH => exact ⟨nofun, leftIH, rightIH⟩

theorem blackCounts_eq (balanced : Balanced tree color height) :
    ∀ count ∈ blackCounts tree, count = height := by
  induction balanced with
  | nil => simp [blackCounts]
  | red inLeft inRight leftIH rightIH =>
      intro count member
      simp only [blackCounts, List.mem_map, List.mem_append] at member
      obtain ⟨below, inside, rfl⟩ := member
      exact inside.elim (leftIH below) (rightIH below)
  | black inLeft inRight leftIH rightIH =>
      intro count member
      simp only [blackCounts, List.mem_map, List.mem_append] at member
      obtain ⟨below, inside, rfl⟩ := member
      exact congrArg (· + 1) (inside.elim (leftIH below) (rightIH below))

theorem le_minDepth (balanced : Balanced tree color height) : (height : Int) ≤ depthOf min tree := by
  induction balanced with
  | nil => exact le_refl _
  | red _ _ leftIH rightIH => simp only [depthOf]; omega
  | black _ _ leftIH rightIH => simp only [depthOf]; omega

theorem maxDepth_le (balanced : Balanced tree color height) :
    depthOf max tree ≤ 2 * height + if color = .red then 1 else 0 := by
  induction balanced with
  | nil => exact le_refl _
  | red _ _ leftIH rightIH => simp only [depthOf, reduceCtorEq, if_false, if_true] at *; omega
  | black _ _ leftIH rightIH =>
      simp only [depthOf, reduceCtorEq, if_false] at *
      split at leftIH <;> split at rightIH <;> omega

end Balanced

namespace RbTree

variable {heap : Heap (RbNode T)} {parent : Option Addr} {shape : LinkedTree (T × Color)}

/-- The recursion over the nodes computes the depth of the tree they form. -/
theorem nodeDepth_represents (choose : Int → Int → Int) {fuel : Nat}
    (represents : Represents heap parent shape) (enough : shape.addresses.card ≤ fuel) :
    nodeDepth choose fuel heap shape.root = .ok (depthOf choose shape) := by
  induction shape generalizing parent fuel with
  | nil =>
      cases fuel <;> rfl
  | node address value left right leftIH rightIH =>
      obtain ⟨live, inLeft, inRight⟩ := represents
      simp only [addresses_node, Multiset.card_cons, Multiset.card_add] at enough
      cases fuel with
      | zero => omega
      | succ fuel =>
          have leftDepth := leftIH inLeft (show left.addresses.card ≤ fuel by omega)
          have rightDepth := rightIH inRight (show right.addresses.card ≤ fuel by omega)
          change nodeDepth choose (fuel + 1) heap (some address) = _
          simp only [nodeDepth, load_of_get live, bind, Except.bind, RbNode.left_node,
            RbNode.right_node, leftDepth, rightDepth]
          rfl

theorem depth_linked {tree : RbTree T} (choose : Int → Int → Int)
    (linked : Linked tree.heap tree.root_ shape) :
    tree.depth choose = .ok (depthOf choose shape - 1) := by
  have computed := nodeDepth_represents choose linked.nodes
    (Nat.le_succ_of_le linked.card_le_fresh)
  rw [← linked.top] at computed
  cases root : tree.root_ with
  | none =>
      cases shape with
      | nil => simp only [depth, root, depthOf]; rfl
      | node => simp only [linked.top, LinkedTree.root, reduceCtorEq] at root
  | some address =>
      rw [root] at computed
      simp only [depth, root, depthBound, computed, bind, Except.bind]
      rfl

variable [LT T] [DecidableLT T]

/-- **Insertions keep a red-black tree.** Every run of insertions returns, with linked
nodes that hold the inserted keys, a black root, no red child of a red node, the same
number of black nodes on all paths, and so with depths that differ by a factor of two at
the most. -/
theorem insertions_keep_red_black (keys : List T) :
    ∃ tree shape, Library.run RbTree.insert ({} : RbTree T) keys = .ok tree ∧
      Linked tree.heap tree.root_ shape ∧ (keysOf shape).Perm keys ∧
      rootColor shape = .black ∧ NoRedRed shape ∧
      (∀ first ∈ blackCounts shape, ∀ second ∈ blackCounts shape, first = second) ∧
      ∃ deepest shallowest, tree.maxDepth = .ok deepest ∧ tree.minDepth = .ok shallowest ∧
        deepest + 1 ≤ 2 * (shallowest + 1) := by
  obtain ⟨tree, ran, shape, linked, ⟨total, balanced⟩, permuted⟩ :=
    run_invariant RbTree.insert (fun past tree => ∃ shape, Holds tree shape past)
      (fun past tree key ⟨_, holds⟩ _ =>
        let ⟨next, shape', inserted, nextHolds⟩ := insert_holds holds key
        ⟨next, inserted, shape', nextHolds⟩)
      (show ∃ shape, Holds ({} : RbTree T) shape [] from
        ⟨.nil, ⟨rfl, trivial, Multiset.nodup_zero⟩, ⟨0, .nil⟩, List.Perm.refl _⟩)
      (Meets.of_forall RbTree.insert (fun _ _ => trivial) {} keys)
  refine ⟨tree, shape, ran, linked, permuted, balanced.rootColor_eq, balanced.noRedRed, ?_,
    _, _, depth_linked max linked, depth_linked min linked, ?_⟩
  · intro first inFirst second inSecond
    rw [balanced.blackCounts_eq first inFirst, balanced.blackCounts_eq second inSecond]
  · have low := balanced.le_minDepth
    have high := balanced.maxDepth_le
    simp only [reduceCtorEq, if_false] at high
    omega

end RbTree

end Dsac.Tree
