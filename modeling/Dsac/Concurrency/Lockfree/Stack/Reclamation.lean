import Dsac.Concurrency.Lockfree.Stack.Nodes
import Dsac.Library.Census

namespace Dsac.LockFreeStack

open Dsac.Library Dsac.Library.AtomicObject

/-! What every thread can rely on between two steps. -/

variable {ι α T : Type}

/-- The head of the free list that the thread is about to detach. -/
def Place.expects : Place α T → Option α
  | .detaching head _ => some head
  | .idle | .loading _ | .making _ _ | .pushing _ | .entering | .starting | .reading _ | .swapping _ _
  | .taking _ | .listing _ | .counting _ _ | .erasing _ _ | .deleting _ _ _ | .leaving _ | .destroying _ _
  | .relinking _ _ | .relinked _ _ _ | .freeing _ _ | .returning _ => none

/-- The node that the thread is about to put onto the free list. -/
def Place.frees : Place α T → Option α
  | .freeing current _ => some current
  | .idle | .loading _ | .making _ _ | .pushing _ | .entering | .starting | .reading _ | .swapping _ _
  | .taking _ | .listing _ | .counting _ _ | .detaching _ _ | .erasing _ _ | .deleting _ _ _ | .leaving _
  | .destroying _ _ | .relinking _ _ | .relinked _ _ _ | .returning _ => none

/-- The thread counts in `popped_count`. -/
def Place.Inside : Place α T → Prop
  | .starting | .reading _ | .swapping _ _ | .taking _ | .listing _ | .counting _ _ | .detaching _ _
  | .erasing _ _ | .deleting _ _ _ | .leaving _ => True
  | .idle | .loading _ | .making _ _ | .pushing _ | .entering | .destroying _ _ | .relinking _ _
  | .relinked _ _ _ | .freeing _ _ | .returning _ => False

/-- The part of the free list that a thread is about to detach is held by nobody. -/
def Spared (places : ι → Place α T) (freed : List (α × Option T)) : Prop :=
  ∀ thread head, (places thread).expects = some head → ∀ before entry after, freed = before ++ entry :: after →
    entry.1 = head → ∀ node ∈ entry :: after, ∀ other, (places other).holds ≠ some node.1

/-- The roles of the nodes and the contents of the two lists. -/
structure Memory (heap : α → Option (Node α T)) (role : α → Option (Role ι)) (stack_ free_ : Option α)
    (stacked freed : List (α × Option T)) : Prop where
  allocated : ∀ node, role node = none ↔ heap node = none
  stack : Chain (links heap) stack_ stacked
  onStack : ∀ entry ∈ stacked, role entry.1 = some .stacked
  free : Chain (links heap) free_ freed
  onFree : ∀ entry ∈ freed, role entry.1 = some .freed

section

variable {places : ι → Place α T} {place : Place α T} {thread : ι} {freed stacked : List (α × Option T)}
  {entry : α × Option T} {heap changed : α → Option (Node α T)} {role now : α → Option (Role ι)}
  {stack_ free_ next : Option α} {address : α} {kind : Role ι} {value : Option T}

theorem Place.inside_of_holds {node : α} (holds : place.holds = some node) : place.Inside := by
  cases place with
  | reading current => trivial
  | swapping current next => trivial
  | _ => cases holds

theorem Spared.goto [DecidableEq ι] (spared : Spared places freed)
    (expects : ∀ head, place.expects = some head → (places thread).expects = some head)
    (holds : ∀ node, place.holds = some node → (places thread).holds = some node ∨ ∀ entry ∈ freed, entry.1 ≠ node) :
    Spared (Function.update places thread place) freed := by
  intro waiter head waits before entry after split same node member other held
  have waited : (places waiter).expects = some head := by
    by_cases here : waiter = thread
    · subst waiter
      rw [Function.update_self] at waits
      exact expects head waits
    · rwa [Function.update_of_ne here] at waits
  have free := spared waiter head waited before entry after split same node member
  by_cases here : other = thread
  · subst other
    rw [Function.update_self] at held
    rcases holds node.1 held with before | off
    · exact free thread before
    · exact off node (by rw [split]; exact List.mem_append_right _ member) rfl
  · rw [Function.update_of_ne here] at held
    exact free other held

theorem Spared.of_nobody (nobody : ∀ thread node, (places thread).holds ≠ some node) : Spared places freed :=
  fun _ _ _ _ _ _ _ _ node _ other => nobody other node.1

/-- Nobody is about to detach the node that goes onto the free list. -/
theorem Spared.cons (spared : Spared places freed) (unexpected : ∀ thread, (places thread).expects ≠ some entry.1) :
    Spared places (entry :: freed) := by
  intro waiter head waits before first after split same
  cases before with
  | nil =>
      cases split
      exact absurd (same ▸ waits) (unexpected waiter)
  | cons _ before =>
      cases split
      exact spared waiter head waits before first after rfl same

theorem Spared.nil : Spared places ([] : List (α × Option T)) := by
  intro _ _ _ before _ _ split
  cases before <;> cases split

namespace Memory

theorem live (memory : Memory heap role stack_ free_ stacked freed) (here : role address = some kind) :
    ∃ cell, heap address = some cell := by
  cases stored : heap address with
  | some cell => exact ⟨cell, rfl⟩
  | none =>
      rw [(memory.allocated address).mpr stored] at here
      cases here

/-- A node that is on neither list changes. -/
theorem change (memory : Memory heap role stack_ free_ stacked freed)
    (elsewhere : ∀ node, node ≠ address → now node = role node ∧ changed node = heap node)
    (unstacked : role address ≠ some .stacked) (unfreed : role address ≠ some .freed)
    (allocated : now address = none ↔ changed address = none) :
    Memory changed now stack_ free_ stacked freed := by
  have offStack : ∀ entry ∈ stacked, entry.1 ≠ address := fun entry member same =>
    unstacked (same ▸ memory.onStack entry member)
  have offFree : ∀ entry ∈ freed, entry.1 ≠ address := fun entry member same =>
    unfreed (same ▸ memory.onFree entry member)
  refine ⟨?_, memory.stack.congr ?_, ?_, memory.free.congr ?_, ?_⟩
  · intro node
    by_cases same : node = address
    · rw [same]
      exact allocated
    · obtain ⟨sameRole, sameNode⟩ := elsewhere node same
      rw [sameRole, sameNode]
      exact memory.allocated node
  · intro entry member
    exact links_congr (elsewhere _ (offStack entry member)).2
  · intro entry member
    exact (elsewhere _ (offStack entry member)).1.trans (memory.onStack entry member)
  · intro entry member
    exact links_congr (elsewhere _ (offFree entry member)).2
  · intro entry member
    exact (elsewhere _ (offFree entry member)).1.trans (memory.onFree entry member)

variable [DecidableEq α]

theorem relabel {cell : Node α T} (memory : Memory heap role stack_ free_ stacked freed)
    (stored : heap address = some cell) (unstacked : role address ≠ some .stacked)
    (unfreed : role address ≠ some .freed) (kind : Role ι) :
    Memory heap (Function.update role address (some kind)) stack_ free_ stacked freed := by
  apply memory.change _ unstacked unfreed
  · rw [Function.update_self, stored]
    simp
  · intro node different
    exact ⟨Function.update_of_ne different .., rfl⟩

theorem push (memory : Memory heap role stack_ free_ stacked freed) (fresh : role address = some (.fresh thread))
    (linked : heap address = some ⟨value, stack_⟩) :
    Memory heap (Function.update role address (some .stacked)) (some address) free_
      ((address, value) :: stacked) freed := by
  have relabelled := memory.relabel linked (by rw [fresh]; nofun) (by rw [fresh]; nofun) .stacked
  refine ⟨relabelled.allocated, ⟨rfl, stack_, links_eq_some.mpr linked, relabelled.stack⟩, ?_, relabelled.free,
    relabelled.onFree⟩
  intro entry member
  rcases List.mem_cons.mp member with rfl | later
  · exact Function.update_self ..
  · exact relabelled.onStack entry later

theorem release (memory : Memory heap role stack_ free_ stacked freed) (taken : role address = some (.taken thread))
    (linked : heap address = some ⟨value, free_⟩) :
    Memory heap (Function.update role address (some .freed)) stack_ (some address)
      stacked ((address, value) :: freed) := by
  have relabelled := memory.relabel linked (by rw [taken]; nofun) (by rw [taken]; nofun) .freed
  refine ⟨relabelled.allocated, relabelled.stack, relabelled.onStack,
    ⟨rfl, free_, links_eq_some.mpr linked, relabelled.free⟩, ?_⟩
  intro entry member
  rcases List.mem_cons.mp member with rfl | later
  · exact Function.update_self ..
  · exact relabelled.onFree entry later

/-- The first node of the stack goes to the thread that has popped it. -/
theorem pop (memory : Memory heap role (some address) free_ stacked freed) (thread : ι) :
    ∃ value next rest, stacked = (address, value) :: rest ∧ heap address = some ⟨value, next⟩ ∧
      role address = some .stacked ∧
      Memory heap (Function.update role address (some (.taken thread))) next free_ rest freed := by
  obtain ⟨allocated, stack, onStack, free, onFree⟩ := memory
  cases stacked with
  | nil => cases stack
  | cons entry rest =>
      obtain ⟨first, value⟩ := entry
      have distinct := stack.nodup
      obtain ⟨here, next, stored, tail⟩ := stack
      cases here
      have linked := links_eq_some.mp stored
      have isStacked : role address = some .stacked := onStack _ List.mem_cons_self
      refine ⟨value, next, rest, rfl, linked, isStacked, ?_, tail, ?_, free, ?_⟩
      · intro node
        by_cases same : node = address
        · rw [same, Function.update_self, linked]
          simp
        · rw [Function.update_of_ne same]
          exact allocated node
      · intro entry member
        have apart : entry.1 ≠ address := fun same =>
          (List.nodup_cons.mp distinct).1 (List.mem_map.mpr ⟨entry, member, same⟩)
        rw [Function.update_of_ne apart]
        exact onStack entry (List.mem_cons_of_mem _ member)
      · intro entry member
        have apart : entry.1 ≠ address := by
          intro same
          have isFreed := onFree entry member
          rw [same, isStacked] at isFreed
          cases isFreed
        rw [Function.update_of_ne apart]
        exact onFree entry member

/-- The nodes of the free list, now those of the thread that has detached it. -/
def condemn (role : α → Option (Role ι)) (freed : List (α × Option T)) (thread : ι) (node : α) : Option (Role ι) :=
  if node ∈ freed.map Prod.fst then some (.condemned thread) else role node

theorem condemn_of_mem (member : entry ∈ freed) : condemn role freed thread entry.1 = some (.condemned thread) :=
  if_pos (List.mem_map_of_mem member)

/-- Only freed nodes are condemned. -/
theorem condemn_of_ne (memory : Memory heap role stack_ free_ stacked freed) (unfreed : role address ≠ some .freed)
    (thread : ι) : condemn role freed thread address = role address := by
  apply if_neg
  intro listed
  obtain ⟨entry, member, same⟩ := List.mem_map.mp listed
  exact unfreed (same ▸ memory.onFree entry member)

theorem detach (memory : Memory heap role stack_ free_ stacked freed) (thread : ι) :
    Memory heap (condemn role freed thread) stack_ none stacked ([] : List (α × Option T)) ∧
      Doomed thread heap (condemn role freed thread) free_ := by
  refine ⟨⟨?_, memory.stack, ?_, rfl, nofun⟩, freed, memory.free, fun entry member => condemn_of_mem member⟩
  · intro node
    by_cases listed : node ∈ freed.map Prod.fst
    · obtain ⟨entry, member, rfl⟩ := List.mem_map.mp listed
      obtain ⟨cell, stored⟩ := memory.live (memory.onFree entry member)
      rw [condemn_of_mem member, stored]
      simp
    · rw [condemn, if_neg listed]
      exact memory.allocated node
  · intro entry member
    rw [memory.condemn_of_ne]
    · exact memory.onStack entry member
    · rw [memory.onStack entry member]
      nofun

end Memory

/-- The thread detaches the free list, none of whose nodes is held. -/
theorem Frame.condemn [DecidableEq α] (memory : Memory heap role stack_ free_ stacked freed) (thread : ι)
    {held : α → Prop} (spared : ∀ entry ∈ freed, ¬ held entry.1) :
    Frame thread held heap heap role (Memory.condemn role freed thread) := by
  constructor
  · intro node kind other here owner _
    refine ⟨memory.condemn_of_ne ?_ thread, rfl⟩
    rw [here]
    rintro ⟨⟩
    cases owner
  · intro node holds shared
    have off : node ∉ freed.map Prod.fst := by
      intro listed
      obtain ⟨entry, member, same⟩ := List.mem_map.mp listed
      exact spared entry member (same ▸ holds)
    have same : Memory.condemn role freed thread node = role node := if_neg off
    refine ⟨?_, fun stacked => ⟨same ▸ stacked, rfl⟩⟩
    rwa [Shared, same]

end

end Dsac.LockFreeStack
