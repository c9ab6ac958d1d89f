import Dsac.Container.Intrusive.List
import Dsac.Library.Ring

namespace Dsac.Intrusive

open Dsac.Library

variable {α : Type}

/-! The links as functions of the address. -/

def nextOf (heap : Heap (ListNodeBase α)) (address : Addr) : Option Addr :=
  (heap.get address).bind (·.next_)

def prevOf (heap : Heap (ListNodeBase α)) (address : Addr) : Option Addr :=
  (heap.get address).bind (·.prev_)

/-- The list with the given sentinel links the given nodes. -/
abbrev Links (heap : Heap (ListNodeBase α)) (storage_ : Addr) (nodes : List Addr) : Prop :=
  Ring (nextOf heap) (prevOf heap) storage_ nodes

/-- Both heaps have the same objects in the same nodes; the links of the second are given. -/
structure Relinks (old new : Heap (ListNodeBase α)) (next prev : Addr → Option Addr) : Prop where
  next : nextOf new = next
  prev : prevOf new = prev
  objects : ∀ address, (new.get address).map (·.object) = (old.get address).map (·.object)
  fresh : new.fresh = old.fresh

/-- The second heap differs from the first in the links of the given nodes only. -/
structure Frames (old new : Heap (ListNodeBase α)) (touched : List Addr) : Prop where
  next : ∀ address ∉ touched, nextOf new address = nextOf old address
  prev : ∀ address ∉ touched, prevOf new address = prevOf old address
  objects : ∀ address, (new.get address).map (·.object) = (old.get address).map (·.object)
  fresh : new.fresh = old.fresh

variable {heap middle new : Heap (ListNodeBase α)} {this storage_ front back : Addr}
  {next prev otherNext otherPrev : Addr → Option Addr} {nodes before after : List Addr}

theorem exists_of_nextOf (linked : nextOf heap this = some front) :
    ∃ node, heap.get this = some node ∧ node.next_ = some front :=
  Option.bind_eq_some_iff.mp linked

theorem exists_of_prevOf (linked : prevOf heap this = some back) :
    ∃ node, heap.get this = some node ∧ node.prev_ = some back :=
  Option.bind_eq_some_iff.mp linked

theorem nextOf_of_get {node : ListNodeBase α} (live : heap.get this = some node) :
    nextOf heap this = node.next_ := by
  rw [nextOf, live, Option.bind_some]

theorem prevOf_of_get {node : ListNodeBase α} (live : heap.get this = some node) :
    prevOf heap this = node.prev_ := by
  rw [prevOf, live, Option.bind_some]

namespace Relinks

theorem trans (first : Relinks heap middle next prev) (second : Relinks middle new otherNext otherPrev) :
    Relinks heap new otherNext otherPrev where
  next := second.next
  prev := second.prev
  objects address := (second.objects address).trans (first.objects address)
  fresh := second.fresh.trans first.fresh

theorem exists_get (relinks : Relinks heap new next prev) {node : ListNodeBase α}
    (live : heap.get this = some node) : ∃ other, new.get this = some other ∧ other.object = node.object := by
  have kept := relinks.objects this
  rw [live, Option.map_some] at kept
  exact Option.map_eq_some_iff.mp kept

end Relinks

/-- A write to the links of a node. -/
theorem set_relinks {node changed : ListNodeBase α} (live : heap.get this = some node)
    (same : changed.object = node.object) :
    Relinks heap (heap.set this changed) (Function.update (nextOf heap) this changed.next_)
      (Function.update (prevOf heap) this changed.prev_) := by
  have written : (heap.set this changed).get this = some changed :=
    Heap.get_set_self (Heap.lt_fresh_of_get live)
  refine ⟨funext fun address => ?_, funext fun address => ?_, fun address => ?_, Heap.fresh_set⟩
  · by_cases here : address = this
    · subst here
      rw [nextOf_of_get written, Function.update_self]
    · rw [Function.update_of_ne here, nextOf, nextOf, Heap.get_set_of_ne here]
  · by_cases here : address = this
    · subst here
      rw [prevOf_of_get written, Function.update_self]
    · rw [Function.update_of_ne here, prevOf, prevOf, Heap.get_set_of_ne here]
  · by_cases here : address = this
    · subst here
      rw [written, live, Option.map_some, Option.map_some, same]
    · rw [Heap.get_set_of_ne here]

theorem modify_next {node : ListNodeBase α} (live : heap.get this = some node) (next : Option Addr) :
    ∃ new, modify heap (some this) (fun node => { node with next_ := next }) = .ok new ∧
      Relinks heap new (Function.update (nextOf heap) this next) (prevOf heap) := by
  have same : Function.update (prevOf heap) this node.prev_ = prevOf heap := by
    rw [← prevOf_of_get live, Function.update_eq_self]
  refine ⟨_, modify_of_get _ live, ?_⟩
  rw [← same]
  exact set_relinks live rfl

theorem modify_prev {node : ListNodeBase α} (live : heap.get this = some node) (prev : Option Addr) :
    ∃ new, modify heap (some this) (fun node => { node with prev_ := prev }) = .ok new ∧
      Relinks heap new (nextOf heap) (Function.update (prevOf heap) this prev) := by
  have same : Function.update (nextOf heap) this node.next_ = nextOf heap := by
    rw [← nextOf_of_get live, Function.update_eq_self]
  refine ⟨_, modify_of_get _ live, ?_⟩
  rw [← same]
  exact set_relinks live rfl

theorem attach_relinks {nextNode backNode node : ListNodeBase α}
    (nextLive : heap.get front = some nextNode) (nextPrev : nextNode.prev_ = some back)
    (backLive : heap.get back = some backNode) (live : heap.get this = some node) :
    ∃ new, attach heap this (some front) = .ok new ∧
      Relinks heap new (Function.update (Function.update (nextOf heap) back (some this)) this (some front))
        (Function.update (Function.update (prevOf heap) front (some this)) this (some back)) := by
  obtain ⟨first, firstIs, firstRelinks⟩ := modify_prev nextLive (some this)
  obtain ⟨_, firstLive, _⟩ := firstRelinks.exists_get live
  obtain ⟨second, secondIs, secondRelinks⟩ := modify_prev firstLive (some back)
  obtain ⟨thisNode, thisLive, _⟩ := secondRelinks.exists_get firstLive
  have thisPrev : thisNode.prev_ = some back := by
    rw [← prevOf_of_get thisLive, secondRelinks.prev, Function.update_self]
  obtain ⟨_, backMiddle, _⟩ := (firstRelinks.trans secondRelinks).exists_get backLive
  obtain ⟨third, thirdIs, thirdRelinks⟩ := modify_next backMiddle (some this)
  obtain ⟨_, thirdLive, _⟩ := thirdRelinks.exists_get thisLive
  obtain ⟨fourth, fourthIs, fourthRelinks⟩ := modify_next thirdLive (some front)
  refine ⟨fourth, ?_, ?_⟩
  · simp only [attach, deref_some, load_of_get nextLive, bind, Except.bind, nextPrev, firstIs, secondIs,
      load_of_get thisLive, thisPrev, thirdIs, fourthIs]
  · have relinks := ((firstRelinks.trans secondRelinks).trans thirdRelinks).trans fourthRelinks
    rwa [thirdRelinks.next, thirdRelinks.prev, secondRelinks.next, secondRelinks.prev,
      firstRelinks.next, firstRelinks.prev] at relinks

/-- `next_ = prev_ = nullptr`. -/
theorem modify_both {node : ListNodeBase α} (live : heap.get this = some node) :
    ∃ new, modify heap (some this) (fun node => { node with next_ := none, prev_ := none }) = .ok new ∧
      Relinks heap new (Function.update (nextOf heap) this none)
        (Function.update (prevOf heap) this none) :=
  ⟨_, modify_of_get _ live, set_relinks live rfl⟩

theorem detach_relinks {frontNode backNode node : ListNodeBase α} (live : heap.get this = some node)
    (nodeNext : node.next_ = some front) (nodePrev : node.prev_ = some back)
    (frontLive : heap.get front = some frontNode) (backLive : heap.get back = some backNode)
    (frontOther : front ≠ this) :
    ∃ new, detach heap this = .ok new ∧
      Relinks heap new (Function.update (Function.update (nextOf heap) back (some front)) this none)
        (Function.update (Function.update (prevOf heap) front (some back)) this none) := by
  obtain ⟨first, firstIs, firstRelinks⟩ := modify_prev frontLive (some back)
  obtain ⟨firstNode, firstLive, _⟩ := firstRelinks.exists_get live
  have firstNext : firstNode.next_ = some front := by
    rw [← nextOf_of_get firstLive, firstRelinks.next, nextOf_of_get live, nodeNext]
  have firstPrev : firstNode.prev_ = some back := by
    rw [← prevOf_of_get firstLive, firstRelinks.prev, Function.update_of_ne frontOther.symm,
      prevOf_of_get live, nodePrev]
  obtain ⟨_, backFirst, _⟩ := firstRelinks.exists_get backLive
  obtain ⟨second, secondIs, secondRelinks⟩ := modify_next backFirst (some front)
  obtain ⟨_, secondLive, _⟩ := secondRelinks.exists_get firstLive
  obtain ⟨third, thirdIs, thirdRelinks⟩ := modify_both secondLive
  refine ⟨third, ?_, ?_⟩
  · simp only [detach, load_of_get live, bind, Except.bind, nodeNext, nodePrev, modifyIfNotNull, firstIs,
      load_of_get firstLive, firstNext, firstPrev, secondIs, thirdIs]
  · have relinks := (firstRelinks.trans secondRelinks).trans thirdRelinks
    rwa [secondRelinks.next, secondRelinks.prev, firstRelinks.next, firstRelinks.prev] at relinks

/-- A node that is in no list stays in none. -/
theorem detach_unlinked {node : ListNodeBase α} (live : heap.get this = some node)
    (nodeNext : node.next_ = none) (nodePrev : node.prev_ = none) :
    ∃ new, detach heap this = .ok new ∧ Relinks heap new (nextOf heap) (prevOf heap) := by
  obtain ⟨new, newIs, relinks⟩ := modify_both live
  refine ⟨new, ?_, ?_⟩
  · simp only [detach, load_of_get live, bind, Except.bind, nodeNext, nodePrev, modifyIfNotNull, newIs]
  · rwa [← nodeNext, ← nextOf_of_get live, Function.update_eq_self, nextOf_of_get live, nodeNext,
      ← nodePrev, ← prevOf_of_get live, Function.update_eq_self] at relinks

theorem Relinks.frames {next prev : Option Addr} {nextBack prevFront : Option Addr} {touched : List Addr}
    (relinks : Relinks heap new (Function.update (Function.update (nextOf heap) back nextBack) this next)
      (Function.update (Function.update (prevOf heap) front prevFront) this prev))
    (thisIn : this ∈ touched) (backIn : back ∈ touched) (frontIn : front ∈ touched) :
    Frames heap new touched where
  next address outside := by
    rw [relinks.next, Function.update_of_ne (ne_of_mem_of_not_mem thisIn outside).symm,
      Function.update_of_ne (ne_of_mem_of_not_mem backIn outside).symm]
  prev address outside := by
    rw [relinks.prev, Function.update_of_ne (ne_of_mem_of_not_mem thisIn outside).symm,
      Function.update_of_ne (ne_of_mem_of_not_mem frontIn outside).symm]
  objects := relinks.objects
  fresh := relinks.fresh

/-- The other lists keep their nodes. -/
theorem Frames.links {touched : List Addr} (frames : Frames heap new touched)
    (links : Links heap storage_ nodes) (apart : ∀ address ∈ storage_ :: nodes, address ∉ touched) :
    Links new storage_ nodes :=
  links.congr (fun address member => frames.next address (apart address member))
    fun address member => frames.prev address (apart address member)

theorem Frames.trans {touched : List Addr} (first : Frames heap middle touched)
    (second : Frames middle new touched) : Frames heap new touched where
  next address outside := (second.next address outside).trans (first.next address outside)
  prev address outside := (second.prev address outside).trans (first.prev address outside)
  objects address := (second.objects address).trans (first.objects address)
  fresh := second.fresh.trans first.fresh

theorem isFirst_mem (isFirst : (after ++ [storage_]).head? = some front) :
    front = storage_ ∨ front ∈ after := by
  have member := List.mem_of_head? isFirst
  rw [List.mem_append, List.mem_singleton] at member
  exact member.symm

theorem empty_links (links : Links heap storage_ nodes) :
    empty heap storage_ = .ok (decide (nodes = [])) := by
  obtain ⟨front, isFirst⟩ := Ring.exists_isFirst storage_ nodes
  obtain ⟨node, live, nodeNext⟩ := exists_of_nextOf (links.next_storage isFirst)
  simp only [empty, load_of_get live, bind, Except.bind, nodeNext, Option.some.injEq]
  refine congrArg Except.ok (decide_eq_decide.mpr ⟨fun same => ?_, fun none => ?_⟩)
  · subst same
    cases nodes with
    | nil => rfl
    | cons first rest =>
        cases isFirst
        exact absurd List.mem_cons_self (List.nodup_cons.mp links.distinct).1
  · subst none
    cases isFirst
    rfl

theorem pushFront_links {node : ListNodeBase α} (links : Links heap storage_ nodes)
    (live : heap.get this = some node) (outside : this ∉ storage_ :: nodes) :
    ∃ new, pushFront heap storage_ this = .ok new ∧ Links new storage_ (this :: nodes) ∧
      Frames heap new (storage_ :: this :: nodes) := by
  obtain ⟨front, isFirst⟩ := Ring.exists_isFirst storage_ nodes
  have whole : Ring (nextOf heap) (prevOf heap) storage_ ([] ++ nodes) := links
  have isLast : [storage_].getLast? = some storage_ := rfl
  obtain ⟨forward, backward⟩ := whole.joined isLast isFirst
  obtain ⟨storageNode, storageLive, storageNext⟩ := exists_of_nextOf forward
  obtain ⟨frontNode, frontLive, frontPrev⟩ := exists_of_prevOf backward
  obtain ⟨new, newIs, relinks⟩ := attach_relinks frontLive frontPrev storageLive live
  have linked := whole.insert isLast isFirst outside
  rw [← relinks.next, ← relinks.prev] at linked
  refine ⟨new, ?_, linked, relinks.frames (by simp) (by simp) ?_⟩
  · simp only [pushFront, load_of_get storageLive, bind, Except.bind, storageNext, newIs]
  · rcases isFirst_mem isFirst with rfl | later
    · exact List.mem_cons_self
    · exact List.mem_cons_of_mem _ (List.mem_cons_of_mem _ later)

/-- A node leaves its list, with both links null. -/
theorem detach_links (links : Links heap storage_ (before ++ this :: after)) :
    ∃ new, detach heap this = .ok new ∧ Links new storage_ (before ++ after) ∧
      (nextOf new this = none ∧ prevOf new this = none) ∧
      Frames heap new (storage_ :: (before ++ this :: after)) := by
  obtain ⟨front, isFirst⟩ := Ring.exists_isFirst storage_ after
  obtain ⟨back, isLast⟩ := Ring.exists_isLast storage_ before
  obtain ⟨forward, frontPrev⟩ := links.joined_after isFirst
  obtain ⟨backNext, backward⟩ := links.joined_before isLast
  obtain ⟨node, live, nodeNext⟩ := exists_of_nextOf forward
  have nodePrev : node.prev_ = some back := by rw [← prevOf_of_get live, backward]
  obtain ⟨frontNode, frontLive, _⟩ := exists_of_prevOf frontPrev
  obtain ⟨backNode, backLive, _⟩ := exists_of_nextOf backNext
  obtain ⟨_, outside⟩ := links.outside_of_middle
  obtain ⟨new, newIs, relinks⟩ := detach_relinks live nodeNext nodePrev frontLive backLive
    (Ring.ne_of_isFirst outside isFirst)
  have linked := links.remove isLast isFirst
  rw [← relinks.next, ← relinks.prev] at linked
  refine ⟨new, newIs, linked, ⟨?_, ?_⟩, relinks.frames (by simp) ?_ ?_⟩
  · rw [relinks.next, Function.update_self]
  · rw [relinks.prev, Function.update_self]
  · exact List.cons_subset_cons storage_ (List.subset_append_left before _) (List.mem_of_getLast? isLast)
  · rcases isFirst_mem isFirst with rfl | later
    · exact List.mem_cons_self
    · exact List.mem_cons_of_mem _ (List.mem_append_right _ (List.mem_cons_of_mem _ later))

theorem popBack_nil (links : Links heap storage_ []) : popBack heap storage_ = .ok (heap, none) := by
  simp only [popBack, empty_links links, bind, Except.bind, decide_true, if_true]
  rfl

theorem popBack_links (links : Links heap storage_ (before ++ [this])) :
    ∃ new, popBack heap storage_ = .ok (new, some this) ∧ Links new storage_ before ∧
      (nextOf new this = none ∧ prevOf new this = none) ∧
      Frames heap new (storage_ :: (before ++ [this])) := by
  obtain ⟨new, newIs, linked, cut, frames⟩ := detach_links links
  rw [List.append_nil] at linked
  have isLast : (storage_ :: (before ++ [this])).getLast? = some this := by
    rw [← List.cons_append, List.getLast?_concat]
  obtain ⟨node, live, nodePrev⟩ := exists_of_prevOf (links.prev_storage isLast)
  refine ⟨new, ?_, linked, cut, frames⟩
  simp only [popBack, empty_links links, bind, Except.bind, List.append_eq_nil_iff, List.cons_ne_self,
    and_false, decide_false, load_of_get live, nodePrev, detachPointer, newIs]
  rfl

end Dsac.Intrusive
