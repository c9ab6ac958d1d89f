import Dsac.Container.Intrusive.List.Links
import Dsac.Library.Run

namespace Dsac.Intrusive

open Dsac.Library

/-! The list as a sequence with two ends, from which any node can be removed. -/

variable {α : Type}

/-- A call on a list or on one of its nodes. -/
inductive Call where
  | pushFront (node : Addr)
  | pushBack (node : Addr)
  | popFront
  | popBack
  | detach (node : Addr)
deriving DecidableEq, Repr

/-- A list with the nodes around it, and what the pops returned. -/
structure Session (α : Type) where
  heap : Heap (ListNodeBase α)
  storage_ : Addr
  popped : List (Option Addr) := []
deriving DecidableEq, Repr

def Session.call (session : Session α) : Call → Outcome (Session α)
  | .pushFront node => do return { session with heap := ← pushFront session.heap session.storage_ node }
  | .pushBack node => do return { session with heap := ← pushBack session.heap session.storage_ node }
  | .popFront => do
      let (heap, front) ← popFront session.heap session.storage_
      return { session with heap, popped := session.popped ++ [front] }
  | .popBack => do
      let (heap, back) ← popBack session.heap session.storage_
      return { session with heap, popped := session.popped ++ [back] }
  | .detach node => do return { session with heap := ← detach session.heap node }

/-- A node of no list: both links are null. -/
def Unlinked (heap : Heap (ListNodeBase α)) (node : Addr) : Prop :=
  (heap.get node).isSome = true ∧ nextOf heap node = none ∧ prevOf heap node = none

instance (heap : Heap (ListNodeBase α)) (node : Addr) : Decidable (Unlinked heap node) :=
  inferInstanceAs (Decidable (_ ∧ _))

/-- The nodes met from the sentinel on along a link, if it leads back there. -/
def Session.linked (session : Session α) (link : Heap (ListNodeBase α) → Addr → Option Addr) :
    Option (List Addr) :=
  follow (link session.heap) session.storage_ (session.heap.fresh + 1) session.storage_

/-- What the caller owes: nodes that are pushed are unlinked, nodes that are detached are linked. -/
def Permits (session : Session α) : Call → Prop
  | .pushFront node | .pushBack node => Unlinked session.heap node
  | .popFront | .popBack => True
  | .detach node => ∃ nodes ∈ session.linked nextOf, node ∈ nodes

instance (session : Session α) : DecidablePred (Permits session)
  | .pushFront _ | .pushBack _ => inferInstanceAs (Decidable (Unlinked _ _))
  | .popFront | .popBack => .isTrue trivial
  | .detach _ => inferInstanceAs (Decidable (∃ nodes ∈ session.linked nextOf, _))

/-- The sequence, and what the pops returned. -/
structure Deque where
  nodes : List Addr := []
  popped : List (Option Addr) := []

def Deque.call (deque : Deque) : Call → Deque
  | .pushFront node => { deque with nodes := node :: deque.nodes }
  | .pushBack node => { deque with nodes := deque.nodes ++ [node] }
  | .popFront => { nodes := deque.nodes.tail, popped := deque.popped ++ [deque.nodes.head?] }
  | .popBack => { nodes := deque.nodes.dropLast, popped := deque.popped ++ [deque.nodes.getLast?] }
  | .detach node => { deque with nodes := deque.nodes.erase node }

/-- What the calls amount to. -/
def Deque.after (calls : List Call) : Deque := calls.foldl Deque.call {}

/-- The node was pushed. -/
def Pushed (calls : List Call) (node : Addr) : Prop := .pushFront node ∈ calls ∨ .pushBack node ∈ calls

section

variable {heap new : Heap (ListNodeBase α)} {storage_ this other : Addr} {nodes touched : List Addr}

theorem exists_next_of_links (links : Links heap storage_ nodes) (member : this ∈ storage_ :: nodes) :
    ∃ next, nextOf heap this = some next := by
  rcases List.mem_cons.mp member with rfl | inside
  · obtain ⟨front, isFirst⟩ := Ring.exists_isFirst this nodes
    exact ⟨front, links.next_storage isFirst⟩
  · obtain ⟨before, after, rfl⟩ := List.append_of_mem inside
    obtain ⟨front, isFirst⟩ := Ring.exists_isFirst storage_ after
    exact ⟨front, (links.joined_after isFirst).1⟩

theorem length_le_fresh (links : Links heap storage_ nodes) : nodes.length < heap.fresh + 1 := by
  have inside : nodes ⊆ List.range heap.fresh := fun node member => by
    obtain ⟨_, linked⟩ := exists_next_of_links links (List.mem_cons_of_mem _ member)
    obtain ⟨_, live, _⟩ := exists_of_nextOf linked
    exact List.mem_range.mpr (Heap.lt_fresh_of_get live)
  have bounded := (List.nodup_cons.mp links.distinct).2.length_le_of_subset inside
  rw [List.length_range] at bounded
  exact Nat.lt_succ_of_le bounded

theorem Unlinked.outside (unlinked : Unlinked heap this) (links : Links heap storage_ nodes) :
    this ∉ storage_ :: nodes := fun member => by
  obtain ⟨next, linked⟩ := exists_next_of_links links member
  cases unlinked.2.1.symm.trans linked

theorem Frames.unlinked (frames : Frames heap new touched) (unlinked : Unlinked heap this)
    (outside : this ∉ touched) : Unlinked new this := by
  obtain ⟨live, next, prev⟩ := unlinked
  refine ⟨?_, (frames.next this outside).trans next, (frames.prev this outside).trans prev⟩
  have kept := congrArg Option.isSome (frames.objects this)
  rwa [Option.isSome_map, Option.isSome_map, live] at kept

theorem Frames.unlinked_of_cut (frames : Frames heap new touched) (live : (heap.get this).isSome = true)
    (cut : nextOf new this = none ∧ prevOf new this = none) : Unlinked new this := by
  refine ⟨?_, cut⟩
  have kept := congrArg Option.isSome (frames.objects this)
  rwa [Option.isSome_map, Option.isSome_map, live] at kept

theorem isSome_of_links (links : Links heap storage_ nodes) (member : this ∈ nodes) :
    (heap.get this).isSome = true := by
  obtain ⟨next, linked⟩ := exists_next_of_links links (List.mem_cons_of_mem _ member)
  obtain ⟨fields, live, _⟩ := exists_of_nextOf linked
  rw [live]
  rfl

theorem pushBack_links {node : ListNodeBase α} (links : Links heap storage_ nodes)
    (live : heap.get this = some node) (outside : this ∉ storage_ :: nodes) :
    ∃ new, pushBack heap storage_ this = .ok new ∧ Links new storage_ (nodes ++ [this]) ∧
      Frames heap new (storage_ :: (nodes ++ [this])) := by
  obtain ⟨back, isLast⟩ := Ring.exists_isLast storage_ nodes
  have whole : Ring (nextOf heap) (prevOf heap) storage_ (nodes ++ []) := by rwa [List.append_nil]
  have isFirst : ([] ++ [storage_]).head? = some storage_ := rfl
  obtain ⟨forward, backward⟩ := whole.joined isLast isFirst
  obtain ⟨storageNode, storageLive, storagePrev⟩ := exists_of_prevOf backward
  obtain ⟨backNode, backLive, _⟩ := exists_of_nextOf forward
  obtain ⟨new, newIs, relinks⟩ := attach_relinks storageLive storagePrev backLive live
  have linked := whole.insert isLast isFirst (by rwa [List.append_nil])
  rw [← relinks.next, ← relinks.prev] at linked
  refine ⟨new, newIs, linked, relinks.frames (by simp) ?_ (by simp)⟩
  exact List.cons_subset_cons storage_ (List.subset_append_left nodes _) (List.mem_of_getLast? isLast)

theorem popFront_nil (links : Links heap storage_ []) : popFront heap storage_ = .ok (heap, none) := by
  simp only [popFront, empty_links links, bind, Except.bind, decide_true, if_true]
  rfl

theorem popFront_links (links : Links heap storage_ (this :: nodes)) :
    ∃ new, popFront heap storage_ = .ok (new, some this) ∧ Links new storage_ nodes ∧
      (nextOf new this = none ∧ prevOf new this = none) ∧ Frames heap new (storage_ :: this :: nodes) := by
  have whole : Links heap storage_ ([] ++ this :: nodes) := links
  obtain ⟨new, newIs, linked, cut, frames⟩ := detach_links whole
  obtain ⟨node, live, nodeNext⟩ := exists_of_nextOf (links.next_storage rfl)
  refine ⟨new, ?_, linked, cut, frames⟩
  simp only [popFront, empty_links links, bind, Except.bind, List.cons_ne_nil, decide_false,
    load_of_get live, nodeNext, detachPointer, newIs]
  rfl

/-- A constructed list is empty, among the nodes that there were. -/
theorem construct_links (heap : Heap (ListNodeBase α)) :
    ∃ new, construct heap = .ok (new, heap.fresh) ∧ Links new heap.fresh [] := by
  have live : (heap.alloc {}).get heap.fresh = some {} := Heap.get_alloc_fresh
  obtain ⟨first, firstIs, firstRelinks⟩ := modify_next live (some heap.fresh)
  obtain ⟨_, firstLive, _⟩ := firstRelinks.exists_get live
  obtain ⟨second, secondIs, secondRelinks⟩ := modify_prev firstLive (some heap.fresh)
  refine ⟨second, ?_, Ring.nil ?_ ?_⟩
  · simp only [construct, setNext, setPrev, firstIs, secondIs, bind, Except.bind]
    rfl
  · rw [secondRelinks.next, firstRelinks.next, Function.update_self]
  · rw [secondRelinks.prev, Function.update_self]

end

/-- The list links the nodes of the deque, and a node that was pushed and removed since is unlinked. -/
structure Session.Follows (past : List Call) (session : Session α) : Prop where
  links : Links session.heap session.storage_ (Deque.after past).nodes
  popped : session.popped = (Deque.after past).popped
  removed : ∀ node, Pushed past node → node ∉ (Deque.after past).nodes → Unlinked session.heap node

theorem Deque.after_append (past : List Call) (call : Call) :
    Deque.after (past ++ [call]) = (Deque.after past).call call := by
  rw [Deque.after, List.foldl_append]
  rfl

namespace Session.Follows

variable {past : List Call} {session : Session α} {new : Heap (ListNodeBase α)} {node : Addr}
  {nodes touched : List Addr}

theorem linked_next (follows : session.Follows past) :
    session.linked nextOf = some (Deque.after past).nodes :=
  follows.links.follow_eq (length_le_fresh follows.links)

theorem linked_prev (follows : session.Follows past) :
    session.linked prevOf = some (Deque.after past).nodes.reverse := by
  apply follows.links.reverse.follow_eq
  rw [List.length_reverse]
  exact length_le_fresh follows.links

/-- What a call has to leave behind. -/
theorem step (follows : session.Follows past) {call : Call} {popped : List (Option Addr)}
    (links : Links new session.storage_ ((Deque.after past).call call).nodes)
    (frames : Frames session.heap new touched)
    (touches : ∀ other ∈ touched, other = session.storage_ ∨ other ∈ (Deque.after past).nodes ∨
      other ∈ ((Deque.after past).call call).nodes)
    (pops : popped = ((Deque.after past).call call).popped)
    (cut : ∀ other ∈ (Deque.after past).nodes, other ∉ ((Deque.after past).call call).nodes → Unlinked new other)
    (pushes : ∀ other, Pushed [call] other → other ∈ ((Deque.after past).call call).nodes) :
    Follows (past ++ [call]) { session with heap := new, popped } := by
  rw [← Deque.after_append] at *
  refine ⟨links, pops, fun other pushed outside => ?_⟩
  by_cases inside : other ∈ (Deque.after past).nodes
  · exact cut other inside outside
  · have before : Pushed past other := by
      by_contra fresh
      refine outside (pushes other ?_)
      rw [Pushed, List.mem_append, List.mem_append] at pushed
      rw [Pushed, not_or] at fresh
      exact pushed.imp (·.resolve_left fresh.1) (·.resolve_left fresh.2)
    have unlinked := follows.removed other before inside
    refine frames.unlinked unlinked fun touched => ?_
    rcases touches other touched with same | old | now
    · exact unlinked.outside follows.links (same ▸ List.mem_cons_self)
    · exact inside old
    · exact outside now

theorem pushed_singleton {call : Call} (pushed : Pushed [call] node) :
    call = .pushFront node ∨ call = .pushBack node :=
  pushed.imp (fun member => (List.mem_singleton.mp member).symm) fun member => (List.mem_singleton.mp member).symm

theorem pushFront (follows : session.Follows past) (unlinked : Unlinked session.heap node) :
    ∃ next, session.call (.pushFront node) = .ok next ∧ next.Follows (past ++ [.pushFront node]) := by
  obtain ⟨fields, live⟩ := Option.isSome_iff_exists.mp unlinked.1
  obtain ⟨new, pushed, links, frames⟩ := pushFront_links follows.links live (unlinked.outside follows.links)
  refine ⟨{ session with heap := new }, by simp only [Session.call, pushed, bind, Except.bind]; rfl, ?_⟩
  refine follows.step links frames (fun other member => ?_) follows.popped (fun other old gone => ?_) ?_
  · exact (List.mem_cons.mp member).imp_right Or.inr
  · exact absurd (List.mem_cons_of_mem _ old) gone
  · rintro other pushed
    rcases pushed_singleton pushed with same | same
    · cases same
      exact List.mem_cons_self
    · cases same

theorem pushBack (follows : session.Follows past) (unlinked : Unlinked session.heap node) :
    ∃ next, session.call (.pushBack node) = .ok next ∧ next.Follows (past ++ [.pushBack node]) := by
  obtain ⟨fields, live⟩ := Option.isSome_iff_exists.mp unlinked.1
  obtain ⟨new, pushed, links, frames⟩ := pushBack_links follows.links live (unlinked.outside follows.links)
  refine ⟨{ session with heap := new }, by simp only [Session.call, pushed, bind, Except.bind]; rfl, ?_⟩
  refine follows.step links frames (fun other member => ?_) follows.popped (fun other old gone => ?_) ?_
  · exact (List.mem_cons.mp member).imp_right Or.inr
  · exact absurd (List.mem_append_left _ old) gone
  · rintro other pushed
    rcases pushed_singleton pushed with same | same
    · cases same
    · cases same
      exact List.mem_append_right _ (List.mem_singleton_self _)

/-- A pop of the empty list. -/
theorem pop_nil (follows : session.Follows past) {call : Call} (nodes : (Deque.after past).nodes = [])
    (stays : ((Deque.after past).call call).nodes = [])
    (pops : ((Deque.after past).call call).popped = (Deque.after past).popped ++ [none])
    (none : ∀ other, ¬ Pushed [call] other) :
    Follows (past ++ [call]) { session with popped := session.popped ++ [Option.none] } := by
  have frames : Frames session.heap session.heap [] :=
    ⟨fun _ _ => rfl, fun _ _ => rfl, fun _ => rfl, rfl⟩
  have links := follows.links
  refine follows.step ?_ frames nofun ?_ ?_ fun other pushed => (none other pushed).elim
  · rwa [stays, ← nodes]
  · rw [pops, follows.popped]
  · rw [nodes]
    nofun

/-- A node is removed. -/
theorem removal (follows : session.Follows past) {call : Call} {popped : List (Option Addr)}
    {before after : List Addr} (nodes : (Deque.after past).nodes = before ++ node :: after)
    (remains : ((Deque.after past).call call).nodes = before ++ after)
    (pops : ((Deque.after past).call call).popped = popped) (none : ∀ other, ¬ Pushed [call] other)
    (links : Links new session.storage_ (before ++ after))
    (cut : nextOf new node = Option.none ∧ prevOf new node = Option.none)
    (frames : Frames session.heap new (session.storage_ :: (before ++ node :: after))) :
    Follows (past ++ [call]) { session with heap := new, popped } := by
  refine follows.step (remains ▸ links) frames (fun other member => ?_) pops.symm (fun other old gone => ?_)
    fun other pushed => (none other pushed).elim
  · rw [nodes]
    exact (List.mem_cons.mp member).imp_right Or.inl
  · rw [remains, List.mem_append, not_or] at gone
    rw [nodes, List.mem_append, List.mem_cons] at old
    cases (old.resolve_left gone.1).resolve_right gone.2
    have before := follows.links
    rw [nodes] at before
    exact frames.unlinked_of_cut (isSome_of_links before (List.mem_append_right _ List.mem_cons_self)) cut

theorem popFront (follows : session.Follows past) :
    ∃ next, session.call .popFront = .ok next ∧ next.Follows (past ++ [.popFront]) := by
  have none : ∀ other, ¬ Pushed [.popFront] other := by simp [Pushed]
  have links := follows.links
  cases nodes : (Deque.after past).nodes with
  | nil =>
      rw [nodes] at links
      refine ⟨_, by simp only [Session.call, popFront_nil links, bind, Except.bind]; rfl, ?_⟩
      apply follows.pop_nil nodes
      · rw [Deque.call, nodes, List.tail_nil]
      · rw [Deque.call, nodes, List.head?_nil]
      · exact none
  | cons first rest =>
      rw [nodes] at links
      obtain ⟨new, popped, linked, cut, frames⟩ := popFront_links links
      refine ⟨_, by simp only [Session.call, popped, bind, Except.bind]; rfl, ?_⟩
      have split : (Deque.after past).nodes = [] ++ first :: rest := nodes
      apply follows.removal split ?_ ?_ none linked cut frames
      · rw [Deque.call, nodes, List.tail_cons, List.nil_append]
      · rw [Deque.call, nodes, follows.popped, List.head?_cons]

theorem popBack (follows : session.Follows past) :
    ∃ next, session.call .popBack = .ok next ∧ next.Follows (past ++ [.popBack]) := by
  have none : ∀ other, ¬ Pushed [.popBack] other := by simp [Pushed]
  have links := follows.links
  rcases List.eq_nil_or_concat' (Deque.after past).nodes with nodes | ⟨before, last, nodes⟩
  · rw [nodes] at links
    refine ⟨_, by simp only [Session.call, popBack_nil links, bind, Except.bind]; rfl, ?_⟩
    apply follows.pop_nil nodes
    · rw [Deque.call, nodes, List.dropLast_nil]
    · rw [Deque.call, nodes, List.getLast?_nil]
    · exact none
  · rw [nodes] at links
    obtain ⟨new, popped, linked, cut, frames⟩ := popBack_links links
    refine ⟨_, by simp only [Session.call, popped, bind, Except.bind]; rfl, ?_⟩
    apply follows.removal nodes ?_ ?_ none (by rwa [List.append_nil]) cut frames
    · rw [Deque.call, nodes, List.dropLast_concat, List.append_nil]
    · rw [Deque.call, nodes, follows.popped, List.getLast?_concat]

theorem detach (follows : session.Follows past) (member : node ∈ (Deque.after past).nodes) :
    ∃ next, session.call (.detach node) = .ok next ∧ next.Follows (past ++ [.detach node]) := by
  have none : ∀ other, ¬ Pushed [.detach node] other := by simp [Pushed]
  have links := follows.links
  obtain ⟨before, after, nodes⟩ := List.append_of_mem member
  rw [nodes] at links
  obtain ⟨new, detached, linked, cut, frames⟩ := detach_links links
  have outside := (List.nodup_cons.mp (List.nodup_middle.mp (List.nodup_cons.mp links.distinct).2)).1
  refine ⟨_, by simp only [Session.call, detached, bind, Except.bind]; rfl, ?_⟩
  apply follows.removal nodes ?_ ?_ none linked cut frames
  · rw [Deque.call, nodes, List.erase_append_right _ fun earlier => outside (List.mem_append_left _ earlier),
      List.erase_cons_head]
  · exact follows.popped.symm

/-- Every permitted call takes the list where it takes the deque. -/
theorem call (follows : session.Follows past) {call : Call} (permits : Permits session call) :
    ∃ next, session.call call = .ok next ∧ next.Follows (past ++ [call]) := by
  cases call with
  | pushFront node => exact follows.pushFront permits
  | pushBack node => exact follows.pushBack permits
  | popFront => exact follows.popFront
  | popBack => exact follows.popBack
  | detach node =>
      obtain ⟨nodes, linked, member⟩ := permits
      cases follows.linked_next.symm.trans linked
      exact follows.detach member

end Session.Follows

/-- **The list is a deque with removal anywhere.** After any sequence of pushes of unlinked nodes,
pops and detachments of linked nodes, the forward links lead through the deque and back to the
sentinel, the backward links through the reverse; the pops returned the end elements, or null when
there were none; and every node that was removed and not pushed again has both links null. -/
theorem calls_refine_deque (heap : Heap (ListNodeBase α)) {built : Heap (ListNodeBase α)} {storage_ : Addr}
    (constructed : construct heap = .ok (built, storage_)) (calls : List Call)
    (permitted : Meets Session.call Permits ⟨built, storage_, []⟩ calls) :
    ∃ session, run Session.call ⟨built, storage_, []⟩ calls = .ok session ∧
      session.linked nextOf = some (Deque.after calls).nodes ∧
      session.linked prevOf = some (Deque.after calls).nodes.reverse ∧
      session.popped = (Deque.after calls).popped ∧
      ∀ node, Pushed calls node → node ∉ (Deque.after calls).nodes → Unlinked session.heap node := by
  obtain ⟨new, same, links⟩ := construct_links heap
  cases same.symm.trans constructed
  have follows : Session.Follows [] ⟨built, heap.fresh, []⟩ :=
    ⟨links, rfl, fun node pushed => by simp [Pushed] at pushed⟩
  obtain ⟨session, ran, after⟩ := run_invariant Session.call Session.Follows
    (fun past session call follows permits => follows.call permits) follows permitted
  exact ⟨session, ran, after.linked_next, after.linked_prev, after.popped, after.removed⟩

def threeNodes : Heap (ListNodeBase Nat) := ((({} : Heap (ListNodeBase Nat)).alloc {}).alloc {}).alloc {}

/-- The node in the middle is detached and not pushed again, the last is popped and pushed in front. -/
def shuffled : List Call :=
  [.pushBack 0, .pushBack 1, .pushFront 2, .detach 0, .popBack, .pushFront 1, .popFront, .popFront, .popFront]

theorem calls_refine_deque_three :
    ∃ built storage_ session, construct threeNodes = .ok (built, storage_) ∧
      run Session.call ⟨built, storage_, []⟩ shuffled = .ok session ∧
      session.linked nextOf = some [] ∧ session.popped = [some 1, some 1, some 2, none] := by
  obtain ⟨session, ran, next, _, popped, _⟩ := calls_refine_deque threeNodes rfl shuffled (by decide)
  exact ⟨_, _, session, rfl, ran, next, popped⟩

end Dsac.Intrusive
