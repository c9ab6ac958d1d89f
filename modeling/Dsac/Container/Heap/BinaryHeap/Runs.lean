import Dsac.Container.Heap.BinaryHeap.Sifting
import Dsac.Library.Run

namespace Dsac.BinaryHeap

open Dsac.Library

/-! Any sequence of calls on a heap. -/

variable {T : Type} {comp : T → T → Bool} {heap : BinaryHeap T}

/-- No child precedes its parent. -/
def Ordered (comp : T → T → Bool) (heap : BinaryHeap T) : Prop :=
  ∀ place > 0, ∀ child parent, heap.storage[place]? = some child →
    heap.storage[(place - 1) / 2]? = some parent → comp child parent = false

theorem ordered_iff : heap.Ordered comp ↔ HeapOrder (orTop comp) heap.placed := by
  constructor
  · intro ordered place positive
    cases child : heap.storage[place]? with
    | none =>
        rw [show heap.placed place = none from child]
        rfl
    | some childValue =>
        obtain ⟨inside, _⟩ := List.getElem?_eq_some_iff.mp child
        obtain ⟨parent, above⟩ := exists_placed (Nat.lt_trans (parentPlace_lt positive) inside)
        rw [placed, placed, child, above]
        exact ordered place positive childValue parent child above
  · intro heapOrder place positive child parent here above
    have compared := heapOrder place positive
    rwa [placed, placed, here, parentPlace, above] at compared

/-- No element precedes the first. -/
theorem Ordered.front_first (ordered : heap.Ordered comp) (order : StrictWeakOrder comp) {front other : T}
    {rest : List T} (storage : heap.storage = front :: rest) (member : other ∈ heap.storage) :
    comp other front = false := by
  obtain ⟨place, here⟩ := List.mem_iff_getElem?.mp member
  have first := (ordered_iff.mp ordered).root_first order.orTop place
  rw [placed, placed, here, storage] at first
  exact first

/-! `Insert`. -/

theorem Ordered.push (ordered : heap.Ordered comp) (key : T) :
    UpOrder (orTop comp) (placed { storage := heap.storage ++ [key] }) heap.storage.length := by
  have same : ∀ place < heap.storage.length,
      placed { storage := heap.storage ++ [key] } place = heap.placed place :=
    fun place inside => List.getElem?_append_left inside
  have outside : ∀ place > heap.storage.length, placed { storage := heap.storage ++ [key] } place = none := by
    intro place after
    apply placed_eq_none
    simp only [List.length_append, List.length_singleton]
    omega
  constructor
  · intro other positive apart
    have higher := parentPlace_lt positive
    rcases Nat.lt_or_gt_of_ne apart with inside | after
    · rw [same other inside, same _ (by omega)]
      exact ordered_iff.mp ordered other positive
    · rw [outside other after]
      rfl
  · intro other positive under _
    have higher := parentPlace_lt positive
    rw [outside other (by omega)]
    rfl

theorem Ordered.insert (ordered : heap.Ordered comp) (order : StrictWeakOrder comp)
    (fits : heap.storage.length < 2147483648) (key : T) :
    ∃ next, heap.insert comp key = .ok next ∧ next.Ordered comp ∧ next.storage.Perm (heap.storage ++ [key]) := by
  obtain ⟨next, done, heapOrder, perm⟩ := @rise_orders _ { storage := heap.storage ++ [key] } _ order
    (heap.storage.length + 2) _ (by simp) (by simpa using fits) (by omega) (ordered.push key)
  refine ⟨next, ?_, ordered_iff.mpr heapOrder, perm⟩
  rw [BinaryHeap.insert, heapifyUp, List.length_append, List.length_singleton]
  exact done

theorem insert_overflow (full : heap.storage.length = 2147483648) (key : T) :
    heap.insert comp key = .error .overflow := by
  rw [BinaryHeap.insert, heapifyUp, List.length_append, List.length_singleton, full, rise,
    show 2147483648 + 1 - 1 = 2147483648 from rfl, existParent_overflow]
  rfl

/-! `Pool`. -/

theorem replaceFront_cases {front : T} {rest : List T} (storage : heap.storage = front :: rest) :
    (rest = [] ∧ heap.replaceFront.storage = []) ∨
      ∃ inner back, rest = inner ++ [back] ∧ heap.storage.getLast? = some back ∧
        heap.replaceFront.storage = back :: inner := by
  rcases List.eq_nil_or_concat' rest with rfl | ⟨inner, back, rfl⟩
  · exact .inl ⟨rfl, by simp [replaceFront, storage]⟩
  · have last : heap.storage.getLast? = some back := by
      rw [storage, ← List.cons_append, List.getLast?_concat]
    refine .inr ⟨inner, back, rfl, last, ?_⟩
    rw [replaceFront, last]
    simp only [storage, List.set_cons_zero]
    rw [← List.cons_append, List.dropLast_concat]

theorem replaceFront_perm {front : T} {rest : List T} (storage : heap.storage = front :: rest) :
    (front :: heap.replaceFront.storage).Perm heap.storage := by
  rcases replaceFront_cases storage with ⟨rfl, empty⟩ | ⟨inner, back, rfl, _, replaced⟩
  · rw [empty, storage]
  · rw [replaced, storage]
    exact (List.perm_append_singleton back inner).symm.cons front

theorem Ordered.replaceFront (ordered : heap.Ordered comp) {front : T} {rest : List T}
    (storage : heap.storage = front :: rest) : DownOrder (orTop comp) heap.replaceFront.placed 0 := by
  constructor
  · intro other positive apart
    rcases replaceFront_cases storage with ⟨_, empty⟩ | ⟨inner, back, rfl, _, replaced⟩
    · rw [placed_eq_none (by simp [empty])]
      rfl
    have same : ∀ place > 0, place ≤ inner.length → heap.replaceFront.placed place = heap.placed place := by
      intro place after inside
      obtain ⟨place, rfl⟩ := Nat.exists_eq_succ_of_ne_zero (Nat.ne_of_gt after)
      rw [placed, placed, replaced, storage, List.getElem?_cons_succ, List.getElem?_cons_succ,
        List.getElem?_append_left inside]
    have higher := parentPlace_lt positive
    rcases Nat.lt_or_ge inner.length other with after | inside
    · rw [placed_eq_none (by rw [replaced, List.length_cons]; omega)]
      rfl
    · rw [same other positive inside, same _ (Nat.pos_of_ne_zero apart) (by omega)]
      exact ordered_iff.mp ordered other positive
  · intro other positive under above
    cases above

/-- What lets a call count its places with `int`s. -/
def Fits (comp : T → T → Bool) (heap : BinaryHeap T) : Call T → Prop
  | .insert _ => heap.storage.length < 2147483648
  | .peek => True
  | .pool => ∀ moved place, heap.storage.getLast? = some moved →
      SinksTo comp heap.replaceFront.storage moved place → place < 1073741824

theorem Ordered.pool (ordered : heap.Ordered comp) (order : StrictWeakOrder comp)
    (bounded : heap.storage.length ≤ 2147483648) (fits : heap.Fits comp .pool) {front : T} {rest : List T}
    (storage : heap.storage = front :: rest) :
    ∃ next, heap.pool comp = .ok (front, next) ∧ next.Ordered comp ∧
      (front :: next.storage).Perm heap.storage := by
  have perm := replaceFront_perm storage
  have shorter := perm.length_eq
  rw [List.length_cons] at shorter
  obtain ⟨moved, last⟩ : ∃ moved, heap.storage.getLast? = some moved :=
    Option.isSome_iff_exists.mp (by simp [storage])
  have start : Sinking comp heap.replaceFront.storage moved heap.replaceFront 0 := by
    refine ⟨.root, rfl, ?_, fun _ _ => rfl, ordered.replaceFront storage⟩
    intro inside
    rcases replaceFront_cases storage with ⟨_, empty⟩ | ⟨inner, back, _, lastBack, replaced⟩
    · rw [empty] at inside
      cases inside
    · cases last.symm.trans lastBack
      rw [replaced]
      rfl
  obtain ⟨next, done, heapOrder, nextPerm⟩ := sink_orders order (fun place => fits moved place last)
    (by omega) start (Nat.zero_le _) (show _ < 0 + (heap.replaceFront.storage.length + 1) by omega)
  refine ⟨next, ?_, ordered_iff.mpr heapOrder, (nextPerm.cons front).trans perm⟩
  have peeked : heap.peek = .ok front := by
    rw [peek, storage]
  rw [BinaryHeap.pool, peeked, Outcome.ok_bind, heapifyDown, done]
  rfl

/-! What a sequence of calls has done so far. -/

structure History (T : Type) where
  inserted : List T := []
  pooled : List T := []
  /-- the elements pooled since the last insertion -/
  drained : List T := []

def History.after (history : History T) : Call T → Reply T → History T
  | .insert key, _ => { history with inserted := history.inserted ++ [key], drained := [] }
  | .pool, .value minValue =>
      { history with pooled := history.pooled ++ [minValue], drained := history.drained ++ [minValue] }
  | _, _ => history

/-- What holds between the calls. -/
structure Sound (comp : T → T → Bool) (history : History T) (heap : BinaryHeap T) : Prop where
  ordered : heap.Ordered comp
  elements : (history.pooled ++ heap.storage).Perm history.inserted
  sorted : history.drained.Pairwise fun earlier later => comp later earlier = false

/-- The value of a stored element that no stored element precedes, or `out_of_range`. -/
def First (comp : T → T → Bool) (heap : BinaryHeap T) (reply : Reply T) : Prop :=
  (heap.storage = [] → reply = .outOfRange) ∧
    (heap.storage ≠ [] → ∃ first ∈ heap.storage, reply = .value first ∧
      ∀ other ∈ heap.storage, comp other first = false)

def Answers (comp : T → T → Bool) (heap : BinaryHeap T) : Call T → Reply T → Prop
  | .insert _, reply => reply = .done
  | .peek, reply => First comp heap reply
  | .pool, reply => First comp heap reply

/-- The calls return, keep the order of the heap and the elements, and pool them in order. -/
def Conforms (comp : T → T → Bool) : History T → BinaryHeap T → List (Call T) → Prop
  | history, heap, [] => Sound comp history heap
  | history, heap, call :: calls =>
      Sound comp history heap ∧ ∃ reply next, heap.call comp call = .ok (reply, next) ∧
        Answers comp heap call reply ∧ Conforms comp (history.after call reply) next calls

/-- The invariant of a run: the elements that are left do not precede those drained. -/
structure Reached (comp : T → T → Bool) (history : History T) (heap : BinaryHeap T) : Prop
    extends Sound comp history heap where
  bounded : heap.storage.length ≤ 2147483648
  left : ∀ element ∈ heap.storage, ∀ earlier ∈ history.drained, comp element earlier = false

variable {history : History T}

theorem First.empty (empty : heap.storage = []) : First comp heap .outOfRange :=
  ⟨fun _ => rfl, fun some => absurd empty some⟩

theorem Ordered.first (ordered : heap.Ordered comp) (order : StrictWeakOrder comp) {front : T} {rest : List T}
    (storage : heap.storage = front :: rest) : First comp heap (.value front) := by
  constructor
  · intro empty
    rw [storage] at empty
    cases empty
  · intro _
    refine ⟨front, by simp [storage], rfl, ?_⟩
    intro other member
    exact ordered.front_first order storage member

theorem Reached.insert (reached : Reached comp history heap) (order : StrictWeakOrder comp)
    (fits : heap.storage.length < 2147483648) (key : T) :
    ∃ next, heap.call comp (.insert key) = .ok (.done, next) ∧
      Reached comp (history.after (.insert key) .done) next ∧
      next.storage.length = heap.storage.length + 1 := by
  obtain ⟨next, inserted, ordered, perm⟩ := reached.ordered.insert order fits key
  have length : next.storage.length = heap.storage.length + 1 := by
    rw [perm.length_eq, List.length_append, List.length_singleton]
  refine ⟨next, ?_, ⟨⟨ordered, ?_, .nil⟩, by omega, nofun⟩, length⟩
  · rw [call, inserted]
    rfl
  · have appended := perm.append_left history.pooled
    rw [← List.append_assoc] at appended
    exact appended.trans (reached.elements.append_right [key])

theorem Reached.pool (reached : Reached comp history heap) (order : StrictWeakOrder comp)
    (fits : heap.Fits comp .pool) {front : T} {rest : List T} (storage : heap.storage = front :: rest) :
    ∃ next, heap.call comp .pool = .ok (.value front, next) ∧
      Reached comp (history.after .pool (.value front)) next ∧
      next.storage.length ≤ heap.storage.length := by
  obtain ⟨next, pooled, ordered, perm⟩ := reached.ordered.pool order reached.bounded fits storage
  have length := perm.length_eq
  rw [List.length_cons] at length
  have kept : ∀ element ∈ next.storage, element ∈ heap.storage :=
    fun element member => perm.subset (List.mem_cons_of_mem front member)
  have frontMember : front ∈ heap.storage := perm.subset List.mem_cons_self
  have bounded := reached.bounded
  refine ⟨next, by rw [call, pooled], ⟨⟨ordered, ?_, ?_⟩, by omega, ?_⟩, by omega⟩
  · have elements : (history.pooled ++ [front] ++ next.storage).Perm history.inserted := by
      rw [List.append_assoc]
      exact (perm.append_left history.pooled).trans reached.elements
    exact elements
  · apply List.pairwise_append.mpr
    refine ⟨reached.sorted, List.pairwise_singleton _ _, ?_⟩
    intro earlier drained later isFront
    rw [List.mem_singleton.mp isFront]
    exact reached.left front frontMember earlier drained
  · intro element member earlier drained
    rcases List.mem_append.mp drained with before | isFront
    · exact reached.left element (kept element member) earlier before
    · rw [List.mem_singleton.mp isFront]
      exact reached.ordered.front_first order storage (kept element member)

theorem Reached.call (reached : Reached comp history heap) (order : StrictWeakOrder comp) {call : Call T}
    (fits : heap.Fits comp call) :
    ∃ reply next, heap.call comp call = .ok (reply, next) ∧ Answers comp heap call reply ∧
      Reached comp (history.after call reply) next ∧ next.storage.length ≤ heap.storage.length + 1 := by
  cases call with
  | insert key =>
      obtain ⟨next, called, nextReached, length⟩ := reached.insert order fits key
      exact ⟨.done, next, called, rfl, nextReached, Nat.le_of_eq length⟩
  | peek =>
      cases storage : heap.storage with
      | nil =>
          refine ⟨.outOfRange, heap, ?_, .empty storage, reached, by rw [storage]; omega⟩
          rw [BinaryHeap.call, peek, storage]
      | cons front rest =>
          refine ⟨.value front, heap, ?_, reached.ordered.first order storage, reached, by rw [storage]; omega⟩
          rw [BinaryHeap.call, peek, storage]
  | pool =>
      cases storage : heap.storage with
      | nil =>
          refine ⟨.outOfRange, heap, ?_, .empty storage, reached, by rw [storage]; omega⟩
          rw [BinaryHeap.call, BinaryHeap.pool, peek, storage]
          rfl
      | cons front rest =>
          obtain ⟨next, called, nextReached, length⟩ := reached.pool order fits storage
          rw [storage] at length
          exact ⟨.value front, next, called, reached.ordered.first order storage, nextReached,
            Nat.le_succ_of_le length⟩

theorem reached_empty : Reached comp {} { storage := [] } where
  ordered := nofun
  elements := .nil
  sorted := .nil
  bounded := Nat.zero_le _
  left := nofun

theorem step_eq {call : Call T} {reply : Reply T} {next : BinaryHeap T}
    (called : heap.call comp call = .ok (reply, next)) : heap.step comp call = .ok next := by
  rw [step, called]
  rfl

theorem Reached.conforms (reached : Reached comp history heap) (order : StrictWeakOrder comp)
    {calls : List (Call T)} (fits : Meets (step comp) (Fits comp) heap calls) :
    Conforms comp history heap calls := by
  induction calls generalizing history heap with
  | nil => exact reached.toSound
  | cons call calls ih =>
      obtain ⟨reply, next, called, answered, nextReached, _⟩ := reached.call order fits.1
      exact ⟨reached.toSound, reply, next, called, answered, ih nextReached (fits.2 next (step_eq called))⟩

/-- **The heap.** In a sequence of calls that all fit, the order of the heap, the elements and
the replies are those of a priority queue. -/
theorem calls_conform (order : StrictWeakOrder comp) (calls : List (Call T))
    (fits : Meets (step comp) (Fits comp) { storage := [] } calls) :
    Conforms comp {} { storage := [] } calls :=
  reached_empty.conforms order fits

theorem SinksTo.inside {storage : List T} {moved : T} {place : Nat} (sinks : SinksTo comp storage moved place) :
    place = 0 ∨ place < storage.length := by
  cases sinks with
  | root => exact .inl rfl
  | sink _ smaller _ =>
      obtain ⟨inside, _⟩ := List.getElem?_eq_some_iff.mp smaller.here
      exact .inr inside

theorem fits_of_small (small : heap.storage.length < 1073741824) (call : Call T) : heap.Fits comp call := by
  cases call with
  | insert key => exact Nat.lt_trans small (by decide)
  | peek => trivial
  | pool =>
      intro moved place last sinks
      cases storage : heap.storage with
      | nil =>
          rw [storage] at last
          cases last
      | cons front rest =>
          have shorter := (replaceFront_perm storage).length_eq
          rw [List.length_cons] at shorter
          rcases sinks.inside with rfl | inside <;> omega

/-- A short sequence of calls fits. -/
theorem Reached.fits (reached : Reached comp history heap) (order : StrictWeakOrder comp) {calls : List (Call T)}
    (short : heap.storage.length + calls.length ≤ 1073741824) : Meets (step comp) (Fits comp) heap calls := by
  induction calls generalizing history heap with
  | nil => trivial
  | cons call calls ih =>
      rw [List.length_cons] at short
      have fits : heap.Fits comp call := fits_of_small (by omega) call
      refine ⟨fits, ?_⟩
      intro next stepped
      obtain ⟨reply, other, called, _, otherReached, length⟩ := reached.call order fits
      cases (step_eq called).symm.trans stepped
      exact ih otherReached (by omega)

theorem calls_conform_draining :
    Conforms (fun a b : Nat => decide (a < b)) {} { storage := [] }
      [.insert 10, .insert 5, .pool, .insert 2, .peek, .pool, .pool, .pool] :=
  calls_conform .less _ (reached_empty.fits .less (by decide))

theorem Reached.outgrows (reached : Reached comp history heap) (order : StrictWeakOrder comp) (key : T)
    {count : Nat} (full : heap.storage.length + count = 2147483648) :
    ¬ Conforms comp history heap (.replicate count (.insert key) ++ [.insert key]) := by
  induction count generalizing history heap with
  | zero =>
      intro conforms
      obtain ⟨_, reply, next, called, _⟩ := conforms
      rw [BinaryHeap.call, insert_overflow full] at called
      cases called
  | succ count ih =>
      intro conforms
      obtain ⟨_, reply, next, called, _, rest⟩ := conforms
      obtain ⟨other, calledAgain, otherReached, length⟩ := reached.insert order (by omega) key
      cases called.symm.trans calledAgain
      exact ih otherReached (by omega) rest

/-- After 2147483648 insertions the index of the next element is no `int`. -/
theorem calls_conform_overflow :
    ¬ Conforms (fun a b : Nat => decide (a < b)) {} { storage := [] }
      (.replicate 2147483648 (.insert 0) ++ [.insert 0]) :=
  reached_empty.outgrows .less 0 (Nat.zero_add 2147483648)

end Dsac.BinaryHeap
