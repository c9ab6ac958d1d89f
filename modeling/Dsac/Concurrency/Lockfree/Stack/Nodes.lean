import Dsac.Concurrency.Lockfree.Stack
import Dsac.Library.Chain

namespace Dsac.LockFreeStack

open Dsac.Library Dsac.Library.AtomicObject

/-! Whose nodes are whose. -/

variable {ι α T : Type}

/-- What an allocated node is for. -/
inductive Role (ι : Type) where
  /-- a thread is about to push it -/
  | fresh (thread : ι)
  | stacked
  /-- a thread has popped it -/
  | taken (thread : ι)
  | freed
  /-- a thread is about to delete it -/
  | condemned (thread : ι)
deriving DecidableEq, Repr

def Role.owner : Role ι → Option ι
  | .fresh thread | .taken thread | .condemned thread => some thread
  | .stacked | .freed => none

/-- A thread that has found the node on the stack may still hold it. -/
def Role.Shared : Role ι → Prop
  | .stacked | .taken _ | .freed => True
  | .fresh _ | .condemned _ => False

def Shared (role : α → Option (Role ι)) (node : α) : Prop := ∃ kind, role node = some kind ∧ kind.Shared

def links (heap : α → Option (Node α T)) (address : α) : Option (Option T × Option α) :=
  (heap address).map fun node => (node.value, node.next)

/-- The node of the stack that a thread inside `pop` holds. -/
def Place.holds : Place α T → Option α
  | .reading current | .swapping current _ => some current
  | .idle | .loading _ | .making _ _ | .pushing _ | .entering | .starting | .taking _ | .listing _
  | .counting _ _ | .detaching _ _ | .erasing _ _ | .deleting _ _ _ | .leaving _ | .destroying _ _
  | .relinking _ _ | .relinked _ _ _ | .freeing _ _ | .returning _ => none

def Rest.Sound (thread : ι) (role : α → Option (Role ι)) (status : Status (Operation T) (Reply T)) : Rest α T → Prop
  | .taken current value => role current = some (.taken thread) ∧ status = .decided (.popped (some value))
  | .empty => status = .decided (.popped none)

/-- The thread can delete every node of the list. -/
def Doomed (thread : ι) (heap : α → Option (Node α T)) (role : α → Option (Role ι)) (pointer : Option α) : Prop :=
  ∃ entries, Chain (links heap) pointer entries ∧ ∀ entry ∈ entries, role entry.1 = some (.condemned thread)

/-- What the place of a thread says about its nodes and its call. -/
def Place.Sound (thread : ι) (heap : α → Option (Node α T)) (role : α → Option (Role ι))
    (status : Status (Operation T) (Reply T)) : Place α T → Prop
  | .idle => status = .idle
  | .loading value | .making value _ => status = .invoked (.push value)
  | .pushing node => role node = some (.fresh thread) ∧
      ∃ value next, heap node = some ⟨some value, next⟩ ∧ status = .invoked (.push value)
  | .entering | .starting => status = .invoked .pop
  | .reading current => Shared role current ∧ status = .invoked .pop
  | .swapping current next => Shared role current ∧
      (role current = some .stacked → ∃ value, heap current = some ⟨value, next⟩) ∧ status = .invoked .pop
  | .taking current => role current = some (.taken thread) ∧
      ∃ value next, heap current = some ⟨some value, next⟩ ∧ status = .decided (.popped (some value))
  | .listing rest | .counting _ rest | .detaching _ rest | .leaving rest => rest.Sound thread role status
  | .erasing current rest => rest.Sound thread role status ∧ Doomed thread heap role current
  | .deleting current next rest => rest.Sound thread role status ∧ role current = some (.condemned thread) ∧
      ∃ entries, Chain (links heap) next entries ∧
        ∀ entry ∈ entries, role entry.1 = some (.condemned thread) ∧ entry.1 ≠ current
  | .destroying current value =>
      role current = some (.condemned thread) ∧ status = .decided (.popped (some value))
  | .relinking current value | .relinked current _ value | .freeing current value =>
      role current = some (.taken thread) ∧ status = .decided (.popped (some value))
  | .returning reply => status = .decided reply

section

variable {heap changed : α → Option (Node α T)} {role now : α → Option (Role ι)} {thread other : ι}
  {held : α → Prop} {place : Place α T} {rest : Rest α T} {status : Status (Operation T) (Reply T)}
  {address : α} {value : Option T} {next : Option α}

theorem links_eq_some : links heap address = some (value, next) ↔ heap address = some ⟨value, next⟩ := by
  rw [links, Option.map_eq_some_iff]
  constructor
  · rintro ⟨⟨_, _⟩, stored, same⟩
    cases same
    exact stored
  · intro stored
    exact ⟨_, stored, rfl⟩

theorem links_congr (same : changed address = heap address) : links changed address = links heap address := by
  rw [links, links, same]

/-- A step of one thread leaves alone what belongs to the others, and what they hold. -/
structure Frame (thread : ι) (held : α → Prop) (heap changed : α → Option (Node α T))
    (role now : α → Option (Role ι)) : Prop where
  owned : ∀ node kind other, role node = some kind → kind.owner = some other → other ≠ thread →
    now node = role node ∧ changed node = heap node
  shared : ∀ node, held node → Shared role node → Shared now node ∧
    (now node = some .stacked → role node = some .stacked ∧ changed node = heap node)

theorem Frame.refl (thread : ι) (held : α → Prop) (heap : α → Option (Node α T)) (role : α → Option (Role ι)) :
    Frame thread held heap heap role role :=
  ⟨fun _ _ _ _ _ _ => ⟨rfl, rfl⟩, fun _ _ shared => ⟨shared, fun stacked => ⟨stacked, rfl⟩⟩⟩

/-- The step touches one node only, which belongs to nobody else. -/
theorem Frame.at (elsewhere : ∀ node, node ≠ address → now node = role node ∧ changed node = heap node)
    (mine : ∀ kind other, role address = some kind → kind.owner = some other → other = thread)
    (kept : held address → Shared role address → Shared now address ∧ now address ≠ some .stacked) :
    Frame thread held heap changed role now := by
  constructor
  · intro node kind other here owner different
    apply elsewhere
    rintro rfl
    exact different (mine kind other here owner)
  · intro node holds shared
    by_cases same : node = address
    · subst node
      obtain ⟨still, unstacked⟩ := kept holds shared
      exact ⟨still, fun stacked => absurd stacked unstacked⟩
    · obtain ⟨sameRole, sameNode⟩ := elsewhere node same
      refine ⟨?_, ?_⟩
      · rwa [Shared, sameRole]
      · intro stacked
        exact ⟨sameRole ▸ stacked, sameNode⟩

theorem Rest.Sound.frame (sound : rest.Sound other role status) (frame : Frame thread held heap changed role now)
    (different : other ≠ thread) : rest.Sound other now status := by
  cases rest with
  | empty => exact sound
  | taken current value =>
      obtain ⟨taken, decided⟩ := sound
      exact ⟨(frame.owned current _ other taken rfl different).1.trans taken, decided⟩

theorem Doomed.frame {pointer : Option α} (doomed : Doomed other heap role pointer)
    (frame : Frame thread held heap changed role now) (different : other ≠ thread) :
    Doomed other changed now pointer := by
  obtain ⟨entries, chain, condemned⟩ := doomed
  refine ⟨entries, chain.congr ?_, ?_⟩
  · intro entry member
    exact links_congr (frame.owned _ _ other (condemned entry member) rfl different).2
  · intro entry member
    exact (frame.owned _ _ other (condemned entry member) rfl different).1.trans (condemned entry member)

/-- The place of another thread stays sound. -/
theorem Place.Sound.frame (sound : place.Sound other heap role status)
    (frame : Frame thread held heap changed role now) (different : other ≠ thread)
    (holds : ∀ node, place.holds = some node → held node) : place.Sound other changed now status := by
  cases place with
  | pushing node =>
      obtain ⟨fresh, value, next, stored, invoked⟩ := sound
      obtain ⟨sameRole, sameNode⟩ := frame.owned node _ other fresh rfl different
      exact ⟨sameRole.trans fresh, value, next, sameNode.trans stored, invoked⟩
  | reading current => exact ⟨(frame.shared current (holds current rfl) sound.1).1, sound.2⟩
  | swapping current next =>
      obtain ⟨shared, stored, invoked⟩ := sound
      obtain ⟨still, stacked⟩ := frame.shared current (holds current rfl) shared
      refine ⟨still, ?_, invoked⟩
      intro now
      obtain ⟨before, same⟩ := stacked now
      obtain ⟨value, here⟩ := stored before
      exact ⟨value, same.trans here⟩
  | taking current =>
      obtain ⟨taken, value, next, stored, decided⟩ := sound
      obtain ⟨sameRole, sameNode⟩ := frame.owned current _ other taken rfl different
      exact ⟨sameRole.trans taken, value, next, sameNode.trans stored, decided⟩
  | listing rest => exact Rest.Sound.frame sound frame different
  | counting head rest => exact Rest.Sound.frame sound frame different
  | detaching head rest => exact Rest.Sound.frame sound frame different
  | leaving rest => exact Rest.Sound.frame sound frame different
  | erasing current rest => exact ⟨Rest.Sound.frame sound.1 frame different, sound.2.frame frame different⟩
  | deleting current next rest =>
      obtain ⟨finishes, condemned, entries, chain, doomed⟩ := sound
      refine ⟨Rest.Sound.frame finishes frame different,
        (frame.owned current _ other condemned rfl different).1.trans condemned, entries, chain.congr ?_, ?_⟩
      · intro entry member
        exact links_congr (frame.owned _ _ other (doomed entry member).1 rfl different).2
      · intro entry member
        obtain ⟨here, apart⟩ := doomed entry member
        exact ⟨(frame.owned _ _ other here rfl different).1.trans here, apart⟩
  | destroying current value =>
      exact ⟨(frame.owned current _ other sound.1 rfl different).1.trans sound.1, sound.2⟩
  | relinking current value =>
      exact ⟨(frame.owned current _ other sound.1 rfl different).1.trans sound.1, sound.2⟩
  | relinked current head value =>
      exact ⟨(frame.owned current _ other sound.1 rfl different).1.trans sound.1, sound.2⟩
  | freeing current value =>
      exact ⟨(frame.owned current _ other sound.1 rfl different).1.trans sound.1, sound.2⟩
  | idle => exact sound
  | loading value => exact sound
  | making value next => exact sound
  | entering => exact sound
  | starting => exact sound
  | returning reply => exact sound

end

end Dsac.LockFreeStack
