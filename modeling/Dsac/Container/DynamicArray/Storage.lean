import Dsac.Container.DynamicArray.Uninitialized

namespace Dsac.DynamicArrays

open Dsac.Library Dsac.Library.Action

/-! What the pointers of the arrays mean, and which blocks there are. -/

variable {ν Args A T : Type}

/-- The array holds the list, and the rest of its block is raw. -/
structure Holds (types : Types Args A T) (world : World ν A T) (array : DynamicArray A) (list : List T) : Prop where
  finish : array.finish = list.length
  room : list.length ≤ array.endOfStorage
  bounded : array.endOfStorage ≤ types.maxSize
  points : Points world array.start (list.map some ++ List.replicate (array.endOfStorage - list.length) none)

/-- The arrays hold the lists in blocks of their own. There is no other block but a loose one,
and no element was lost. -/
structure Represents (types : Types Args A T) (loose : Option Addr) (world : World ν A T) (lists : ν → Option (List T)) :
    Prop where
  alive : ∀ this list, lists this = some list → ∃ array, world.arrays this = some array ∧ Holds types world array list
  dead : ∀ this, lists this = none → world.arrays this = none
  apart : ∀ this other array another address, world.arrays this = some array → world.arrays other = some another →
    array.start = some address → another.start = some address → this = other
  unowned : ∀ this array address, world.arrays this = some array → array.start = some address → loose ≠ some address
  owned : ∀ address block, world.heap.get address = some block →
    loose = some address ∨ ∃ this array, world.arrays this = some array ∧ array.start = some address
  lost : world.lost = 0

/-- The blocks that one array, or none, may own. -/
def Pool (world : World ν A T) (loose : Option Addr) (this : ν) (address : Addr) : Prop :=
  loose = some address ∨ ∃ array, world.arrays this = some array ∧ array.start = some address

variable {types : Types Args A T} {world next : World ν A T} {lists : ν → Option (List T)} {loose : Option Addr}
  {this other : ν} {array : DynamicArray A} {list : List T} {address : Addr}

theorem Holds.congr (holds : Holds types world array list)
    (same : ∀ address, array.start = some address → next.heap.get address = world.heap.get address) :
    Holds types next array list :=
  { holds with points := holds.points.frame same }

/-- Other elements, as many as before. -/
theorem Holds.sameLength (holds : Holds types world array list) {other : List T} (length : other.length = list.length)
    (points : Points next array.start (other.map some ++ List.replicate (array.endOfStorage - list.length) none)) :
    Holds types next array other :=
  ⟨holds.finish.trans length.symm, by rw [length]; exact holds.room, holds.bounded, by rw [length]; exact points⟩

/-- A new element after the others. -/
theorem Holds.append {value : T} (finish : array.finish = list.length + 1) (room : list.length + 1 ≤ array.endOfStorage)
    (bounded : array.endOfStorage ≤ types.maxSize)
    (points : Points world array.start
      (list.map some ++ some value :: List.replicate (array.endOfStorage - (list.length + 1)) none)) :
    Holds types world array (list ++ [value]) where
  finish := by rw [finish, List.length_append, List.length_singleton]
  room := by rwa [List.length_append, List.length_singleton]
  bounded := bounded
  points := by
    rw [List.map_append, List.append_assoc, List.length_append]
    exact points

/-- The block of an array is live. -/
theorem Holds.live (holds : Holds types world array list) (here : array.start = some address) :
    ∃ block, world.heap.get address = some block := by
  have points := holds.points
  rw [here] at points
  obtain ⟨owner, live⟩ := points
  exact ⟨_, live⟩

namespace Represents

theorem holds (represents : Represents types loose world lists) (found : world.arrays this = some array) :
    ∃ list, lists this = some list ∧ Holds types world array list := by
  cases value : lists this with
  | none => cases (represents.dead this value).symm.trans found
  | some list =>
      obtain ⟨same, there, holds⟩ := represents.alive this list value
      cases found.symm.trans there
      exact ⟨list, rfl, holds⟩

/-- The loose block was written, or something that is not in memory. -/
theorem within (represents : Represents types loose world lists) {entered : Nat}
    (within : Within (At loose) entered world next) : Represents types loose next lists where
  alive this list found := by
    obtain ⟨array, there, holds⟩ := represents.alive this list found
    refine ⟨array, by rw [within.arrays, there], holds.congr fun address here => ?_⟩
    exact within.outside address (represents.unowned this array address there here)
  dead this absent := by rw [within.arrays, represents.dead this absent]
  apart := by
    rw [within.arrays]
    exact represents.apart
  unowned := by
    rw [within.arrays]
    exact represents.unowned
  owned address block live := by
    rw [within.arrays]
    by_cases here : loose = some address
    · exact .inl here
    · rw [within.outside address here] at live
      exact represents.owned address block live
  lost := within.lost.trans represents.lost

/-- The loose block is gone. -/
theorem drop (represents : Represents types loose world lists) {entered : Nat} (within : Within (At loose) entered world next)
    (gone : ∀ address, loose = some address → next.heap.get address = none) : Represents types none next lists where
  alive := (represents.within within).alive
  dead := (represents.within within).dead
  apart := (represents.within within).apart
  unowned _ _ _ _ _ impossible := nomatch impossible
  owned address block live := by
    rcases (represents.within within).owned address block live with isLoose | owned
    · rw [gone address isLoose] at live
      cases live
    · exact .inr owned
  lost := (represents.within within).lost

variable [DecidableEq ν]

/-- One array is replaced, or constructed, or destroyed; only its own block and the loose one
change, and each of them that is left is owned. -/
theorem replace (represents : Represents types loose world lists) {new : Option (DynamicArray A)} {after : Option Addr}
    (result : Option (List T)) (arrays : next.arrays = Function.update world.arrays this new) (lost : next.lost = world.lost)
    (outside : ∀ address, ¬ Pool world loose this address → next.heap.get address = world.heap.get address)
    (starts : ∀ array address, new = some array → array.start = some address →
      Pool world loose this address ∧ after ≠ some address)
    (left : ∀ address, after = some address → Pool world loose this address)
    (kept : ∀ address block, Pool world loose this address → next.heap.get address = some block →
      after = some address ∨ ∃ array, new = some array ∧ array.start = some address)
    (holds : ∀ list, result = some list → ∃ array, new = some array ∧ Holds types next array list)
    (dead : result = none → new = none) : Represents types after next (Function.update lists this result) := by
  have others : ∀ other array address, other ≠ this → world.arrays other = some array → array.start = some address →
      ¬ Pool world loose this address := by
    rintro other array address different found here (isLoose | ⟨mine, there, same⟩)
    · exact represents.unowned other array address found here isLoose
    · exact different (represents.apart other this array mine address found there here same)
  refine ⟨fun other list found => ?_, fun other absent => ?_, ?_, ?_, ?_, lost.trans represents.lost⟩
  · rw [arrays]
    by_cases same : other = this
    · subst same
      rw [Function.update_self] at found ⊢
      exact holds list found
    · rw [Function.update_of_ne same] at found ⊢
      obtain ⟨array, there, holds⟩ := represents.alive other list found
      exact ⟨array, there, holds.congr fun address here => outside address (others other array address same there here)⟩
  · rw [arrays]
    by_cases same : other = this
    · subst same
      rw [Function.update_self] at absent ⊢
      exact dead absent
    · rw [Function.update_of_ne same] at absent ⊢
      exact represents.dead other absent
  · rw [arrays]
    intro one two first second address foundFirst foundSecond startFirst startSecond
    by_cases isFirst : one = this <;> by_cases isSecond : two = this
    · rw [isFirst, isSecond]
    · subst isFirst
      rw [Function.update_self] at foundFirst
      rw [Function.update_of_ne isSecond] at foundSecond
      exact absurd (starts first address foundFirst startFirst).1 (others two second address isSecond foundSecond startSecond)
    · subst isSecond
      rw [Function.update_self] at foundSecond
      rw [Function.update_of_ne isFirst] at foundFirst
      exact absurd (starts second address foundSecond startSecond).1 (others one first address isFirst foundFirst startFirst)
    · rw [Function.update_of_ne isFirst] at foundFirst
      rw [Function.update_of_ne isSecond] at foundSecond
      exact represents.apart one two first second address foundFirst foundSecond startFirst startSecond
  · rw [arrays]
    intro other array address found here
    by_cases same : other = this
    · subst same
      rw [Function.update_self] at found
      exact (starts array address found here).2
    · rw [Function.update_of_ne same] at found
      exact fun isAfter => others other array address same found here (left address isAfter)
  · rw [arrays]
    intro address block live
    by_cases pooled : Pool world loose this address
    · rcases kept address block pooled live with isAfter | ⟨array, given, here⟩
      · exact .inl isAfter
      · exact .inr ⟨this, array, by rw [Function.update_self, given], here⟩
    · rw [outside address pooled] at live
      rcases represents.owned address block live with isLoose | ⟨other, array, found, here⟩
      · exact absurd (Or.inl isLoose) pooled
      · have different : other ≠ this := by
          rintro rfl
          exact pooled (.inr ⟨array, found, here⟩)
        exact .inr ⟨other, array, by rw [Function.update_of_ne different, found], here⟩

/-- An array writes its own block, or the loose one. -/
theorem rewrite (represents : Represents types loose world lists) (found : world.arrays this = some array)
    {new : DynamicArray A} (same : new.start = array.start) (arrays : next.arrays = Function.update world.arrays this (some new))
    (outside : ∀ address, ¬ Pool world loose this address → next.heap.get address = world.heap.get address)
    (lost : next.lost = world.lost) (holds : Holds types next new list) :
    Represents types loose next (Function.update lists this (some list)) := by
  apply represents.replace (some list) arrays lost outside
  · intro given address is here
    cases is
    rw [same] at here
    exact ⟨.inr ⟨array, found, here⟩, represents.unowned this array address found here⟩
  · exact fun address here => .inl here
  · rintro address block (isLoose | ⟨mine, there, here⟩) _
    · exact .inl isLoose
    · cases found.symm.trans there
      exact .inr ⟨new, rfl, by rw [same, here]⟩
  · rintro _ ⟨⟩
    exact ⟨new, rfl, holds⟩
  · exact fun absent => nomatch absent

/-- Some elements of an array, or of the loose block, are written. -/
theorem written (represents : Represents types loose world lists) (found : world.arrays this = some array) {entered : Nat}
    (within : Within (fun address => At array.start address ∨ At loose address) entered world next)
    (holds : Holds types next array list) : Represents types loose next (Function.update lists this (some list)) := by
  have unchanged : next.arrays = Function.update world.arrays this (some array) := by
    rw [within.arrays, ← found, Function.update_eq_self]
  apply represents.rewrite found rfl unchanged
  · intro address unpooled
    apply within.outside
    rintro (mine | isLoose)
    · exact unpooled (.inr ⟨array, found, mine⟩)
    · exact unpooled (.inl isLoose)
  · exact within.lost
  · exact holds

/-- An array takes the loose block; its old block is gone. -/
theorem adopt (represents : Represents types loose world lists) {new : DynamicArray A} (start : new.start = loose)
    (arrays : next.arrays = Function.update world.arrays this (some new))
    (outside : ∀ address, ¬ Pool world loose this address → next.heap.get address = world.heap.get address)
    (gone : ∀ array address, world.arrays this = some array → array.start = some address → next.heap.get address = none)
    (lost : next.lost = world.lost) (holds : Holds types next new list) :
    Represents types none next (Function.update lists this (some list)) := by
  apply represents.replace (some list) arrays lost outside
  · intro given address is here
    cases is
    exact ⟨.inl (start.symm.trans here), nofun⟩
  · exact fun address impossible => nomatch impossible
  · rintro address block (isLoose | ⟨mine, there, here⟩) live
    · exact .inr ⟨new, rfl, start.trans isLoose⟩
    · rw [gone mine address there here] at live
      cases live
  · rintro _ ⟨⟩
    exact ⟨new, rfl, holds⟩
  · exact fun absent => nomatch absent

/-- An array is destroyed with its block. -/
theorem remove (represents : Represents types none world lists) (arrays : next.arrays = Function.update world.arrays this none)
    (outside : ∀ address, ¬ Pool world none this address → next.heap.get address = world.heap.get address)
    (gone : ∀ array address, world.arrays this = some array → array.start = some address → next.heap.get address = none)
    (lost : next.lost = world.lost) : Represents types none next (Function.update lists this none) := by
  apply represents.replace none arrays lost outside
  · exact fun given address impossible => nomatch impossible
  · exact fun address impossible => nomatch impossible
  · rintro address block (impossible | ⟨mine, there, here⟩) live
    · cases impossible
    · rw [gone mine address there here] at live
      cases live
  · exact fun _ impossible => nomatch impossible
  · exact fun _ => rfl

/-- An array lets its block loose. -/
theorem detach (represents : Represents types none world lists) (found : world.arrays this = some array)
    (arrays : next.arrays = Function.update world.arrays this (some { allocator_ := array.allocator_ }))
    (heap : next.heap = world.heap) (lost : next.lost = world.lost) :
    Represents types array.start next (Function.update lists this (some [])) := by
  apply represents.replace (some []) arrays lost
  · exact fun address _ => by rw [heap]
  · rintro given address ⟨⟩ here
    cases here
  · exact fun address here => .inr ⟨array, found, here⟩
  · rintro address block (impossible | ⟨mine, there, here⟩) _
    · cases impossible
    · cases found.symm.trans there
      exact .inl here
  · rintro _ ⟨⟩
    exact ⟨_, rfl, rfl, Nat.le_refl 0, Nat.zero_le _, rfl⟩
  · exact fun absent => nomatch absent

end Represents

end Dsac.DynamicArrays
