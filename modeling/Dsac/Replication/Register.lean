import Dsac.Library.Greatest

namespace Dsac.Replication

open Dsac.Library

/-! The register of a replica. -/

structure RegisterValueObject where
  value_ : Int
  timestamp_ : Nat
deriving DecidableEq, Repr

namespace RegisterValueObject

def getValue (object : RegisterValueObject) : Int := object.value_

def getTimestamp (object : RegisterValueObject) : Nat := object.timestamp_

end RegisterValueObject

/-- `register_::pimpl`. Its mutex makes each call one step. -/
structure Register where
  register_ : Option RegisterValueObject
deriving DecidableEq, Repr

namespace Register

def empty : Register := ⟨none⟩

def write (register : Register) (newRegister : RegisterValueObject) : Register :=
  let isRegisterSetup := register.register_.isSome
  let isRegisterOlden := match register.register_ with
    | some object => decide (object.getTimestamp < newRegister.getTimestamp)
    | none => false
  if !isRegisterSetup || isRegisterOlden then { register_ := some newRegister } else register

def read (register : Register) : Option RegisterValueObject := register.register_

variable {register : Register} {arrivals : List RegisterValueObject} {object : RegisterValueObject}

theorem write_eq (register : Register) (object : RegisterValueObject) :
    register.write object = ⟨Greatest.keep RegisterValueObject.getTimestamp register.register_ object⟩ := by
  obtain ⟨register_⟩ := register
  cases register_ with
  | none => rfl
  | some old =>
      rw [write, Greatest.keep_some]
      by_cases older : old.getTimestamp < object.getTimestamp
      · simp [older]
      · simp [older]

theorem foldl_write (register : Register) (arrivals : List RegisterValueObject) :
    arrivals.foldl write register =
      ⟨arrivals.foldl (Greatest.keep RegisterValueObject.getTimestamp) register.register_⟩ := by
  induction arrivals generalizing register with
  | nil => rfl
  | cons object rest ih => rw [List.foldl_cons, ih, write_eq, List.foldl_cons]

/-- A write never lowers the timestamp. -/
theorem write_mono {old : RegisterValueObject} (here : register.read = some old) (object : RegisterValueObject) :
    ∃ next, (register.write object).read = some next ∧ old.getTimestamp ≤ next.getTimestamp := by
  rw [write_eq]
  exact Greatest.keep_mono here

/-- Equal timestamps carry equal values. -/
def Agree (writes : Multiset RegisterValueObject) : Prop :=
  ∀ one ∈ writes, ∀ two ∈ writes, one.getTimestamp = two.getTimestamp → one.getValue = two.getValue

theorem Agree.eq {writes : Multiset RegisterValueObject} (agree : Agree writes) {one two : RegisterValueObject}
    (first : one ∈ writes) (second : two ∈ writes) (same : one.getTimestamp = two.getTimestamp) : one = two := by
  have value := agree one first two second same
  cases one
  cases two
  cases same
  cases value
  rfl

/-- However the writes arrive and are repeated, the register ends up with the one of greatest
timestamp, and its timestamp never decreases on the way. -/
theorem foldl_write_converges (writes : Multiset RegisterValueObject) (agree : Agree writes)
    (arrivals : List RegisterValueObject) (delivered : ∀ object, object ∈ arrivals ↔ object ∈ writes) :
    (∀ object, (arrivals.foldl write empty).read = some object ↔
        object ∈ writes ∧ ∀ other ∈ writes, other.getTimestamp ≤ object.getTimestamp) ∧
      (writes = 0 → (arrivals.foldl write empty).read = none) ∧
      ∀ earlier next later old, arrivals = earlier ++ next :: later →
        (earlier.foldl write empty).read = some old →
          ∃ new, ((earlier ++ [next]).foldl write empty).read = some new ∧ old.getTimestamp ≤ new.getTimestamp := by
  refine ⟨?_, ?_, ?_⟩
  · intro object
    have apart : ∀ one ∈ arrivals, ∀ two ∈ arrivals, one.getTimestamp = two.getTimestamp → one = two := by
      intro one first two second same
      exact agree.eq ((delivered one).mp first) ((delivered two).mp second) same
    rw [foldl_write]
    show arrivals.foldl (Greatest.keep _) none = some object ↔ _
    rw [Greatest.foldl_keep_eq_some_iff apart, delivered, Greatest.Tops]
    simp only [delivered]
  · rintro rfl
    have none_ : arrivals = [] := by
      apply List.eq_nil_iff_forall_not_mem.mpr
      intro object member
      exact absurd ((delivered object).mp member) (Multiset.notMem_zero object)
    rw [none_]
    rfl
  · intro earlier next later old _ here
    rw [List.foldl_append]
    exact write_mono here next

/-- Three writes, one of them delivered twice and none of them in order. -/
theorem foldl_write_converges_reordered :
    ([⟨20, 2⟩, ⟨10, 1⟩, ⟨30, 3⟩, ⟨20, 2⟩].foldl write empty).read = some ⟨30, 3⟩ := by
  apply ((foldl_write_converges {⟨10, 1⟩, ⟨20, 2⟩, ⟨30, 3⟩} ?_ [⟨20, 2⟩, ⟨10, 1⟩, ⟨30, 3⟩, ⟨20, 2⟩] ?_).1 _).mpr
  · decide
  · unfold Agree
    decide
  · intro object
    simp only [List.mem_cons, Multiset.insert_eq_cons, Multiset.mem_cons, Multiset.mem_singleton]
    grind

end Register

end Dsac.Replication
