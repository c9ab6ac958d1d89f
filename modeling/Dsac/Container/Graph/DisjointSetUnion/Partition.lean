import Dsac.Container.Graph.DisjointSetUnion
import Dsac.Library.ParentForest

namespace Dsac.Graph.DisjointSet

open Dsac.Library

variable {set : DisjointSet} {steps fuel vertex parent root : Nat}

theorem parentOf_of_get (here : set.parentVertex[vertex]? = some parent) : set.parentOf vertex = .ok parent := by
  rw [parentOf, here]

/-- The first loop ends at the root. -/
theorem climb_of_climbs (climbs : Climbs set.parentVertex steps vertex root) (enough : steps < fuel) :
    set.climb fuel vertex = .ok root := by
  induction climbs generalizing fuel with
  | root self =>
      cases fuel with
      | zero => exact absurd enough (Nat.not_lt_zero _)
      | succ fuel =>
          rw [climb, parentOf_of_get self]
          simp only [bind, Except.bind, ne_eq, not_true_eq_false, if_false]
  | step here moves climbs ih =>
      cases fuel with
      | zero => exact absurd enough (Nat.not_lt_zero _)
      | succ fuel =>
          rw [climb, parentOf_of_get here]
          simp only [bind, Except.bind, ne_eq, moves, not_false_eq_true, if_true]
          exact ih (Nat.lt_of_succ_lt_succ enough)

/-- The vertices keep their roots. -/
def SameRoots (set next : DisjointSet) : Prop :=
  next.parentVertex.length = set.parentVertex.length ∧
    ∀ vertex root, RootOf set.parentVertex vertex root → RootOf next.parentVertex vertex root

theorem SameRoots.refl (set : DisjointSet) : SameRoots set set := ⟨rfl, fun _ _ rootOf => rootOf⟩

theorem SameRoots.trans {next last : DisjointSet} (first : SameRoots set next) (second : SameRoots next last) :
    SameRoots set last :=
  ⟨second.1.trans first.1, fun vertex root rootOf => second.2 vertex root (first.2 vertex root rootOf)⟩

theorem SameRoots.roots {next : DisjointSet} (same : SameRoots set next) {rootOf : Nat → Nat}
    (roots : Roots set.parentVertex rootOf) : Roots next.parentVertex rootOf := by
  intro vertex inside
  rw [same.1] at inside
  exact same.2 vertex _ (roots vertex inside)

/-- The second loop links the vertices of the path to their root. -/
theorem compress_of_climbs (climbs : Climbs set.parentVertex steps vertex root) (enough : steps < fuel) :
    ∃ next, compress fuel set vertex root = .ok next ∧ SameRoots set next := by
  induction steps generalizing set fuel vertex with
  | zero =>
      cases fuel with
      | zero => exact absurd enough (Nat.not_lt_zero _)
      | succ fuel =>
          cases climbs with
          | root self =>
              refine ⟨set, ?_, SameRoots.refl set⟩
              rw [compress, parentOf_of_get self]
              simp only [bind, Except.bind, ne_eq, not_true_eq_false, if_false]
  | succ steps ih =>
      cases fuel with
      | zero => exact absurd enough (Nat.not_lt_zero _)
      | succ fuel =>
          have whole : RootOf set.parentVertex vertex root := ⟨_, climbs⟩
          cases climbs with
          | @step _ _ parent _ here moves above =>
              by_cases last : parent = root
              · refine ⟨set, ?_, SameRoots.refl set⟩
                rw [compress, parentOf_of_get here]
                simp only [bind, Except.bind, ne_eq, last, not_true_eq_false, if_false]
              · have start : Climbs set.parentVertex (steps + 1) vertex root := .step here moves above
                have inner : vertex ≠ root := by
                  rintro rfl
                  exact moves (Option.some.inj (here.symm.trans above.root_self))
                have framed : Climbs (set.parentVertex.set vertex root) steps parent root := by
                  apply above.frame
                  intro height below passes
                  have equal := (passes.unique start).1
                  omega
                obtain ⟨next, compressed, same⟩ :=
                  @ih { parentVertex := set.parentVertex.set vertex root } _ _ framed (Nat.lt_of_succ_lt_succ enough)
                have linked : SameRoots set { parentVertex := set.parentVertex.set vertex root } :=
                  ⟨List.length_set, fun _ _ other => whole.compress inner other⟩
                refine ⟨next, ?_, linked.trans same⟩
                rw [compress, parentOf_of_get here]
                simp only [bind, Except.bind, ne_eq, last, not_false_eq_true, if_true]
                exact compressed

/-- `Find` returns the root, and the vertices keep their roots. -/
theorem find_of_root (rootOf : RootOf set.parentVertex vertex root) :
    ∃ next, set.find vertex = (.ok root, next) ∧ SameRoots set next := by
  obtain ⟨steps, climbs⟩ := rootOf
  obtain ⟨next, compressed, same⟩ := compress_of_climbs climbs climbs.steps_lt
  refine ⟨next, ?_, same⟩
  rw [find, if_neg (Nat.not_le_of_lt climbs.lt_length), climb_of_climbs climbs climbs.steps_lt]
  simp only [compressed]

theorem find_out_of_range (outside : set.parentVertex.length ≤ vertex) :
    set.find vertex = (.error .disjointSetOutOfRange, set) := by
  rw [find, if_pos outside]

/-! The partition that the unions make. -/

/-- The equivalence closure of the pairs that were united. -/
def Related (united : List (Nat × Nat)) : Nat → Nat → Prop :=
  Relation.EqvGen fun first second => (first, second) ∈ united

/-- The set has the partition of the united pairs, and every vertex has the given
representative. -/
structure Represents (size : Nat) (united : List (Nat × Nat)) (rep : Nat → Nat) (set : DisjointSet) : Prop where
  length : set.parentVertex.length = size
  bounded : ∀ pair ∈ united, pair.1 < size ∧ pair.2 < size
  roots : Roots set.parentVertex rep
  related : ∀ first second, first < size → second < size → (rep first = rep second ↔ Related united first second)

variable {size : Nat} {united : List (Nat × Nat)} {rep : Nat → Nat} {first second : Nat}

theorem Represents.of_sameRoots (represents : Represents size united rep set) {next : DisjointSet}
    (same : SameRoots set next) : Represents size united rep next where
  length := same.1.trans represents.length
  bounded := represents.bounded
  roots := same.roots represents.roots
  related := represents.related

theorem Represents.rep_lt (represents : Represents size united rep set) (inside : vertex < size) :
    rep vertex < size := by
  have inside : vertex < set.parentVertex.length := represents.length ▸ inside
  exact represents.length ▸ represents.roots.lt_length inside

/-- The representative lies in the class. -/
theorem Represents.related_rep (represents : Represents size united rep set) (inside : vertex < size) :
    Related united vertex (rep vertex) := by
  apply (represents.related _ _ inside (represents.rep_lt inside)).mp
  exact (represents.roots.idempotent (represents.length ▸ inside)).symm

theorem Represents.find (represents : Represents size united rep set) (inside : vertex < size) :
    ∃ next, set.find vertex = (.ok (rep vertex), next) ∧ Represents size united rep next := by
  obtain ⟨next, found, same⟩ := find_of_root (represents.roots vertex (represents.length ▸ inside))
  exact ⟨next, found, represents.of_sameRoots same⟩

theorem Represents.find_outside (represents : Represents size united rep set) (outside : size ≤ vertex) :
    set.find vertex = (.error .disjointSetOutOfRange, set) :=
  find_out_of_range (represents.length ▸ outside)

theorem Represents.isConnected (represents : Represents size united rep set) (firstInside : first < size)
    (secondInside : second < size) (reversed : Bool) :
    ∃ next, set.isConnected first second reversed = (.ok (decide (rep first = rep second)), next) ∧
      Represents size united rep next := by
  cases reversed with
  | false =>
      obtain ⟨middle, found, middleRepresents⟩ := represents.find firstInside
      obtain ⟨next, foundNext, nextRepresents⟩ := middleRepresents.find secondInside
      refine ⟨next, ?_, nextRepresents⟩
      simp [DisjointSet.isConnected, andThen, found, foundNext]
  | true =>
      obtain ⟨middle, found, middleRepresents⟩ := represents.find secondInside
      obtain ⟨next, foundNext, nextRepresents⟩ := middleRepresents.find firstInside
      refine ⟨next, ?_, nextRepresents⟩
      simp [DisjointSet.isConnected, andThen, found, foundNext]

/-- The vertex that is in range may have been looked up before the exception is thrown. -/
theorem Represents.isConnected_outside (represents : Represents size united rep set)
    (outside : ¬ (first < size ∧ second < size)) (reversed : Bool) :
    ∃ next, set.isConnected first second reversed = (.error .disjointSetOutOfRange, next) ∧
      Represents size united rep next := by
  by_cases firstInside : first < size
  · have secondOutside : size ≤ second := Nat.le_of_not_lt fun inside => outside ⟨firstInside, inside⟩
    obtain ⟨middle, found, middleRepresents⟩ := represents.find firstInside
    cases reversed with
    | false =>
        refine ⟨middle, ?_, middleRepresents⟩
        simp [DisjointSet.isConnected, andThen, found, middleRepresents.find_outside secondOutside]
    | true =>
        refine ⟨set, ?_, represents⟩
        simp [DisjointSet.isConnected, andThen, represents.find_outside secondOutside]
  · have firstOutside := represents.find_outside (Nat.le_of_not_lt firstInside)
    cases reversed with
    | false =>
        refine ⟨set, ?_, represents⟩
        simp [DisjointSet.isConnected, andThen, firstOutside]
    | true =>
        by_cases secondInside : second < size
        · obtain ⟨middle, found, middleRepresents⟩ := represents.find secondInside
          refine ⟨middle, ?_, middleRepresents⟩
          have thrown := middleRepresents.find_outside (Nat.le_of_not_lt firstInside)
          simp [DisjointSet.isConnected, andThen, found, thrown]
        · refine ⟨set, ?_, represents⟩
          simp [DisjointSet.isConnected, andThen, represents.find_outside (Nat.le_of_not_lt secondInside)]

theorem Related.append (related : Related united first second) (pairs : List (Nat × Nat)) :
    Related (united ++ pairs) first second := by
  induction related with
  | rel a b listed => exact .rel a b (List.mem_append_left _ listed)
  | refl a => exact .refl a
  | symm a b _ ih => exact .symm a b ih
  | trans a b c _ _ first second => exact .trans a b c first second

/-- The representatives after a link of two classes describe the enlarged partition. -/
theorem Represents.merged (represents : Represents size united rep set) (firstInside : first < size)
    (secondInside : second < size) {merged : Nat → Nat}
    (shape : ∀ vertex, merged vertex = if rep vertex = rep second then rep first else rep vertex)
    {a b : Nat} (aInside : a < size) (bInside : b < size) :
    merged a = merged b ↔ Related (united ++ [(first, second)]) a b := by
  have joined : Related (united ++ [(first, second)]) first second := .rel _ _ (by simp)
  have known : ∀ {a b}, a < size → b < size → rep a = rep b → Related (united ++ [(first, second)]) a b :=
    fun aInside bInside same => ((represents.related _ _ aInside bInside).mp same).append _
  constructor
  · intro same
    rw [shape, shape] at same
    by_cases aMoves : rep a = rep second
    · by_cases bMoves : rep b = rep second
      · exact known aInside bInside (aMoves.trans bMoves.symm)
      · rw [if_pos aMoves, if_neg bMoves] at same
        exact .trans _ _ _ (known aInside secondInside aMoves)
          (.trans _ _ _ (.symm _ _ joined) (known firstInside bInside same))
    · by_cases bMoves : rep b = rep second
      · rw [if_neg aMoves, if_pos bMoves] at same
        exact .trans _ _ _ (known aInside firstInside same)
          (.trans _ _ _ joined (known secondInside bInside bMoves.symm))
      · rw [if_neg aMoves, if_neg bMoves] at same
        exact known aInside bInside same
  · intro related
    clear aInside bInside
    induction related with
    | rel a b listed =>
        rcases List.mem_append.mp listed with earlier | new
        · obtain ⟨aInside, bInside⟩ := represents.bounded _ earlier
          rw [shape, shape, (represents.related _ _ aInside bInside).mpr (.rel _ _ earlier)]
        · obtain ⟨rfl, rfl⟩ := Prod.mk.inj (List.mem_singleton.mp new)
          rw [shape, shape, if_pos rfl]
          split
          · rfl
          · rfl
    | refl a => rfl
    | symm a b _ ih => exact ih.symm
    | trans a b c _ _ first second => exact first.trans second

theorem bounded_append (bounded : ∀ pair ∈ united, pair.1 < size ∧ pair.2 < size) (firstInside : first < size)
    (secondInside : second < size) : ∀ pair ∈ united ++ [(first, second)], pair.1 < size ∧ pair.2 < size := by
  intro pair listed
  rcases List.mem_append.mp listed with earlier | new
  · exact bounded pair earlier
  · rw [List.mem_singleton.mp new]
    exact ⟨firstInside, secondInside⟩

/-- `Union` unites the classes of its vertices. -/
theorem Represents.union (represents : Represents size united rep set) (firstInside : first < size)
    (secondInside : second < size) (reversed : Bool) :
    ∃ next merged, set.union first second reversed = (.ok (), next) ∧
      Represents size (united ++ [(first, second)]) merged next := by
  obtain ⟨next, connected, nextRepresents⟩ := represents.isConnected firstInside secondInside reversed
  by_cases same : rep first = rep second
  · refine ⟨next, rep, by simp [DisjointSet.union, andThen, connected, same], nextRepresents.length,
      bounded_append represents.bounded firstInside secondInside, nextRepresents.roots, ?_⟩
    intro a b aInside bInside
    apply represents.merged firstInside secondInside _ aInside bInside
    intro vertex
    split
    next moves => rw [moves, same]
    next stays => rfl
  · obtain ⟨middle, foundFirst, middleRepresents⟩ := nextRepresents.find firstInside
    obtain ⟨last, foundSecond, lastRepresents⟩ := middleRepresents.find secondInside
    have inside : ∀ {vertex}, vertex < size → vertex < last.parentVertex.length :=
      fun inside => lastRepresents.length ▸ inside
    have rootInside : rep second < last.parentVertex.length := inside (represents.rep_lt secondInside)
    refine ⟨{ parentVertex := last.parentVertex.set (rep second) (rep first) },
      fun vertex => if rep vertex = rep second then rep first else rep vertex,
      by simp [DisjointSet.union, andThen, connected, same, foundFirst, foundSecond, rootInside], ?_,
      bounded_append represents.bounded firstInside secondInside, ?_, ?_⟩
    · exact List.length_set.trans lastRepresents.length
    · intro vertex member
      rw [List.length_set] at member
      exact (lastRepresents.roots vertex member).link (lastRepresents.roots first (inside firstInside)).root_self
        (lastRepresents.roots second (inside secondInside)).root_self same
    · intro a b aInside bInside
      exact represents.merged firstInside secondInside (fun _ => rfl) aInside bInside

/-! The set as a partition, over any sequence of calls. -/

def Call.InRange (size : Nat) : Call → Prop
  | .union first second _ | .isConnected first second _ => first < size ∧ second < size
  | .find vertex => vertex < size

/-- The pairs united after a call. -/
def unite (size : Nat) (united : List (Nat × Nat)) : Call → List (Nat × Nat)
  | .union first second _ => if first < size ∧ second < size then united ++ [(first, second)] else united
  | _ => united

/-- One representative for each class, that lies in the class. -/
def Representatives (size : Nat) (united : List (Nat × Nat)) (rep : Nat → Nat) : Prop :=
  ∀ first second, first < size → second < size →
    Related united first (rep first) ∧ (Related united first second → rep first = rep second)

/-- What a call in range returns. -/
def Answers (united : List (Nat × Nat)) (rep : Nat → Nat) : Call → Reply → Prop
  | .union _ _ _, reply => reply = .done
  | .find vertex, reply => reply = .vertex (rep vertex)
  | .isConnected first second _, reply => ∃ connected : Bool, reply = .flag connected ∧
      (connected = true ↔ Related united first second)

/-- The calls behave as on the partition of the united pairs. A union may change the
representatives, any other call leaves them as they are. -/
def Conforms (size : Nat) : List (Nat × Nat) → (Nat → Nat) → DisjointSet → List Call → Prop
  | united, rep, _, [] => Representatives size united rep
  | united, rep, set, call :: calls =>
      Representatives size united rep ∧ ∃ outcome next nextRep, set.call call = (outcome, next) ∧
        (call.InRange size → ∃ reply, outcome = .ok reply ∧ Answers united rep call reply) ∧
        (¬ call.InRange size → outcome = .error .disjointSetOutOfRange) ∧
        (unite size united call = united → nextRep = rep) ∧
        Conforms size (unite size united call) nextRep next calls

theorem Represents.representatives (represents : Represents size united rep set) :
    Representatives size united rep := by
  intro a b aInside bInside
  exact ⟨represents.related_rep aInside, (represents.related a b aInside bInside).mpr⟩

theorem Represents.call (represents : Represents size united rep set) (call : Call) :
    ∃ outcome next nextRep, set.call call = (outcome, next) ∧
      (call.InRange size → ∃ reply, outcome = .ok reply ∧ Answers united rep call reply) ∧
      (¬ call.InRange size → outcome = .error .disjointSetOutOfRange) ∧
      (unite size united call = united → nextRep = rep) ∧
      Represents size (unite size united call) nextRep next := by
  cases call with
  | union first second reversed =>
      by_cases inside : first < size ∧ second < size
      · obtain ⟨next, merged, united', nextRepresents⟩ := represents.union inside.1 inside.2 reversed
        refine ⟨.ok .done, next, merged, by simp [DisjointSet.call, andThen, united'], fun _ => ⟨_, rfl, rfl⟩,
          fun outside => absurd inside outside, ?_, ?_⟩
        · intro same
          simp [unite, inside] at same
        · rw [unite, if_pos inside]
          exact nextRepresents
      · obtain ⟨next, thrown, nextRepresents⟩ := represents.isConnected_outside inside reversed
        refine ⟨.error .disjointSetOutOfRange, next, rep,
          by simp [DisjointSet.call, DisjointSet.union, andThen, thrown],
          fun member => absurd member inside, fun _ => rfl, fun _ => rfl, ?_⟩
        rw [unite, if_neg inside]
        exact nextRepresents
  | find vertex =>
      by_cases inside : vertex < size
      · obtain ⟨next, found, nextRepresents⟩ := represents.find inside
        exact ⟨.ok (.vertex (rep vertex)), next, rep, by simp [DisjointSet.call, andThen, found],
          fun _ => ⟨_, rfl, rfl⟩, fun outside => absurd inside outside, fun _ => rfl, nextRepresents⟩
      · have thrown := represents.find_outside (Nat.le_of_not_lt inside)
        exact ⟨.error .disjointSetOutOfRange, set, rep, by simp [DisjointSet.call, andThen, thrown],
          fun member => absurd member inside, fun _ => rfl, fun _ => rfl, represents⟩
  | isConnected first second reversed =>
      by_cases inside : first < size ∧ second < size
      · obtain ⟨next, connected, nextRepresents⟩ := represents.isConnected inside.1 inside.2 reversed
        refine ⟨.ok (.flag (decide (rep first = rep second))), next, rep,
          by simp [DisjointSet.call, andThen, connected], fun _ => ⟨_, rfl, _, rfl, ?_⟩,
          fun outside => absurd inside outside, fun _ => rfl, nextRepresents⟩
        rw [decide_eq_true_iff, represents.related _ _ inside.1 inside.2]
      · obtain ⟨next, thrown, nextRepresents⟩ := represents.isConnected_outside inside reversed
        exact ⟨.error .disjointSetOutOfRange, next, rep, by simp [DisjointSet.call, andThen, thrown],
          fun member => absurd member inside, fun _ => rfl, fun _ => rfl, nextRepresents⟩

theorem Represents.conforms (represents : Represents size united rep set) (calls : List Call) :
    Conforms size united rep set calls := by
  induction calls generalizing united rep set with
  | nil => exact represents.representatives
  | cons call calls ih =>
      obtain ⟨outcome, next, nextRep, called, answered, thrown, kept, nextRepresents⟩ := represents.call call
      exact ⟨represents.representatives, outcome, next, nextRep, called, answered, thrown, kept, ih nextRepresents⟩

theorem iota_eq {count value : Nat} (fits : value + count ≤ intMax) : iota count value = .ok (List.range' value count) := by
  induction count generalizing value with
  | zero => rfl
  | succ count ih =>
      have below : value < intMax := by omega
      rw [iota, if_pos below, ih (by omega)]
      rfl

theorem iota_overflow {count value : Nat} (start : value ≤ intMax) (outgrows : intMax < value + count) :
    iota count value = .error .overflow := by
  induction count generalizing value with
  | zero => omega
  | succ count ih =>
      rw [iota]
      split
      next below =>
        rw [ih below (by omega)]
        rfl
      next reached => rfl

theorem represents_range (size : Nat) : Represents size [] id { parentVertex := List.range' 0 size } where
  length := List.length_range'
  bounded := by simp
  roots := by
    intro vertex inside
    rw [List.length_range'] at inside
    apply RootOf.of_root
    simp [inside]
  related := by
    intro a b aInside bInside
    constructor
    · rintro rfl
      exact .refl _
    · intro related
      clear aInside bInside
      induction related with
      | rel a b listed => cases listed
      | refl a => rfl
      | symm a b _ ih => exact ih.symm
      | trans a b c _ _ first second => exact first.trans second

/-- A set of the size can be built, and every sequence of calls on it behaves as on the
partition of the united pairs. -/
def Partitions (size : Nat) : Prop :=
  ∀ calls, ∃ set, make size = .ok set ∧ Conforms size [] id set calls

/-- Any sequence of calls conforms exactly if the size is an `int`: the constructor counts
the vertices with one. -/
theorem partitions_iff (size : Nat) : Partitions size ↔ size < 2 ^ 31 := by
  constructor
  · intro partitions
    obtain ⟨set, made, _⟩ := partitions []
    by_contra large
    rw [make, iota_overflow (Nat.zero_le _) (by unfold intMax; omega)] at made
    cases made
  · intro small calls
    refine ⟨{ parentVertex := List.range' 0 size }, ?_, (represents_range size).conforms calls⟩
    rw [make, iota_eq (by unfold intMax; omega)]
    rfl

theorem partitions_overflow : ¬ Partitions (2 ^ 31) := by
  intro partitions
  obtain ⟨set, made, _⟩ := partitions []
  rw [make, iota_overflow (Nat.zero_le _) (by unfold intMax; omega)] at made
  cases made

end Dsac.Graph.DisjointSet
