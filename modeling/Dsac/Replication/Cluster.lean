import Dsac.Replication.Register

namespace Dsac.Replication

open Dsac.Library

/-! The state of the cluster as the snapshots of its replicas show it. -/

inductive SnapshotError where
  | snapshotNotFound
deriving DecidableEq, Repr

abbrev Snapshot := Except SnapshotError RegisterValueObject

instance : DecidableEq Snapshot := fun one two =>
  match one, two with
  | .ok first, .ok second => decidable_of_iff (first = second) (by simp)
  | .error first, .error second => decidable_of_iff (first = second) (by simp)
  | .ok _, .error _ => .isFalse nofun
  | .error _, .ok _ => .isFalse nofun

inductive ClusterException where
  | notFoundLatestValue
  | notFoundLatestTimestamp
deriving DecidableEq, Repr

/-- The loop of `get_fresh_snapshot`, with the snapshot that `fsnapshot` points to. -/
def freshSnapshotLoop (fsnapshot : Snapshot) : List Snapshot → Snapshot
  | [] => fsnapshot
  | bsnapshot :: rest =>
      match bsnapshot with
      | .error _ => freshSnapshotLoop fsnapshot rest
      | .ok object =>
          match fsnapshot with
          | .error _ => freshSnapshotLoop bsnapshot rest
          | .ok fresh =>
              if object.getValue > fresh.getValue then freshSnapshotLoop bsnapshot rest
              else freshSnapshotLoop fsnapshot rest

def getFreshSnapshot : List Snapshot → Snapshot
  | [] => .error .snapshotNotFound
  | first :: rest => freshSnapshotLoop first (first :: rest)

structure ClusterValueObject where
  snapshots_ : List Snapshot
  freshSnapshot_ : Snapshot
deriving Repr

namespace ClusterValueObject

def restoreFromSnapshots (snapshots : List Snapshot) : ClusterValueObject := ⟨snapshots, getFreshSnapshot snapshots⟩

def isConsistent (cluster : ClusterValueObject) : Bool :=
  match cluster.freshSnapshot_ with
  | .error _ => true
  | .ok _ => cluster.snapshots_.all fun snapshot => decide (snapshot = cluster.freshSnapshot_)

def getLatestValue (cluster : ClusterValueObject) : Except ClusterException Int :=
  match cluster.freshSnapshot_ with
  | .error _ => .error .notFoundLatestValue
  | .ok object => .ok object.getValue

def getLatestTimestamp (cluster : ClusterValueObject) : Except ClusterException Nat :=
  match cluster.freshSnapshot_ with
  | .error _ => .error .notFoundLatestTimestamp
  | .ok object => .ok object.getTimestamp

end ClusterValueObject

/-- The snapshots that are valid. -/
def valid (snapshots : List Snapshot) : List RegisterValueObject := snapshots.filterMap Except.toOption

section

variable {snapshots order : List Snapshot} {object : RegisterValueObject}

@[simp] theorem mem_valid : object ∈ valid snapshots ↔ .ok object ∈ snapshots := by
  rw [valid, List.mem_filterMap]
  constructor
  · rintro ⟨snapshot, member, found⟩
    cases snapshot with
    | error _ => cases found
    | ok other =>
        cases found
        exact member
  · intro member
    exact ⟨_, member, rfl⟩

/-- The loop keeps a valid snapshot of greatest value. -/
theorem freshSnapshotLoop_eq (fsnapshot : Snapshot) (snapshots : List Snapshot) :
    (freshSnapshotLoop fsnapshot snapshots).toOption =
      (valid snapshots).foldl (Greatest.keep RegisterValueObject.getValue) fsnapshot.toOption := by
  induction snapshots generalizing fsnapshot with
  | nil => rfl
  | cons snapshot rest ih =>
      cases snapshot with
      | error _ => exact ih fsnapshot
      | ok object =>
          show _ = (valid rest).foldl _ (Greatest.keep _ _ object)
          cases fsnapshot with
          | error _ => exact ih (.ok object)
          | ok fresh =>
              rw [freshSnapshotLoop, Except.toOption, Greatest.keep_some]
              by_cases greater : fresh.getValue < object.getValue
              · rw [if_pos greater, if_pos greater]
                exact ih (.ok object)
              · rw [if_neg greater, if_neg greater]
                exact ih (.ok fresh)

theorem getFreshSnapshot_eq (snapshots : List Snapshot) :
    (getFreshSnapshot snapshots).toOption =
      (valid snapshots).foldl (Greatest.keep RegisterValueObject.getValue) none := by
  cases snapshots with
  | nil => rfl
  | cons first rest =>
      rw [getFreshSnapshot, freshSnapshotLoop_eq]
      cases first with
      | error _ => rfl
      | ok object =>
          -- the loop meets the first snapshot again
          show (valid rest).foldl _ (Greatest.keep _ (some object) object) = (valid rest).foldl _ (some object)
          rw [Greatest.keep_some, if_neg (lt_irrefl _)]

theorem getFreshSnapshot_ok_iff :
    getFreshSnapshot snapshots = .ok object ↔
      (valid snapshots).foldl (Greatest.keep RegisterValueObject.getValue) none = some object := by
  rw [← getFreshSnapshot_eq]
  cases getFreshSnapshot snapshots with
  | error _ => simp [Except.toOption]
  | ok other => simp [Except.toOption]

/-- The fresh snapshot is a valid one of greatest value, if there is a valid one. -/
theorem getFreshSnapshot_cases (snapshots : List Snapshot) :
    valid snapshots = [] ∧ (∃ reason, getFreshSnapshot snapshots = .error reason) ∨
      ∃ object, getFreshSnapshot snapshots = .ok object ∧ object ∈ valid snapshots ∧
        Greatest.Tops RegisterValueObject.getValue (valid snapshots) object := by
  rcases Greatest.foldl_keep_none RegisterValueObject.getValue (valid snapshots) with
    ⟨none_, folds⟩ | ⟨object, folds, member, tops⟩
  · refine .inl ⟨none_, ?_⟩
    rw [← getFreshSnapshot_eq] at folds
    cases fresh : getFreshSnapshot snapshots with
    | error reason => exact ⟨reason, rfl⟩
    | ok object =>
        rw [fresh] at folds
        cases folds
  · exact .inr ⟨object, getFreshSnapshot_ok_iff.mpr folds, member, tops⟩

/-- A snapshot of greatest value that comes first is the fresh one. -/
theorem getFreshSnapshot_of_first (tops : Greatest.Tops RegisterValueObject.getValue (valid snapshots) object) :
    getFreshSnapshot (.ok object :: snapshots) = .ok object := by
  rw [getFreshSnapshot_ok_iff]
  exact Greatest.foldl_keep_of_tops tops

theorem mem_valid_of_perm (same : order.Perm snapshots) : object ∈ valid order ↔ object ∈ valid snapshots := by
  rw [mem_valid, mem_valid]
  exact same.mem_iff

/-- Equal timestamps carry equal values. -/
def Agree (snapshots : List Snapshot) : Prop :=
  ∀ one ∈ valid snapshots, ∀ two ∈ valid snapshots, one.getTimestamp = two.getTimestamp → one.getValue = two.getValue

/-- The cluster picks the valid snapshot of greatest timestamp, in whatever order they are listed. -/
def PicksLatest (snapshots : List Snapshot) : Prop :=
  ∃ object ∈ valid snapshots, (∀ other ∈ valid snapshots, other.getTimestamp ≤ object.getTimestamp) ∧
    ∀ order, order.Perm snapshots →
      let cluster := ClusterValueObject.restoreFromSnapshots order
      cluster.freshSnapshot_ = .ok object ∧ cluster.getLatestTimestamp = .ok object.getTimestamp ∧
        cluster.getLatestValue = .ok object.getValue

/-- Without a valid snapshot there is nothing to find. -/
def FindsNothing (snapshots : List Snapshot) : Prop :=
  let cluster := ClusterValueObject.restoreFromSnapshots snapshots
  cluster.getLatestValue = .error .notFoundLatestValue ∧
    cluster.getLatestTimestamp = .error .notFoundLatestTimestamp ∧ cluster.isConsistent = true

theorem findsNothing_of_valid_eq_nil (none_ : valid snapshots = []) : FindsNothing snapshots := by
  rcases getFreshSnapshot_cases snapshots with ⟨_, reason, fresh⟩ | ⟨object, _, member, _⟩
  · rw [FindsNothing, ClusterValueObject.restoreFromSnapshots, fresh]
    exact ⟨rfl, rfl, rfl⟩
  · rw [none_] at member
    cases member

/-- The fresh snapshot is the one of greatest timestamp exactly when every valid snapshot of
greatest value has it. -/
theorem restoreFromSnapshots_iff (agree : Agree snapshots) :
    ((valid snapshots ≠ [] → PicksLatest snapshots) ∧ (valid snapshots = [] → FindsNothing snapshots)) ↔
      ∀ object ∈ valid snapshots, (∀ other ∈ valid snapshots, other.getValue ≤ object.getValue) →
        ∀ other ∈ valid snapshots, other.getTimestamp ≤ object.getTimestamp := by
  constructor
  · rintro ⟨picks, _⟩ object member greatest
    obtain ⟨latest, _, newest, orders⟩ := picks (List.ne_nil_of_mem member)
    obtain ⟨before, after, split⟩ := List.append_of_mem (mem_valid.mp member)
    have front : (.ok object :: (before ++ after)).Perm snapshots := by
      rw [split]
      exact List.perm_middle.symm
    have first : getFreshSnapshot (.ok object :: (before ++ after)) = .ok object := by
      apply getFreshSnapshot_of_first
      intro other inside
      apply greatest
      rw [← mem_valid_of_perm front, mem_valid]
      exact List.mem_cons_of_mem _ (mem_valid.mp inside)
    have same : object = latest := Except.ok.inj (first.symm.trans (orders _ front).1)
    rw [same]
    exact newest
  · intro ordered
    refine ⟨?_, findsNothing_of_valid_eq_nil⟩
    intro some_
    have fresh : ∀ order, order.Perm snapshots → ∃ object, getFreshSnapshot order = .ok object ∧
        object ∈ valid snapshots ∧ ∀ other ∈ valid snapshots, other.getTimestamp ≤ object.getTimestamp := by
      intro order same
      rcases getFreshSnapshot_cases order with ⟨none_, _⟩ | ⟨object, found, member, tops⟩
      · obtain ⟨object, member⟩ := List.exists_mem_of_ne_nil _ some_
        rw [← mem_valid_of_perm same, none_] at member
        cases member
      · rw [mem_valid_of_perm same] at member
        refine ⟨object, found, member, ordered object member ?_⟩
        intro other inside
        exact tops other ((mem_valid_of_perm same).mpr inside)
    obtain ⟨object, _, member, newest⟩ := fresh snapshots (List.Perm.refl _)
    refine ⟨object, member, newest, ?_⟩
    intro order same
    obtain ⟨other, found, inside, latest⟩ := fresh order same
    have timestamp : other.getTimestamp = object.getTimestamp :=
      le_antisymm (newest other inside) (latest object member)
    have value := agree other inside object member timestamp
    have isObject : other = object := by
      cases other
      cases object
      cases timestamp
      cases value
      rfl
    rw [isObject] at found
    refine ⟨found, ?_, ?_⟩
    · rw [ClusterValueObject.getLatestTimestamp, ClusterValueObject.restoreFromSnapshots, found]
    · rw [ClusterValueObject.getLatestValue, ClusterValueObject.restoreFromSnapshots, found]

/-- Newer snapshots with greater values, and one replica that has none. -/
theorem restoreFromSnapshots_growing : PicksLatest [.ok ⟨10, 1⟩, .error .snapshotNotFound, .ok ⟨20, 2⟩] := by
  apply ((restoreFromSnapshots_iff _).mpr _).1
  · decide
  · unfold Agree
    decide
  · decide

/-- The older of two snapshots has the greater value, and is taken for the fresh one. -/
theorem not_picksLatest_of_greater_value :
    ∃ snapshots, Agree snapshots ∧ valid snapshots ≠ [] ∧ ¬ PicksLatest snapshots := by
  refine ⟨[.ok ⟨5, 1⟩, .ok ⟨3, 2⟩], ?_, by decide, ?_⟩
  · unfold Agree
    decide
  · rintro ⟨object, _, newest, orders⟩
    have fresh := (orders _ (List.Perm.refl _)).1
    have isFirst : object = ⟨5, 1⟩ := Except.ok.inj (fresh.symm.trans rfl)
    have late := newest ⟨3, 2⟩ (by decide)
    rw [isFirst] at late
    exact absurd late (by decide)

end

end Dsac.Replication
