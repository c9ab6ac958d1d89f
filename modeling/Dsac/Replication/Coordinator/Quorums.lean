import Dsac.Replication.Coordinator

namespace Dsac.Replication

open Dsac.Library

/-! What a call makes of the responses of a quorum. -/

variable {n : Nat} {call : Call n} {winners : List (Fin n)} {object : RegisterValueObject} {handler : Handler}

theorem majorityQuorum_pos (n : Nat) : 0 < majorityQuorum n := Nat.succ_pos _

theorem majorityQuorum_le (replica : Fin n) : majorityQuorum n ≤ n := by
  have some_ := replica.isLt
  rw [majorityQuorum]
  omega

/-- Two majorities of the replicas have a replica in common. -/
theorem majority (n : Nat) : Fintype.card (Fin n) < majorityQuorum n + majorityQuorum n := by
  rw [Fintype.card_fin, majorityQuorum]
  omega

theorem quorumFuture_cases {R : Type} (quorum : Nat) (results : Fin n → Option R) (winners : List (Fin n)) :
    (quorum ≤ n ∧ quorumFuture quorum results winners = none) ∨
      (n < quorum ∧ quorumFuture quorum results winners = some (.error "not enough futures")) ∨
      winners.length = quorum ∧ quorumFuture quorum results winners =
        some (.ok (((List.finRange n).filter (· ∈ winners)).filterMap results)) := by
  rw [quorumFuture]
  split
  next few => exact .inr (.inl ⟨few, rfl⟩)
  next many =>
      split
      next enough => exact .inr (.inr ⟨enough, rfl⟩)
      next => exact .inl ⟨not_lt.mp many, rfl⟩

namespace Call

/-- The snapshots of the replicas whose requests to read were the first to complete. -/
def gathered (call : Call n) (winners : List (Fin n)) : List Snapshot :=
  cast (((List.finRange n).filter (· ∈ winners)).filterMap fun replica => (call.reads replica).result)

theorem mem_valid_gathered : object ∈ valid (call.gathered winners) ↔
    ∃ replica ∈ winners, (call.reads replica).result = some (.ok object) := by
  rw [mem_valid, gathered, cast, List.mem_map]
  constructor
  · rintro ⟨result, member, same⟩
    obtain ⟨replica, inside, answered⟩ := List.mem_filterMap.mp member
    simp only [List.mem_filter, decide_eq_true_eq] at inside
    cases result with
    | error _ => cases same
    | ok other =>
        cases same
        exact ⟨replica, inside.2, answered⟩
  · rintro ⟨replica, inside, answered⟩
    refine ⟨.ok object, List.mem_filterMap.mpr ⟨replica, ?_, answered⟩, rfl⟩
    simp only [List.mem_filter, List.mem_finRange, true_and, decide_eq_true_eq]
    exact inside

theorem mem_gathered {result : Except RequestException RegisterValueObject} {replica : Fin n}
    (winner : replica ∈ winners) (answered : (call.reads replica).result = some result) :
    (match result with | .error _ => .error .snapshotNotFound | .ok object => .ok object) ∈ call.gathered winners := by
  refine List.mem_map.mpr ⟨result, List.mem_filterMap.mpr ⟨replica, ?_, answered⟩, ?_⟩
  · simp only [List.mem_filter, List.mem_finRange, true_and, decide_eq_true_eq]
    exact winner
  · cases result <;> rfl

theorem stored_cases (future : Except String (List (Except RequestException Unit))) :
    (∃ thrown, call.stored object handler future = { call with place := .threw thrown }) ∨
      call.stored object handler future = { call with place := handler.finished object } := by
  rw [stored]
  cases ClusterValueObject.storeToReplicas future with
  | error thrown => exact .inl ⟨thrown, rfl⟩
  | ok _ => exact .inr rfl

/-- The call goes on waiting, or it ends: without enough replicas with an error, and otherwise
with the responses of a quorum. -/
theorem awaitWrites_cases (call : Call n) (object : RegisterValueObject) (handler : Handler) (winners : List (Fin n)) :
    call.awaitWrites object handler winners = { call with place := .storing object handler winners } ∨
      (∃ thrown, call.awaitWrites object handler winners = { call with place := .threw thrown }) ∨
      winners.length = majorityQuorum n ∧
        call.awaitWrites object handler winners = { call with place := handler.finished object } := by
  rw [awaitWrites]
  rcases quorumFuture_cases (majorityQuorum n) (fun replica => (call.writes replica).result) winners with
    ⟨_, waits⟩ | ⟨_, fails⟩ | ⟨enough, ends⟩
  · rw [waits]
    exact .inl rfl
  · rw [fails]
    exact .inr (.inl ⟨_, rfl⟩)
  · rw [ends]
    rcases @stored_cases _ call object handler (.ok _) with thrown | finished
    · exact .inr (.inl thrown)
    · exact .inr (.inr ⟨enough, finished⟩)

theorem store_cases (call : Call n) (object : RegisterValueObject) (handler : Handler) :
    (majorityQuorum n ≤ n ∧ call.store object handler =
        { call with place := .storing object handler [], writes := fun _ => .sent object }) ∨
      n < majorityQuorum n ∧
        ∃ thrown, call.store object handler = { call with place := .threw thrown, writes := fun _ => .sent object } := by
  rw [store, awaitWrites]
  rcases quorumFuture_cases (majorityQuorum n) (fun _ => (Request.sent object).result) [] with
    ⟨many, waits⟩ | ⟨few, fails⟩ | ⟨enough, _⟩
  · rw [waits]
    exact .inl ⟨many, rfl⟩
  · rw [fails]
    exact .inr ⟨few, _, rfl⟩
  · have some_ := majorityQuorum_pos n
    rw [List.length_nil] at enough
    omega

/-- No request to write fails, so that `store_to_replicas` returns. -/
theorem awaitWrites_fine (call : Call n) (object : RegisterValueObject) (handler : Handler) (winners : List (Fin n))
    (replica : Fin n) (fine : ∀ other result, (call.writes other).result = some result → result = .ok ()) :
    call.awaitWrites object handler winners = { call with place := .storing object handler winners } ∨
      call.awaitWrites object handler winners = { call with place := handler.finished object } := by
  rw [awaitWrites]
  rcases quorumFuture_cases (majorityQuorum n) (fun other => (call.writes other).result) winners with
    ⟨_, waits⟩ | ⟨few, _⟩ | ⟨_, ends⟩
  · rw [waits]
    exact .inl rfl
  · exact absurd (majorityQuorum_le replica) (not_le.mpr few)
  · have returns := storeToReplicas_ok (((List.finRange n).filter (· ∈ winners)).filterMap fun other =>
        (call.writes other).result) fun result member => by
      obtain ⟨other, _, answered⟩ := List.mem_filterMap.mp member
      exact fine other result answered
    rw [ends]
    simp only [stored, returns]
    exact .inr trivial

theorem getLatest_of_fresh {cluster : ClusterValueObject} (fresh : cluster.freshSnapshot_ = .ok object) :
    cluster.getLatest = .ok object := by
  rw [ClusterValueObject.getLatest, ClusterValueObject.getLatestValue, ClusterValueObject.getLatestTimestamp, fresh]
  rfl

/-- A read finds no valid snapshot, or else the fresh one: it returns that if every other one
equals it, and stores it if not. -/
theorem restored_cases (call : Call n) (winners : List (Fin n)) {future : List (Except RequestException RegisterValueObject)}
    (gathers : cast future = call.gathered winners) :
    (valid (call.gathered winners) = [] ∧ call.restored (.ok future) = { call with place := .returned none }) ∨
      ∃ object, getFreshSnapshot (call.gathered winners) = .ok object ∧ object ∈ valid (call.gathered winners) ∧
        ((∀ snapshot ∈ call.gathered winners, snapshot = .ok object) ∧
            call.restored (.ok future) = { call with place := .returned (some object) } ∨
          call.restored (.ok future) = call.store object .readAndWrite) := by
  have restores : ClusterValueObject.restoreFromReplicas (.ok future) =
      .ok (ClusterValueObject.restoreFromSnapshots (call.gathered winners)) := by rw [← gathers]; rfl
  rw [restored, restores]
  rcases getFreshSnapshot_cases (call.gathered winners) with ⟨none_, _⟩ | ⟨object, fresh, member, _⟩
  · obtain ⟨noValue, _, consistent⟩ := findsNothing_of_valid_eq_nil none_
    refine .inl ⟨none_, ?_⟩
    simp only [consistent, Bool.not_true, Bool.false_eq_true, if_false]
    rw [ClusterValueObject.getLatest, noValue]
    rfl
  · have latest := @getLatest_of_fresh _ (ClusterValueObject.restoreFromSnapshots (call.gathered winners)) fresh
    refine .inr ⟨object, fresh, member, ?_⟩
    cases consistent : (ClusterValueObject.restoreFromSnapshots (call.gathered winners)).isConsistent with
    | false =>
        simp only [latest]
        exact .inr (if_pos (by rw [consistent]; rfl))
    | true =>
        refine .inl ⟨?_, ?_⟩
        · intro snapshot inside
          rw [ClusterValueObject.isConsistent, ClusterValueObject.restoreFromSnapshots, fresh] at consistent
          exact of_decide_eq_true (List.all_eq_true.mp consistent snapshot inside)
        · simp only [latest]
          exact if_neg (by rw [consistent]; decide)

theorem awaitReads_cases (call : Call n) (winners : List (Fin n)) :
    call.awaitReads winners = { call with place := .reading winners } ∨
      (∃ thrown, call.awaitReads winners = { call with place := .threw thrown }) ∨
      winners.length = majorityQuorum n ∧
        ((valid (call.gathered winners) = [] ∧ call.awaitReads winners = { call with place := .returned none }) ∨
          ∃ object, getFreshSnapshot (call.gathered winners) = .ok object ∧ object ∈ valid (call.gathered winners) ∧
            ((∀ snapshot ∈ call.gathered winners, snapshot = .ok object) ∧
                call.awaitReads winners = { call with place := .returned (some object) } ∨
              call.awaitReads winners = call.store object .readAndWrite)) := by
  rw [awaitReads]
  rcases quorumFuture_cases (majorityQuorum n) (fun replica => (call.reads replica).result) winners with
    ⟨_, waits⟩ | ⟨_, fails⟩ | ⟨enough, ends⟩
  · rw [waits]
    exact .inl rfl
  · rw [fails]
    exact .inr (.inl ⟨_, rfl⟩)
  · rw [ends]
    exact .inr (.inr ⟨enough, restored_cases call winners rfl⟩)

end Call

end Dsac.Replication
