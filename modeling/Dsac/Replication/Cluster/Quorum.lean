import Dsac.Concurrency.Futures.Combine.FirstN.Get
import Dsac.Replication.Cluster
import Dsac.Replication.RegisterReplicaClient

namespace Dsac.Replication

open Dsac.Library Dsac.Futures

/-! Which requests the coordinator counts towards its quorum. -/

/-- `majority_quorum_policy::quorum`. -/
def majorityQuorum (n : Nat) : Nat := n / 2 + 1

/-- What `value_or_throw` throws: the error of `first_n`, or the exception of a request. -/
inductive Thrown where
  | combinator (message : String)
  | request (exception : RequestException)
deriving DecidableEq, Repr

/-- `details::cast`. -/
def cast (snapshots : List (Except RequestException RegisterValueObject)) : List Snapshot :=
  snapshots.map fun register =>
    match register with
    | .error _ => .error .snapshotNotFound
    | .ok object => .ok object

namespace ClusterValueObject

/-- The rest of `restore_from_replicas` after the `get` of its quorum future. -/
def restoreFromReplicas
    (quorumFuture : Except String (List (Except RequestException RegisterValueObject))) :
    Except Thrown ClusterValueObject := do
  let snapshots ← quorumFuture.mapError .combinator
  return restoreFromSnapshots (cast snapshots)

/-- The rest of `store_to_replicas` after the `get` of its quorum future. -/
def storeToReplicas (quorumFuture : Except String (List (Except RequestException Unit))) :
    Except Thrown Unit := do
  let quorumResponses ← quorumFuture.mapError .combinator
  quorumResponses.forM fun response => response.mapError .request

end ClusterValueObject

section

variable {n : Nat} {R E : Type} {clients : Fin n → RegisterReplicaClient} {winners : List (Fin n)}
  {quorum : Nat}

/-- In some run of `first_n` on the futures of the requests, `get` yields this, and these were
the first of the requests to complete. -/
def Gets (quorum : Nat) (results : Fin n → R) (executors : Fin n → Option E)
    (schedule : List (Participant n)) (winners : List (Fin n)) (quorumFuture : Except String (List R)) : Prop :=
  ∃ session state, Session.interleave (firstN quorum) results (FirstN.call quorum executors) schedule =
      .ok session ∧ session.reader = .getting state (.returned quorumFuture) ∧
    winners = session.system.context.winners quorum

/-- The write returns normally only if a quorum of the replicas has executed it. Whether those
have whose requests are not complete is open. -/
def CountsExecuted (quorum : Nat) (writes : Fin n → WriteRequest) (winners : List (Fin n))
    (quorumFuture : Except String (List (Except RequestException Unit))) : Prop :=
  ClusterValueObject.storeToReplicas quorumFuture = .ok () →
    ∀ executed : Finset (Fin n), (∀ index ∈ winners, index ∈ executed ↔ (writes index).executed = true) →
      quorum ≤ executed.card

/-- A cluster is built only from a quorum of replicas that have answered. -/
def CountsAnswered (quorum : Nat) (clients : Fin n → RegisterReplicaClient)
    (reads : Fin n → Option Response) (winners : List (Fin n))
    (quorumFuture : Except String (List (Except RequestException RegisterValueObject))) : Prop :=
  ∀ cluster, ClusterValueObject.restoreFromReplicas quorumFuture = .ok cluster →
    quorum ≤ winners.countP fun index => (clients index).answered (reads index)

theorem Gets.outcome {results : Fin n → R} {executors : Fin n → Option E} {schedule : List (Participant n)}
    {quorumFuture : Except String (List R)}
    (gets : Gets quorum results executors schedule winners quorumFuture) :
    (n < quorum ∧ quorumFuture = .error "not enough futures") ∨
      quorum ≤ n ∧ quorumFuture = .ok (((List.finRange n).filter (· ∈ winners)).map results) ∧
        winners.length = quorum ∧ winners.Nodup := by
  obtain ⟨session, state, ran, got, rfl⟩ := gets
  rcases Nat.lt_or_ge n quorum with few | enough
  · exact .inl ⟨few, FirstN.get_few few ran got⟩
  · exact .inr ⟨enough, FirstN.get_winners enough ran got⟩

/-- No request to write ever fails. -/
theorem storeToReplicas_ok (responses : List (Except RequestException Unit))
    (fine : ∀ response ∈ responses, response = .ok ()) :
    ClusterValueObject.storeToReplicas (.ok responses) = .ok () := by
  show (responses.forM fun response => response.mapError Thrown.request) = .ok ()
  induction responses with
  | nil => rfl
  | cons response rest ih =>
      rw [fine response List.mem_cons_self]
      exact ih fun other member => fine other (List.mem_cons_of_mem _ member)

theorem countP_eq_length {p : Fin n → Bool} (length : winners.length = quorum) :
    quorum ≤ winners.countP p ↔ ∀ index ∈ winners, p index = true := by
  rw [← List.countP_eq_length, length]
  have bounded := @List.countP_le_length _ p winners
  omega

theorem countsExecuted_iff {object : RegisterValueObject} {writes : Fin n → WriteRequest}
    {executors : Fin n → Option E} {schedule : List (Participant n)}
    {quorumFuture : Except String (List (Except RequestException Unit))}
    (gets : Gets quorum (fun index => (clients index).asyncWrite object (writes index).response) executors
      schedule winners quorumFuture) :
    CountsExecuted quorum writes winners quorumFuture ↔
      (quorum ≤ n → ∀ index ∈ winners, (writes index).executed = true) := by
  rcases gets.outcome with ⟨few, rfl⟩ | ⟨enough, rfl, length, distinct⟩
  · refine iff_of_true nofun fun enough => ?_
    omega
  constructor
  · intro counts _
    have returns := counts (storeToReplicas_ok _ fun response member => by
      obtain ⟨index, -, rfl⟩ := List.mem_map.mp member
      rfl) (winners.filter fun index => (writes index).executed).toFinset (fun index member => by
        simp [member])
    rw [List.toFinset_card_of_nodup (distinct.filter _), ← List.countP_eq_length_filter] at returns
    exact (countP_eq_length length).mp returns
  · intro fine _ executed same
    have inside : winners.toFinset ⊆ executed := by
      intro index member
      have winner := List.mem_toFinset.mp member
      exact (same index winner).mpr (fine enough index winner)
    calc quorum
      _ = winners.toFinset.card := by rw [List.toFinset_card_of_nodup distinct, length]
      _ ≤ executed.card := Finset.card_le_card inside

theorem countsAnswered_iff {reads : Fin n → Option Response}
    {executors : Fin n → Option E} {schedule : List (Participant n)}
    {quorumFuture : Except String (List (Except RequestException RegisterValueObject))}
    (gets : Gets quorum (fun index => (clients index).asyncRead (reads index)) executors
      schedule winners quorumFuture) :
    CountsAnswered quorum clients reads winners quorumFuture ↔
      (quorum ≤ n → ∀ index ∈ winners, (clients index).answered (reads index) = true) := by
  rcases gets.outcome with ⟨few, rfl⟩ | ⟨enough, rfl, length, -⟩
  · refine iff_of_true nofun fun enough => ?_
    omega
  constructor
  · intro counts _
    exact (countP_eq_length length).mp (counts _ rfl)
  · intro fine _ _
    exact (countP_eq_length length).mpr (fine enough)

end

/-- **Which requests count.** Both quorums count every request that completes, so they stand
for that many replicas exactly when none of the first `quorum n` requests to complete has failed. -/
theorem quorums_count_iff (quorum : Nat → Nat) {n : Nat} {E : Type} (clients : Fin n → RegisterReplicaClient)
    (executors : Fin n → Option E) (object : RegisterValueObject) (writes : Fin n → WriteRequest)
    (reads : Fin n → Option Response) :
    (∀ schedule winners quorumFuture,
      Gets (quorum n) (fun index => (clients index).asyncWrite object (writes index).response) executors
        schedule winners quorumFuture →
      (CountsExecuted (quorum n) writes winners quorumFuture ↔
        (quorum n ≤ n → ∀ index ∈ winners, (writes index).executed = true))) ∧
    ∀ schedule winners quorumFuture,
      Gets (quorum n) (fun index => (clients index).asyncRead (reads index)) executors
        schedule winners quorumFuture →
      (CountsAnswered (quorum n) clients reads winners quorumFuture ↔
        (quorum n ≤ n → ∀ index ∈ winners, (clients index).answered (reads index) = true)) :=
  ⟨fun _ _ _ gets => countsExecuted_iff gets, fun _ _ _ gets => countsAnswered_iff gets⟩

def soleClient (_ : Fin 1) : RegisterReplicaClient := ⟨"0.0.0.0", 8080⟩

/-- The response of a replica whose register is not initialized. -/
def uninitialized : Response :=
  ⟨404, some fun field =>
    if field = "error_message" then some (.string "The register is not initialized") else none⟩

/-- The only replica executes the write and answers the read. -/
theorem quorums_count_iff_reached :
    (∃ quorumFuture, Gets (majorityQuorum 1) (fun index => (soleClient index).asyncWrite ⟨5, 1⟩ none) soleExecutor
        completedLast [0] quorumFuture ∧
      CountsExecuted (majorityQuorum 1) (fun _ : Fin 1 => ⟨true, none⟩) [0] quorumFuture) ∧
    ∃ quorumFuture, Gets (majorityQuorum 1) (fun index => (soleClient index).asyncRead (some uninitialized))
        soleExecutor completedLast [0] quorumFuture ∧
      CountsAnswered (majorityQuorum 1) soleClient (fun _ => some uninitialized) [0] quorumFuture := by
  obtain ⟨stores, restores⟩ := quorums_count_iff majorityQuorum soleClient soleExecutor ⟨5, 1⟩
    (fun _ => ⟨true, none⟩) (fun _ => some uninitialized)
  have written : Gets (majorityQuorum 1) (fun index => (soleClient index).asyncWrite ⟨5, 1⟩ none) soleExecutor
      completedLast [0] (.ok [.ok ()]) := ⟨_, _, rfl, rfl, rfl⟩
  have read : Gets (majorityQuorum 1) (fun index => (soleClient index).asyncRead (some uninitialized)) soleExecutor
      completedLast [0] (.ok [.error (.notFound "The register is not initialized")]) := ⟨_, _, rfl, rfl, rfl⟩
  exact ⟨⟨_, written, (stores _ _ _ written).mpr fun _ _ _ => rfl⟩,
    ⟨_, read, (restores _ _ _ read).mpr fun _ _ _ => rfl⟩⟩

/-- The only replica is out of reach, and counts as a majority of one. -/
theorem quorums_count_unreachable :
    (∃ schedule winners quorumFuture,
      Gets (majorityQuorum 1) (fun index => (soleClient index).asyncWrite ⟨5, 1⟩ none) soleExecutor
          schedule winners quorumFuture ∧
        ¬ CountsExecuted (majorityQuorum 1) (fun _ => ⟨false, none⟩) winners quorumFuture) ∧
    ∃ schedule winners quorumFuture,
      Gets (majorityQuorum 1) (fun index => (soleClient index).asyncRead none) soleExecutor
          schedule winners quorumFuture ∧
        ¬ CountsAnswered (majorityQuorum 1) soleClient (fun _ => none) winners quorumFuture := by
  constructor
  · refine ⟨completedLast, [0], .ok [.ok ()], ⟨_, _, rfl, rfl, rfl⟩, ?_⟩
    intro counts
    exact absurd (counts rfl ∅ (by decide)) (by decide)
  · refine ⟨completedLast, [0], _, ⟨_, _, rfl, rfl, rfl⟩, ?_⟩
    intro counts
    exact absurd (counts _ rfl) (by decide)

end Dsac.Replication
