import Dsac.Library.Majority
import Dsac.Library.Run
import Dsac.Fault
import Dsac.Replication.Cluster.Quorum

namespace Dsac.Replication

open Dsac.Library Dsac.Futures

/-! The coordinators that write and read through quorums of the replicas. -/

/-- How far a request to a replica has come. -/
inductive Request (β ρ : Type) where
  | unsent
  | sent (body : β)
  /-- the replica has executed it -/
  | answered (result : ρ)
  /-- its future is complete -/
  | completed (result : ρ)

def Request.result {β ρ : Type} : Request β ρ → Option ρ
  | .unsent | .sent _ => none
  | .answered result | .completed result => some result

/-- What the task of `async_read` ends with when the replica answers. -/
def Register.answer (register : Register) : Except RequestException RegisterValueObject :=
  match register.read with
  | some object => .ok object
  | none => .error (.notFound "The register is not initialized")

/-- A number as the JSON parser reads it back. -/
def Json.ofInt (value : Int) : Json := if 0 ≤ value then .unsigned value.toNat else .integer value

/-- The response of the replica's `read_register_handler`. -/
def Register.response (register : Register) : Response :=
  match register.read with
  | some object =>
      ⟨200, some fun field =>
        if field = "value" then some (.ofInt object.getValue)
        else if field = "timestamp" then some (.unsigned object.getTimestamp)
        else none⟩
  | none => uninitialized

theorem Json.toInt32_ofInt {value : Int} (low : -2147483648 ≤ value) (high : value < 2147483648) :
    (Json.ofInt value).toInt32 = value := by
  have within : value.bmod 4294967296 = value := by
    rw [Int.bmod_def]
    split <;> omega
  by_cases nonneg : 0 ≤ value
  · have whole : (value.toNat : Int).bmod 4294967296 = value := by
      rw [Int.toNat_of_nonneg nonneg, within]
    rw [Json.ofInt, if_pos nonneg]
    exact whole
  · rw [Json.ofInt, if_neg nonneg]
    exact within

/-- The client reads the register of the replica from its response. -/
theorem RegisterReplicaClient.asyncRead_response (client : RegisterReplicaClient) (register : Register)
    (int32 : ∀ object, register.read = some object →
      -2147483648 ≤ object.getValue ∧ object.getValue < 2147483648) :
    client.asyncRead (some register.response) = register.answer := by
  rw [Register.response, Register.answer]
  cases here : register.read with
  | none => rfl
  | some object =>
      obtain ⟨low, high⟩ := int32 object here
      have number : (Json.ofInt object.getValue).isNumberInteger = true := by
        rw [Json.ofInt]
        split <;> rfl
      have parsed := Json.toInt32_ofInt low high
      have fields : fromJson (fun field => if field = "value" then some (.ofInt object.getValue)
          else if field = "timestamp" then some (.unsigned object.getTimestamp) else none) = .ok object := by
        simp only [fromJson, ↓reduceIte, String.reduceEq, Option.filter_some, number, Json.isNumberUnsigned, parsed]
        rfl
      exact fields

scoped instance lawfulBEq_replica {n : Nat} : LawfulBEq (Fin n) := inferInstance

/-- The future of `first_n` when these were the first of the requests to complete; none if it
is not complete. -/
def quorumFuture {n : Nat} {R : Type} (quorum : Nat) (results : Fin n → Option R) (winners : List (Fin n)) :
    Option (Except String (List R)) :=
  if n < quorum then some (.error "not enough futures")
  else if winners.length = quorum then
    some (.ok (((List.finRange n).filter (· ∈ winners)).filterMap results))
  else none

/-- `get` on the future of `first_n` yields what the coordinator is modelled to go on with. -/
theorem Gets.quorumFuture_eq {n quorum : Nat} {R E : Type} {results : Fin n → R} {executors : Fin n → Option E}
    {schedule : List (Participant n)} {winners : List (Fin n)} {future : Except String (List R)}
    (gets : Gets quorum results executors schedule winners future) {answers : Fin n → Option R}
    (complete : ∀ replica ∈ winners, answers replica = some (results replica)) :
    quorumFuture quorum answers winners = some future := by
  rw [quorumFuture]
  rcases gets.outcome with ⟨few, rfl⟩ | ⟨enough, rfl, length, _⟩
  · rw [if_pos few]
  · rw [if_neg (not_lt.mpr enough), if_pos length, ← List.filterMap_eq_map]
    congr 2
    apply List.filterMap_congr
    intro replica member
    simp only [List.mem_filter, decide_eq_true_eq] at member
    exact complete replica member.2

/-- A write of `write_register_command_handler`, or the second phase of a read. -/
inductive Handler where
  | write
  | readAndWrite
deriving DecidableEq, Repr

/-- Where a call of a coordinator stands. -/
inductive Place (n : Nat) where
  | idle
  | reading (winners : List (Fin n))
  | storing (object : RegisterValueObject) (handler : Handler) (winners : List (Fin n))
  | wrote (object : RegisterValueObject)
  | returned (outcome : Option RegisterValueObject)
  | threw (thrown : Thrown)

/-- What the handler returns after `store_to_replicas`. -/
def Handler.finished {n : Nat} (object : RegisterValueObject) : Handler → Place n
  | .write => .wrote object
  | .readAndWrite => .returned (some object)

structure Call (n : Nat) where
  place : Place n
  reads : Fin n → Request Unit (Except RequestException RegisterValueObject)
  writes : Fin n → Request RegisterValueObject (Except RequestException Unit)

/-- What happens to a call: it starts, a replica executes one of its requests, or the response
to one of them arrives. -/
inductive Action (n : Nat) where
  | write (object : RegisterValueObject)
  | read
  | serveRead (replica : Fin n)
  | serveWrite (replica : Fin n)
  | receiveRead (replica : Fin n)
  | receiveWrite (replica : Fin n)

/-- The latest value with the latest timestamp. -/
def ClusterValueObject.getLatest (cluster : ClusterValueObject) : Except ClusterException RegisterValueObject := do
  let value ← cluster.getLatestValue
  let timestamp ← cluster.getLatestTimestamp
  return ⟨value, timestamp⟩

namespace Call

variable {n : Nat}

def initial : Call n := ⟨.idle, fun _ => .unsent, fun _ => .unsent⟩

/-- The end of `store_to_replicas`, and of the handler that called it. -/
def stored (call : Call n) (object : RegisterValueObject) (handler : Handler)
    (future : Except String (List (Except RequestException Unit))) : Call n :=
  match ClusterValueObject.storeToReplicas future with
  | .error thrown => { call with place := .threw thrown }
  | .ok () => { call with place := handler.finished object }

/-- `store_to_replicas` has got the responses of these replicas. -/
def awaitWrites (call : Call n) (object : RegisterValueObject) (handler : Handler) (winners : List (Fin n)) : Call n :=
  match quorumFuture (majorityQuorum n) (fun replica => (call.writes replica).result) winners with
  | none => { call with place := .storing object handler winners }
  | some future => call.stored object handler future

/-- `store_to_replicas` sends the object to every replica; a request that is still to be sent
is one that arrives late. -/
def store (call : Call n) (object : RegisterValueObject) (handler : Handler) : Call n :=
  { call with writes := fun _ => .sent object }.awaitWrites object handler []

/-- `read_and_write_register_command_handler::handle` after `restore_from_replicas`. -/
def restored (call : Call n) (future : Except String (List (Except RequestException RegisterValueObject))) : Call n :=
  match ClusterValueObject.restoreFromReplicas future with
  | .error thrown => { call with place := .threw thrown }
  | .ok cluster =>
      if !cluster.isConsistent then
        match cluster.getLatest with
        | .error _ => { call with place := .returned none }
        | .ok object => call.store object .readAndWrite
      else { call with place := .returned cluster.getLatest.toOption }

/-- `restore_from_replicas` has got the responses of these replicas. -/
def awaitReads (call : Call n) (winners : List (Fin n)) : Call n :=
  match quorumFuture (majorityQuorum n) (fun replica => (call.reads replica).result) winners with
  | none => { call with place := .reading winners }
  | some future => call.restored future

def setRead (call : Call n) (replica : Fin n)
    (request : Request Unit (Except RequestException RegisterValueObject)) : Call n :=
  { call with reads := Function.update call.reads replica request }

def setWrite (call : Call n) (replica : Fin n)
    (request : Request RegisterValueObject (Except RequestException Unit)) : Call n :=
  { call with writes := Function.update call.writes replica request }

/-- An action that the call is not ready for changes nothing. -/
def act (registers : Fin n → Register) (call : Call n) : Action n → (Fin n → Register) × Call n
  | .write object =>
      match call.place with
      | .idle => (registers, call.store object .write)
      | _ => (registers, call)
  | .read =>
      match call.place with
      | .idle => (registers, { call with reads := fun _ => .sent () }.awaitReads [])
      | _ => (registers, call)
  | .serveRead replica =>
      match call.reads replica with
      | .sent () => (registers, call.setRead replica (.answered (registers replica).answer))
      | _ => (registers, call)
  | .serveWrite replica =>
      match call.writes replica with
      | .sent object =>
          (Function.update registers replica ((registers replica).write object),
            call.setWrite replica (.answered (.ok ())))
      | _ => (registers, call)
  | .receiveRead replica =>
      match call.reads replica, call.place with
      | .answered result, .reading winners =>
          (registers, (call.setRead replica (.completed result)).awaitReads (winners ++ [replica]))
      | .answered result, _ => (registers, call.setRead replica (.completed result))
      | _, _ => (registers, call)
  | .receiveWrite replica =>
      match call.writes replica, call.place with
      | .answered result, .storing object handler winners =>
          (registers, (call.setWrite replica (.completed result)).awaitWrites object handler (winners ++ [replica]))
      | .answered result, _ => (registers, call.setWrite replica (.completed result))
      | _, _ => (registers, call)

end Call

/-- The replicas and the calls of the coordinators. -/
structure System (n : Nat) (κ : Type) where
  registers : Fin n → Register
  calls : κ → Call n

namespace System

variable {n : Nat} {κ : Type} [DecidableEq κ]

def initial : System n κ := ⟨fun _ => Register.empty, fun _ => Call.initial⟩

def step (system : System n κ) (event : κ × Action n) : System n κ :=
  let (registers, call) := (system.calls event.1).act system.registers event.2
  ⟨registers, Function.update system.calls event.1 call⟩

/-- The run of an interleaving. -/
def interleave (schedule : List (κ × Action n)) : Outcome (System n κ) :=
  run (fun system event => .ok (system.step event)) initial schedule

end System

end Dsac.Replication
