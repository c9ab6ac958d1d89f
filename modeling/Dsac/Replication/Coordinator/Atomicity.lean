import Dsac.Replication.Coordinator.Provenance

namespace Dsac.Replication

open Dsac.Library

/-! Reads never go back behind a write or another read. -/

variable {n : Nat}

/-- The first of the snapshots of greatest value has the greatest timestamp. -/
def NewestFirst (snapshots : List Snapshot) : Prop :=
  ∀ object ∈ Greatest.first RegisterValueObject.getValue (valid snapshots),
    ∀ other ∈ valid snapshots, other.getTimestamp ≤ object.getTimestamp

/-- The snapshots of the quorum that the action completes for a read. -/
def Call.completes (call : Call n) : Action n → Option (List Snapshot)
  | .receiveRead replica =>
      match call.reads replica, call.place with
      | .answered result, .reading winners =>
          if winners.length + 1 = majorityQuorum n then
            some ((call.setRead replica (.completed result)).gathered (winners ++ [replica]))
          else none
      | _, _ => none
  | .write _ | .read | .serveRead _ | .serveWrite _ | .receiveWrite _ => none

def System.Ordered {κ : Type} (system : System n κ) (event : κ × Action n) : Prop :=
  ∀ snapshots ∈ (system.calls event.1).completes event.2, NewestFirst snapshots

instance (snapshots : List Snapshot) : Decidable (NewestFirst snapshots) :=
  inferInstanceAs (Decidable (∀ object ∈ Greatest.first RegisterValueObject.getValue (valid snapshots),
    ∀ other ∈ valid snapshots, other.getTimestamp ≤ object.getTimestamp))

instance {κ : Type} (system : System n κ) (event : κ × Action n) : Decidable (system.Ordered event) :=
  inferInstanceAs (Decidable (∀ snapshots ∈ (system.calls event.1).completes event.2, NewestFirst snapshots))

section

variable {registers before after : Fin n → Register} {call : Call n} {place : Place n} {replica : Fin n}
  {reads : Fin n → Request Unit (Except RequestException RegisterValueObject)}
  {snapshots : List Snapshot} {winners : List (Fin n)} {object : RegisterValueObject} {timestamp : Nat}

theorem NewestFirst.fresh (ordered : NewestFirst snapshots) (fresh : getFreshSnapshot snapshots = .ok object)
    {other : RegisterValueObject} (member : other ∈ valid snapshots) : other.getTimestamp ≤ object.getTimestamp :=
  ordered object (Greatest.foldl_keep_eq_first (getFreshSnapshot_ok_iff.mp fresh)) other member

/-- The request, if it is answered, is so with that timestamp or a later one. -/
def Late (timestamp : Nat) (request : Request Unit (Except RequestException RegisterValueObject)) : Prop :=
  ∀ result, request.result = some result → ∃ object, result = .ok object ∧ timestamp ≤ object.getTimestamp

/-- What a read that starts after the timestamp is settled has to keep to. -/
def Place.Floor (timestamp : Nat) (registers : Fin n → Register)
    (reads : Fin n → Request Unit (Except RequestException RegisterValueObject)) : Place n → Prop
  | .idle => Settled registers timestamp
  | .reading _ =>
      Held (majorityQuorum n) fun replica => (registers replica).AtLeast timestamp ∧ Late timestamp (reads replica)
  | .storing object .readAndWrite _ => timestamp ≤ object.getTimestamp
  | .returned outcome => ∃ object, outcome = some object ∧ timestamp ≤ object.getTimestamp
  | .storing _ .write _ | .wrote _ | .threw _ => True

theorem Place.Floor.rises (floor : place.Floor timestamp before reads) (rises : Rises before after) :
    place.Floor timestamp after reads := by
  cases place with
  | idle => exact Settled.rises floor rises
  | reading winners =>
      apply Held.mono floor
      rintro replica ⟨holds, late⟩
      exact ⟨rises replica timestamp holds, late⟩
  | storing object handler winners => cases handler <;> exact floor
  | _ => exact floor

/-- A replica that holds the timestamp answers with it or with a later one. -/
theorem Place.Floor.setRead {request : Request Unit (Except RequestException RegisterValueObject)}
    (floor : place.Floor timestamp registers call.reads)
    (late : (registers replica).AtLeast timestamp → Late timestamp (call.reads replica) → Late timestamp request) :
    place.Floor timestamp registers (call.setRead replica request).reads := by
  cases place with
  | reading winners =>
      apply Held.mono floor
      rintro other ⟨holds, lates⟩
      refine ⟨holds, ?_⟩
      by_cases same : other = replica
      · subst other
        simp only [Call.setRead, Function.update_self]
        exact late holds lates
      · simpa only [Call.setRead, Function.update_of_ne same] using lates
  | storing object handler winners => cases handler <;> exact floor
  | _ => exact floor

theorem Call.store_floor (late : timestamp ≤ object.getTimestamp) :
    (call.store object .readAndWrite).place.Floor timestamp registers (call.store object .readAndWrite).reads := by
  rcases store_cases call object .readAndWrite with ⟨_, stores⟩ | ⟨_, thrown, throws⟩
  · rw [stores]
    exact late
  · rw [throws]
    trivial

theorem Call.awaitWrites_floor {handler : Handler} (floor : (Place.storing object handler winners).Floor timestamp registers call.reads) :
    (call.awaitWrites object handler winners).place.Floor timestamp registers
      (call.awaitWrites object handler winners).reads := by
  rcases awaitWrites_cases call object handler winners with waits | ⟨thrown, throws⟩ | ⟨_, ends⟩
  · rw [waits]
    exact floor
  · rw [throws]
    trivial
  · rw [ends]
    cases handler with
    | write => trivial
    | readAndWrite => exact ⟨object, rfl, floor⟩

/-- The quorum of the read has a replica in common with the one that holds the timestamp. -/
theorem Call.awaitReads_floor (floor : (Place.reading winners).Floor timestamp registers call.reads)
    (distinct : winners.Nodup) (complete : ∀ replica ∈ winners, ∃ result, call.reads replica = .completed result)
    (ordered : winners.length = majorityQuorum n → NewestFirst (call.gathered winners)) :
    (call.awaitReads winners).place.Floor timestamp registers (call.awaitReads winners).reads := by
  rcases awaitReads_cases call winners with waits | ⟨thrown, throws⟩ | ⟨enough, finds⟩
  · rw [waits]
    exact floor
  · rw [throws]
    trivial
  · have winning : Held (majorityQuorum n) fun replica =>
        replica ∈ winners ∧ ∃ result, call.reads replica = .completed result :=
      Held.of_list distinct enough fun replica winner => ⟨winner, complete replica winner⟩
    obtain ⟨replica, ⟨_, lates⟩, winner, result, done⟩ := Held.meet (majority n) floor winning
    have answered : (call.reads replica).result = some result := by rw [done, Request.result]
    obtain ⟨common, rfl, late⟩ := lates result answered
    have inside : common ∈ valid (call.gathered winners) := mem_valid_gathered.mpr ⟨replica, winner, answered⟩
    rcases finds with ⟨none_, _⟩ | ⟨object, fresh, _, ⟨_, returns⟩ | stores⟩
    · rw [none_] at inside
      cases inside
    · rw [returns]
      exact ⟨object, rfl, late.trans ((ordered enough).fresh fresh inside)⟩
    · rw [stores]
      exact store_floor (late.trans ((ordered enough).fresh fresh inside))

theorem Late.answer {register : Register} (holds : register.AtLeast timestamp) :
    Late timestamp (.answered register.answer) := by
  rintro result ⟨⟩
  obtain ⟨object, here, late⟩ := holds
  exact ⟨object, Register.answer_ok_iff.mpr here, late⟩

theorem Late.receive {result : Except RequestException RegisterValueObject} (answered : call.reads replica = .answered result)
    (late : Late timestamp (call.reads replica)) : Late timestamp (.completed result) := by
  rintro other ⟨⟩
  exact late result (by rw [answered, Request.result])

theorem Call.act_floor (sound : call.Sound registers) (floor : call.place.Floor timestamp registers call.reads)
    (action : Action n) (ordered : ∀ snapshots ∈ call.completes action, NewestFirst snapshots) :
    (call.act registers action).2.place.Floor timestamp (call.act registers action).1 (call.act registers action).2.reads := by
  have rises := call.act_rises registers action
  cases action with
  | write object =>
      rw [act]
      split
      · rcases store_cases call object .write with ⟨_, stores⟩ | ⟨_, thrown, throws⟩
        · rw [stores]
          trivial
        · rw [throws]
          trivial
      · exact floor
  | read =>
      rw [act]
      split
      next idle =>
          rw [idle] at floor
          apply awaitReads_floor
          · apply Held.mono floor
            intro replica holds
            exact ⟨holds, by rintro _ ⟨⟩⟩
          · exact List.nodup_nil
          · rintro _ ⟨⟩
          · intro none_
            have some_ := majorityQuorum_pos n
            rw [List.length_nil] at none_
            omega
      next => exact floor
  | serveRead replica =>
      rw [act]
      split
      · exact floor.setRead fun holds _ => .answer holds
      · exact floor
  | serveWrite replica =>
      have risen := floor.rises rises
      rw [act] at risen ⊢
      split at risen
      · exact risen
      · exact floor
  | receiveRead replica =>
      rw [act]
      split
      next result winners answered reading =>
          have place := sound.place
          rw [reading] at place floor
          have incomplete : ∀ result, call.reads replica ≠ .completed result := by rw [answered]; rintro _ ⟨⟩
          apply awaitReads_floor
          · exact floor.setRead fun _ => .receive answered
          · apply nodup_append_singleton place.1
            intro inside
            obtain ⟨done, completed⟩ := place.2 replica inside
            exact incomplete done completed
          · exact complete_of_setRead place.2
          · intro enough
            apply ordered
            rw [List.length_append, List.length_singleton] at enough
            rw [completes, answered, reading]
            exact if_pos enough
      next result _ answered _ => exact floor.setRead fun _ => .receive answered
      next => exact floor
  | receiveWrite replica =>
      rw [act]
      split
      next result object handler winners answered storing =>
          rw [storing] at floor
          apply awaitWrites_floor
          cases handler <;> exact floor
      · exact floor
      · exact floor

end

namespace System

variable {κ : Type} [DecidableEq κ] {system middle last : System n κ}

/-- Some call was made to write the object. -/
def Wrote (system : System n κ) (object : RegisterValueObject) : Prop :=
  ∃ writer, (system.calls writer).place.written = some object

structure Sound (system : System n κ) : Prop where
  calls : ∀ call, (system.calls call).Sound system.registers
  known : ∀ call, (system.calls call).Known system.Wrote
  registers : ∀ replica object, (system.registers replica).read = some object → system.Wrote object

omit [DecidableEq κ] in
theorem initial_sound : (initial : System n κ).Sound where
  calls _ := ⟨nofun, trivial⟩
  known _ := ⟨nofun, nofun, nofun, nofun⟩
  registers := nofun

theorem step_calls_self (system : System n κ) (event : κ × Action n) :
    (system.step event).calls event.1 = ((system.calls event.1).act system.registers event.2).2 :=
  Function.update_self ..

theorem step_calls_of_ne {event : κ × Action n} {call : κ} (distinct : call ≠ event.1) :
    (system.step event).calls call = system.calls call :=
  Function.update_of_ne distinct ..

theorem step_rises (system : System n κ) (event : κ × Action n) :
    Rises system.registers (system.step event).registers := Call.act_rises _ _ _

theorem Sound.wrote (sound : system.Sound) (event : κ × Action n) {object : RegisterValueObject}
    (wrote : system.Wrote object) : (system.step event).Wrote object := by
  obtain ⟨writer, written⟩ := wrote
  refine ⟨writer, ?_⟩
  by_cases same : writer = event.1
  · subst writer
    rw [step_calls_self]
    exact Call.act_written (sound.known event.1) written event.2
  · rwa [step_calls_of_ne same]

theorem Sound.step (sound : system.Sound) (event : κ × Action n) : (system.step event).Sound := by
  have wider := fun object => @Sound.wrote _ _ _ _ sound event object
  obtain ⟨known, registers⟩ := Call.act_known ((sound.known event.1).mono wider)
    (fun replica object here => wider object (sound.registers replica object here)) event.2
    (fun object written => ⟨event.1, by rwa [step_calls_self]⟩)
  refine ⟨?_, ?_, registers⟩
  · intro call
    by_cases same : call = event.1
    · subst call
      rw [step_calls_self]
      exact Call.act_sound (sound.calls event.1) event.2
    · rw [step_calls_of_ne same]
      exact (sound.calls call).rises (system.step_rises event)
  · intro call
    by_cases same : call = event.1
    · subst call
      rw [step_calls_self]
      exact known
    · rw [step_calls_of_ne same]
      exact (sound.known call).mono wider

/-- What the call has to keep to after the timestamp is settled. -/
def Floor (system : System n κ) (reader : κ) (timestamp : Nat) : Prop :=
  (system.calls reader).place.Floor timestamp system.registers (system.calls reader).reads

theorem Floor.step {reader : κ} {timestamp : Nat} (floor : system.Floor reader timestamp) (sound : system.Sound)
    {event : κ × Action n} (ordered : system.Ordered event) : (system.step event).Floor reader timestamp := by
  rw [Floor]
  by_cases same : reader = event.1
  · subst reader
    rw [step_calls_self]
    exact Call.act_floor (sound.calls event.1) floor event.2 ordered
  · rw [step_calls_of_ne same]
    exact Place.Floor.rises floor (system.step_rises event)

/-- What the reads of the second state owe to the calls completed in the first one. -/
structure Atomic (middle last : System n κ) : Prop where
  returns_written : ∀ reader object, (last.calls reader).place = .returned (some object) → last.Wrote object
  after_write : ∀ writer object reader outcome, (middle.calls writer).place = .wrote object →
    (middle.calls reader).place = .idle → (last.calls reader).place = .returned outcome →
      ∃ fresh, outcome = some fresh ∧ object.getTimestamp ≤ fresh.getTimestamp
  after_read : ∀ earlier object reader outcome, (middle.calls earlier).place = .returned (some object) →
    (middle.calls reader).place = .idle → (last.calls reader).place = .returned outcome →
      ∃ fresh, outcome = some fresh ∧ object.getTimestamp ≤ fresh.getTimestamp

omit [DecidableEq κ] in
theorem Atomic.of_floors (sound : middle.Sound) (later : last.Sound)
    (floors : ∀ reader timestamp, middle.Floor reader timestamp → last.Floor reader timestamp) : Atomic middle last := by
  have starts : ∀ reader outcome timestamp, Settled middle.registers timestamp →
      (middle.calls reader).place = .idle → (last.calls reader).place = .returned outcome →
        ∃ fresh, outcome = some fresh ∧ timestamp ≤ fresh.getTimestamp := by
    intro reader outcome timestamp settled idle returned
    have floor := floors reader timestamp (by rwa [Floor, idle])
    rwa [Floor, returned] at floor
  refine ⟨?_, ?_, ?_⟩
  · intro reader object returned
    exact (later.known reader).place object (by rw [returned]; rfl)
  · intro writer object reader outcome wrote
    have settled := (sound.calls writer).place
    rw [wrote] at settled
    exact starts reader outcome _ settled
  · intro earlier object reader outcome read
    have settled := (sound.calls earlier).place
    rw [read] at settled
    exact starts reader outcome _ settled

/-- The condition on a run of the coordinators. -/
def OrderedRun (schedule : List (κ × Action n)) : Prop :=
  Meets (fun system event => .ok (ε := Fault) (System.step system event)) Ordered initial schedule

/-- **Atomic reads.** In a run in which the first snapshot of greatest value that a read
gathers has the greatest timestamp, a read returns what a write wrote, and nothing older than
what was written or read before it started. -/
theorem interleave_atomic {first second : List (κ × Action n)} (ordered : OrderedRun (first ++ second)) :
    ∃ middle last : System n κ, interleave first = .ok middle ∧ interleave (first ++ second) = .ok last ∧
      Atomic middle last := by
  obtain ⟨middle, ran, sound⟩ := @run_invariant _ _ Fault _ Ordered (fun _ system => Sound system)
    (fun _ system event sound _ => ⟨system.step event, rfl, sound.step event⟩) [] initial initial_sound first
    (ordered.of_append _)
  obtain ⟨last, finished, later, floors⟩ := @run_invariant _ _ Fault _ Ordered
    (fun _ system => Sound system ∧ ∀ reader timestamp, middle.Floor reader timestamp → system.Floor reader timestamp)
    (fun _ system event kept timely => ⟨system.step event, rfl, kept.1.step event, fun reader timestamp floor =>
      (kept.2 reader timestamp floor).step kept.1 timely⟩) [] middle ⟨sound, fun _ _ floor => floor⟩ second
    (ordered.after_append _ ran)
  refine ⟨middle, last, ran, ?_, .of_floors sound later floors⟩
  rw [interleave, run_append, ran]
  exact finished

/-- The replicas execute a write and answer, one after the other. -/
def storeThrough (call : κ) (replicas : List (Fin n)) : List (κ × Action n) :=
  replicas.flatMap fun replica => [(call, .serveWrite replica), (call, .receiveWrite replica)]

def readThrough (call : κ) (replicas : List (Fin n)) : List (κ × Action n) :=
  replicas.flatMap fun replica => [(call, .serveRead replica), (call, .receiveRead replica)]

/-- One of the two replicas that the read asks has not executed the write. -/
theorem interleave_atomic_written_back : ∃ middle last : System 3 (Fin 2),
    interleave ((0, .write ⟨5, 1⟩) :: storeThrough 0 [0, 1]) = .ok middle ∧
      interleave (((0, .write ⟨5, 1⟩) :: storeThrough 0 [0, 1]) ++
        (1, .read) :: readThrough 1 [1, 2] ++ storeThrough 1 [2, 0]) = .ok last ∧ Atomic middle last := by
  have ordered : OrderedRun (((0, .write ⟨5, 1⟩) :: storeThrough 0 [0, 1]) ++
      ((1, .read) :: readThrough 1 [1, 2] ++ storeThrough 1 [2, 0]) : List (Fin 2 × Action 3)) := by
    unfold OrderedRun
    decide +kernel
  exact interleave_atomic ordered

/-- The second write has the greater timestamp and the smaller value, and the read that starts
after it returns the first one. -/
theorem read_goes_back : ∃ (first second : List (Fin 3 × Action 3)) (middle last : System 3 (Fin 3)),
    interleave first = .ok middle ∧ interleave (first ++ second) = .ok last ∧ ¬ Atomic middle last := by
  refine ⟨((0, .write ⟨5, 1⟩) :: storeThrough 0 [0, 1]) ++ (1, .write ⟨3, 2⟩) :: storeThrough 1 [1, 2],
    (2, .read) :: readThrough 2 [0, 1] ++ storeThrough 2 [0, 1], _, _, rfl, rfl, ?_⟩
  intro atomic
  obtain ⟨fresh, same, late⟩ := atomic.after_write 1 ⟨3, 2⟩ 2 (some ⟨5, 1⟩) rfl rfl rfl
  cases same
  exact absurd late (by decide)

end System

end Dsac.Replication
