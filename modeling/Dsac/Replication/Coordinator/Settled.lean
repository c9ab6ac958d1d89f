import Dsac.Replication.Coordinator.Quorums

namespace Dsac.Replication

open Dsac.Library

/-! What completed calls leave behind in most of the registers. -/

variable {n : Nat}

/-- The register has that timestamp or a later one. -/
def Register.AtLeast (register : Register) (timestamp : Nat) : Prop :=
  ∃ object, register.read = some object ∧ timestamp ≤ object.getTimestamp

/-- No register loses a timestamp. -/
def Rises (before after : Fin n → Register) : Prop :=
  ∀ replica timestamp, (before replica).AtLeast timestamp → (after replica).AtLeast timestamp

section

variable {register : Register} {registers before after : Fin n → Register} {call : Call n}
  {timestamp : Nat} {object : RegisterValueObject} {handler : Handler} {winners : List (Fin n)}

theorem Register.answer_ok_iff : register.answer = .ok object ↔ register.read = some object := by
  rw [answer]
  cases register.read with
  | none => simp
  | some other => simp

theorem Register.AtLeast.write (holds : register.AtLeast timestamp) (object : RegisterValueObject) :
    (register.write object).AtLeast timestamp := by
  obtain ⟨old, here, late⟩ := holds
  obtain ⟨next, kept, later⟩ := write_mono here object
  exact ⟨next, kept, late.trans later⟩

theorem Register.write_atLeast (register : Register) (object : RegisterValueObject) :
    (register.write object).AtLeast object.getTimestamp := by
  obtain ⟨next, keeps, _, later, _⟩ :=
    Greatest.keep_spec RegisterValueObject.getTimestamp register.register_ object
  rw [write_eq]
  exact ⟨next, keeps, later⟩

theorem Rises.refl (registers : Fin n → Register) : Rises registers registers := fun _ _ holds => holds

theorem rises_write (registers : Fin n → Register) (replica : Fin n) (object : RegisterValueObject) :
    Rises registers (Function.update registers replica ((registers replica).write object)) := by
  intro other timestamp holds
  by_cases same : other = replica
  · subst other
    rw [Function.update_self]
    exact holds.write object
  · rwa [Function.update_of_ne same]

theorem Call.act_rises (registers : Fin n → Register) (call : Call n) (action : Action n) :
    Rises registers (call.act registers action).1 := by
  cases action with
  | serveWrite replica =>
      rw [act]
      split
      · exact rises_write registers replica _
      · exact .refl registers
  | _ =>
      rw [act]
      split <;> exact .refl registers

/-- Most of the registers have that timestamp or a later one. -/
def Settled (registers : Fin n → Register) (timestamp : Nat) : Prop :=
  Held (majorityQuorum n) fun replica => (registers replica).AtLeast timestamp

theorem Settled.rises (settled : Settled before timestamp) (rises : Rises before after) : Settled after timestamp :=
  settled.mono fun replica => rises replica timestamp

end

/-- What the place of a call says about its requests and about the registers. -/
def Place.Sound (registers : Fin n → Register) (reads : Fin n → Request Unit (Except RequestException RegisterValueObject))
    (writes : Fin n → Request RegisterValueObject (Except RequestException Unit)) : Place n → Prop
  | .idle | .threw _ | .returned none => True
  | .reading winners => winners.Nodup ∧ ∀ replica ∈ winners, ∃ result, reads replica = .completed result
  | .storing object _ winners =>
      winners.Nodup ∧ (∀ replica ∈ winners, ∃ result, writes replica = .completed result) ∧
        (∀ replica body, writes replica = .sent body → body = object) ∧
        ∀ replica result, (writes replica).result = some result → (registers replica).AtLeast object.getTimestamp
  | .wrote object | .returned (some object) => Settled registers object.getTimestamp

/-- No register falls behind its answers. -/
def Call.Answers (registers : Fin n → Register) (call : Call n) : Prop :=
  ∀ replica object, (call.reads replica).result = some (.ok object) → (registers replica).AtLeast object.getTimestamp

structure Call.Sound (registers : Fin n → Register) (call : Call n) : Prop where
  answers : call.Answers registers
  place : call.place.Sound registers call.reads call.writes

section

variable {registers before after : Fin n → Register} {call : Call n} {place : Place n} {replica : Fin n}
  {reads others : Fin n → Request Unit (Except RequestException RegisterValueObject)}
  {writes : Fin n → Request RegisterValueObject (Except RequestException Unit)}
  {result : Except RequestException RegisterValueObject} {object : RegisterValueObject} {winners : List (Fin n)}

theorem Place.Sound.rises (sound : place.Sound before reads writes) (rises : Rises before after) :
    place.Sound after reads writes := by
  cases place with
  | idle => trivial
  | threw thrown => trivial
  | reading winners => exact sound
  | storing object handler winners =>
      obtain ⟨distinct, complete, bodies, executed⟩ := sound
      refine ⟨distinct, complete, bodies, ?_⟩
      intro replica result answered
      exact rises _ _ (executed replica result answered)
  | wrote object => exact Settled.rises sound rises
  | returned outcome =>
      cases outcome with
      | none => trivial
      | some object => exact Settled.rises sound rises

theorem Place.Sound.of_reads (sound : place.Sound registers reads writes)
    (kept : ∀ replica result, reads replica = .completed result → others replica = .completed result) :
    place.Sound registers others writes := by
  cases place with
  | reading winners =>
      obtain ⟨distinct, complete⟩ := sound
      refine ⟨distinct, ?_⟩
      intro replica winner
      obtain ⟨result, done⟩ := complete replica winner
      exact ⟨result, kept replica result done⟩
  | returned outcome => cases outcome <;> exact sound
  | _ => exact sound

theorem Call.Sound.rises (sound : call.Sound before) (rises : Rises before after) : call.Sound after where
  answers replica object answered := rises _ _ (sound.answers replica object answered)
  place := sound.place.rises rises

/-- A request that is not complete can change without harm to the others. -/
theorem Place.Sound.setRead {request : Request Unit (Except RequestException RegisterValueObject)}
    (sound : place.Sound registers call.reads writes)
    (incomplete : ∀ result, call.reads replica ≠ .completed result) :
    place.Sound registers (call.setRead replica request).reads writes := by
  apply sound.of_reads
  intro other result done
  have distinct : other ≠ replica := fun same => incomplete result (same ▸ done)
  show Function.update _ _ _ _ = _
  rwa [Function.update_of_ne distinct]

theorem Call.Sound.store (answers : call.Answers registers) (object : RegisterValueObject) (handler : Handler) :
    (call.store object handler).Sound registers := by
  rcases store_cases call object handler with ⟨_, stores⟩ | ⟨_, thrown, throws⟩
  · rw [stores]
    refine ⟨answers, List.nodup_nil, nofun, ?_, nofun⟩
    intro replica body sent
    cases sent
    rfl
  · rw [throws]
    exact ⟨answers, trivial⟩

/-- Where every replica of a quorum has answered with the same snapshot, it is settled. -/
theorem settled_of_consistent (answers : call.Answers registers) (distinct : winners.Nodup)
    (enough : winners.length = majorityQuorum n)
    (complete : ∀ replica ∈ winners, ∃ result, call.reads replica = .completed result)
    (same : ∀ snapshot ∈ call.gathered winners, snapshot = .ok object) : Settled registers object.getTimestamp := by
  apply Held.of_list distinct enough
  intro replica winner
  obtain ⟨result, done⟩ := complete replica winner
  have answered : (call.reads replica).result = some result := by rw [done, Request.result]
  have snapshot := same _ (Call.mem_gathered winner answered)
  cases result with
  | error _ => cases snapshot
  | ok other =>
      cases snapshot
      exact answers replica object answered

theorem Call.Sound.awaitReads (answers : call.Answers registers) (distinct : winners.Nodup)
    (complete : ∀ replica ∈ winners, ∃ result, call.reads replica = .completed result) :
    (call.awaitReads winners).Sound registers := by
  rcases awaitReads_cases call winners with waits | ⟨thrown, throws⟩ | ⟨enough, finds⟩
  · rw [waits]
    exact ⟨answers, distinct, complete⟩
  · rw [throws]
    exact ⟨answers, trivial⟩
  · rcases finds with ⟨_, returns⟩ | ⟨object, _, _, ⟨same, returns⟩ | stores⟩
    · rw [returns]
      exact ⟨answers, trivial⟩
    · rw [returns]
      exact ⟨answers, settled_of_consistent answers distinct enough complete same⟩
    · rw [stores]
      exact .store answers object .readAndWrite

theorem Call.Sound.awaitWrites {handler : Handler} (answers : call.Answers registers)
    (sound : (Place.storing object handler winners).Sound registers call.reads call.writes) :
    (call.awaitWrites object handler winners).Sound registers := by
  rcases awaitWrites_cases call object handler winners with waits | ⟨thrown, throws⟩ | ⟨enough, ends⟩
  · rw [waits]
    exact ⟨answers, sound⟩
  · rw [throws]
    exact ⟨answers, trivial⟩
  · obtain ⟨distinct, complete, _, executed⟩ := sound
    have settled : Settled registers object.getTimestamp := by
      apply Held.of_list distinct enough
      intro replica winner
      obtain ⟨result, done⟩ := complete replica winner
      exact executed replica result (by rw [done, Request.result])
    rw [ends]
    cases handler with
    | write => exact ⟨answers, settled⟩
    | readAndWrite => exact ⟨answers, settled⟩

theorem Call.Answers.setRead {request : Request Unit (Except RequestException RegisterValueObject)}
    (answers : call.Answers registers)
    (answer : ∀ object, request.result = some (.ok object) → (registers replica).AtLeast object.getTimestamp) :
    (call.setRead replica request).Answers registers := by
  intro other object answered
  by_cases same : other = replica
  · subst other
    simp only [Call.setRead, Function.update_self] at answered
    exact answer object answered
  · simp only [Call.setRead, Function.update_of_ne same] at answered
    exact answers other object answered

/-- The replica has written the object, or its response has arrived. -/
theorem Place.Sound.setWrite {request : Request RegisterValueObject (Except RequestException Unit)}
    (sound : place.Sound registers reads call.writes) (incomplete : ∀ result, call.writes replica ≠ .completed result)
    (executed : ∀ body, request ≠ .sent body)
    (written : ∀ object handler winners, place = .storing object handler winners →
      (registers replica).AtLeast object.getTimestamp) :
    place.Sound registers reads (call.setWrite replica request).writes := by
  cases place with
  | storing object handler winners =>
      obtain ⟨distinct, complete, bodies, done⟩ := sound
      refine ⟨distinct, ?_, ?_, ?_⟩
      · intro other winner
        obtain ⟨result, completed⟩ := complete other winner
        have apart : other ≠ replica := fun same => incomplete result (same ▸ completed)
        refine ⟨result, ?_⟩
        rw [← completed]
        exact Function.update_of_ne apart ..
      · intro other body sent
        by_cases same : other = replica
        · subst other
          simp only [Call.setWrite, Function.update_self] at sent
          exact absurd sent (executed body)
        · simp only [Call.setWrite, Function.update_of_ne same] at sent
          exact bodies other body sent
      · intro other result answered
        by_cases same : other = replica
        · subst other
          exact written object handler winners rfl
        · simp only [Call.setWrite, Function.update_of_ne same] at answered
          exact done other result answered
  | returned outcome => cases outcome <;> exact sound
  | _ => exact sound

theorem complete_of_setRead (complete : ∀ other ∈ winners, ∃ result, call.reads other = .completed result) :
    ∀ other ∈ winners ++ [replica], ∃ done, (call.setRead replica (.completed result)).reads other = .completed done := by
  intro other winner
  by_cases same : other = replica
  · subst other
    exact ⟨result, Function.update_self ..⟩
  · rcases List.mem_append.mp winner with before | last
    · obtain ⟨done, completed⟩ := complete other before
      refine ⟨done, ?_⟩
      rw [← completed]
      exact Function.update_of_ne same ..
    · exact absurd (List.mem_singleton.mp last) same

theorem nodup_append_singleton (distinct : winners.Nodup) (fresh : replica ∉ winners) :
    (winners ++ [replica]).Nodup :=
  List.nodup_append.mpr ⟨distinct, List.nodup_singleton _, fun _ inside _ last same =>
    fresh (List.mem_singleton.mp last ▸ same ▸ inside)⟩

theorem Call.act_sound (sound : call.Sound registers) (action : Action n) :
    (call.act registers action).2.Sound (call.act registers action).1 := by
  have rises := call.act_rises registers action
  have risen := sound.rises rises
  cases action with
  | write object =>
      rw [act]
      split
      · exact .store sound.answers object .write
      · exact sound
  | read =>
      rw [act]
      split
      · exact .awaitReads nofun List.nodup_nil nofun
      · exact sound
  | serveRead replica =>
      rw [act]
      split
      next sent =>
          refine ⟨sound.answers.setRead ?_, sound.place.setRead (by rw [sent]; nofun)⟩
          intro object answered
          exact ⟨object, Register.answer_ok_iff.mp (Option.some.inj answered), le_rfl⟩
      next => exact sound
  | serveWrite replica =>
      rw [act] at risen ⊢
      split at risen
      next object sent =>
          refine ⟨risen.answers, risen.place.setWrite (by rw [sent]; nofun) nofun ?_⟩
          intro stored handler winners storing
          have place := sound.place
          rw [storing] at place
          have executed := (registers replica).write_atLeast object
          rw [← place.2.2.1 replica object sent]
          simpa only [Function.update_self] using executed
      next => exact sound
  | receiveRead replica =>
      rw [act]
      split
      next result winners answered reading =>
          have place := sound.place
          rw [reading] at place
          obtain ⟨distinct, complete⟩ := place
          have incomplete : ∀ result, call.reads replica ≠ .completed result := by rw [answered]; nofun
          refine .awaitReads (sound.answers.setRead ?_) (nodup_append_singleton distinct ?_)
            (complete_of_setRead complete)
          · intro object same
            exact sound.answers replica object (by rw [answered]; exact same)
          · intro inside
            obtain ⟨done, completed⟩ := complete replica inside
            exact incomplete done completed
      next result _ answered _ =>
          refine ⟨sound.answers.setRead ?_, sound.place.setRead (by rw [answered]; nofun)⟩
          intro object same
          exact sound.answers replica object (by rw [answered]; exact same)
      next => exact sound
  | receiveWrite replica =>
      rw [act]
      split
      next result object handler winners answered storing =>
          have place := sound.place
          rw [storing] at place
          have executed := place.2.2.2 replica result (by rw [answered, Request.result])
          have incomplete : ∀ result, call.writes replica ≠ .completed result := by rw [answered]; nofun
          obtain ⟨distinct, complete, bodies, done⟩ : (Place.storing object handler winners).Sound registers
              call.reads (call.setWrite replica (.completed result)).writes := by
            apply place.setWrite incomplete
            · nofun
            · rintro _ _ _ ⟨⟩
              exact executed
          refine .awaitWrites sound.answers ⟨nodup_append_singleton distinct ?_, ?_, bodies, done⟩
          · intro inside
            obtain ⟨other, completed⟩ := place.2.1 replica inside
            exact incomplete other completed
          · intro other winner
            rcases List.mem_append.mp winner with before | last
            · exact complete other before
            · rw [List.mem_singleton.mp last]
              exact ⟨result, Function.update_self ..⟩
      next result _ answered notStoring =>
          refine ⟨sound.answers, ?_⟩
          apply sound.place.setWrite (by rw [answered]; nofun)
          · nofun
          · intro object handler winners storing
            exact absurd storing (notStoring object handler winners)
      next => exact sound

end

end Dsac.Replication
