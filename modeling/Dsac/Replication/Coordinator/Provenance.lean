import Dsac.Replication.Coordinator.Settled

namespace Dsac.Replication

open Dsac.Library

/-! Where the objects come from that a call reads. -/

variable {n : Nat}

/-- The object that the call was made to write. -/
def Place.written : Place n → Option RegisterValueObject
  | .storing object .write _ | .wrote object => some object
  | .storing _ .readAndWrite _ | .idle | .reading _ | .returned _ | .threw _ => none

/-- The object that the call stores, has stored or returns. -/
def Place.object : Place n → Option RegisterValueObject
  | .storing object _ _ | .wrote object => some object
  | .returned outcome => outcome
  | .idle | .reading _ | .threw _ => none

/-- Every object that the call has met is one of these, and none of its requests to write has
failed. -/
structure Call.Known (known : RegisterValueObject → Prop) (call : Call n) : Prop where
  answers : ∀ replica object, (call.reads replica).result = some (.ok object) → known object
  bodies : ∀ replica object, call.writes replica = .sent object → known object
  fine : ∀ replica result, (call.writes replica).result = some result → result = .ok ()
  place : ∀ object, call.place.object = some object → known object

section

variable {registers : Fin n → Register} {call : Call n} {place : Place n} {replica : Fin n}
  {winners : List (Fin n)} {object : RegisterValueObject} {handler : Handler}
  {known wider : RegisterValueObject → Prop}

theorem Call.Known.mono (sound : call.Known known) (wide : ∀ object, known object → wider object) :
    call.Known wider where
  answers replica object answered := wide object (sound.answers replica object answered)
  bodies replica object sent := wide object (sound.bodies replica object sent)
  fine := sound.fine
  place object here := wide object (sound.place object here)

theorem Handler.finished_object (handler : Handler) (object : RegisterValueObject) :
    (handler.finished object : Place n).object = some object := by cases handler <;> rfl

theorem Call.Known.goto (sound : call.Known known) (object : ∀ object, place.object = some object → known object) :
    { call with place }.Known known := ⟨sound.answers, sound.bodies, sound.fine, object⟩

theorem Call.Known.setRead {request : Request Unit (Except RequestException RegisterValueObject)}
    (sound : call.Known known) (answer : ∀ object, request.result = some (.ok object) → known object) :
    (call.setRead replica request).Known known := by
  refine ⟨?_, sound.bodies, sound.fine, sound.place⟩
  intro other object answered
  by_cases same : other = replica
  · subst other
    simp only [Call.setRead, Function.update_self] at answered
    exact answer object answered
  · simp only [Call.setRead, Function.update_of_ne same] at answered
    exact sound.answers other object answered

theorem Call.Known.setWrite {request : Request RegisterValueObject (Except RequestException Unit)}
    (sound : call.Known known) (executed : ∀ body, request ≠ .sent body)
    (fine : ∀ result, request.result = some result → result = .ok ()) :
    (call.setWrite replica request).Known known := by
  refine ⟨sound.answers, ?_, ?_, sound.place⟩
  · intro other object sent
    by_cases same : other = replica
    · subst other
      simp only [Call.setWrite, Function.update_self] at sent
      exact absurd sent (executed object)
    · simp only [Call.setWrite, Function.update_of_ne same] at sent
      exact sound.bodies other object sent
  · intro other result answered
    by_cases same : other = replica
    · subst other
      simp only [Call.setWrite, Function.update_self] at answered
      exact fine result answered
    · simp only [Call.setWrite, Function.update_of_ne same] at answered
      exact sound.fine other result answered

theorem Call.Known.store (sound : call.Known known) (handler : Handler)
    (new : majorityQuorum n ≤ n → known object) : (call.store object handler).Known known := by
  rcases store_cases call object handler with ⟨many, stores⟩ | ⟨few, thrown, throws⟩
  · rw [stores]
    refine ⟨sound.answers, ?_, nofun, ?_⟩
    · rintro _ _ ⟨⟩
      exact new many
    · rintro _ ⟨⟩
      exact new many
  · rw [throws]
    refine ⟨sound.answers, ?_, nofun, nofun⟩
    intro replica
    exact absurd (majorityQuorum_le replica) (not_le.mpr few)

theorem Call.Known.awaitWrites (sound : call.Known known) (new : known object) :
    (call.awaitWrites object handler winners).Known known := by
  rcases awaitWrites_cases call object handler winners with waits | ⟨thrown, throws⟩ | ⟨_, ends⟩
  · rw [waits]
    exact sound.goto (by rintro _ ⟨⟩; exact new)
  · rw [throws]
    exact sound.goto nofun
  · rw [ends]
    apply sound.goto
    intro other here
    rw [handler.finished_object] at here
    cases here
    exact new

theorem Call.Known.awaitReads (sound : call.Known known) : (call.awaitReads winners).Known known := by
  rcases awaitReads_cases call winners with waits | ⟨thrown, throws⟩ | ⟨_, finds⟩
  · rw [waits]
    exact sound.goto nofun
  · rw [throws]
    exact sound.goto nofun
  · rcases finds with ⟨_, returns⟩ | ⟨object, _, member, done⟩
    · rw [returns]
      exact sound.goto nofun
    · obtain ⟨replica, _, answered⟩ := mem_valid_gathered.mp member
      have new := sound.answers replica object answered
      rcases done with ⟨_, returns⟩ | stores
      · rw [returns]
        exact sound.goto (by rintro _ ⟨⟩; exact new)
      · rw [stores]
        exact sound.store .readAndWrite fun _ => new

/-- Whatever the action brings to the call or to the registers was known before, or the call
is a new write. -/
theorem Call.act_known (sound : call.Known known) (holds : ∀ replica object, (registers replica).read = some object → known object)
    (action : Action n)
    (new : ∀ object, (call.act registers action).2.place.written = some object → known object) :
    (call.act registers action).2.Known known ∧
      ∀ replica object, ((call.act registers action).1 replica).read = some object → known object := by
  cases action with
  | write object =>
      rw [act] at new ⊢
      split at new
      next idle =>
          refine ⟨sound.store .write fun many => new object ?_, holds⟩
          rcases store_cases call object .write with ⟨_, stores⟩ | ⟨few, _⟩
          · rw [stores]
            rfl
          · exact absurd many (not_le.mpr few)
      next => exact ⟨sound, holds⟩
  | read =>
      rw [act]
      split
      · exact ⟨.awaitReads ⟨by rintro _ _ ⟨⟩, sound.bodies, sound.fine, sound.place⟩, holds⟩
      · exact ⟨sound, holds⟩
  | serveRead replica =>
      rw [act]
      split
      · refine ⟨sound.setRead ?_, holds⟩
        intro object answered
        exact holds replica object (Register.answer_ok_iff.mp (Option.some.inj answered))
      · exact ⟨sound, holds⟩
  | serveWrite replica =>
      rw [act]
      split
      next object sent =>
          refine ⟨sound.setWrite (by rintro _ ⟨⟩) (by rintro _ ⟨⟩; rfl), ?_⟩
          intro other stored here
          by_cases same : other = replica
          · subst other
            simp only [Function.update_self, Register.write_eq] at here
            obtain ⟨next, keeps, source, _⟩ :=
              Greatest.keep_spec RegisterValueObject.getTimestamp (registers replica).register_ object
            cases keeps.symm.trans here
            rcases source with rfl | old
            · exact sound.bodies replica stored sent
            · exact holds replica stored old
          · simp only [Function.update_of_ne same] at here
            exact holds other stored here
      next => exact ⟨sound, holds⟩
  | receiveRead replica =>
      rw [act]
      split
      next result winners answered _ =>
          refine ⟨.awaitReads (sound.setRead ?_), holds⟩
          intro object same
          exact sound.answers replica object (by rw [answered]; exact same)
      next result _ answered _ =>
          refine ⟨sound.setRead ?_, holds⟩
          intro object same
          exact sound.answers replica object (by rw [answered]; exact same)
      next => exact ⟨sound, holds⟩
  | receiveWrite replica =>
      rw [act]
      split
      next result object handler winners answered storing =>
          refine ⟨.awaitWrites (sound.setWrite (by rintro _ ⟨⟩) ?_) (sound.place object (by rw [storing]; rfl)), holds⟩
          intro other same
          exact sound.fine replica other (by rw [answered]; exact same)
      next result _ answered _ =>
          refine ⟨sound.setWrite (by rintro _ ⟨⟩) ?_, holds⟩
          intro other same
          exact sound.fine replica other (by rw [answered]; exact same)
      next => exact ⟨sound, holds⟩

/-- A write goes on as the write of its object. -/
theorem Call.act_written (sound : call.Known known) (written : call.place.written = some object) (action : Action n) :
    (call.act registers action).2.place.written = some object := by
  cases action with
  | receiveRead replica =>
      rw [act]
      split
      next reading =>
          rw [reading] at written
          cases written
      · exact written
      · exact written
  | receiveWrite replica =>
      rw [act]
      split
      next result other handler winners answered storing =>
          rw [storing] at written
          cases handler with
          | readAndWrite => cases written
          | write =>
              cases written
              have received : (call.setWrite replica (.completed result)).Known known := by
                refine sound.setWrite (by rintro _ ⟨⟩) ?_
                intro other same
                exact sound.fine replica other (by rw [answered]; exact same)
              rcases awaitWrites_fine _ object .write (winners ++ [replica]) replica received.fine with waits | ends
              · rw [waits]
                rfl
              · rw [ends]
                rfl
      · exact written
      · exact written
  | write other =>
      rw [act]
      split
      next idle =>
          rw [idle] at written
          cases written
      next => exact written
  | read =>
      rw [act]
      split
      next idle =>
          rw [idle] at written
          cases written
      next => exact written
  | serveRead replica =>
      rw [act]
      split <;> exact written
  | serveWrite replica =>
      rw [act]
      split <;> exact written

end

end Dsac.Replication
