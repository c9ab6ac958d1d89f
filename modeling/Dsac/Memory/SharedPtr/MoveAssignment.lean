import Dsac.Memory.SharedPtr.Actions

namespace Dsac.SharedPtr

open Dsac.Library

/-! The steps of one thread, where an object that is destroyed destroys the handles stored in
it, and what the move assignment does then. -/

variable {ν : Type} [DecidableEq ν]

/-- The destructors that a step calls: those of the handles stored in the object. -/
def nested (members : Nat → List ν) (store : Store ν) : Action ν → List (Action ν)
  | .deleteObject this =>
      match store.handles this with
      | some ⟨.uncounted, ⟨_, _, some name⟩⟩ => (members name).flatMap Call.destructor
      | _ => []
  | _ => []

def execute (members : Nat → List ν) : Nat → Store ν → List (Action ν) → Outcome (Store ν)
  | _, store, [] => .ok store
  | 0, _, _ :: _ => .error .fuel
  | fuel + 1, store, action :: rest =>
      match store.perform action with
      | .error reason => .error reason
      | .ok next => execute members fuel next (nested members store action ++ rest)

variable {members : Nat → List ν} {store mid next : Store ν} {actions more : List (Action ν)} {action : Action ν}

theorem execute_mono {fuel : Nat} (done : execute members fuel store actions = .ok next) (extra : Nat) :
    execute members (fuel + extra) store actions = .ok next := by
  induction fuel generalizing store actions with
  | zero =>
      cases actions with
      | nil =>
          cases done
          rw [execute]
      | cons action rest => cases done
  | succ fuel ih =>
      cases actions with
      | nil =>
          cases done
          rw [execute]
      | cons action rest =>
          rw [Nat.succ_add]
          rw [execute] at done ⊢
          cases performed : store.perform action with
          | error reason =>
              rw [performed] at done
              cases done
          | ok next =>
              rw [performed] at done
              exact ih done

/-- The steps lead from one store to the other, whatever follows them. -/
def Leads (members : Nat → List ν) (store : Store ν) (actions : List (Action ν)) (next : Store ν) : Prop :=
  ∃ fuel, ∀ rest extra, execute members (fuel + extra) store (actions ++ rest) = execute members extra next rest

theorem Leads.nil (members : Nat → List ν) (store : Store ν) : Leads members store [] store :=
  ⟨0, fun rest extra => by rw [Nat.zero_add, List.nil_append]⟩

theorem Leads.append (first : Leads members store actions mid) (second : Leads members mid more next) :
    Leads members store (actions ++ more) next := by
  obtain ⟨one, first⟩ := first
  obtain ⟨two, second⟩ := second
  refine ⟨one + two, ?_⟩
  intro rest extra
  rw [List.append_assoc, Nat.add_assoc, first, second]

theorem Leads.cons (action : Action ν) (performed : store.perform action = .ok mid)
    (later : Leads members mid (nested members store action ++ actions) next) :
    Leads members store (action :: actions) next := by
  obtain ⟨fuel, later⟩ := later
  refine ⟨fuel + 1, ?_⟩
  intro rest extra
  rw [Nat.add_right_comm, List.cons_append, execute, performed]
  have same := later rest extra
  rwa [List.append_assoc] at same

/-- A step that destroys no object. -/
theorem Leads.step (action : Action ν) (performed : store.perform action = .ok mid)
    (alone : nested members store action = []) (later : Leads members mid actions next) :
    Leads members store (action :: actions) next := by
  apply Leads.cons action performed
  rwa [alone]

/-! What is destroyed with a handle. -/

/-- The handles that fall with some others: those in objects all of whose handles fall. -/
inductive Falls (members : Nat → List ν) (store : Store ν) (roots : List ν) : ν → Prop where
  | root {this : ν} (listed : this ∈ roots) : Falls members store roots this
  | member {name : Nat} {this : ν} (alive : store.objects name = .alive)
      (owners : ∀ owner, Refers name (store.handles owner) → Falls members store roots owner)
      (inside : this ∈ members name) : Falls members store roots this

/-- The handle points to the start of its object. -/
def Direct (cell : Option Handle) : Prop :=
  ∀ handle, cell = some handle → handle.fields = {} ∨ ∃ name, handle.fields = owning name 0

/-- Every handle stored in an object exists, and is stored in no other object. -/
structure Stored [Fintype ν] (members : Nat → List ν) (store : Store ν) : Prop where
  sound : store.Sound
  distinct : ∀ name, store.objects name = .alive → (members name).Nodup
  inside : ∀ name, store.objects name = .alive → ∀ this ∈ members name,
    ∃ fields, store.handles this = some ⟨.alive, fields⟩
  apart : ∀ name other, store.objects name = .alive → store.objects other = .alive →
    ∀ this ∈ members name, this ∈ members other → name = other

/-- Handles that are to be destroyed, and stored in no object that lives. What falls with them
points to the starts of its objects. -/
structure Waiting (members : Nat → List ν) (store : Store ν) (pending : List ν) : Prop where
  distinct : pending.Nodup
  alive : ∀ this ∈ pending, ∃ fields, store.handles this = some ⟨.alive, fields⟩
  outside : ∀ this ∈ pending, ∀ name, store.objects name = .alive → this ∉ members name
  direct : ∀ this, Falls members store pending this → Direct (store.handles this)

/-- The handles are destroyed, with those that fall with them. -/
structure Destroys [Fintype ν] (members : Nat → List ν) (store : Store ν) (pending : List ν) (next : Store ν) :
    Prop where
  stored : Stored members next
  handles : ∀ this, next.handles this = store.handles this ∨
    next.handles this = none ∧ Falls members store pending this
  gone : ∀ this ∈ pending, next.handles this = none
  objects : ∀ name, next.objects name = store.objects name ∨
    store.objects name = .alive ∧ next.objects name = .destroyed ∧ ∀ this ∈ members name, next.handles this = none

section

variable {roots others : List ν} {this : ν} {name : Nat}

omit [DecidableEq ν] in
theorem Falls.mono (falls : Falls members store roots this) (subset : roots ⊆ others) :
    Falls members store others this := by
  induction falls with
  | root listed => exact .root (subset listed)
  | member alive _ inside ih => exact .member alive ih inside

omit [DecidableEq ν] in
/-- What falls later falls at once with what has fallen before. -/
theorem Falls.transfer (falls : Falls members mid roots this) (subset : ∀ root ∈ roots, Falls members store others root)
    (objects : ∀ name, mid.objects name = .alive → store.objects name = .alive)
    (handles : ∀ owner name, mid.objects name = .alive → Refers name (store.handles owner) →
      mid.handles owner = store.handles owner ∨ Falls members store others owner) :
    Falls members store others this := by
  induction falls with
  | root listed => exact subset _ listed
  | @member name _ alive _ inside ih =>
      refine .member (objects name alive) ?_ inside
      intro owner refers
      rcases handles owner name alive refers with same | fallen
      · exact ih owner (same ▸ refers)
      · exact fallen

variable [Fintype ν]

omit [DecidableEq ν] in
/-- Everything that falls is gone. -/
theorem Destroys.gone_of_falls (destroys : Destroys members store roots next) (falls : Falls members store roots this) :
    next.handles this = none := by
  induction falls with
  | root listed => exact destroys.gone _ listed
  | @member name this alive _ inside ih =>
      rcases destroys.objects name with same | ⟨_, _, gone⟩
      · have nobody : ∀ owner, ¬ Refers name (next.handles owner) := by
          intro owner refers
          rcases destroys.handles owner with kept | ⟨gone, _⟩
          · have absent := ih owner (kept ▸ refers)
            rw [absent] at refers
            exact not_refers_none refers
          · rw [gone] at refers
            exact not_refers_none refers
        have living : next.objects name = .alive := same.trans alive
        cases destroys.stored.sound.phase name with
        | unborn _ _ unborn => cases unborn.symm.trans living
        | shared _ positive =>
            rw [Store.total_eq_zero nobody] at positive
            cases positive
        | last _ here progress =>
            exact absurd ⟨_, here, rfl, progress.not_done.2.2⟩ (nobody _)
        | gone _ _ destroyed => cases destroyed.symm.trans living
      · exact gone this inside

omit [DecidableEq ν] in
theorem Destroys.nil (stored : Stored members store) : Destroys members store [] store where
  stored := stored
  handles _ := .inl rfl
  gone _ := nofun
  objects _ := .inl rfl

omit [DecidableEq ν] in
theorem Destroys.alive_of (destroys : Destroys members store roots next) (alive : next.objects name = .alive) :
    store.objects name = .alive := by
  rcases destroys.objects name with same | ⟨was, _⟩
  · exact same ▸ alive
  · exact was

omit [DecidableEq ν] in
/-- What falls with the rest after one handle has been destroyed falls with all of them. -/
theorem Destroys.falls (first : Destroys members store [this] mid) {other : ν} (falls : Falls members mid roots other) :
    Falls members store (this :: roots) other := by
  apply falls.transfer
  · intro root listed
    exact .root (List.mem_cons_of_mem _ listed)
  · intro name alive
    exact first.alive_of alive
  · intro owner name _ _
    rcases first.handles owner with before | ⟨_, falls⟩
    · exact .inl before
    · exact .inr (falls.mono (by simp))

omit [DecidableEq ν] in
/-- One handle is destroyed, and then the rest. -/
theorem Destroys.cons (first : Destroys members store [this] mid) (second : Destroys members mid roots next) :
    Destroys members store (this :: roots) next := by
  have later : ∀ other, mid.handles other = none → next.handles other = none := by
    intro other absent
    rcases second.handles other with same | ⟨gone, _⟩
    · exact same.trans absent
    · exact gone
  refine ⟨second.stored, ?_, ?_, ?_⟩
  · intro other
    rcases second.handles other with same | ⟨gone, falls⟩
    · rcases first.handles other with before | ⟨gone, falls⟩
      · exact .inl (same.trans before)
      · exact .inr ⟨same.trans gone, falls.mono (by simp)⟩
    · exact .inr ⟨gone, first.falls falls⟩
  · intro other listed
    rcases List.mem_cons.mp listed with rfl | inRest
    · exact later other (first.gone other (by simp))
    · exact second.gone other inRest
  · intro name
    rcases second.objects name with same | ⟨alive, destroyed, gone⟩
    · rcases first.objects name with before | ⟨alive, destroyed, gone⟩
      · exact .inl (same.trans before)
      · exact .inr ⟨alive, same.trans destroyed, fun member inside => later member (gone member inside)⟩
    · rcases first.objects name with before | ⟨wasAlive, _⟩
      · exact .inr ⟨before ▸ alive, destroyed, gone⟩
      · exact .inr ⟨wasAlive, destroyed, gone⟩

end

/-! The destructor. -/

section

variable [Fintype ν] {this : ν} {name : Nat} {pending : List ν} {fields : Fields}

omit [DecidableEq ν] in
/-- A step that changes one handle, and brings no object to life. -/
theorem Stored.change (stored : Stored members store) (sound : next.Sound)
    (handles : ∀ other ≠ this, next.handles other = store.handles other)
    (objects : ∀ name, next.objects name = .alive → store.objects name = .alive)
    (outside : ∀ name, next.objects name = .alive → this ∉ members name) : Stored members next where
  sound := sound
  distinct name alive := stored.distinct name (objects name alive)
  inside name alive other listed := by
    have apart : other ≠ this := by
      rintro rfl
      exact outside name alive listed
    rw [handles other apart]
    exact stored.inside name (objects name alive) other listed
  apart name other alive living := stored.apart name other (objects name alive) (objects other living)

omit [Fintype ν] in
/-- The rest of the destructor of a handle that destroys no object. -/
theorem leads_done (here : store.handles this = some ⟨.done, fields⟩) :
    Leads members store [.deleteCount this, .deleteObject this, .deleteDeleter this, .leave this]
      (store.put this none) := by
  obtain ⟨count, object, deleter⟩ := Store.destroy_done here
  have alone : nested members store (.deleteObject this) = [] := by
    simp only [nested, here]
  apply Leads.step (.deleteCount this) count rfl
  apply Leads.step (.deleteObject this) object alone
  apply Leads.step (.deleteDeleter this) deleter rfl
  exact Leads.step (.leave this) rfl rfl (Leads.nil members _)

omit [DecidableEq ν] in
/-- A handle that leaves a store where nothing else changes. -/
theorem Destroys.released (stored : Stored members store) (sound : next.Sound)
    (outside : ∀ name, store.objects name = .alive → this ∉ members name) (absent : next.handles this = none)
    (handles : ∀ other ≠ this, next.handles other = store.handles other) (objects : next.objects = store.objects) :
    Destroys members store [this] next where
  stored := by
    apply stored.change sound handles
    · intro name alive
      rwa [← objects]
    · intro name alive
      apply outside
      rwa [← objects]
  handles other := by
    by_cases isThis : other = this
    · subst isThis
      exact .inr ⟨absent, .root (by simp)⟩
    · exact .inl (handles other isThis)
  gone other listed := by
    rw [List.mem_singleton.mp listed]
    exact absent
  objects name := .inl (by rw [objects])

/-- The number of handles that no destructor has reached. -/
def living (store : Store ν) : Nat := (Finset.univ.filter fun this => store.Alive this).card

omit [DecidableEq ν] in
theorem living_le (alive : ∀ this, next.Alive this → store.Alive this) : living next ≤ living store := by
  apply Finset.card_le_card
  intro this
  simp only [Finset.mem_filter, Finset.mem_univ, true_and]
  exact alive this

omit [DecidableEq ν] in
theorem living_lt (alive : ∀ this, next.Alive this → store.Alive this) (was : store.Alive this)
    (left : ¬ next.Alive this) : living next < living store := by
  apply Finset.card_lt_card
  rw [Finset.ssubset_iff_of_subset]
  · exact ⟨this, by simpa using was, by simpa using left⟩
  · intro this
    simp only [Finset.mem_filter, Finset.mem_univ, true_and]
    exact alive this

omit [DecidableEq ν] [Fintype ν] in
theorem Falls.not_of_outside {roots : List ν}
    (outside : ∀ name, store.objects name = .alive → this ∉ members name) (unlisted : this ∉ roots) :
    ¬ Falls members store roots this := by
  intro falls
  cases falls with
  | root listed => exact unlisted listed
  | member alive _ inside => exact outside _ alive inside

/-- The store with the object of a name destroyed, while its last handle waits for that. -/
structure Opened (store : Store ν) (this : ν) (name : Nat) (next : Store ν) : Prop where
  alive : store.objects name = .alive
  owners : ∀ owner, Refers name (store.handles owner) → owner = this
  handles : ∀ other ≠ this, next.handles other = store.handles other
  here : next.handles this = some ⟨.deleting, owning name 0⟩
  objects : next.objects = Function.update store.objects name .destroyed

namespace Opened

omit [DecidableEq ν] [Fintype ν] in
theorem alive_of (opened : Opened store this name next) {other : Nat} (alive : next.objects other = .alive) :
    other ≠ name ∧ store.objects other = .alive := by
  rw [opened.objects, Function.update_apply] at alive
  split at alive
  · cases alive
  next apart => exact ⟨apart, alive⟩

omit [DecidableEq ν] [Fintype ν] in
/-- What falls with the handles in the object falls with its last handle. -/
theorem falls (opened : Opened store this name next) {other : ν}
    (falls : Falls members next (members name) other) : Falls members store [this] other := by
  apply falls.transfer
  · intro root listed
    refine .member opened.alive ?_ listed
    intro owner refers
    rw [opened.owners owner refers]
    exact .root (by simp)
  · intro other alive
    exact (opened.alive_of alive).2
  · intro owner _ _ _
    by_cases isThis : owner = this
    · rw [isThis]
      exact .inr (.root (by simp))
    · exact .inl (opened.handles owner isThis)

omit [DecidableEq ν] in
theorem waiting (opened : Opened store this name next) (stored : Stored members store)
    (waiting : Waiting members store [this]) : Waiting members next (members name) := by
  have outside : ∀ name, store.objects name = .alive → this ∉ members name := waiting.outside this (by simp)
  have apart : ∀ other ∈ members name, other ≠ this := by
    rintro other listed rfl
    exact outside name opened.alive listed
  refine ⟨stored.distinct name opened.alive, ?_, ?_, ?_⟩
  · intro other listed
    rw [opened.handles other (apart other listed)]
    exact stored.inside name opened.alive other listed
  · intro other listed elsewhere alive inside
    obtain ⟨different, living⟩ := opened.alive_of alive
    exact different (stored.apart elsewhere name living opened.alive other inside listed)
  · intro other falls
    have isOther : other ≠ this := by
      rintro rfl
      apply Falls.not_of_outside ?_ ?_ falls
      · intro elsewhere alive
        exact outside elsewhere (opened.alive_of alive).2
      · exact outside name opened.alive
    rw [opened.handles other isOther]
    exact waiting.direct other (opened.falls falls)

omit [DecidableEq ν] in
/-- The handles in the object are destroyed, and the last handle leaves. -/
theorem destroys (opened : Opened store this name mid) (inner : Destroys members mid (members name) next)
    {final : Store ν} (sound : final.Sound)
    (outside : ∀ name, store.objects name = .alive → this ∉ members name) (absent : final.handles this = none)
    (handles : ∀ other ≠ this, final.handles other = next.handles other) (objects : final.objects = next.objects) :
    Destroys members store [this] final := by
  have gone : ∀ other, next.handles other = none → final.handles other = none := by
    intro other isGone
    by_cases isThis : other = this
    · rw [isThis, absent]
    · rw [handles other isThis, isGone]
  have alive : ∀ other, next.objects other = .alive → store.objects other = .alive := by
    intro other living
    rcases inner.objects other with same | ⟨_, destroyed, _⟩
    · exact (opened.alive_of (same.symm.trans living)).2
    · cases living.symm.trans destroyed
  refine ⟨?_, ?_, ?_, ?_⟩
  · apply inner.stored.change sound handles
    · intro other living
      rwa [← objects]
    · intro other living
      rw [objects] at living
      exact outside other (alive other living)
  · intro other
    by_cases isThis : other = this
    · subst isThis
      exact .inr ⟨absent, .root (by simp)⟩
    · rw [handles other isThis]
      rcases inner.handles other with same | ⟨isGone, falls⟩
      · exact .inl (same.trans (opened.handles other isThis))
      · exact .inr ⟨isGone, opened.falls falls⟩
  · intro other listed
    rw [List.mem_singleton.mp listed]
    exact absent
  · intro other
    rw [objects]
    by_cases isName : other = name
    · subst isName
      have destroyed : mid.objects other = .destroyed := by rw [opened.objects, Function.update_self]
      rcases inner.objects other with same | ⟨living, _⟩
      · refine .inr ⟨opened.alive, same.trans destroyed, ?_⟩
        intro member inside
        exact gone member (inner.gone member inside)
      · cases living.symm.trans destroyed
    · have before : mid.objects other = store.objects other := by rw [opened.objects, Function.update_of_ne isName]
      rcases inner.objects other with same | ⟨living, destroyed, all⟩
      · exact .inl (same.trans before)
      · exact .inr ⟨before ▸ living, destroyed, fun member inside => gone member (all member inside)⟩

end Opened

/-- The destructor of every smaller set of handles ends. -/
def Deeper (members : Nat → List ν) (store : Store ν) : Prop :=
  ∀ (inner : Store ν) (pending : List ν), living inner < living store → Stored members inner →
    Waiting members inner pending →
      ∃ next, Leads members inner (pending.flatMap Call.destructor) next ∧ Destroys members inner pending next

/-- The rest of the destructor of the last handle of an object. -/
theorem destroys_last (stored : Stored members store) (waiting : Waiting members store [this])
    (alive : store.Alive this) (deeper : Deeper members store) (sound : mid.Sound)
    (here : mid.handles this = some ⟨.zero, fields⟩) (handles : ∀ other ≠ this, mid.handles other = store.handles other)
    (owned : ∀ handle, store.handles this = some handle → handle.fields = fields)
    (objects : mid.objects = store.objects) :
    ∃ next, Leads members mid
        [.deleteCount this, .deleteObject this, .deleteDeleter this, .leave this] next ∧
      Destroys members store [this] next := by
  have outside : ∀ name, store.objects name = .alive → this ∉ members name := waiting.outside this (by simp)
  obtain ⟨name, owns, _, _, others⟩ := sound.last_of_stage here (.inl rfl)
  replace owns : fields = owning name 0 := owns
  subst owns
  obtain ⟨third, counted, thirdSound, thirdObjects, thirdHandles⟩ := sound.deleteCount here
  have third_here : third.handles this = some ⟨.uncounted, owning name 0⟩ := by
    rw [thirdHandles, Function.update_self]
  obtain ⟨name', fourth, owns', deleted, fourthSound, living', fourthObjects, fourthHandles⟩ :=
    thirdSound.deleteObject third_here
  have same : name = name' := by simpa [owning] using owns'
  subst same
  have opened : Opened store this name fourth := by
    refine ⟨?_, ?_, ?_, ?_, ?_⟩
    · rw [← objects, ← thirdObjects]
      exact living'
    · intro owner refers
      by_contra apart
      apply others owner apart
      rwa [handles owner apart]
    · intro other apart
      rw [fourthHandles, Function.update_of_ne apart, thirdHandles, Function.update_of_ne apart, handles other apart]
    · rw [fourthHandles, Function.update_self]
    · rw [fourthObjects, thirdObjects, objects]
  have fewer : living fourth < living store := by
    apply living_lt ?_ alive
    · intro isAlive
      rw [Store.Alive, opened.here] at isAlive
      cases isAlive
    · intro other isAlive
      by_cases isThis : other = this
      · exact isThis ▸ alive
      · rwa [Store.Alive, opened.handles other isThis] at isAlive
  have fourthStored : Stored members fourth := by
    apply stored.change fourthSound opened.handles
    · intro other isAlive
      exact (opened.alive_of isAlive).2
    · intro other isAlive
      exact outside other (opened.alive_of isAlive).2
  obtain ⟨fifth, leads, destroys⟩ := deeper fourth (members name) fewer fourthStored (opened.waiting stored waiting)
  have fifth_here : fifth.handles this = some ⟨.deleting, owning name 0⟩ := by
    rcases destroys.handles this with kept | ⟨_, falls⟩
    · exact kept.trans opened.here
    · apply absurd falls
      apply Falls.not_of_outside
      · intro other isAlive
        exact outside other (opened.alive_of isAlive).2
      · exact outside name opened.alive
  obtain ⟨sixth, freed, sixthSound, sixthObjects, sixthHandles⟩ := destroys.stored.sound.deleteDeleter fifth_here
  have sixth_here : sixth.handles this = some ⟨.done, owning name 0⟩ := by
    rw [sixthHandles, Function.update_self]
  refine ⟨sixth.put this none, ?_, ?_⟩
  · have inner : nested members third (.deleteObject this) = (members name).flatMap Call.destructor := by
      simp only [nested, third_here, owning]
    apply Leads.step (.deleteCount this) counted rfl
    apply Leads.cons (.deleteObject this) deleted
    rw [inner]
    apply leads.append
    apply Leads.step (.deleteDeleter this) freed rfl
    exact Leads.step (.leave this) rfl rfl (Leads.nil members _)
  · apply opened.destroys destroys (sixthSound.leave sixth_here) outside Store.put_self
    · intro other apart
      rw [Store.put_of_ne apart, sixthHandles, Function.update_of_ne apart]
    · exact sixthObjects

/-- The destructor ends, and destroys exactly what falls with the handle. -/
theorem destroys_one (stored : Stored members store) (waiting : Waiting members store [this])
    (deeper : Deeper members store) :
    ∃ next, Leads members store (Call.destructor this) next ∧ Destroys members store [this] next := by
  have outside : ∀ name, store.objects name = .alive → this ∉ members name := waiting.outside this (by simp)
  obtain ⟨fields, here⟩ := waiting.alive this (by simp)
  obtain ⟨closed, closedSound⟩ := stored.sound.close here
  have closed_here : (store.put this (some ⟨.ending, fields⟩)).handles this = some ⟨.ending, fields⟩ := Store.put_self
  have leaves : ∀ mid : Store ν, (store.put this (some ⟨.ending, fields⟩)).decrement this = .ok mid → mid.Sound →
      mid.objects = store.objects → (∀ other ≠ this, mid.handles other = store.handles other) →
      mid.handles this = some ⟨.done, fields⟩ →
        ∃ next, Leads members store (Call.destructor this) next ∧ Destroys members store [this] next := by
    intro mid decremented sound objects handles mid_here
    refine ⟨mid.put this none, ?_, ?_⟩
    · apply Leads.step (.close this) closed rfl
      exact Leads.step (.decrement this) decremented rfl (leads_done mid_here)
    · apply Destroys.released stored (sound.leave mid_here) outside Store.put_self ?_ objects
      intro other apart
      rw [Store.put_of_ne apart, handles other apart]
  rcases waiting.direct this (.root (by simp)) _ here with empty | ⟨name, owns⟩
  · replace empty : fields = {} := empty
    subst empty
    obtain ⟨decremented, sound⟩ := closedSound.decrement_null closed_here
    apply leaves _ decremented sound rfl ?_ Store.put_self
    intro other apart
    rw [Store.put_of_ne apart, Store.put_of_ne apart]
  · replace owns : fields = owning name 0 := owns
    subst owns
    by_cases one : (store.put this (some ⟨.ending, owning name 0⟩)).total name = 1
    · obtain ⟨mid, decremented, sound, objects, handles⟩ := closedSound.decrement_last closed_here one
      have alive : store.Alive this := by
        rw [Store.Alive, here]
      have mid_here : mid.handles this = some ⟨.zero, owning name 0⟩ := by
        rw [handles, Function.update_self]
      obtain ⟨next, leads, destroys⟩ : ∃ next, Leads members mid
          [.deleteCount this, .deleteObject this, .deleteDeleter this, .leave this] next ∧
          Destroys members store [this] next := by
        apply destroys_last stored waiting alive deeper sound mid_here
        · intro other apart
          rw [handles, Function.update_of_ne apart, Store.put_of_ne apart]
        · intro handle isHandle
          cases here.symm.trans isHandle
          rfl
        · exact objects
      refine ⟨next, ?_, destroys⟩
      apply Leads.step (.close this) closed rfl
      exact Leads.step (.decrement this) decremented rfl leads
    · obtain ⟨mid, decremented, sound, objects, handles⟩ := closedSound.decrement_shared closed_here one
      apply leaves mid decremented sound objects
      · intro other apart
        rw [handles, Function.update_of_ne apart, Store.put_of_ne apart]
      · rw [handles, Function.update_self]

omit [DecidableEq ν] in
theorem Destroys.living_le (destroys : Destroys members store pending next) : living next ≤ living store := by
  apply SharedPtr.living_le
  intro this alive
  rcases destroys.handles this with same | ⟨gone, _⟩
  · rwa [Store.Alive, same] at alive
  · rw [Store.Alive, gone] at alive
    cases alive

omit [DecidableEq ν] [Fintype ν] in
theorem Waiting.head (waiting : Waiting members store (this :: pending)) : Waiting members store [this] where
  distinct := List.nodup_singleton this
  alive other listed := waiting.alive other (by simp_all)
  outside other listed := waiting.outside other (by simp_all)
  direct other falls := waiting.direct other (falls.mono (by simp))

omit [DecidableEq ν] in
/-- What waits behind a handle still waits when that handle has been destroyed. -/
theorem Waiting.tail (waiting : Waiting members store (this :: pending))
    (destroys : Destroys members store [this] mid) : Waiting members mid pending where
  distinct := (List.nodup_cons.mp waiting.distinct).2
  alive other listed := by
    have unlisted : other ∉ [this] := by
      rw [List.mem_singleton]
      rintro rfl
      exact (List.nodup_cons.mp waiting.distinct).1 listed
    rcases destroys.handles other with same | ⟨_, falls⟩
    · rw [same]
      exact waiting.alive other (List.mem_cons_of_mem _ listed)
    · exact absurd falls (Falls.not_of_outside (waiting.outside other (List.mem_cons_of_mem _ listed)) unlisted)
  outside other listed name alive := waiting.outside other (List.mem_cons_of_mem _ listed) name (destroys.alive_of alive)
  direct other falls := by
    rcases destroys.handles other with same | ⟨gone, _⟩
    · rw [same]
      exact waiting.direct other (destroys.falls falls)
    · rw [gone]
      exact nofun

/-- The destructors of some handles end, one after the other. -/
theorem destroys_all (bound : Nat) : ∀ (store : Store ν) (pending : List ν), living store ≤ bound →
    Stored members store → Waiting members store pending →
      ∃ next, Leads members store (pending.flatMap Call.destructor) next ∧ Destroys members store pending next := by
  induction bound with
  | zero =>
      intro store pending few stored waiting
      cases pending with
      | nil => exact ⟨store, Leads.nil members store, .nil stored⟩
      | cons this rest =>
          obtain ⟨fields, here⟩ := waiting.alive this List.mem_cons_self
          have alive : store.Alive this := by rw [Store.Alive, here]
          have one : 0 < living store := Finset.card_pos.mpr ⟨this, by simpa using alive⟩
          omega
  | succ bound deeper =>
      intro store pending
      induction pending generalizing store with
      | nil =>
          intro _ stored _
          exact ⟨store, Leads.nil members store, .nil stored⟩
      | cons this rest ih =>
          intro few stored waiting
          have smaller : Deeper members store := by
            intro inner handles fewer
            exact deeper inner handles (by omega)
          obtain ⟨mid, first, destroys⟩ := destroys_one stored waiting.head smaller
          obtain ⟨next, second, later⟩ := ih mid (destroys.living_le.trans few) destroys.stored (waiting.tail destroys)
          refine ⟨next, ?_, destroys.cons later⟩
          rw [List.flatMap_cons]
          exact first.append second

end

/-! The move assignment. -/

/-- The handle is stored in an object that is destroyed when the other one lets go of its own. -/
def Dies (members : Nat → List ν) (store : Store ν) (this dying : ν) : Prop :=
  ∃ name, store.objects name = .alive ∧ dying ∈ members name ∧
    ∀ owner, Refers name (store.handles owner) → Falls members store [this] owner

/-- The move assignment ends without a use of a handle or of an object that is destroyed, the
handle then has the pointers that the source had, and their object lives. -/
def MoveAssigns (members : Nat → List ν) (store : Store ν) (this other tmp : ν) : Prop :=
  ∃ fuel final, execute members fuel store (Call.moveAssign this other tmp).program = .ok final ∧
    (final.handles this).map Handle.fields = (store.handles other).map Handle.fields ∧
    ∀ name, Refers name (store.handles other) → final.objects name = .alive

/-- Two handles that exist, the same or not, and room for the local one. Objects are destroyed
through pointers to their starts. -/
structure Assignable [Fintype ν] (members : Nat → List ν) (store : Store ν) (this other tmp : ν) : Prop where
  stored : Stored members store
  this_alive : store.Alive this
  other_alive : store.Alive other
  room : store.handles tmp = none
  direct : ∀ falling, Falls members store [this] falling → Direct (store.handles falling)

/-- The store after `tmp.swap(*this)` in `reset`. -/
def Store.released (store : Store ν) (this tmp : ν) (old : Fields) : Store ν :=
  ((store.clear tmp).put tmp (some ⟨.alive, old⟩)).put this (some ⟨.alive, {}⟩)

omit [DecidableEq ν] in
theorem Store.Alive.exists_fields {this : ν} (alive : store.Alive this) :
    ∃ fields, store.handles this = some ⟨.alive, fields⟩ := by
  rw [Store.Alive] at alive
  cases here : store.handles this with
  | none =>
      rw [here] at alive
      cases alive
  | some handle =>
      rw [here] at alive
      obtain ⟨stage, fields⟩ := handle
      cases alive
      exact ⟨fields, rfl⟩

section

variable {this other tmp : ν} {old : Fields}

theorem released_tmp (apart : tmp ≠ this) : (store.released this tmp old).handles tmp = some ⟨.alive, old⟩ := by
  rw [Store.released, Store.put_of_ne apart, Store.put_self]

theorem released_this : (store.released this tmp old).handles this = some ⟨.alive, {}⟩ := Store.put_self

theorem released_of_ne {name : ν} (notThis : name ≠ this) (notTmp : name ≠ tmp) :
    (store.released this tmp old).handles name = store.handles name := by
  rw [Store.released, Store.put_of_ne notThis, Store.put_of_ne notTmp, Store.clear, Store.put_of_ne notTmp]

omit [DecidableEq ν] in
theorem falls_iff_dies {name : ν} : Falls members store [this] name ↔ name = this ∨ Dies members store this name := by
  constructor
  · intro falls
    cases falls with
    | root listed => exact .inl (List.mem_singleton.mp listed)
    | member alive owners inside => exact .inr ⟨_, alive, inside, owners⟩
  · rintro (rfl | ⟨object, alive, inside, owners⟩)
    · exact .root (by simp)
    · exact .member alive owners inside

/-- What falls with the local handle is what would fall with the handle that it replaced. -/
theorem falls_released_iff (here : store.handles this = some ⟨.alive, old⟩) (room : store.handles tmp = none)
    {name : ν} : Falls members (store.released this tmp old) [tmp] name ↔ name = tmp ∨ Dies members store this name := by
  have apart : tmp ≠ this := by
    rintro rfl
    cases here.symm.trans room
  constructor
  · intro falls
    induction falls with
    | root listed => exact .inl (List.mem_singleton.mp listed)
    | @member object name alive _ inside ih =>
        refine .inr ⟨object, alive, inside, ?_⟩
        intro owner refers
        by_cases isThis : owner = this
        · rw [isThis]
          exact .root (by simp)
        have notTmp : owner ≠ tmp := by
          rintro rfl
          rw [room] at refers
          exact not_refers_none refers
        have after : Refers object ((store.released this tmp old).handles owner) := by
          rwa [released_of_ne isThis notTmp]
        rcases ih owner after with isTmp | dies
        · exact absurd isTmp notTmp
        · exact falls_iff_dies.mpr (.inr dies)
  · have owners : ∀ {object : Nat} {owner : ν}, Refers object ((store.released this tmp old).handles owner) →
        owner = tmp ∨ owner ≠ this ∧ Refers object (store.handles owner) := by
      intro object owner refers
      by_cases isTmp : owner = tmp
      · exact .inl isTmp
      by_cases isThis : owner = this
      · rw [isThis, released_this] at refers
        exact absurd refers (not_refers_of_ne nofun)
      · exact .inr ⟨isThis, released_of_ne isThis isTmp ▸ refers⟩
    have later : ∀ owner, Falls members store [this] owner →
        owner = this ∨ Falls members (store.released this tmp old) [tmp] owner := by
      intro owner falls
      induction falls with
      | root listed => exact .inl (List.mem_singleton.mp listed)
      | member alive _ inside ih =>
          refine .inr (.member alive ?_ inside)
          intro owner refers
          rcases owners refers with rfl | ⟨notThis, before⟩
          · exact .root (by simp)
          · exact (ih owner before).resolve_left notThis
    rintro (rfl | ⟨object, alive, inside, all⟩)
    · exact .root (by simp)
    · refine .member alive ?_ inside
      intro owner refers
      rcases owners refers with rfl | ⟨notThis, before⟩
      · exact .root (by simp)
      · exact (later owner (all owner before)).resolve_left notThis

end

section

variable [Fintype ν] {this other tmp : ν} {old moved : Fields}

/-- `reset` in the move assignment. -/
theorem Assignable.reset (assignable : Assignable members store this other tmp)
    (here : store.handles this = some ⟨.alive, old⟩) :
    ∃ next, Leads members store ([.clear tmp, .swap tmp this] ++ Call.destructor tmp) next ∧
      Destroys members (store.released this tmp old) [tmp] next := by
  have stored := assignable.stored
  have apart : this ≠ tmp := by
    rintro rfl
    cases here.symm.trans assignable.room
  have cleared_here : (store.clear tmp).handles this = some ⟨.alive, old⟩ := by
    rw [Store.clear, Store.put_of_ne apart, here]
  obtain ⟨swapped, sound⟩ := (stored.sound.clear assignable.room).swap Store.put_self cleared_here
  have later : Stored members (store.released this tmp old) := by
    refine ⟨sound, stored.distinct, ?_, stored.apart⟩
    intro name alive member inside
    obtain ⟨fields, there⟩ := stored.inside name alive member inside
    by_cases isThis : member = this
    · rw [isThis, released_this]
      exact ⟨{}, rfl⟩
    · refine ⟨fields, ?_⟩
      rw [released_of_ne isThis, there]
      rintro rfl
      cases there.symm.trans assignable.room
  have waiting : Waiting members (store.released this tmp old) [tmp] := by
    refine ⟨List.nodup_singleton tmp, ?_, ?_, ?_⟩
    · intro name listed
      rw [List.mem_singleton.mp listed, released_tmp apart.symm]
      exact ⟨old, rfl⟩
    · intro name listed object alive inside
      rw [List.mem_singleton.mp listed] at inside
      obtain ⟨fields, there⟩ := stored.inside object alive tmp inside
      cases there.symm.trans assignable.room
    · intro name falls
      by_cases isThis : name = this
      · rw [isThis, released_this]
        rintro handle ⟨⟩
        exact .inl rfl
      rcases (falls_released_iff here assignable.room).mp falls with rfl | dies
      · rw [released_tmp apart.symm, ← here]
        exact assignable.direct this (.root (by simp))
      by_cases isTmp : name = tmp
      · obtain ⟨object, alive, inside, _⟩ := dies
        obtain ⟨fields, there⟩ := stored.inside object alive name inside
        cases there.symm.trans (isTmp ▸ assignable.room)
      · rw [released_of_ne isThis isTmp]
        exact assignable.direct name (falls_iff_dies.mpr (.inr dies))
  obtain ⟨next, leads, destroys⟩ := destroys_all _ _ [tmp] le_rfl later waiting
  refine ⟨next, ?_, destroys⟩
  rw [List.flatMap_cons, List.flatMap_nil, List.append_nil] at leads
  apply Leads.step (.clear tmp) rfl rfl
  exact Leads.step (.swap tmp this) swapped rfl leads

omit [Fintype ν] in
theorem execute_takeInto {fuel : Nat} (done : execute members fuel store [.takeInto this other] = .ok next) :
    store.takeInto this other = .ok next := by
  cases fuel with
  | zero => cases done
  | succ fuel =>
      rw [execute] at done
      cases taken : store.takeInto this other with
      | error reason =>
          rw [Store.perform, taken] at done
          cases done
      | ok mid =>
          rw [Store.perform, taken] at done
          simp only [nested, List.append_nil, execute] at done
          exact done

omit [Fintype ν] in
theorem takeInto_handles (taken : store.takeInto this other = .ok next) :
    (∃ handle, store.handles this = some handle) ∧
      ∃ source, store.handles other = some source ∧ next.handles this = some ⟨.alive, source.fields⟩ := by
  rw [Store.takeInto, Store.get] at taken
  cases here : store.handles this with
  | none =>
      rw [here] at taken
      cases taken
  | some handle =>
      rw [here, Outcome.ok_bind, Store.take, Store.get] at taken
      cases there : store.handles other with
      | none =>
          rw [there] at taken
          cases taken
      | some source =>
          rw [there, Outcome.ok_bind] at taken
          cases taken
          exact ⟨⟨handle, rfl⟩, source, rfl, Store.put_self⟩

end

section

/-- Three handles of three objects. -/
def owners : Store (Fin 4) := ((Store.empty.wrap 0 0).wrap 1 0).wrap 2 0

/-- The second handle is stored in the first object. -/
def linked (name : Nat) : List (Fin 4) := if name = 0 then [1] else []

theorem mem_linked {name : Nat} {this : Fin 4} (listed : this ∈ linked name) : name = 0 ∧ this = 1 := by
  rw [linked] at listed
  split at listed
  next first => exact ⟨first, List.mem_singleton.mp listed⟩
  next => cases listed

theorem owners_assignable (other : Fin 4) (alive : owners.Alive other) : Assignable linked owners 0 other 3 where
  stored := by
    refine ⟨?_, ?_, ?_, ?_⟩
    · exact ((Store.empty_sound.wrap rfl 0).wrap rfl 0).wrap rfl 0
    · intro name _
      rw [linked]
      split <;> simp
    · intro name _ this listed
      obtain ⟨_, rfl⟩ := mem_linked listed
      exact ⟨_, rfl⟩
    · intro name other _ _ this here there
      rw [(mem_linked here).1, (mem_linked there).1]
  this_alive := by decide
  other_alive := alive
  room := rfl
  direct falling _ := by
    intro handle here
    fin_cases falling
    · cases here
      exact .inr ⟨0, rfl⟩
    · cases here
      exact .inr ⟨1, rfl⟩
    · cases here
      exact .inr ⟨2, rfl⟩
    · cases here

end

end Dsac.SharedPtr
