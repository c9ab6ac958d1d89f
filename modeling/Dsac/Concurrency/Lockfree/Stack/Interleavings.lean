import Dsac.Concurrency.Lockfree.Stack.Lifo
import Dsac.Concurrency.Lockfree.Stack.Reclamation

namespace Dsac.LockFreeStack

open Dsac.Library Dsac.Library.AtomicObject

/-! Every interleaving shows a history of an atomic stack. -/

variable {ι α T : Type} [DecidableEq ι]

/-- What the state of the system leaves open: the roles of the nodes, the two lists, and how far
the atomic stack has come. -/
structure Ghost (ι α T : Type) where
  role : α → Option (Role ι)
  stacked : List (α × Option T)
  freed : List (α × Option T)
  order : List (ι × Operation T × Reply T)
  values : List T
  statuses : ι → Status (Operation T) (Reply T)

namespace System

variable {system : System ι α T} {ghost : Ghost ι α T} {thread : ι} {place : Place α T}
  {heap : α → Option (Node α T)} {role : α → Option (Role ι)}

/-- Some thread inside `pop` holds the node. -/
def Held (system : System ι α T) (node : α) : Prop := ∃ thread, (system.places thread).holds = some node

structure Sound (system : System ι α T) (ghost : Ghost ι α T) : Prop where
  memory : Memory system.heap ghost.role system.stack_ system.free_stack_ ghost.stacked ghost.freed
  places : ∀ thread, (system.places thread).Sound thread system.heap ghost.role (ghost.statuses thread)
  spared : Spared system.places ghost.freed
  census : Census Place.Inside system.places system.popped_count
  bounded : system.popped_count < sizeRange
  reached : Reaches lifo [] system.history ghost.order ghost.values ghost.statuses
  contents : ghost.stacked.map Prod.snd = ghost.values.map some

theorem initial_sound : (initial : System ι α T).Sound
    ⟨fun _ => none, [], [], [], [], fun _ => .idle⟩ where
  memory := ⟨fun _ => ⟨fun _ => rfl, fun _ => rfl⟩, rfl, nofun, rfl, nofun⟩
  places _ := rfl
  spared := .nil
  census := .start fun _ => id
  bounded := Nat.two_pow_pos 64
  reached := .start
  contents := rfl

/-- The places after a thread has moved. -/
theorem Sound.places_goto (sound : system.Sound ghost) {statuses : ι → Status (Operation T) (Reply T)}
    (frame : Frame thread system.Held system.heap heap ghost.role role)
    (here : place.Sound thread heap role (statuses thread))
    (others : ∀ other, other ≠ thread → statuses other = ghost.statuses other) (other : ι) :
    (Function.update system.places thread place other).Sound other heap role (statuses other) := by
  by_cases same : other = thread
  · subst other
    rwa [Function.update_self]
  · rw [Function.update_of_ne same, others other same]
    exact (sound.places other).frame frame same fun node holds => ⟨other, holds⟩

/-- A thread moves on, and only its own nodes change. -/
theorem Sound.stay (sound : system.Sound ghost)
    (memory : Memory heap role system.stack_ system.free_stack_ ghost.stacked ghost.freed)
    (frame : Frame thread system.Held system.heap heap ghost.role role)
    (here : place.Sound thread heap role (ghost.statuses thread))
    (spared : Spared (Function.update system.places thread place) ghost.freed)
    (inside : place.Inside ↔ (system.places thread).Inside) :
    ({ system with heap, places := Function.update system.places thread place }).Sound { ghost with role } where
  memory := memory
  places := sound.places_goto frame here fun _ _ => rfl
  spared := spared
  census := sound.census.keep inside
  bounded := sound.bounded
  reached := sound.reached
  contents := sound.contents

/-- A thread moves on. -/
theorem Sound.goto (sound : system.Sound ghost) (here : place.Sound thread system.heap ghost.role (ghost.statuses thread))
    (spared : Spared (Function.update system.places thread place) ghost.freed)
    (inside : place.Inside ↔ (system.places thread).Inside) : (system.goto thread place).Sound ghost :=
  sound.stay sound.memory (.refl ..) here spared inside

/-- A thread that neither holds a node of the stack nor waits for the free list leaves it alone. -/
theorem Sound.spared_goto (sound : system.Sound ghost) (expects : place.expects = none) (holds : place.holds = none) :
    Spared (Function.update system.places thread place) ghost.freed := by
  apply sound.spared.goto
  · rw [expects]
    nofun
  · rw [holds]
    nofun

/-- A thread that sees an empty stack pops nothing. -/
theorem Sound.see (sound : system.Sound ghost) (invoked : ghost.statuses thread = .invoked .pop)
    (inside : (system.places thread).Inside) :
    ∃ ghost, (system.goto thread (.seen system.stack_)).Sound ghost := by
  cases top : system.stack_ with
  | some current =>
      have stack := sound.memory.stack
      cases stacked : ghost.stacked with
      | nil =>
          rw [top, stacked] at stack
          cases stack
      | cons entry rest =>
          rw [top, stacked] at stack
          have onStack : ghost.role entry.1 = some .stacked :=
            sound.memory.onStack entry (stacked ▸ List.mem_cons_self)
          cases stack.1
          refine ⟨ghost, sound.goto ⟨⟨.stacked, onStack, trivial⟩, invoked⟩ ?_ (iff_of_true trivial inside)⟩
          apply sound.spared.goto
          · nofun
          · rintro node ⟨⟩
            refine .inr fun other member same => ?_
            have isFreed := sound.memory.onFree other member
            rw [same, onStack] at isFreed
            cases isFreed
  | none =>
      have empty : ghost.values = [] := by
        have stack := sound.memory.stack
        rw [top] at stack
        have head := stack.head
        have contents := sound.contents
        cases stacked : ghost.stacked with
        | nil =>
            rw [stacked] at contents
            exact List.map_eq_nil_iff.mp contents.symm
        | cons entry rest =>
            rw [stacked] at head
            cases head
      have performed := sound.reached.perform thread .pop invoked
      rw [empty] at performed
      refine ⟨{ ghost with order := _, values := [], statuses := _ },
        ⟨sound.memory, ?_, sound.spared_goto rfl rfl, sound.census.keep (iff_of_true trivial inside), sound.bounded,
          performed, ?_⟩⟩
      · apply sound.places_goto (.refl ..)
        · exact Function.update_self ..
        · intro other different
          exact Function.update_of_ne different ..
      · rw [← empty]
        exact sound.contents

section

variable [DecidableEq α] {address : α} {spurious : Bool} {value : T} {next : Option α} {rest : Rest α T}

/-- A node is made at an address that nobody uses. -/
theorem Sound.make (sound : system.Sound ghost) (at_ : system.places thread = .making value next)
    (unused : system.heap address = none) :
    ∃ ghost, ((system.setNode address (some ⟨some value, next⟩)).goto thread (.pushing address)).Sound ghost := by
  have invoked := sound.places thread
  rw [at_] at invoked
  have noRole := (sound.memory.allocated address).mpr unused
  have elsewhere : ∀ node, node ≠ address →
      Function.update ghost.role address (some (.fresh thread)) node = ghost.role node ∧
        Function.update system.heap address (some ⟨some value, next⟩) node = system.heap node :=
    fun node different => ⟨Function.update_of_ne different .., Function.update_of_ne different ..⟩
  refine ⟨_, sound.stay ?_ (.at elsewhere ?_ ?_) ?_ (sound.spared_goto rfl rfl) (by rw [at_]; exact Iff.rfl)⟩
  · apply sound.memory.change elsewhere
    · rw [noRole]
      nofun
    · rw [noRole]
      nofun
    · rw [Function.update_self, Function.update_self]
      exact iff_of_false nofun nofun
  · intro kind other here
    rw [noRole] at here
    cases here
  · rintro _ ⟨kind, here, _⟩
    rw [noRole] at here
    cases here
  · exact ⟨Function.update_self .., value, next, Function.update_self .., invoked⟩

/-- A thread writes to a node that it owns. -/
theorem Sound.write {kind : Role ι} {cell : Node α T} (sound : system.Sound ghost)
    (mine : ghost.role address = some kind) (owner : kind.owner = some thread)
    (here : place.Sound thread (Function.update system.heap address (some cell)) ghost.role (ghost.statuses thread))
    (spared : Spared (Function.update system.places thread place) ghost.freed)
    (inside : place.Inside ↔ (system.places thread).Inside) :
    ((system.setNode address (some cell)).goto thread place).Sound ghost := by
  have elsewhere : ∀ node, node ≠ address → ghost.role node = ghost.role node ∧
      Function.update system.heap address (some cell) node = system.heap node :=
    fun node different => ⟨rfl, Function.update_of_ne different ..⟩
  have allocated : ghost.role address = none ↔ Function.update system.heap address (some cell) address = none := by
    rw [Function.update_self, mine]
    exact iff_of_false nofun nofun
  refine sound.stay (sound.memory.change elsewhere ?_ ?_ allocated) (.at elsewhere ?_ ?_) here spared inside
  · rw [mine]
    rintro ⟨⟩
    cases owner
  · rw [mine]
    rintro ⟨⟩
    cases owner
  · intro other thread here owned
    rw [mine] at here
    cases here
    cases owner.symm.trans owned
    rfl
  · intro _ shared
    refine ⟨shared, ?_⟩
    rw [mine]
    rintro ⟨⟩
    cases owner

/-- A thread deletes a node that is its to delete. -/
theorem Sound.delete (sound : system.Sound ghost) (mine : ghost.role address = some (.condemned thread))
    (here : place.Sound thread (Function.update system.heap address none) (Function.update ghost.role address none)
      (ghost.statuses thread))
    (spared : Spared (Function.update system.places thread place) ghost.freed)
    (inside : place.Inside ↔ (system.places thread).Inside) :
    ∃ ghost, ((system.setNode address none).goto thread place).Sound ghost := by
  have elsewhere : ∀ node, node ≠ address →
      Function.update ghost.role address none node = ghost.role node ∧
        Function.update system.heap address none node = system.heap node :=
    fun node different => ⟨Function.update_of_ne different .., Function.update_of_ne different ..⟩
  have allocated : Function.update ghost.role address none address = none ↔
      Function.update system.heap address none address = none := by
    rw [Function.update_self, Function.update_self]
    exact iff_of_true rfl rfl
  refine ⟨_, sound.stay (sound.memory.change elsewhere ?_ ?_ allocated) (.at elsewhere ?_ ?_) here spared inside⟩
  · rw [mine]
    nofun
  · rw [mine]
    nofun
  · intro kind other here owner
    rw [mine] at here
    cases here
    cases owner
    rfl
  · rintro _ ⟨kind, here, shared⟩
    rw [mine] at here
    cases here
    cases shared

omit [DecidableEq ι] in
/-- A role of the node changes, and nobody else can tell. -/
theorem Frame.relabel {kind now : Role ι} (mine : ghost.role address = some kind)
    (owner : ∀ other, kind.owner = some other → other = thread)
    (kept : system.Held address → kind.Shared → now.Shared ∧ now ≠ .stacked) :
    Frame thread system.Held system.heap system.heap ghost.role (Function.update ghost.role address (some now)) := by
  apply Frame.at
  · intro node different
    exact ⟨Function.update_of_ne different .., rfl⟩
  · intro old other here owned
    rw [mine] at here
    cases here
    exact owner other owned
  · rintro holds ⟨old, here, shared⟩
    rw [mine] at here
    cases here
    obtain ⟨still, unstacked⟩ := kept holds shared
    exact ⟨⟨now, Function.update_self .., still⟩, by rw [Function.update_self]; exact fun same => unstacked (Option.some.inj same)⟩

/-- The compare exchange of `push` puts the node on the stack. -/
theorem Sound.push {cell : Node α T} (sound : system.Sound ghost) (at_ : system.places thread = .pushing address)
    (stored : system.heap address = some cell) (same : system.stack_ = cell.next) :
    ∃ ghost, ({ system with stack_ := some address }.goto thread (.returning .pushed)).Sound ghost := by
  obtain ⟨fresh, value, next, here, invoked⟩ : (Place.pushing address).Sound thread system.heap ghost.role
      (ghost.statuses thread) := at_ ▸ sound.places thread
  cases stored.symm.trans here
  cases same
  refine ⟨{ ghost with role := _, stacked := _, order := _, values := _, statuses := _ },
    ⟨sound.memory.push fresh here, ?_, sound.spared_goto rfl rfl, sound.census.keep (by rw [at_]; exact Iff.rfl),
      sound.bounded, sound.reached.perform thread (.push value) invoked, ?_⟩⟩
  · apply sound.places_goto
    · exact Frame.relabel fresh (fun other same => (Option.some.inj same).symm) (fun _ shared => shared.elim)
    · exact Function.update_self ..
    · intro other different
      exact Function.update_of_ne different ..
  · exact congrArg (some value :: ·) sound.contents

/-- The compare exchange of `pop` takes the node off the stack. -/
theorem Sound.pop (sound : system.Sound ghost) (at_ : system.places thread = .swapping address next)
    (top : system.stack_ = some address) :
    ∃ ghost, ({ system with stack_ := next }.goto thread (.taking address)).Sound ghost := by
  obtain ⟨shared, linked, invoked⟩ : (Place.swapping address next).Sound thread system.heap ghost.role
      (ghost.statuses thread) := at_ ▸ sound.places thread
  have memory := sound.memory
  rw [top] at memory
  obtain ⟨content, after, others, split, here, stacked, popped⟩ := memory.pop thread
  obtain ⟨other, there⟩ := linked stacked
  cases here.symm.trans there
  have contents := sound.contents
  rw [split] at contents
  cases values : ghost.values with
  | nil =>
      rw [values] at contents
      cases contents
  | cons value remaining =>
      rw [values] at contents
      obtain ⟨first, later⟩ := List.cons.inj contents
      cases first
      have performed := sound.reached.perform thread .pop invoked
      rw [values] at performed
      refine ⟨{ ghost with role := _, stacked := others, order := _, values := remaining, statuses := _ },
        ⟨popped, ?_, sound.spared_goto rfl rfl, sound.census.keep (by rw [at_]; exact Iff.rfl), sound.bounded,
          performed, later⟩⟩
      apply sound.places_goto
      · exact Frame.relabel stacked nofun (fun _ _ => ⟨trivial, nofun⟩)
      · exact ⟨Function.update_self .., value, _, here, Function.update_self ..⟩
      · intro other different
        exact Function.update_of_ne different ..

/-- The free list, none of whose nodes anybody holds, goes to the thread. -/
theorem Sound.detach (sound : system.Sound ghost) (at_ : system.places thread = .detaching address rest)
    (head : system.free_stack_ = some address) :
    ∃ ghost, ({ system with free_stack_ := none }.goto thread (.erasing (some address) rest)).Sound ghost := by
  obtain ⟨memory, doomed⟩ := sound.memory.detach thread
  have free := sound.memory.free
  have unheld : ∀ entry ∈ ghost.freed, ¬ system.Held entry.1 := by
    intro entry member
    cases freed : ghost.freed with
    | nil =>
        rw [freed] at member
        cases member
    | cons first others =>
        rw [head, freed] at free
        rintro ⟨other, holds⟩
        exact sound.spared thread address (by rw [at_]; rfl) [] first others freed (Option.some.inj free.1).symm entry
          (freed ▸ member) other holds
  have finishes : (Place.detaching address rest).Sound thread system.heap ghost.role (ghost.statuses thread) :=
    at_ ▸ sound.places thread
  have erases : (Place.erasing (some address) rest).Sound thread system.heap
      (Memory.condemn ghost.role ghost.freed thread) (ghost.statuses thread) := by
    refine ⟨?_, head ▸ doomed⟩
    cases rest with
    | empty => exact finishes
    | taken current value =>
        refine ⟨?_, finishes.2⟩
        rw [sound.memory.condemn_of_ne]
        · exact finishes.1
        · rw [finishes.1]
          nofun
  exact ⟨{ ghost with role := _, freed := [] },
    ⟨memory, sound.places_goto (Frame.condemn sound.memory thread unheld) erases fun _ _ => rfl, .nil,
      sound.census.keep (by rw [at_]; exact Iff.rfl), sound.bounded, sound.reached, sound.contents⟩⟩

omit [DecidableEq α]

theorem Sound.enter (sound : system.Sound ghost) (at_ : system.places thread = .entering)
    (fits : system.popped_count + 1 < sizeRange) :
    ({ system with popped_count := (system.popped_count + 1) % sizeRange }.goto thread .starting).Sound ghost := by
  have invoked := sound.places thread
  rw [at_] at invoked
  have count : (system.popped_count + 1) % sizeRange = system.popped_count + 1 := Nat.mod_eq_of_lt fits
  refine ⟨sound.memory, sound.places_goto (.refl ..) invoked fun _ _ => rfl, sound.spared_goto rfl rfl, ?_, ?_,
    sound.reached, sound.contents⟩
  · rw [System.goto, count]
    exact sound.census.enter (by rw [at_]; exact id) trivial
  · rw [System.goto, count]
    exact fits

/-- A thread that is alone inside `pop` can detach the free list. -/
theorem Sound.count (sound : system.Sound ghost) (at_ : system.places thread = .counting address rest)
    (single : system.popped_count = 1) : (system.goto thread (.detaching address rest)).Sound ghost := by
  have finishes : (Place.counting address rest).Sound thread system.heap ghost.role (ghost.statuses thread) :=
    at_ ▸ sound.places thread
  have detaches : (Place.detaching address rest).Sound thread system.heap ghost.role (ghost.statuses thread) := finishes
  have census := sound.census
  rw [single] at census
  apply sound.goto detaches ?_ (by rw [at_]; exact Iff.rfl)
  apply Spared.of_nobody
  intro other node holds
  by_cases same : other = thread
  · subst other
    rw [Function.update_self] at holds
    cases holds
  · rw [Function.update_of_ne same] at holds
    exact same (census.alone (by rw [at_]; trivial) (Place.inside_of_holds holds))

theorem leave_count {count : Nat} (pos : 0 < count) (bounded : count < sizeRange) :
    (count + (sizeRange - 1)) % sizeRange = count - 1 := by
  have wrapped : count + (sizeRange - 1) = (count - 1) + sizeRange := by omega
  rw [wrapped, Nat.add_mod_right, Nat.mod_eq_of_lt (by omega)]

theorem Sound.census_leave (sound : system.Sound ghost) (at_ : system.places thread = .leaving rest)
    (outside : ¬ place.Inside) :
    Census Place.Inside (Function.update system.places thread place) (system.popped_count - 1) :=
  sound.census.leave (by rw [at_]; trivial) outside

/-- A thread leaves `pop`, in which others remain or whose node needs no thought. -/
theorem Sound.leave (sound : system.Sound ghost) (at_ : system.places thread = .leaving rest)
    (here : place.Sound thread system.heap ghost.role (ghost.statuses thread)) (outside : ¬ place.Inside)
    (holds : place.holds = none) (expects : place.expects = none) :
    ({ system with popped_count := system.popped_count - 1 }.goto thread place).Sound ghost where
  memory := sound.memory
  places := sound.places_goto (.refl ..) here fun _ _ => rfl
  spared := sound.spared_goto expects holds
  census := sound.census_leave at_ outside
  bounded := (Nat.sub_le ..).trans_lt sound.bounded
  reached := sound.reached
  contents := sound.contents

/-- When nobody is left inside `pop`, nobody holds the node. -/
theorem Sound.leave_last [DecidableEq α] (sound : system.Sound ghost)
    (at_ : system.places thread = .leaving (.taken address value)) (last : system.popped_count - 1 = 0) :
    ∃ ghost, ({ system with popped_count := system.popped_count - 1 }.goto thread
      (.destroying address value)).Sound ghost := by
  obtain ⟨taken, decided⟩ : (Place.leaving (.taken address value)).Sound thread system.heap ghost.role
      (ghost.statuses thread) := at_ ▸ sound.places thread
  have census : Census Place.Inside (Function.update system.places thread (.destroying address value)) 0 :=
    last ▸ sound.census_leave at_ id
  have nobody : ¬ system.Held address := by
    rintro ⟨other, holds⟩
    have inside := Place.inside_of_holds holds
    by_cases same : other = thread
    · rw [same, at_] at holds
      cases holds
    · apply census.nobody other
      rwa [Function.update_of_ne same]
  obtain ⟨cell, live⟩ := sound.memory.live taken
  refine ⟨{ ghost with role := _ }, sound.memory.relabel live ?_ ?_ (.condemned thread), ?_,
    sound.spared_goto rfl rfl, sound.census_leave at_ id, (Nat.sub_le ..).trans_lt sound.bounded, sound.reached,
    sound.contents⟩
  · rw [taken]
    nofun
  · rw [taken]
    nofun
  · apply sound.places_goto
    · exact Frame.relabel taken (fun other same => (Option.some.inj same).symm) (fun held _ => absurd held nobody)
    · exact ⟨Function.update_self .., decided⟩
    · intro _ _
      rfl

/-- The node goes onto the free list. -/
theorem Sound.release [DecidableEq α] {cell : Node α T} (sound : system.Sound ghost)
    (at_ : system.places thread = .freeing address value) (stored : system.heap address = some cell)
    (same : system.free_stack_ = cell.next) (unexpected : ∀ other, (system.places other).expects ≠ some address) :
    ∃ ghost, ({ system with free_stack_ := some address }.goto thread
      (.returning (.popped (some value)))).Sound ghost := by
  obtain ⟨taken, decided⟩ : (Place.freeing address value).Sound thread system.heap ghost.role
      (ghost.statuses thread) := at_ ▸ sound.places thread
  obtain ⟨content, next⟩ := cell
  cases same
  refine ⟨{ ghost with role := _, freed := _ },
    ⟨sound.memory.release taken stored, ?_, ?_, sound.census.keep (by rw [at_]; exact Iff.rfl), sound.bounded,
      sound.reached, sound.contents⟩⟩
  · apply sound.places_goto
    · exact Frame.relabel taken (fun other same => (Option.some.inj same).symm) (fun _ _ => ⟨trivial, nofun⟩)
    · exact decided
    · intro _ _
      rfl
  · apply (sound.spared.cons unexpected).goto
    · nofun
    · nofun

theorem Sound.respond {reply : Reply T} (sound : system.Sound ghost) (at_ : system.places thread = .returning reply) :
    ∃ ghost, ({ system with history := system.history ++ [Observed.respond thread reply] }.goto thread
      .idle).Sound ghost := by
  have decided := sound.places thread
  rw [at_] at decided
  refine ⟨{ ghost with statuses := Function.update ghost.statuses thread .idle }, ⟨sound.memory, ?_,
    sound.spared_goto rfl rfl, sound.census.keep (by rw [at_]; exact Iff.rfl), sound.bounded,
    sound.reached.respond thread reply decided, sound.contents⟩⟩
  apply sound.places_goto (.refl ..)
  · exact Function.update_self ..
  · intro other different
    exact Function.update_of_ne different ..

theorem Sound.invoke (sound : system.Sound ghost) (at_ : system.places thread = .idle) (operation : Operation T) :
    ∃ ghost : Ghost ι α T, ({ system with history := system.history ++ [Observed.invoke thread operation] }.goto thread
      (match operation with
      | .push value => .loading value
      | .pop => .entering)).Sound ghost := by
  have idle := sound.places thread
  rw [at_] at idle
  refine ⟨{ ghost with statuses := Function.update ghost.statuses thread (.invoked operation) }, ⟨sound.memory, ?_,
    ?_, sound.census.keep ?_, sound.bounded, sound.reached.invoke thread operation idle, sound.contents⟩⟩
  · apply sound.places_goto (.refl ..)
    · cases operation <;> exact Function.update_self ..
    · intro other different
      exact Function.update_of_ne different ..
  · cases operation <;> exact sound.spared_goto rfl rfl
  · cases operation <;> rw [at_] <;> exact Iff.rfl

end

section

/-- The counter of the threads inside `pop` does not overflow, and no node goes onto the free
list at an address that another thread is about to detach as its head. -/
def Unexpected (system : System ι α T) : Event ι α T → Prop
  | .call _ _ => True
  | .act thread _ spurious =>
      (system.places thread = .entering → system.popped_count + 1 < sizeRange) ∧
        ∀ current ∈ (system.places thread).frees, (system.heap current).map Node.next = some system.free_stack_ →
          spurious = false → ∀ other, (system.places other).expects ≠ some current

variable [DecidableEq α] {address : α} {spurious : Bool} {value : T} {next : Option α} {rest : Rest α T}

theorem setNode_goto_self {cell : Option (Node α T)} (at_ : system.places thread = place) :
    (system.setNode address cell).goto thread place = system.setNode address cell := by
  rw [goto]
  congr 1
  rw [← at_]
  exact Function.update_eq_self ..

/-- A compare exchange that fails leaves the head it has seen in the thread's own node. -/
theorem Sound.retry {kind : Role ι} {cell : Node α T} (sound : system.Sound ghost)
    (mine : ghost.role address = some kind) (owner : kind.owner = some thread)
    (at_ : system.places thread = place) (expects : place.expects = none) (holds : place.holds = none)
    (here : place.Sound thread (Function.update system.heap address (some cell)) ghost.role (ghost.statuses thread)) :
    (system.setNode address (some cell)).Sound ghost := by
  rw [← setNode_goto_self at_]
  exact sound.write mine owner here (sound.spared_goto expects holds) (by rw [at_])

omit [DecidableEq α] in
/-- The next node of a list that the thread deletes. -/
theorem Sound.erase (sound : system.Sound ghost) (at_ : system.places thread = .erasing (some address) rest) :
    ∃ cell, system.heap address = some cell ∧ (system.goto thread (.deleting address cell.next rest)).Sound ghost := by
  obtain ⟨finishes, entries, chain, condemned⟩ : (Place.erasing (some address) rest).Sound thread system.heap
      ghost.role (ghost.statuses thread) := at_ ▸ sound.places thread
  cases entries with
  | nil => cases chain
  | cons entry later =>
      have distinct := chain.nodup
      obtain ⟨here, next, stored, tail⟩ := chain
      cases here
      refine ⟨_, links_eq_some.mp stored, sound.goto ⟨finishes, condemned _ List.mem_cons_self, later, tail, ?_⟩
        (sound.spared_goto rfl rfl) (by rw [at_]; exact Iff.rfl)⟩
      intro other member
      refine ⟨condemned other (List.mem_cons_of_mem _ member), fun same => ?_⟩
      exact (List.nodup_cons.mp distinct).1 (List.mem_map.mpr ⟨other, member, same⟩)

theorem Sound.erased (sound : system.Sound ghost) (at_ : system.places thread = .deleting address next rest) :
    ∃ ghost, ((system.setNode address none).goto thread (.erasing next rest)).Sound ghost := by
  obtain ⟨finishes, mine, entries, chain, condemned⟩ : (Place.deleting address next rest).Sound thread system.heap
      ghost.role (ghost.statuses thread) := at_ ▸ sound.places thread
  have erases : (Place.erasing next rest).Sound thread (Function.update system.heap address none)
      (Function.update ghost.role address none) (ghost.statuses thread) := by
    refine ⟨?_, entries, chain.congr ?_, ?_⟩
    · cases rest with
      | empty => exact finishes
      | taken current value =>
          have apart : current ≠ address := by
            rintro rfl
            cases mine.symm.trans finishes.1
          exact ⟨(Function.update_of_ne apart ..).trans finishes.1, finishes.2⟩
    · intro entry member
      exact links_congr (Function.update_of_ne (condemned entry member).2 ..)
    · intro entry member
      obtain ⟨here, apart⟩ := condemned entry member
      exact (Function.update_of_ne apart ..).trans here
  exact sound.delete mine erases (sound.spared_goto rfl rfl) (by rw [at_]; exact Iff.rfl)

theorem act_sound (sound : system.Sound ghost) (thread : ι) (address : α) (spurious : Bool)
    (unexpected : system.Unexpected (.act thread address spurious)) :
    ∃ next, system.act thread address spurious = .ok next ∧ ∃ ghost, next.Sound ghost := by
  have place := sound.places thread
  cases at_ : system.places thread with
  | idle => exact ⟨system, by rw [act, at_], ghost, sound⟩
  | loading value =>
      rw [at_] at place
      refine ⟨_, by rw [act, at_], ghost, ?_⟩
      exact sound.goto place (sound.spared_goto rfl rfl) (by rw [at_]; exact Iff.rfl)
  | making value next =>
      cases used : system.heap address with
      | none => exact ⟨_, by simp only [act, at_, used], sound.make at_ used⟩
      | some cell => exact ⟨system, by simp only [act, at_, used], ghost, sound⟩
  | pushing node =>
      rw [at_] at place
      obtain ⟨fresh, value, next, stored, invoked⟩ := place
      by_cases links : system.stack_ = next ∧ spurious = false
      · refine ⟨_, by simp only [act, at_, stored]; exact if_pos links, ?_⟩
        exact sound.push at_ stored links.1
      · refine ⟨_, by simp only [act, at_, stored]; exact if_neg links, ghost, ?_⟩
        exact sound.retry fresh rfl at_ rfl rfl ⟨fresh, value, _, Function.update_self .., invoked⟩
  | entering =>
      exact ⟨_, by rw [act, at_], ghost, sound.enter at_ (unexpected.1 at_)⟩
  | starting =>
      rw [at_] at place
      exact ⟨_, by rw [act, at_], sound.see place (by rw [at_]; trivial)⟩
  | reading current =>
      rw [at_] at place
      obtain ⟨⟨kind, role, shared⟩, invoked⟩ := place
      obtain ⟨cell, stored⟩ := sound.memory.live role
      have swaps : (Place.swapping current cell.next).Sound thread system.heap ghost.role (ghost.statuses thread) :=
        ⟨⟨kind, role, shared⟩, fun _ => ⟨cell.value, stored⟩, invoked⟩
      refine ⟨_, by simp only [act, at_, stored], ghost, sound.goto swaps ?_ (by rw [at_]; exact Iff.rfl)⟩
      apply sound.spared.goto
      · nofun
      · intro node holds
        exact .inl (by rw [at_]; exact holds)
  | swapping current next =>
      rw [at_] at place
      by_cases swaps : system.stack_ = some current ∧ spurious = false
      · exact ⟨_, by simp only [act, at_]; exact if_pos swaps, sound.pop at_ swaps.1⟩
      · exact ⟨_, by simp only [act, at_]; exact if_neg swaps, sound.see place.2.2 (by rw [at_]; trivial)⟩
  | taking current =>
      rw [at_] at place
      obtain ⟨taken, value, next, stored, decided⟩ := place
      refine ⟨_, by simp only [act, at_, stored]; rfl, ghost, ?_⟩
      exact sound.write taken rfl ⟨taken, decided⟩ (sound.spared_goto rfl rfl) (by rw [at_]; exact Iff.rfl)
  | listing rest =>
      rw [at_] at place
      cases free : system.free_stack_ with
      | none =>
          refine ⟨_, by simp only [act, at_, free]; rfl, ghost, ?_⟩
          exact sound.goto place (sound.spared_goto rfl rfl) (by rw [at_]; exact Iff.rfl)
      | some head =>
          refine ⟨_, by simp only [act, at_, free]; rfl, ghost, ?_⟩
          exact sound.goto place (sound.spared_goto rfl rfl) (by rw [at_]; exact Iff.rfl)
  | counting head rest =>
      rw [at_] at place
      by_cases single : system.popped_count = 1
      · refine ⟨_, by simp only [act, at_]; rw [if_pos single], ghost, sound.count at_ single⟩
      · refine ⟨_, by simp only [act, at_]; rw [if_neg single], ghost, ?_⟩
        exact sound.goto place (sound.spared_goto rfl rfl) (by rw [at_]; exact Iff.rfl)
  | detaching head rest =>
      rw [at_] at place
      by_cases same : system.free_stack_ = some head
      · exact ⟨_, by simp only [act, at_]; exact if_pos same, sound.detach at_ same⟩
      · refine ⟨_, by simp only [act, at_]; exact if_neg same, ghost, ?_⟩
        exact sound.goto place (sound.spared_goto rfl rfl) (by rw [at_]; exact Iff.rfl)
  | erasing current rest =>
      rw [at_] at place
      obtain ⟨finishes, entries, chain, condemned⟩ := place
      cases current with
      | none =>
          refine ⟨_, by simp only [act, at_]; rfl, ghost, ?_⟩
          exact sound.goto finishes (sound.spared_goto rfl rfl) (by rw [at_]; exact Iff.rfl)
      | some current =>
          obtain ⟨cell, stored, deletes⟩ := sound.erase at_
          exact ⟨_, by simp only [act, at_, stored], ghost, deletes⟩
  | deleting current next rest =>
      rw [at_] at place
      obtain ⟨cell, stored⟩ := sound.memory.live place.2.1
      exact ⟨_, by simp only [act, at_, stored], sound.erased at_⟩
  | leaving rest =>
      rw [at_] at place
      have inside : (system.places thread).Inside := by rw [at_]; trivial
      have count := leave_count (sound.census.pos inside) sound.bounded
      cases rest with
      | empty =>
          refine ⟨_, by simp only [act, at_, count]; rfl, ghost, ?_⟩
          exact sound.leave at_ place id rfl rfl
      | taken current value =>
          by_cases last : system.popped_count - 1 = 0
          · exact ⟨_, by simp only [act, at_, count, if_pos last], sound.leave_last at_ last⟩
          · refine ⟨_, by simp only [act, at_, count, if_neg last]; rfl, ghost, ?_⟩
            exact sound.leave at_ place id rfl rfl
  | destroying current value =>
      rw [at_] at place
      obtain ⟨cell, stored⟩ := sound.memory.live place.1
      refine ⟨_, by simp only [act, at_, stored]; rfl, ?_⟩
      exact sound.delete place.1 place.2 (sound.spared_goto rfl rfl) (by rw [at_]; exact Iff.rfl)
  | relinking current value =>
      rw [at_] at place
      refine ⟨_, by rw [act, at_], ghost, ?_⟩
      exact sound.goto place (sound.spared_goto rfl rfl) (by rw [at_]; exact Iff.rfl)
  | relinked current head value =>
      rw [at_] at place
      obtain ⟨cell, stored⟩ := sound.memory.live place.1
      refine ⟨_, by simp only [act, at_, stored]; rfl, ghost, ?_⟩
      exact sound.write place.1 rfl place (sound.spared_goto rfl rfl) (by rw [at_]; exact Iff.rfl)
  | freeing current value =>
      rw [at_] at place
      obtain ⟨cell, stored⟩ := sound.memory.live place.1
      by_cases links : system.free_stack_ = cell.next ∧ spurious = false
      · refine ⟨_, by simp only [act, at_, stored]; exact if_pos links, ?_⟩
        apply sound.release at_ stored links.1
        exact unexpected.2 current (by rw [at_]; rfl) (by rw [stored, links.1]; rfl) links.2
      · refine ⟨_, by simp only [act, at_, stored]; exact if_neg links, ghost, ?_⟩
        exact sound.retry place.1 rfl at_ rfl rfl place
  | returning reply => exact ⟨_, by rw [act, at_], sound.respond at_⟩

theorem step_sound (sound : system.Sound ghost) (event : Event ι α T) (unexpected : system.Unexpected event) :
    ∃ next, system.step event = .ok next ∧ ∃ ghost, next.Sound ghost := by
  cases event with
  | act thread address spurious => exact act_sound sound thread address spurious unexpected
  | call thread operation =>
      cases at_ : system.places thread with
      | idle =>
          cases operation with
          | push value => exact ⟨_, by simp only [step, at_], sound.invoke at_ (.push value)⟩
          | pop => exact ⟨_, by simp only [step, at_], sound.invoke at_ .pop⟩
      | _ => exact ⟨system, by simp only [step, at_], ghost, sound⟩

end

/-- The condition on a run of the stack. -/
def UnexpectedRun [DecidableEq α] (schedule : List (Event ι α T)) : Prop :=
  Meets step Unexpected initial schedule

/-- **The stack is a stack.** In a run in which no address comes back to the head of the free
list behind the back of a thread that is about to detach it, no deleted node is used, and the
operations take effect one after the other. -/
theorem interleave_linearizable [DecidableEq α] {schedule : List (Event ι α T)}
    (unexpected : UnexpectedRun schedule) :
    ∃ system, interleave schedule = .ok system ∧ Linearizable lifo [] system.history ∧
      poppedValues system.history ≤ pushedValues system.history := by
  obtain ⟨system, ran, ghost, sound⟩ := @run_invariant _ _ _ step Unexpected
    (fun _ system => ∃ ghost, Sound system ghost)
    (fun _ system event ⟨_, sound⟩ unexpected => step_sound sound event unexpected)
    [] _ ⟨_, initial_sound⟩ schedule unexpected
  exact ⟨system, ran, ⟨_, _, _, sound.reached⟩, poppedValues_le sound.reached⟩

instance [Fintype ι] [DecidableEq α] [DecidableEq T] (system : System ι α T) (event : Event ι α T) :
    Decidable (system.Unexpected event) :=
  match event with
  | .call _ _ => .isTrue trivial
  | .act thread _ spurious =>
      inferInstanceAs (Decidable ((system.places thread = .entering → system.popped_count + 1 < sizeRange) ∧
        ∀ current ∈ (system.places thread).frees, (system.heap current).map Node.next = some system.free_stack_ →
          spurious = false → ∀ other, (system.places other).expects ≠ some current))

/-- A push at an address, and then a number of steps of a thread that pops. -/
def pushAt (thread : ι) (value : T) (address : α) : List (Event ι α T) :=
  .call thread (.push value) :: List.replicate 4 (.act thread address false)

def steps (thread : ι) (address : α) (count : Nat) : List (Event ι α T) :=
  List.replicate count (.act thread address false)

/-- Two pops at the same time, the second of which leaves its node to the free list. -/
theorem interleave_linearizable_pops : ∃ system : System (Fin 2) (Fin 2) Nat,
    interleave (pushAt 0 10 0 ++ pushAt 0 20 1 ++ .call 0 .pop :: steps 0 0 3 ++ .call 1 .pop :: steps 1 0 12 ++
      steps 0 0 12) = .ok system ∧ Linearizable lifo [] system.history ∧
      poppedValues system.history ≤ pushedValues system.history :=
  interleave_linearizable (by unfold UnexpectedRun; decide +kernel)

/-- Thread 1 is about to detach the list at node 2 when thread 2 detaches and deletes it. The
address comes back with a new node, which thread 3 holds when thread 1 deletes it. -/
theorem node_is_deleted_early : ∃ schedule : List (Event (Fin 5) (Fin 3) Nat),
    interleave schedule = .error .destroyedNode :=
  ⟨pushAt 4 10 0 ++ pushAt 4 11 1 ++ pushAt 4 12 2 ++ .call 2 .pop :: steps 2 0 1 ++ .call 3 .pop :: steps 3 0 11 ++
    steps 2 0 6 ++ .call 1 .pop :: steps 1 0 6 ++ steps 2 0 5 ++ steps 1 0 1 ++ pushAt 4 20 2 ++
    .call 3 .pop :: steps 3 0 2 ++ .call 0 .pop :: steps 0 0 10 ++ steps 1 0 3 ++ steps 3 0 1, rfl⟩

end System

end Dsac.LockFreeStack
