import Dsac.Concurrency.Fibers.Serving

namespace Dsac.Fibers

open Dsac.Library

/-! The order in which the routines of a tree run. -/

variable {L : Type}

/-- A routine and all those that are submitted below it. -/
def Routine.nodes : Routine L → List (Routine L)
  | mk label calls throws => mk label calls throws :: calls.flatMap nodes
decreasing_by
  have smaller := List.sizeOf_lt_of_mem ‹_›
  simp only [mk.sizeOf_spec]
  omega

theorem Routine.nodes_eq (routine : Routine L) : routine.nodes = routine :: routine.calls.flatMap Routine.nodes := by
  cases routine with
  | mk label calls throws => rw [Routine.nodes, Routine.calls]

/-- The routines of a tree, generation by generation. -/
def breadthFirst (root : Routine L) : List (Routine L) := generations Routine.calls root.nodes.length [root]

/-- The events of consecutive fibers. -/
def chapters : Addr → Addr → List (Routine L) → List (Event L)
  | _, _, [] => []
  | fiber, next, routine :: rest =>
      chapter fiber next routine ++ chapters (fiber + 1) (next + routine.calls.length) rest

/-- What a fiber goes through. -/
inductive Stage where
  | submitted
  | started
  | finished
  | destroyed
deriving DecidableEq, Repr

/-- The fiber that an event takes to a stage. -/
def Event.reaches (stage : Stage) : Event L → Option Addr
  | .given .. => none
  | .submitted _ fiber _ => if stage = .submitted then some fiber else none
  | .started fiber _ => if stage = .started then some fiber else none
  | .finished fiber => if stage = .finished then some fiber else none
  | .destroyed fiber => if stage = .destroyed then some fiber else none

def fibersAt (stage : Stage) (log : List (Event L)) : List Addr := log.filterMap (Event.reaches stage)

def Event.starts : Event L → Option (Routine L)
  | .started _ routine => some routine
  | _ => none

def startedRoutines (log : List (Event L)) : List (Routine L) := log.filterMap Event.starts

variable {self first fiber next caller parent child : Addr} {base tail log : List (Event L)} {waiting rest calls : List (Routine L)}
  {thread : Thread L} {routine root : Routine L} {fuel : Nat} {go : Routine L → Thread L → Outcome (Thread L)} {stage : Stage}

/-- The loop serves the queue until it is empty. -/
theorem Serving.run
    (nested : ∀ child thread, thread.kScheduler = some self → go child thread = Fibers.submitChild self child thread)
    (serving : Serving self base tail none first waiting thread) (enough : (waiting.flatMap Routine.nodes).length < fuel) :
    ∃ final more, drain go self fuel thread = .ok final ∧
      Serving self base (tail ++ more) none (first + (serve Routine.calls fuel waiting).length) [] final ∧
      told more = chapters first (first + waiting.length) (serve Routine.calls fuel waiting) ∧
      (∀ address < first, final.fibers.get address = thread.fibers.get address) ∧
      ∀ address, first ≤ address → address < first + (serve Routine.calls fuel waiting).length →
        final.fibers.get address = none := by
  induction fuel generalizing tail first waiting thread with
  | zero => cases enough
  | succ fuel inductionHypothesis =>
      cases waiting with
      | nil =>
          obtain ⟨free, here, _⟩ := serving.scheduler
          refine ⟨thread, [], ?_, by rwa [List.append_nil], rfl, fun _ _ => rfl, ?_⟩
          · rw [drain, scheduler_of_get here]
            rfl
          · intro address from_first below
            exact absurd from_first (Nat.not_le_of_lt below)
      | cons routine waiting =>
          obtain ⟨moved, more, step, servingMoved, story, destroyed, same⟩ := serving.turn nested fuel
          have fewer : ((waiting ++ routine.calls).flatMap Routine.nodes).length < fuel := by
            rw [List.flatMap_cons, Routine.nodes_eq, List.cons_append, List.length_cons, List.length_append] at enough
            rw [List.flatMap_append, List.length_append]
            omega
          obtain ⟨final, rest, run, servingFinal, restStory, restSame, restDestroyed⟩ := inductionHypothesis servingMoved fewer
          have length : first + 1 + (serve Routine.calls fuel (waiting ++ routine.calls)).length =
              first + (serve Routine.calls (fuel + 1) (routine :: waiting)).length := by
            rw [serve, List.length_cons, Nat.add_assoc, Nat.add_comm 1]
          rw [length] at servingFinal restDestroyed
          refine ⟨final, more ++ rest, ?_, ?_, ?_, ?_, ?_⟩
          · rw [step, run]
          · rwa [List.append_assoc] at servingFinal
          · rw [told_append, story, restStory, serve, chapters, List.length_cons, List.length_append]
            have here : first + 1 + waiting.length = first + (waiting.length + 1) := by
              rw [Nat.add_assoc, Nat.add_comm 1]
            rw [← Nat.add_assoc, here]
          · intro address below
            rw [restSame address (Nat.lt_succ_of_lt below), same address below]
          · intro address above below
            rcases Nat.eq_or_lt_of_le above with rfl | later
            · rw [restSame first (Nat.lt_succ_self first), destroyed]
            · exact restDestroyed address later below

theorem fibersAt_append (more : List (Event L)) : fibersAt stage (log ++ more) = fibersAt stage log ++ fibersAt stage more :=
  List.filterMap_append

theorem fibersAt_submissions (calls : List (Routine L)) :
    fibersAt stage (submissions caller next calls) = if stage = .submitted then List.range' next calls.length else [] := by
  induction calls generalizing next with
  | nil =>
      rw [submissions, List.length_nil, List.range'_zero, ite_self]
      rfl
  | cons routine calls inductionHypothesis =>
      have rest : (submissions caller (next + 1) calls).filterMap (Event.reaches stage) = _ := inductionHypothesis
      rw [submissions, fibersAt, List.filterMap_cons, rest, Event.reaches, List.length_cons, List.range'_succ]
      split_ifs
      · rfl
      · rfl

/-- The fibers go through the stages in the order of their addresses, and those that are submitted follow
each other. -/
theorem fibersAt_chapters (routines : List (Routine L)) :
    fibersAt stage (chapters fiber next routines) =
      if stage = .submitted then List.range' next (routines.flatMap Routine.calls).length
      else List.range' fiber routines.length := by
  induction routines generalizing fiber next with
  | nil =>
      rw [chapters, List.flatMap_nil, List.length_nil, List.range'_zero, List.range'_zero, ite_self]
      rfl
  | cons routine routines inductionHypothesis =>
      have one : fibersAt stage (chapter fiber next routine) =
          if stage = .submitted then List.range' next routine.calls.length else [fiber] := by
        have submitted : (submissions fiber next routine.calls).filterMap (Event.reaches stage) = _ :=
          fibersAt_submissions routine.calls
        rw [chapter, fibersAt, List.filterMap_cons, List.filterMap_append, submitted]
        cases stage with
        | submitted => exact List.append_nil _
        | started | finished | destroyed => rfl
      rw [chapters, fibersAt_append, one, inductionHypothesis, List.flatMap_cons, List.length_append, List.length_cons,
        List.range'_succ]
      split_ifs
      · exact List.range'_append_1
      · rfl

theorem startedRoutines_submissions (calls : List (Routine L)) : startedRoutines (submissions caller next calls) = [] := by
  induction calls generalizing next with
  | nil => rfl
  | cons routine calls inductionHypothesis => exact inductionHypothesis

theorem startedRoutines_chapters (routines : List (Routine L)) : startedRoutines (chapters fiber next routines) = routines := by
  induction routines generalizing fiber next with
  | nil => rfl
  | cons routine routines inductionHypothesis =>
      have calls : (submissions fiber next routine.calls).filterMap Event.starts = [] := startedRoutines_submissions routine.calls
      have rest : (chapters (fiber + 1) (next + routine.calls.length) routines).filterMap Event.starts = routines :=
        inductionHypothesis
      rw [chapters, startedRoutines, List.filterMap_append, rest, chapter, List.filterMap_cons, List.filterMap_append, calls]
      rfl

theorem mem_submissions {caller' : Option Addr} (member : Event.submitted caller' child routine ∈ submissions caller next calls) :
    caller' = some caller ∧ ∃ place : Nat, calls[place]? = some routine ∧ child = next + place := by
  induction calls generalizing next with
  | nil => cases member
  | cons first calls inductionHypothesis =>
      rcases List.mem_cons.mp member with same | later
      · rw [Event.submitted.injEq] at same
        obtain ⟨rfl, rfl, rfl⟩ := same
        exact ⟨rfl, 0, rfl, rfl⟩
      · obtain ⟨rfl, place, found, rfl⟩ := inductionHypothesis later
        exact ⟨rfl, place + 1, found, by rw [Nat.add_assoc, Nat.add_comm 1]⟩

theorem started_mem_chapters {routines : List (Routine L)} {place : Nat} (found : routines[place]? = some routine) :
    Event.started (fiber + place) routine ∈ chapters fiber next routines := by
  induction routines generalizing fiber next place with
  | nil => cases found
  | cons first routines inductionHypothesis =>
      rw [chapters]
      cases place with
      | zero =>
          rw [List.getElem?_cons_zero, Option.some.injEq] at found
          rw [found]
          exact List.mem_append_left _ (List.mem_cons_self ..)
      | succ place =>
          have later : Event.started (fiber + 1 + place) routine ∈ chapters (fiber + 1) (next + first.calls.length) routines :=
            inductionHypothesis found
          rw [Nat.add_assoc, Nat.add_comm 1] at later
          exact List.mem_append_right _ later

/-- A fiber starts after the one that has submitted it has finished. -/
theorem parent_finished (enough : (waiting.flatMap Routine.nodes).length ≤ fuel)
    (member : Event.submitted (some parent) child routine ∈
      chapters first (first + waiting.length) (serve Routine.calls fuel waiting)) :
    [Event.finished parent, .started child routine].Sublist
      (chapters first (first + waiting.length) (serve Routine.calls fuel waiting)) := by
  induction fuel generalizing first waiting with
  | zero => cases member
  | succ fuel inductionHypothesis =>
      cases waiting with
      | nil => cases member
      | cons front waiting =>
          have fewer : ((waiting ++ front.calls).flatMap Routine.nodes).length ≤ fuel := by
            rw [List.flatMap_cons, Routine.nodes_eq, List.cons_append, List.length_cons, List.length_append] at enough
            rw [List.flatMap_append, List.length_append]
            omega
          have place : first + (front :: waiting).length + front.calls.length = first + 1 + (waiting ++ front.calls).length := by
            rw [List.length_cons, List.length_append]
            simp only [Nat.add_assoc, Nat.add_comm]
          rw [serve, chapters, place] at member ⊢
          rcases List.mem_append.mp member with here | later
          · rw [chapter, List.mem_cons, List.mem_append] at here
            rcases here with impossible | here | impossible
            · cases impossible
            · obtain ⟨same, index, found, rfl⟩ := mem_submissions here
              obtain rfl := Option.some.inj same
              obtain ⟨less, _, _, split⟩ := serve_split Routine.nodes_eq fewer
              have queued : (serve Routine.calls fuel (waiting ++ front.calls))[waiting.length + index]? = some routine := by
                rw [split, List.append_assoc, List.getElem?_append_right (Nat.le_add_right _ _), Nat.add_sub_cancel_left]
                rw [List.getElem?_append_left (List.getElem?_eq_some_iff.mp found).1, found]
              have starts : Event.started (parent + 1 + (waiting.length + index)) routine ∈
                  chapters (parent + 1) (parent + 1 + (waiting ++ front.calls).length)
                    (serve Routine.calls fuel (waiting ++ front.calls)) := started_mem_chapters queued
              have shift : ∀ one two three : Nat, one + (two + 1) + three = one + 1 + (two + three) := by omega
              have address : parent + (front :: waiting).length + index = parent + 1 + (waiting.length + index) :=
                shift parent waiting.length index
              have finishes : Event.finished parent ∈ chapter parent (parent + (front :: waiting).length) front := by
                simp [chapter]
              rw [address]
              exact List.Sublist.append (List.singleton_sublist.mpr finishes) (List.singleton_sublist.mpr starts)
            · simp at impossible
          · exact (inductionHypothesis fewer later).trans (List.sublist_append_right _ _)

/-- The events of a call of `go`. -/
structure Story (root : Routine L) (first : Addr) (log : List (Event L)) : Prop where
  /-- Fiber after fiber starts, submits the routines that its own calls, finishes and is destroyed. -/
  chapters : told log = .submitted none first root :: chapters first (first + 1) (breadthFirst root)
  /-- Each fiber goes through each stage once, in the order of submission. -/
  once : ∀ stage, fibersAt stage log = List.range' first root.nodes.length
  routines : startedRoutines log = breadthFirst root
  parents : ∀ parent child routine, .submitted (some parent) child routine ∈ log →
    [Event.finished parent, .started child routine].Sublist log
  exclusive : Exclusive log

theorem serve_root (root : Routine L) (enough : root.nodes.length ≤ fuel) :
    serve Routine.calls fuel [root] = breadthFirst root := by
  have whole : [root].flatMap Routine.nodes = root.nodes := List.flatMap_singleton _ _
  exact serve_eq_generations Routine.nodes_eq (by rwa [whole]) (by rw [whole])

theorem breadthFirst_perm (root : Routine L) : (breadthFirst root).Perm root.nodes := by
  have whole : [root].flatMap Routine.nodes = root.nodes := List.flatMap_singleton _ _
  rw [← serve_root root (le_refl _)]
  have perm : (serve Routine.calls root.nodes.length [root]).Perm ([root].flatMap Routine.nodes) :=
    serve_perm Routine.nodes_eq (by rw [whole])
  rwa [whole] at perm

/-- All routines but the root are called by one of them. -/
theorem length_calls_breadthFirst (root : Routine L) :
    ((breadthFirst root).flatMap Routine.calls).length + 1 = root.nodes.length := by
  have whole : [root].flatMap Routine.nodes = root.nodes := List.flatMap_singleton _ _
  have perm : (serve Routine.calls root.nodes.length [root]).Perm _ :=
    serve_perm_children Routine.nodes_eq (by rw [whole])
  rw [serve_root root (le_refl _)] at perm
  rw [← (breadthFirst_perm root).length_eq, perm.length_eq, List.length_append, List.length_singleton, Nat.add_comm]

theorem filterMap_told {β : Type} {part : Event L → Option β} (quiet : ∀ fiber stack, part (.given fiber stack) = none) :
    (told log).filterMap part = log.filterMap part := by
  rw [told, List.filterMap_filter]
  refine List.filterMap_congr ?_
  intro event _
  cases event with
  | given fiber stack => exact (quiet fiber stack).symm
  | submitted | started | finished | destroyed => rfl

theorem fibersAt_told (log : List (Event L)) : fibersAt stage (told log) = fibersAt stage log :=
  filterMap_told fun _ _ => rfl

theorem startedRoutines_told (log : List (Event L)) : startedRoutines (told log) = startedRoutines log :=
  filterMap_told fun _ _ => rfl

theorem story_of_told {log : List (Event L)}
    (story : told log = .submitted none first root :: Fibers.chapters first (first + 1) (breadthFirst root))
    (exclusive : Exclusive log) : Story root first log := by
  constructor
  · exact story
  · intro stage
    have length := (breadthFirst_perm root).length_eq
    have calls := length_calls_breadthFirst root
    have later : (Fibers.chapters first (first + 1) (breadthFirst root)).filterMap (Event.reaches stage) = _ :=
      fibersAt_chapters (breadthFirst root)
    rw [← fibersAt_told, story, fibersAt, List.filterMap_cons, later, Event.reaches, length, ← calls]
    split_ifs
    · rw [List.range'_succ]
    · rfl
  · rw [← startedRoutines_told, story]
    exact startedRoutines_chapters (breadthFirst root)
  · intro parent child routine member
    have kept : Event.submitted (some parent) child routine ∈ told log := List.mem_filter.mpr ⟨member, rfl⟩
    have whole : [root].flatMap Routine.nodes = root.nodes := List.flatMap_singleton _ _
    rw [story, ← serve_root root (le_refl _)] at kept
    rcases List.mem_cons.mp kept with impossible | kept
    · cases impossible
    · have ordered := parent_finished (by rw [whole] : ([root].flatMap Routine.nodes).length ≤ root.nodes.length) kept
      rw [serve_root root (le_refl _)] at ordered
      have inside : (Fibers.chapters first (first + 1) (breadthFirst root)).Sublist (told log) := by
        rw [story]
        exact List.sublist_cons_self _ _
      exact (ordered.trans inside).trans List.filter_sublist
  · exact exclusive

/-- A thread without a scheduler that calls `go` runs all the routines of the tree, and then it has no
scheduler and none of the fibers. -/
theorem go_story (root : Routine L) (thread : Thread L) (outside : thread.kScheduler = none)
    (enough : root.nodes.length + 1 < fuel) :
    ∃ final log, Fibers.go fuel root thread = .ok final ∧ final.log = thread.log ++ log ∧
      Story root thread.fibers.fresh log ∧ (breadthFirst root).Perm root.nodes ∧ final.kScheduler = none ∧
      ∀ fiber ∈ fibersAt .submitted log, final.fibers.get fiber = none := by
  obtain ⟨fuel, rfl⟩ := Nat.exists_eq_add_one_of_ne_zero (by omega : fuel ≠ 0)
  have nested : ∀ child (inner : Thread L), inner.kScheduler = some thread.schedulers.fresh →
      Fibers.go fuel child inner = submitChild thread.schedulers.fresh child inner := by
    intro child inner active
    obtain ⟨fuel, rfl⟩ := Nat.exists_eq_add_one_of_ne_zero (by omega : fuel ≠ 0)
    rw [Fibers.go, active]
  have start : Serving thread.schedulers.fresh thread.log [] none thread.fibers.fresh []
      { thread with schedulers := thread.schedulers.alloc {}, kScheduler := some thread.schedulers.fresh } := by
    refine ⟨rfl, (List.append_nil _).symm, ⟨[], Heap.get_alloc_fresh, List.nodup_nil, by simp [holders]⟩, rfl, ?_, ?_⟩
    · intro index routine found
      cases found
    · intro begun rest split
      rw [(List.append_eq_nil_iff.mp split.symm).1]
      exact List.nodup_nil
  obtain ⟨entered, stack, submitted, serving, _⟩ := start.submitChild root
  have whole : [root].flatMap Routine.nodes = root.nodes := List.flatMap_singleton _ _
  have fewer : (([] ++ [root]).flatMap Routine.nodes).length < fuel := by
    rw [List.nil_append, whole]
    omega
  obtain ⟨final, more, run, servingFinal, story, _, destroyed⟩ := serving.run nested fewer
  rw [List.nil_append, serve_root root (by omega)] at story destroyed
  have whole := story_of_told (by rw [told_append, story]; rfl) servingFinal.exclusive
  refine ⟨{ final with kScheduler := none, schedulers := final.schedulers.free thread.schedulers.fresh }, _, ?_,
    servingFinal.logged, whole, breadthFirst_perm root, rfl, ?_⟩
  · rw [Fibers.go, outside]
    simp only [submitEntry, submitted, run, Outcome.ok_bind]
  · intro fiber member
    rw [whole.once, List.mem_range'_1, ← (breadthFirst_perm root).length_eq] at member
    exact destroyed fiber member.1 member.2

/-- A routine that submits two others, of which the first submits one more and throws. -/
theorem go_story_four :
    let root : Routine Nat := .mk 0 [.mk 1 [.mk 3 [] false] true, .mk 2 [] false] false
    ({} : Thread Nat).kScheduler = none ∧ root.nodes.length + 1 < 6 ∧
      ∃ final log, Fibers.go 6 root {} = .ok final ∧ final.log = [] ++ log ∧ Story root 0 log ∧
        (breadthFirst root).Perm root.nodes ∧ final.kScheduler = none ∧
        ∀ fiber ∈ fibersAt .submitted log, final.fibers.get fiber = none :=
  ⟨rfl, by simp [Routine.nodes], go_story _ {} rfl (by simp [Routine.nodes])⟩

end Dsac.Fibers
