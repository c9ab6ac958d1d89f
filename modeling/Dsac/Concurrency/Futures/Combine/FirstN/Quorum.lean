import Dsac.Concurrency.Futures.Combine.FirstN
import Dsac.Concurrency.Futures.Combine.Discipline

namespace Dsac.Futures.FirstN

open Dsac.Library

/-! The callbacks of `first_n`: the `n` that come first on `completed` store their
results, and the last of these to come to `stored` publishes them. -/

variable {m : Nat} {R E : Type}

/-- The first `n` callbacks to increment `completed`. -/
def Context.winners (context : Context m R) (n : Nat) : List (Fin m) := context.arrivals.take n

scoped instance lawfulBEq_index : LawfulBEq (Fin m) := inferInstance

/-- The results of the given futures among the first `j`, in the order of their index. -/
def gather (results : Fin m → R) (winners : List (Fin m)) (j : Nat) : List R :=
  (((List.finRange m).take j).filter (· ∈ winners)).map results

/-- The callback has incremented `completed`. -/
def Arrived : Progress (Place R) → Bool
  | .waiting | .inside (.counting _) => false
  | .inside (.writing _) | .inside .storing | .inside (.gathering _ _) | .past => true

/-- If admitted, the callback has written its entry of `v`. -/
def Written : Progress (Place R) → Bool
  | .waiting | .inside (.counting _) | .inside (.writing _) => false
  | .inside .storing | .inside (.gathering _ _) | .past => true

/-- If admitted, the callback has incremented `stored`. -/
def Stored : Progress (Place R) → Bool
  | .waiting | .inside (.counting _) | .inside (.writing _) | .inside .storing => false
  | .inside (.gathering _ _) | .past => true

/-- Who reads `v`, and what was taken out of it. -/
inductive Scanning (results : Fin m → R) (n : Nat) (context : Context m R)
    (places : Fin m → Progress (Place R)) : Option (Fin m × Except String (List R)) → Prop where
  | filling (open_ : context.stored < n ∨ n = 0)
      (nobody : ∀ index j gathered, places index ≠ .inside (.gathering j gathered))
      (entries : ∀ index ∈ context.winners n, Written (places index) →
        context.v index = some (some (results index))) :
      Scanning results n context places none
  | gathering (index : Fin m) (j : Nat) (full : context.stored = n)
      (admitted : index ∈ context.winners n)
      (at_ : places index = .inside (.gathering j (gather results (context.winners n) j)))
      (alone : ∀ other, other ≠ index → ∀ j gathered, places other ≠ .inside (.gathering j gathered))
      (entries : ∀ other ∈ context.winners n, (other : Nat) ≥ j →
        context.v other = some (some (results other))) :
      Scanning results n context places none
  | published (index : Fin m) (full : context.stored = n)
      (admitted : index ∈ context.winners n)
      (nobody : ∀ index j gathered, places index ≠ .inside (.gathering j gathered)) :
      Scanning results n context places
        (some (index, .ok (gather results (context.winners n) m)))

/-- The result that the callback holds is the one of its future. -/
def Carries (result : R) : Progress (Place R) → Prop
  | .inside (.counting data) | .inside (.writing data) => data = result
  | _ => True

/-- The callback was let past the test of `completed` and has not passed `stored`. -/
def Storing : Progress (Place R) → Prop
  | .inside (.writing _) | .inside .storing => True
  | _ => False

/-- What the place of one callback says about the context. -/
structure Stands (results : Fin m → R) (n : Nat) (context : Context m R) (index : Fin m)
    (place : Progress (Place R)) : Prop where
  arrived : index ∈ context.arrivals ↔ Arrived place
  carries : Carries (results index) place
  admitted : Storing place → index ∈ context.winners n
  empty : index ∉ context.winners n ∨ ¬ Written place → context.v index = none

/-- The invariant of the callbacks. -/
structure Invariant (results : Fin m → R) (n : Nat) (context : Context m R)
    (places : Fin m → Progress (Place R))
    (published : Option (Fin m × Except String (List R))) : Prop where
  limit : context.min = n
  distinct : context.arrivals.Nodup
  counted : context.completed = context.arrivals.length
  stands : ∀ index, Stands results n context index (places index)
  stored : context.stored = (context.winners n).countP fun index => Stored (places index)
  scanning : Scanning results n context places published

theorem initial_invariant (results : Fin m → R) (n : Nat) :
    Invariant results n (firstN n : Lambda (Fin m) R _ _ _).context (fun _ => .waiting) none where
  limit := rfl
  distinct := List.nodup_nil
  counted := rfl
  stands _ := ⟨by simp [firstN, Arrived], trivial, False.elim, fun _ => rfl⟩
  stored := by simp [firstN, Context.winners]
  scanning := by
    refine .filling ?_ (fun _ _ _ => nofun) ?_
    · simp only [firstN]
      omega
    · intro index admitted
      simp [firstN, Context.winners] at admitted

section

variable {results : Fin m → R} {n : Nat} {context : Context m R}
  {places : Fin m → Progress (Place R)} {published : Option (Fin m × Except String (List R))}

/-- A callback that does not pass `stored` leaves the count as it is. -/
theorem countP_update_of_eq {index : Fin m} {next : Progress (Place R)} {winners : List (Fin m)}
    (same : index ∈ winners → Stored next = Stored (places index)) :
    winners.countP (fun other => Stored (Function.update places index next other)) =
      winners.countP fun other => Stored (places other) := by
  refine List.countP_congr fun other admitted => ?_
  by_cases here : other = index
  · subst here
    rw [Function.update_self, same admitted]
  · rw [Function.update_of_ne here]

/-- A winner that passes `stored` counts once more. -/
theorem countP_update_of_stored {index : Fin m} (next : Progress (Place R))
    {winners : List (Fin m)} (distinct : winners.Nodup) (admitted : index ∈ winners)
    (before : Stored (places index) = false) (after : Stored next = true) :
    winners.countP (fun other => Stored (Function.update places index next other)) =
      winners.countP (fun other => Stored (places other)) + 1 := by
  induction winners with
  | nil => cases admitted
  | cons first rest ih =>
      obtain ⟨outside, distinct⟩ := List.nodup_cons.mp distinct
      rcases List.mem_cons.mp admitted with rfl | inside
      · rw [List.countP_cons, List.countP_cons, Function.update_self,
          countP_update_of_eq (fun inside => absurd inside outside)]
        simp [before, after]
      · have different : first ≠ index := fun same => outside (same ▸ inside)
        rw [List.countP_cons, List.countP_cons, Function.update_of_ne different, ih distinct inside]
        omega

theorem written_of_stored {place : Progress (Place R)} (passed : Stored place = true) :
    Written place = true := by
  rcases place with _ | (_ | _ | _ | _) | _
  case inside.gathering => rfl
  case past => rfl
  all_goals cases passed

theorem not_stored_of_storing {place : Progress (Place R)} (storing : Storing place) :
    ¬ Stored place = true := by
  rcases place with _ | (_ | _ | _ | _) | _
  case inside.gathering => cases storing
  case past => cases storing
  all_goals nofun

theorem Invariant.winners_length (inv : Invariant results n context places published) :
    (context.winners n).length = min n context.completed := by
  rw [Context.winners, List.length_take, inv.counted]

theorem Invariant.winners_distinct (inv : Invariant results n context places published) :
    (context.winners n).Nodup := inv.distinct.sublist (List.take_sublist _ _)

theorem Invariant.stored_le (inv : Invariant results n context places published) : context.stored ≤ n := by
  have counted : (context.winners n).countP (fun index => Stored (places index)) ≤
      (context.winners n).length := List.countP_le_length
  rw [← inv.stored, inv.winners_length] at counted
  omega

/-- Once `n` callbacks have passed `stored`, all the winners have. -/
theorem Invariant.all_stored (inv : Invariant results n context places published) (full : context.stored = n) :
    n ≤ context.completed ∧ ∀ index ∈ context.winners n, Stored (places index) = true := by
  have counted : (context.winners n).countP (fun index => Stored (places index)) ≤
      (context.winners n).length := List.countP_le_length
  rw [← inv.stored, inv.winners_length] at counted
  refine ⟨by omega, ?_⟩
  apply List.countP_eq_length.mp
  rw [← inv.stored, inv.winners_length]
  omega

theorem Stands.moves {next : Context m R} {index : Fin m} {after : Progress (Place R)}
    (others : ∀ other, other ≠ index → Stands results n next other (places other))
    (here : Stands results n next index after) (other : Fin m) :
    Stands results n next other (Function.update places index after other) := by
  by_cases same : other = index
  · subst same
    simpa only [Function.update_self] using here
  · simpa only [Function.update_of_ne same] using others other same

/-- The callback is not reading `v`. -/
def Quiet (place : Progress (Place R)) : Prop :=
  ∀ j gathered, place ≠ .inside (.gathering j gathered)

theorem Quiet.moves {index : Fin m} {after : Progress (Place R)} (quiet : Quiet after)
    {other : Fin m} (before : Quiet (places other)) :
    Quiet (Function.update places index after other) := by
  by_cases same : other = index
  · subst same
    simpa only [Function.update_self] using quiet
  · simpa only [Function.update_of_ne same] using before

/-- A callback that neither reads nor writes `v` does not disturb the one that does. -/
theorem Scanning.moves {next : Context m R} {after : Progress (Place R)} {index : Fin m}
    (scanning : Scanning results n context places published) (before : Quiet (places index))
    (quiet : Quiet after)
    (written : index ∈ context.winners n → Written after = Written (places index))
    (stored : next.stored = context.stored) (v : next.v = context.v)
    (winners : next.winners n = context.winners n) :
    Scanning results n next (Function.update places index after) published := by
  cases scanning with
  | filling open_ nobody entries =>
      refine .filling (stored ▸ open_) (fun other => quiet.moves (nobody other)) ?_
      intro other admitted wrote
      rw [winners] at admitted
      rw [v]
      refine entries other admitted ?_
      by_cases same : other = index
      · subst same
        rwa [Function.update_self, written admitted] at wrote
      · rwa [Function.update_of_ne same] at wrote
  | gathering scanner j full admitted at_ others entries =>
      have different : scanner ≠ index := fun same => before _ _ (same ▸ at_)
      refine .gathering scanner j (stored.trans full) (winners ▸ admitted) ?_
        (fun other apart => quiet.moves (others other apart)) ?_
      · rwa [Function.update_of_ne different, winners]
      · rwa [winners, v]
  | published setter full admitted nobody =>
      rw [← winners]
      exact .published setter (stored.trans full) (winners ▸ admitted) fun other =>
        quiet.moves (nobody other)

theorem enter_invariant (inv : Invariant results n context places published) {index : Fin m}
    (at_ : places index = .waiting) :
    Invariant results n context
      (Function.update places index (.inside (.counting (results index)))) published where
  limit := inv.limit
  distinct := inv.distinct
  counted := inv.counted
  stands := by
    have stood := at_ ▸ inv.stands index
    exact Stands.moves (fun other _ => inv.stands other)
      ⟨stood.arrived, rfl, False.elim, stood.empty⟩
  stored := inv.stored.trans (countP_update_of_eq fun _ => by rw [at_]; rfl).symm
  scanning := inv.scanning.moves (by rw [at_]; nofun) nofun (fun _ => by rw [at_]; rfl) rfl rfl rfl

theorem winners_append (context : Context m R) (index : Fin m)
    (crowded : n ≤ context.arrivals.length) :
    ({ context with completed := 1 + context.completed, arrivals := context.arrivals ++ [index] } :
      Context m R).winners n = context.winners n :=
  List.take_append_of_le_length crowded

/-- A callback that comes after the first `n` leaves. -/
theorem count_late_invariant (inv : Invariant results n context places published) {index : Fin m}
    {data : R} (at_ : places index = .inside (.counting data)) (late : n ≤ context.completed) :
    Invariant results n
      { context with completed := 1 + context.completed, arrivals := context.arrivals ++ [index] }
      (Function.update places index .past) published := by
  have stood := at_ ▸ inv.stands index
  have new : index ∉ context.arrivals := fun old => nomatch stood.arrived.mp old
  have winners := winners_append context index (inv.counted ▸ late)
  have loses : index ∉ context.winners n := fun wins => new (List.mem_of_mem_take wins)
  refine ⟨inv.limit, ?_, ?_, ?_, ?_, ?_⟩
  · exact List.nodup_append_comm.mp (List.nodup_cons.mpr ⟨new, inv.distinct⟩)
  · simp only [List.length_append, List.length_singleton, inv.counted]
    omega
  · refine Stands.moves (fun other different => ?_) ⟨by simp [Arrived], trivial, False.elim, fun _ =>
      stood.empty (Or.inl loses)⟩
    have stood := inv.stands other
    exact ⟨by simpa [different] using stood.arrived, stood.carries, winners ▸ stood.admitted,
      winners ▸ stood.empty⟩
  · rw [winners]
    exact inv.stored.trans (countP_update_of_eq fun wins => absurd wins loses).symm
  · exact inv.scanning.moves (by rw [at_]; nofun) nofun (fun wins => absurd wins loses) rfl rfl winners

/-- One of the first `n` callbacks is let past the test. -/
theorem count_early_invariant (inv : Invariant results n context places published) {index : Fin m}
    {data : R} (at_ : places index = .inside (.counting data)) (early : context.completed < n) :
    Invariant results n
      { context with completed := 1 + context.completed, arrivals := context.arrivals ++ [index] }
      (Function.update places index (.inside (.writing data))) published := by
  have stood := at_ ▸ inv.stands index
  have new : index ∉ context.arrivals := fun old => nomatch stood.arrived.mp old
  have room : context.arrivals.length < n := inv.counted ▸ early
  have all : context.winners n = context.arrivals := List.take_of_length_le (Nat.le_of_lt room)
  have winners : ({ context with
      completed := 1 + context.completed, arrivals := context.arrivals ++ [index] } :
      Context m R).winners n = context.winners n ++ [index] := by
    rw [all]
    exact List.take_of_length_le (by simpa using room)
  have loses : index ∉ context.winners n := all ▸ new
  refine ⟨inv.limit, ?_, ?_, ?_, ?_, ?_⟩
  · exact List.nodup_append_comm.mp (List.nodup_cons.mpr ⟨new, inv.distinct⟩)
  · simp only [List.length_append, List.length_singleton, inv.counted]
    omega
  · refine Stands.moves (fun other different => ?_) ⟨by simp [Arrived], stood.carries, fun _ => by
      simp [winners], fun _ => stood.empty (Or.inl loses)⟩
    have stood := inv.stands other
    refine ⟨by simpa [different] using stood.arrived, stood.carries, fun storing => ?_, ?_⟩
    · exact winners ▸ List.mem_append_left _ (stood.admitted storing)
    · rw [winners]
      exact fun outside => stood.empty (outside.imp_left fun absent => fun wins =>
        absent (List.mem_append_left _ wins))
  · rw [winners, List.countP_append, countP_update_of_eq (fun wins => absurd wins loses)]
    simpa [Stored] using inv.stored
  · cases inv.scanning with
    | filling open_ nobody entries =>
        have quiet : Quiet (.inside (.writing data) : Progress (Place R)) := fun _ _ => nofun
        refine .filling open_ (fun other => quiet.moves (nobody other)) ?_
        intro other admitted wrote
        by_cases same : other = index
        · subst same
          simp [Written] at wrote
        · rw [Function.update_of_ne same] at wrote
          rw [winners] at admitted
          exact entries other (by simpa [same] using admitted) wrote
    | gathering _ _ full => exact absurd (inv.all_stored full).1 (Nat.not_le.mpr early)
    | published _ full => exact absurd (inv.all_stored full).1 (Nat.not_le.mpr early)

/-- No winner is still to pass `stored` when another reads `v` or has read it. -/
theorem Invariant.open_of_storing (inv : Invariant results n context places published)
    {index : Fin m} (storing : Storing (places index)) :
    context.stored < n ∧ published = none ∧
      (∀ other, Quiet (places other)) ∧
      ∀ other ∈ context.winners n, Written (places other) →
        context.v other = some (some (results other)) := by
  have admitted := (inv.stands index).admitted storing
  have behind : ¬ Stored (places index) = true := not_stored_of_storing storing
  cases inv.scanning with
  | filling open_ nobody entries =>
      refine ⟨open_.resolve_right fun zero => ?_, rfl, nobody, entries⟩
      subst zero
      simp [Context.winners] at admitted
  | gathering _ _ full => exact absurd ((inv.all_stored full).2 index admitted) behind
  | published _ full => exact absurd ((inv.all_stored full).2 index admitted) behind

/-- A winner writes its entry. -/
theorem write_invariant (inv : Invariant results n context places published) {index : Fin m}
    {data : R} (at_ : places index = .inside (.writing data)) :
    Invariant results n { context with v := Function.update context.v index (some (some data)) }
      (Function.update places index (.inside .storing)) published := by
  have stood := at_ ▸ inv.stands index
  obtain ⟨open_, rfl, nobody, entries⟩ := inv.open_of_storing (by rw [at_]; trivial)
  have same : data = results index := stood.carries
  subst same
  refine ⟨inv.limit, inv.distinct, inv.counted, ?_, ?_, ?_⟩
  · refine Stands.moves (fun other different => ?_) ⟨stood.arrived, trivial, stood.admitted, ?_⟩
    · have stood := inv.stands other
      refine ⟨stood.arrived, stood.carries, stood.admitted, fun outside => ?_⟩
      exact (Function.update_of_ne different _ _).trans (stood.empty outside)
    · rintro (loses | unwritten)
      · exact absurd (stood.admitted trivial) loses
      · exact absurd rfl unwritten
  · exact inv.stored.trans (countP_update_of_eq fun _ => by rw [at_]; rfl).symm
  · have quiet : Quiet (.inside .storing : Progress (Place R)) := fun _ _ => nofun
    refine .filling (Or.inl open_) (fun other => quiet.moves (nobody other)) ?_
    intro other admitted wrote
    by_cases same : other = index
    · subst same
      exact Function.update_self _ _ _
    · rw [Function.update_of_ne same] at wrote
      exact (Function.update_of_ne same _ _).trans (entries other admitted wrote)

/-- A winner passes `stored`; what it goes on to is `after`. -/
theorem store_invariant (inv : Invariant results n context places published) {index : Fin m}
    {after : Progress (Place R)} (at_ : places index = .inside .storing)
    (written : Written after = true) (passed : Stored after = true) (arrived : Arrived after = true)
    (carries : Carries (results index) after) (through : ¬ Storing after)
    (scanning : Scanning results n { context with stored := 1 + context.stored }
      (Function.update places index after) published) :
    Invariant results n { context with stored := 1 + context.stored }
      (Function.update places index after) published := by
  have stood := at_ ▸ inv.stands index
  have admitted := stood.admitted trivial
  refine ⟨inv.limit, inv.distinct, inv.counted, ?_, ?_, scanning⟩
  · refine Stands.moves (fun other _ => ?_) ⟨?_, carries, fun storing => absurd storing through, ?_⟩
    · have stood := inv.stands other
      exact ⟨stood.arrived, stood.carries, stood.admitted, stood.empty⟩
    · exact stood.arrived.trans (by rw [arrived]; rfl)
    · rintro (loses | unwritten)
      · exact absurd admitted loses
      · exact absurd written unwritten
  · have before : Stored (places index) = false := by rw [at_]; rfl
    have counted := countP_update_of_stored after inv.winners_distinct admitted before passed
    have stored := inv.stored
    show 1 + context.stored = (context.winners n).countP _
    omega

/-- A winner that is not the last to store its result leaves. -/
theorem store_early_invariant (inv : Invariant results n context places published)
    {index : Fin m} (at_ : places index = .inside .storing) (early : 1 + context.stored < n) :
    Invariant results n { context with stored := 1 + context.stored }
      (Function.update places index .past) published := by
  obtain ⟨_, rfl, nobody, entries⟩ := inv.open_of_storing (by rw [at_]; trivial)
  refine store_invariant inv at_ rfl rfl rfl trivial id ?_
  have quiet : Quiet (.past : Progress (Place R)) := fun _ _ => nofun
  refine .filling (Or.inl early) (fun other => quiet.moves (nobody other)) ?_
  intro other admitted wrote
  by_cases same : other = index
  · subst same
    exact entries other admitted (by rw [at_]; rfl)
  · rw [Function.update_of_ne same] at wrote
    exact entries other admitted wrote

/-- The last winner to store its result goes on to read `v`. -/
theorem store_last_invariant (inv : Invariant results n context places published)
    {index : Fin m} (at_ : places index = .inside .storing) (last : ¬ 1 + context.stored < n) :
    Invariant results n { context with stored := 1 + context.stored }
      (Function.update places index (.inside (.gathering 0 []))) published := by
  obtain ⟨open_, rfl, nobody, entries⟩ := inv.open_of_storing (by rw [at_]; trivial)
  have admitted := (inv.stands index).admitted (by rw [at_]; trivial)
  refine store_invariant inv at_ rfl rfl rfl trivial id ?_
  have full : 1 + context.stored = n := by omega
  have before : Stored (places index) = false := by rw [at_]; rfl
  have all : ∀ other ∈ context.winners n,
      Stored (Function.update places index (.inside (.gathering 0 [])) other) = true := by
    have counted := countP_update_of_stored (.inside (.gathering 0 [])) inv.winners_distinct
      admitted before rfl
    have stored := inv.stored
    have winners := inv.winners_length
    have bounded : (context.winners n).countP (fun other =>
        Stored (Function.update places index (.inside (.gathering 0 [])) other)) ≤
          (context.winners n).length := List.countP_le_length
    apply List.countP_eq_length.mp
    omega
  refine .gathering index 0 full admitted ?_ ?_ ?_
  · rw [Function.update_self]
    rfl
  · intro other different
    rw [Function.update_of_ne different]
    exact nobody other
  · intro other wins _
    by_cases same : other = index
    · subst same
      exact entries other wins (by rw [at_]; rfl)
    · have passed := all other wins
      rw [Function.update_of_ne same] at passed
      exact entries other wins (written_of_stored passed)

theorem gather_succ (results : Fin m → R) (winners : List (Fin m)) {j : Nat} (inside : j < m) :
    gather results winners (j + 1) =
      gather results winners j ++ if ⟨j, inside⟩ ∈ winners then [results ⟨j, inside⟩] else [] := by
  have next : (List.finRange m).take (j + 1) = (List.finRange m).take j ++ [⟨j, inside⟩] := by
    rw [List.take_add_one, List.getElem?_eq_getElem (by simpa using inside)]
    simp
  rw [gather, gather, next, List.filter_append, List.map_append]
  split
  next wins => simp [wins]
  next loses => simp [loses]

theorem gather_of_le (results : Fin m → R) (winners : List (Fin m)) {j : Nat} (beyond : m ≤ j) :
    gather results winners j = gather results winners m := by
  rw [gather, gather, List.take_of_length_le (by simpa using beyond),
    List.take_of_length_le (by simp)]

/-- The whole array is read back in the order of the indices, one result for each winner. -/
theorem gather_length (results : Fin m → R) {winners : List (Fin m)} (distinct : winners.Nodup) :
    (gather results winners m).length = winners.length := by
  have all : (List.finRange m).take m = List.finRange m := List.take_of_length_le (by simp)
  rw [gather, all, List.length_map]
  have same : ((List.finRange m).filter (· ∈ winners)).Perm winners := by
    rw [List.perm_ext_iff_of_nodup ((List.nodup_finRange m).filter _) distinct]
    simp
  exact same.length_eq

/-- Only one callback reads `v`, and it has collected the entries before the next. -/
theorem Invariant.of_gathering (inv : Invariant results n context places published)
    {index : Fin m} {j : Nat} {gathered : List R}
    (at_ : places index = .inside (.gathering j gathered)) :
    published = none ∧ context.stored = n ∧ index ∈ context.winners n ∧
      gathered = gather results (context.winners n) j ∧
      (∀ other, other ≠ index → Quiet (places other)) ∧
      ∀ other ∈ context.winners n, (other : Nat) ≥ j →
        context.v other = some (some (results other)) := by
  cases inv.scanning with
  | filling _ nobody _ => exact absurd at_ (nobody index j gathered)
  | published _ _ _ nobody => exact absurd at_ (nobody index j gathered)
  | gathering scanner k full admitted standing alone entries =>
      have same : index = scanner := by
        by_contra different
        exact alone index different j gathered at_
      subst same
      cases at_.symm.trans standing
      exact ⟨rfl, full, admitted, rfl, alone, entries⟩

/-- The reader of `v` goes on; `after` is its next place, and the entries it has left
behind may change. -/
theorem gather_invariant (inv : Invariant results n context places none) {index : Fin m} {j : Nat}
    {gathered : List R} (at_ : places index = .inside (.gathering j gathered))
    {v : Fin m → Option (Option R)} {after : Progress (Place R)}
    {published : Option (Fin m × Except String (List R))}
    (kept : ∀ other ∉ context.winners n, v other = context.v other)
    (written : Written after = true) (passed : Stored after = true) (arrived : Arrived after = true)
    (carries : Carries (results index) after) (through : ¬ Storing after)
    (scanning : Scanning results n { context with v } (Function.update places index after) published) :
    Invariant results n { context with v } (Function.update places index after) published := by
  have stood := at_ ▸ inv.stands index
  obtain ⟨_, full, admitted, _⟩ := inv.of_gathering at_
  refine ⟨inv.limit, inv.distinct, inv.counted, ?_, ?_, scanning⟩
  · refine Stands.moves (fun other _ => ?_) ⟨?_, carries, fun storing => absurd storing through, ?_⟩
    · have stood := inv.stands other
      refine ⟨stood.arrived, stood.carries, stood.admitted, fun outside => ?_⟩
      by_cases wins : other ∈ context.winners n
      · have wrote := written_of_stored ((inv.all_stored full).2 other wins)
        exact absurd (outside.resolve_left (not_not.mpr wins)) (not_not.mpr wrote)
      · exact (kept other wins).trans (stood.empty outside)
    · exact stood.arrived.trans (by rw [arrived]; rfl)
    · rintro (loses | unwritten)
      · exact absurd admitted loses
      · exact absurd written unwritten
  · exact inv.stored.trans (countP_update_of_eq fun _ => by rw [at_, passed]; rfl).symm

theorem gather_steps (inv : Invariant results n context places published) {index : Fin m} {j : Nat}
    {gathered : List R} (at_ : places index = .inside (.gathering j gathered)) :
    ∃ next after, step index (.gathering j gathered) context = .ok (next, after) ∧
      next.Keeps (Invariant results n) places published index after := by
  obtain ⟨rfl, full, admitted, rfl, alone, entries⟩ := inv.of_gathering at_
  have onward : ∀ {v : Fin m → Option (Option R)} {gathered : List R},
      (∀ other : Fin m, (other : Nat) ≠ j → v other = context.v other) →
      (∀ other ∉ context.winners n, v other = context.v other) →
      gather results (context.winners n) (j + 1) = gathered →
      Invariant results n { context with v }
        (Function.update places index (.inside (.gathering (j + 1) gathered))) none := by
    rintro v _ elsewhere kept rfl
    refine gather_invariant inv at_ kept rfl rfl rfl trivial id ?_
    refine .gathering index (j + 1) full admitted (Function.update_self _ _ _) ?_ ?_
    · intro other different
      rw [Function.update_of_ne different]
      exact alone other different
    · intro other wins beyond
      exact (elsewhere other (by omega)).trans (entries other wins (by omega))
  by_cases inside : j < m
  · by_cases wins : (⟨j, inside⟩ : Fin m) ∈ context.winners n
    · have entry : context.v ⟨j, inside⟩ = some (some (results ⟨j, inside⟩)) :=
        entries ⟨j, inside⟩ wins (Nat.le_refl j)
      refine ⟨.goto (.gathering (j + 1) (gather results (context.winners n) j ++ [results ⟨j, inside⟩])),
        { context with v := Function.update context.v ⟨j, inside⟩ (some none) },
        by simp only [step, inside, dif_pos, entry],
        onward (fun other different => ?_) (fun other loses => ?_) ?_⟩
      · exact Function.update_of_ne (fun same => different (congrArg Fin.val same)) _ _
      · exact Function.update_of_ne (ne_of_mem_of_not_mem wins loses).symm _ _
      · rw [gather_succ results _ inside, if_pos wins]
    · have entry : context.v ⟨j, inside⟩ = none := (inv.stands ⟨j, inside⟩).empty (Or.inl wins)
      refine ⟨.goto (.gathering (j + 1) (gather results (context.winners n) j)), context,
        by simp only [step, inside, dif_pos, entry], onward (fun _ _ => rfl) (fun _ _ => rfl) ?_⟩
      rw [gather_succ results _ inside, if_neg wins, List.append_nil]
  · have quiet : Quiet (.past : Progress (Place R)) := fun _ _ => nofun
    refine ⟨.set (.ok (gather results (context.winners n) j)), context, by simp only [step, inside, dif_neg, not_false_eq_true], rfl, ?_⟩
    refine gather_invariant inv at_ (fun _ _ => rfl) rfl rfl rfl trivial id ?_
    rw [gather_of_le results _ (Nat.le_of_not_lt inside)]
    refine .published index full admitted fun other => ?_
    by_cases same : other = index
    · subst same
      rwa [Function.update_self]
    · rw [Function.update_of_ne same]
      exact alone other same

theorem disciplined (results : Fin m → R) (n : Nat) :
    (firstN n).Disciplined results (Invariant results n) where
  initial := initial_invariant results n
  enters _ inv at_ := enter_invariant inv at_
  steps {context places published} index place inv at_ := by
    cases place with
    | counting data =>
        by_cases late : n ≤ context.completed
        · refine ⟨.leave, _, ?_, count_late_invariant inv at_ late⟩
          simp only [firstN, step, inv.limit]
          rw [if_pos (by omega)]
        · refine ⟨.goto (.writing data), _, ?_, count_early_invariant inv at_ (Nat.lt_of_not_le late)⟩
          simp only [firstN, step, inv.limit]
          rw [if_neg (by omega)]
    | writing data => exact ⟨.goto .storing, _, rfl, write_invariant inv at_⟩
    | storing =>
        by_cases early : 1 + context.stored < n
        · refine ⟨.leave, _, ?_, store_early_invariant inv at_ early⟩
          simp only [firstN, step, inv.limit, early, if_true]
        · refine ⟨.goto (.gathering 0 []), _, ?_, store_last_invariant inv at_ early⟩
          simp only [firstN, step, inv.limit, early, if_false]
    | gathering j gathered => exact gather_steps inv at_

/-- A callback that takes a step once the promise is set leaves `v` as it is. -/
theorem Invariant.keeps_entries {setter : Fin m × Except String (List R)}
    (inv : Invariant results n context places (some setter)) {index : Fin m} {place : Place R}
    (at_ : places index = .inside place) {next : Continue (Place R) (Except String (List R))}
    {after : Context m R} (stepped : step index place context = .ok (next, after)) :
    after.v = context.v := by
  cases place with
  | counting data =>
      cases stepped
      rfl
  | writing data =>
      obtain ⟨_, none, _⟩ := inv.open_of_storing (show Storing (places index) by rw [at_]; trivial)
      cases none
  | storing =>
      cases stepped
      rfl
  | gathering j gathered =>
      obtain ⟨none, _⟩ := inv.of_gathering at_
      cases none

end

theorem makeFutureOnError_eq {O : Type} (states : Heap (World O E Unit)) (failure : O) :
    makeFutureOnError states failure = .ok (states.fresh, states.alloc { World.new with
      result_ := some failure, state_ := State.onlyResult }) := by
  have start : (World.new : World O E Unit).state_ = State.start := rfl
  simp [makeFutureOnError, World.callSetResult, World.setResult, World.new_hasResult, start]

/-- With too few futures the returned future holds the error from the start. -/
theorem call_of_few {n : Nat} (few : m < n) (executors : Fin m → Option E) :
    ∃ (system : Combination m R _ E _ _) (state : Addr) (world : World _ E Unit),
      call n executors = .ok system ∧ system.combinator = .returned (some state) ∧
        system.states.get state = some world ∧ world.hasResult = true ∧
        world.result_ = some (.error "not enough futures") ∧
        (∀ index, system.inputs index = System.initial (executors index)) ∧
        ∀ index, system.callbacks index = .waiting := by
  let failed : World (Except String (List R)) E Unit :=
    { World.new with result_ := some (.error "not enough futures"), state_ := State.onlyResult }
  let system : Combination m R (Except String (List R)) E (Context m R) (Place R) :=
    Combination.initial (firstN n) executors
  refine ⟨{ system with
    states := Heap.alloc {} failed, combinator := .returned (some 0), promise := ⟨none, true⟩ },
    0, failed, ?_, rfl, rfl, ?_, rfl, fun _ => rfl, fun _ => rfl⟩
  · simp only [call, few, if_true, makeFutureOnError_eq]
    rfl
  · show ((0 : State) != (State.onlyResult &&& (State.onlyResult ||| State.done))) = true
    decide

/-- **The quorum is published once.** In every interleaving of `first_n` with the
completions of its `m` futures, no step faults and `promise_.set` is called at most
once. The array it is called with has the results of the `n` callbacks that came first
to `completed`, in the order of their indices, and no step changes `v` afterwards. -/
theorem interleave_publishes_quorum {n : Nat} (enough : n ≤ m) (results : Fin m → R)
    (executors : Fin m → Option E) (schedule : List (Agent m)) :
    ∃ system, Combination.interleave (firstN n) results (call n executors) schedule = .ok system ∧
      (system.published = [] ∨ ∃ index delivered,
        system.published = [(index, .ok delivered)] ∧
          (system.context.arrivals.take n).length = n ∧
          delivered = ((List.finRange m).filter (· ∈ system.context.arrivals.take n)).map results ∧
          delivered.length = n ∧
          ∀ agent next, system.step (firstN n) results agent = .ok next →
            next.context.v = system.context.v) := by
  have start : call n executors = .ok (Combination.initial (firstN n : Lambda (Fin m) R _ _ _) executors) :=
    if_neg (Nat.not_lt.mpr enough)
  obtain ⟨system, ran, sound⟩ := Combination.interleave_sound (disciplined results n) executors schedule
  refine ⟨system, by rw [start, ran], ?_⟩
  obtain ⟨published, inv, publication⟩ := sound.publishes
  cases publication with
  | awaited unset => exact Or.inl unset
  | set index result world once =>
      right
      cases inv.scanning with
      | published _ full admitted nobody =>
          have length : (system.context.winners n).length = n := by
            have winners := inv.winners_length
            have completed := (inv.all_stored full).1
            omega
          have all : (List.finRange m).take m = List.finRange m := List.take_of_length_le (by simp)
          refine ⟨index, _, once, length, by rw [gather, all]; rfl, ?_, ?_⟩
          · rw [gather_length results inv.winners_distinct, length]
          · intro agent next stepped
            cases agent with
            | combinator =>
                obtain ⟨after, combined, _, apart, _⟩ := Combination.combine_sound sound
                cases combined.symm.trans stepped
                exact congrArg Context.v apart.context
            | completer input =>
                obtain ⟨after, completed, _, apart, _⟩ := Combination.complete_sound sound input
                cases completed.symm.trans stepped
                exact congrArg Context.v apart.context
            | callback input =>
                rcases Combination.call_context stepped with same | ⟨place, goes, at_, moved⟩
                · exact congrArg Context.v same
                · have inside : system.places input = .inside place := by
                    rw [Combination.places, at_]
                    rfl
                  exact inv.keeps_entries inside moved

scoped instance neZero_two : NeZero 2 := ⟨two_ne_zero⟩

/-- The callback of the second future comes first, and is not yet done when that of the
first future leaves. -/
def overtaken : List (Agent 2) :=
  List.replicate 30 .combinator ++ List.replicate 9 (.completer 1) ++
    List.replicate 9 (.completer 0) ++ List.replicate 2 (.callback 1) ++
    List.replicate 2 (.callback 0) ++ List.replicate 20 (.callback 1)

theorem interleave_publishes_quorum_overtaken :
    ∃ system, Combination.interleave (firstN 1) (fun index : Fin 2 => index.val + 5)
        (call 1 fun _ => (none : Option Empty)) overtaken = .ok system ∧
      system.published = [(1, .ok [6])] ∧
      ∀ agent next, system.step (firstN 1) (fun index : Fin 2 => index.val + 5) agent = .ok next →
        next.context.v = system.context.v := by
  obtain ⟨system, ran, outcome⟩ := interleave_publishes_quorum (show 1 ≤ 2 by decide)
    (fun index : Fin 2 => index.val + 5) (fun _ => (none : Option Empty)) overtaken
  have published : (Combination.interleave (firstN 1) (fun index : Fin 2 => index.val + 5)
      (call 1 fun _ => (none : Option Empty)) overtaken).map (·.published) = .ok [(1, .ok [6])] := rfl
  rw [ran] at published
  have once : system.published = [(1, .ok [6])] := Except.ok.inj published
  rcases outcome with unset | ⟨_, _, _, _, _, _, kept⟩
  · cases unset.symm.trans once
  · exact ⟨system, ran, once, kept⟩

end Dsac.Futures.FirstN
