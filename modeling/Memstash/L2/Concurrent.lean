import Memstash.L2.BulkWrites
import Memstash.Lib.Fanout

/-! The concurrent batch fallbacks: goroutines that take indexes from a counter until one of them fails. -/

namespace Memstash

open Collapsing Fanout Occurrences Runs

variable {K V E P σ α : Type}

/-- How a call of user code ends; a panic carries what was thrown. -/
inductive CallEnd (α E P : Type) where
  | returned (a : α)
  | failed (err : E)
  | panicked (thrown : P)

/-- The error of a batch: that of an operation, or the one that wraps what it threw. -/
inductive BatchError (E P : Type) where
  | failed (err : E)
  | errPanic (thrown : P)
  deriving DecidableEq

/-- The error an operation leaves. -/
def CallEnd.error : CallEnd α E P → Option (BatchError E P)
  | .returned _ => none
  | .failed err => some (.failed err)
  | .panicked thrown => some (.errPanic thrown)

/-- The number of goroutines for some indexes. -/
def workersFor (n workers : Nat) : Nat := if workers > n then n else workers

/-- Everything that can happen while goroutines run an operation for the indexes below a bound. -/
abbrev runConcurrent (n workers : Nat) (op : Nat → σ → CallEnd Unit E P × σ) (s : σ)
    (schedule : List (Fin (workersFor n workers))) :
    Except Unit (State (BatchError E P) σ (Fin (workersFor n workers))) :=
  run (step n fun i s => ((op i s).1.error, (op i s).2)) (start s) schedule

namespace BatchGet

/-- The loop over the keys, from the index of the first of them; a missing result is a panic. -/
def sequentialFrom (get : Nat → CallEnd (Option V) E P) :
    Nat → List K → List (K × V) → Option (List (K × V) × Option E)
  | _, [], found => some (found, none)
  | i, key :: keys, found =>
    match get i with
    | .failed err => some (found, some err)
    | .panicked _ => none
    | .returned none => sequentialFrom get (i + 1) keys found
    | .returned (some value) => sequentialFrom get (i + 1) keys (found ++ [(key, value)])

/-- Fetch keys one by one; the call for an index ends as given. -/
def batchGetSequential (get : Nat → CallEnd (Option V) E P) (keys : List K) :
    Option (List (K × V) × Option E) := sequentialFrom get 0 keys []

/-- Fetch the key of an index into its slot. -/
def fetch (get : Nat → CallEnd (Option V) E P) (i : Nat) (results : Nat → Option V) :
    CallEnd Unit E P × (Nat → Option V) :=
  match get i with
  | .returned found => (.returned (), Function.update results i found)
  | .failed err => (.failed err, results)
  | .panicked thrown => (.panicked thrown, results)

/-- The hits among the slots, in the order of the keys. -/
def collect (keys : List K) (results : Nat → Option V) : List (K × V) :=
  keys.zipIdx.filterMap fun (key, i) => (results i).map fun value => (key, value)

/-- What a call found. -/
def hit : CallEnd (Option V) E P → Option V
  | .returned found => found
  | _ => none

/-- When every call returns, the loop finds all the hits. -/
theorem sequentialFrom_eq {get : Nat → CallEnd (Option V) E P} (keys : List K) :
    ∀ (i : Nat) (found : List (K × V)), (∀ j < keys.length, ∃ answer, get (i + j) = .returned answer) →
      sequentialFrom get i keys found
        = some (found ++ (keys.zipIdx i).filterMap fun (key, j) => (hit (get j)).map fun value => (key, value),
            none) := by
  induction keys with
  | nil => simp [sequentialFrom]
  | cons key rest ih =>
    intro i found returns
    obtain ⟨answer, here⟩ := returns 0 (by simp)
    have later : ∀ j < rest.length, ∃ answer, get (i + 1 + j) = .returned answer := by
      intro j below
      obtain ⟨answer, there⟩ := returns (j + 1) (by simpa using below)
      exact ⟨answer, by rw [← there]; congr 1; omega⟩
    rw [Nat.add_zero] at here
    cases answer with
    | none =>
      rw [sequentialFrom, here]
      simp only [ih (i + 1) found later, List.zipIdx_cons, List.filterMap_cons, here, hit, Option.map_none]
    | some value =>
      rw [sequentialFrom, here]
      simp only [ih (i + 1) _ later, List.zipIdx_cons, List.filterMap_cons, here, hit, Option.map_some,
        List.append_assoc, List.singleton_append]

/-- The slots and the errors in every state that is reached. -/
theorem run_spec {get : Nat → CallEnd (Option V) E P} {n workers : Nat} {schedule : List (Fin (workersFor n workers))}
    {s : State (BatchError E P) (Nat → Option V) (Fin (workersFor n workers))}
    (ran : runConcurrent n workers (fetch get) (fun _ => none) schedule = .ok s) :
    Inv n s ∧ (∀ ended ∈ s.log, ended.2 = (get ended.1).error) ∧
      ∀ i, s.world i = if i ∈ s.ran then hit (get i) else none := by
  refine keeps_of_run (fun log results => (∀ ended ∈ log, ended.2 = (get ended.1).error) ∧
    ∀ i, results i = if i ∈ log.map Prod.fst then hit (get i) else none) ⟨nofun, fun i => by simp⟩ ?_ ran
  intro log results i _ new ⟨errors, slots⟩
  have ended : ((fetch get i results).1.error : Option (BatchError E P)) = (get i).error := by
    unfold fetch
    split <;> simp_all [CallEnd.error]
  have stored : ∀ j, (fetch get i results).2 j = if j = i then hit (get i) else results j := by
    intro j
    -- A call that failed leaves the slot empty, as it was.
    have empty := slots i
    rw [if_neg new] at empty
    unfold fetch
    by_cases same : j = i
    · subst same
      split <;> simp_all [hit]
    · split <;> simp [same]
  refine ⟨fun other member => ?_, fun j => ?_⟩
  · rcases List.mem_append.mp member with before | last
    · exact errors other before
    · rw [List.mem_singleton.mp last]
      exact ended
  · rw [stored, slots]
    by_cases same : j = i
    · simp [same]
    · simp only [same, if_false, List.map_append, List.map_cons, List.map_nil, List.mem_append, List.mem_singleton,
        or_false]

end BatchGet

theorem nonempty_workers {n workers : Nat} (many : 2 ≤ n) (parallel : 2 ≤ workers) :
    Nonempty (Fin (workersFor n workers)) := by
  refine ⟨⟨0, ?_⟩⟩
  unfold workersFor
  split <;> omega

/-- A run takes no more steps than this. -/
theorem length_le_of_runConcurrent {n workers : Nat} {op : Nat → σ → CallEnd Unit E P × σ} {first : σ}
    {schedule : List (Fin (workersFor n workers))} {s : State (BatchError E P) σ (Fin (workersFor n workers))}
    (ran : runConcurrent n workers op first schedule = .ok s) :
    schedule.length ≤ 3 * n + 2 * workersFor n workers := by
  have bound := length_le_of_run ran
  have all : (start first : State (BatchError E P) σ (Fin (workersFor n workers))).left n
      = 3 * n + 2 * workersFor n workers := by
    simp [State.left, start, Worker.left, Nat.mul_comm]
  omega

/-- A goroutine that is not done can go on. -/
theorem exists_runConcurrent {n workers : Nat} {op : Nat → σ → CallEnd Unit E P × σ} {first : σ}
    {schedule : List (Fin (workersFor n workers))} {s : State (BatchError E P) σ (Fin (workersFor n workers))}
    (ran : runConcurrent n workers op first schedule = .ok s) {w : Fin (workersFor n workers)}
    (busy : s.workers w ≠ .done) : ∃ s', runConcurrent n workers op first (schedule ++ [w]) = .ok s' := by
  rw [runConcurrent, run_append ran]
  exact exists_step busy

open BatchGet in
/-- In every run of the goroutines of a batch of two or more keys, with at least two workers: the run is short, a
goroutine that is not done can go on, and no index is run twice. Once all are done, the hits are those of the
indexes that were run, in the order of the keys; when no call fails, every index was run and they are what the
loop finds; and when a call fails or panics, the error is that of one that was run. -/
theorem concurrent_get_is_sequential (get : Nat → CallEnd (Option V) E P) {keys : List K} {workers : Nat}
    (many : 2 ≤ keys.length) (parallel : 2 ≤ workers) {schedule : List (Fin (workersFor keys.length workers))}
    {s : State (BatchError E P) (Nat → Option V) (Fin (workersFor keys.length workers))}
    (ran : runConcurrent keys.length workers (fetch get) (fun _ => none) schedule = .ok s) :
    schedule.length ≤ 3 * keys.length + 2 * workersFor keys.length workers ∧
    (∀ w, s.workers w ≠ .done →
      ∃ s', runConcurrent keys.length workers (fetch get) (fun _ => none) (schedule ++ [w]) = .ok s') ∧
    s.ran.Nodup ∧ (∀ i ∈ s.ran, i < keys.length) ∧
    ((∀ w, s.workers w = .done) →
      (collect keys s.world = keys.zipIdx.filterMap fun (key, i) =>
        if i ∈ s.ran then (hit (get i)).map fun value => (key, value) else none) ∧
      ((∀ i < keys.length, (get i).error = none) → s.ran.Perm (List.range keys.length) ∧ s.firstErr = none ∧
        batchGetSequential get keys = some (collect keys s.world, none)) ∧
      ((∃ i < keys.length, (get i).error ≠ none) →
        ∃ i ∈ s.ran, (get i).error ≠ none ∧ s.firstErr = (get i).error)) := by
  obtain ⟨inv, errors, slots⟩ := run_spec ran
  have := nonempty_workers many parallel
  refine ⟨length_le_of_runConcurrent ran, fun w busy => exists_runConcurrent ran busy, inv.numbered.once,
    fun i member => (inv.numbered.ran i member).2, fun ended => ?_⟩
  have hits : collect keys s.world = keys.zipIdx.filterMap fun (key, i) =>
      if i ∈ s.ran then (hit (get i)).map fun value => (key, value) else none := by
    refine List.filterMap_congr fun ⟨key, i⟩ _ => ?_
    dsimp only
    rw [slots]
    split <;> rfl
  have failed : ∀ i err, (i, some err) ∈ s.log → i ∈ s.ran ∧ (get i).error = some err :=
    fun i err member => ⟨List.mem_map_of_mem member, (errors _ member).symm⟩
  refine ⟨hits, fun fine => ?_, fun ⟨i, below, wrong⟩ => ?_⟩
  · rcases inv.finished ended with ⟨i, err, member, _⟩ | ⟨none, _, perm⟩
    · obtain ⟨run, error⟩ := failed i err member
      rw [fine i (inv.numbered.ran i run).2] at error
      cases error
    · refine ⟨perm, none, ?_⟩
      have returns : ∀ j < keys.length, ∃ answer, get (0 + j) = .returned answer := by
        intro j below
        have fine := fine j below
        rw [Nat.zero_add]
        cases got : get j with
        | returned answer => exact ⟨answer, rfl⟩
        | failed err =>
          rw [got] at fine
          cases fine
        | panicked thrown =>
          rw [got] at fine
          cases fine
      rw [batchGetSequential, sequentialFrom_eq keys 0 [] returns, hits, List.nil_append]
      -- Every index is among those that were run.
      congr 2
      refine List.filterMap_congr fun ⟨key, i⟩ member => ?_
      have below : i < keys.length := by
        obtain ⟨_, bound, _⟩ := List.mem_zipIdx member
        omega
      dsimp only
      rw [if_pos (perm.mem_iff.mpr (List.mem_range.mpr below))]
  · rcases inv.finished ended with ⟨i, err, member, first⟩ | ⟨_, fine, perm⟩
    · obtain ⟨run, error⟩ := failed i err member
      exact ⟨i, run, by simp [error], by rw [first, error]⟩
    · obtain ⟨⟨_, outcome⟩, member, rfl⟩ := List.mem_map.mp (perm.mem_iff.mpr (List.mem_range.mpr below))
      have := fine _ member
      rw [errors _ member] at this
      exact absurd this wrong

/-- The goroutines of a batch of two keys. -/
abbrev TwoWorkers := Fin (workersFor [5, 6].length 2)

/-- Two goroutines, turn by turn; the second finishes its fetch first. -/
def twoTurns : List TwoWorkers :=
  let a : TwoWorkers := ⟨0, by decide⟩
  let b : TwoWorkers := ⟨1, by decide⟩
  [a, b, a, b, b, a, a, b, a, b]

/-- Both keys are found, in the order of the keys. -/
theorem concurrent_get_is_sequential_two : ∃ s,
    runConcurrent [5, 6].length 2 (BatchGet.fetch fun i => (.returned (some i) : CallEnd (Option Nat) Unit Unit))
      (fun _ => none) twoTurns = .ok s ∧
    BatchGet.batchGetSequential (fun i => (.returned (some i) : CallEnd (Option Nat) Unit Unit)) [5, 6]
      = some (BatchGet.collect [5, 6] s.world, none) := by
  have ran : runConcurrent [5, 6].length 2
      (BatchGet.fetch fun i => (.returned (some i) : CallEnd (Option Nat) Unit Unit)) (fun _ => none) twoTurns
        = .ok _ := rfl
  refine ⟨_, rfl, ?_⟩
  refine ((concurrent_get_is_sequential _ (by decide) (by decide) ran).2.2.2.2 fun w => ?_).2.1 (fun _ _ => rfl) |>.2.2
  match w with
  | ⟨0, _⟩ => rfl
  | ⟨1, _⟩ => rfl

namespace BatchSet

variable [DecidableEq K]

/-- Put an item into a store that never fails. -/
def put (store : K → Option V) (item : K × V) : K → Option V := Function.update store item.1 (some item.2)

/-- Put the item of an index. -/
def write (items : List (K × V)) (i : Nat) (store : K → Option V) : CallEnd Unit E P × (K → Option V) :=
  (.returned (), match items[i]? with | some item => put store item | none => store)

omit [DecidableEq K] in
/-- The items of all indexes are the items. -/
theorem filterMap_range_getElem? (items : List α) :
    ((List.range items.length).filterMap fun i => items[i]?) = items := by
  induction items using List.reverseRecOn with
  | nil => rfl
  | append_singleton rest item ih =>
    have before : (List.range rest.length).filterMap (fun i => (rest ++ [item])[i]?)
        = (List.range rest.length).filterMap fun i => rest[i]? :=
      List.filterMap_congr fun i member => List.getElem?_append_left (List.mem_range.mp member)
    rw [List.length_append, List.length_singleton, List.range_succ, List.filterMap_append, before, ih]
    simp

end BatchSet

namespace BatchDelete

variable [DecidableEq K]

/-- Delete a key from the store; a call that fails or panics leaves the store as it was. -/
def delete (del : K → CallEnd Unit E P) (store : K → Option V) (key : K) : CallEnd Unit E P × (K → Option V) :=
  match del key with
  | .returned _ => (.returned (), Function.update store key none)
  | .failed err => (.failed err, store)
  | .panicked thrown => (.panicked thrown, store)

/-- Delete keys one by one, up to the first call that fails or panics. -/
def batchDeleteSequential (del : K → CallEnd Unit E P) :
    (K → Option V) → List K → CallEnd Unit E P × (K → Option V)
  | store, [] => (.returned (), store)
  | store, key :: keys =>
    match delete del store key with
    | (.returned _, store) => batchDeleteSequential del store keys
    | ended => ended

/-- Delete the key of an index. -/
def erase (del : K → CallEnd Unit E P) (keys : List K) (i : Nat) (store : K → Option V) :
    CallEnd Unit E P × (K → Option V) :=
  match keys[i]? with
  | some key => delete del store key
  | none => (.returned (), store)

/-- The store without the keys among some whose calls return. -/
def without (del : K → CallEnd Unit E P) (store : K → Option V) (keys : List K) (key : K) : Option V :=
  if key ∈ keys ∧ (del key).error.isNone then none else store key

/-- Before the first call the store is as it was. -/
theorem without_nil (del : K → CallEnd Unit E P) (store : K → Option V) : without del store [] = store := by
  funext key
  simp [without]

/-- The order of the calls does not matter. -/
theorem without_perm (del : K → CallEnd Unit E P) (store : K → Option V) {keys keys' : List K}
    (perm : keys.Perm keys') : without del store keys = without del store keys' := by
  funext key
  simp only [without, perm.mem_iff]

/-- A call ends as it does for its key, and takes the key out of the store when it returns. -/
theorem delete_without (del : K → CallEnd Unit E P) (store : K → Option V) (before : List K) (key : K) :
    (delete del (without del store before) key).1.error = (del key).error ∧
      (delete del (without del store before) key).2 = without del store (before ++ [key]) := by
  refine ⟨by unfold delete; cases del key <;> rfl, funext fun other => ?_⟩
  by_cases same : other = key
  · subst same
    unfold delete
    cases ended : del other <;> simp [without, ended, CallEnd.error]
  · have kept : (delete del (without del store before) key).2 other = without del store before other := by
      unfold delete
      cases del key <;> simp [same]
    simp [kept, without, same]

/-- One by one, all keys are deleted when no call fails. -/
theorem sequential_deletes {del : K → CallEnd Unit E P} (store : K → Option V) {keys : List K} :
    ∀ before, (∀ key ∈ keys, del key = .returned ()) →
      batchDeleteSequential del (without del store before) keys = (.returned (), without del store (before ++ keys)) := by
  induction keys with
  | nil => exact fun before _ => by rw [batchDeleteSequential, List.append_nil]
  | cons key rest ih =>
    intro before fine
    have here : delete del (without del store before) key = (.returned (), without del store (before ++ [key])) := by
      rw [← (delete_without del store before key).2, delete, fine key (by simp)]
    rw [batchDeleteSequential, here]
    simpa using ih (before ++ [key]) fun other member => fine other (by simp [member])

/-- At every moment the keys of the indexes that were run are gone, as far as their calls returned. -/
theorem run_deletes {del : K → CallEnd Unit E P} {keys : List K} {workers : Nat} {store : K → Option V}
    {schedule : List (Fin (workersFor keys.length workers))}
    {s : State (BatchError E P) (K → Option V) (Fin (workersFor keys.length workers))}
    (ran : runConcurrent keys.length workers (erase del keys) store schedule = .ok s) :
    Inv keys.length s ∧ (∀ ended ∈ s.log, ∃ key, keys[ended.1]? = some key ∧ ended.2 = (del key).error) ∧
      s.world = without del store (s.ran.filterMap fun i => keys[i]?) := by
  refine keeps_of_run (fun log now => (∀ ended ∈ log, ∃ key, keys[ended.1]? = some key ∧ ended.2 = (del key).error) ∧
    now = without del store ((log.map Prod.fst).filterMap fun i => keys[i]?)) ⟨by simp, (without_nil del store).symm⟩ ?_ ran
  -- One call more: its end is logged, and its key is gone if it returned.
  rintro log now i below _ ⟨errors, rfl⟩
  simp only [erase, List.getElem?_eq_getElem below]
  obtain ⟨ends, leaves⟩ :=
    delete_without del store ((log.map Prod.fst).filterMap fun i => keys[i]?) keys[i]
  refine ⟨fun ended member => ?_, ?_⟩
  · rcases List.mem_append.mp member with earlier | last
    · exact errors ended earlier
    · rw [List.mem_singleton.mp last]
      exact ⟨_, List.getElem?_eq_getElem below, ends⟩
  · rw [leaves]
    simp [List.filterMap_append, List.getElem?_eq_getElem below]

end BatchDelete

open BatchDelete in
/-- In every run of the goroutines of a batch deletion, duplicate keys included: the run is short, a goroutine that is
not done can go on, and at every moment only keys of the batch are gone, those whose calls were made and returned.
Once all are done, the store is what deleting the keys one by one leaves if no call fails, and otherwise the error
is that of a key of the batch. -/
theorem concurrent_delete_is_sequential [DecidableEq K] (del : K → CallEnd Unit E P) {keys : List K} {workers : Nat}
    (many : 2 ≤ keys.length) (parallel : 2 ≤ workers) {store : K → Option V}
    {schedule : List (Fin (workersFor keys.length workers))}
    {s : State (BatchError E P) (K → Option V) (Fin (workersFor keys.length workers))}
    (ran : runConcurrent keys.length workers (erase del keys) store schedule = .ok s) :
    schedule.length ≤ 3 * keys.length + 2 * workersFor keys.length workers ∧
    (∀ w, s.workers w ≠ .done →
      ∃ s', runConcurrent keys.length workers (erase del keys) store (schedule ++ [w]) = .ok s') ∧
    s.world = without del store (s.ran.filterMap fun i => keys[i]?) ∧
    ((∀ w, s.workers w = .done) →
      ((∀ key ∈ keys, del key = .returned ()) → s.firstErr = none ∧
        batchDeleteSequential del store keys = (.returned (), s.world)) ∧
      ((∃ key ∈ keys, (del key).error ≠ none) →
        ∃ key ∈ keys, (del key).error ≠ none ∧ s.firstErr = (del key).error)) := by
  obtain ⟨inv, errors, world⟩ := run_deletes ran
  have := nonempty_workers many parallel
  refine ⟨length_le_of_runConcurrent ran, fun w busy => exists_runConcurrent ran busy, world, fun ended => ?_⟩
  rcases inv.finished ended with ⟨i, err, member, first⟩ | ⟨none, fine, perm⟩
  · obtain ⟨key, found, error⟩ := errors _ member
    have listed := List.mem_of_getElem? found
    have wrong : (del key).error = some err := error.symm
    refine ⟨fun returns => ?_, fun _ => ⟨key, listed, by simp [wrong], by rw [first, wrong]⟩⟩
    rw [returns key listed] at wrong
    cases wrong
  · -- Every index was run, so every key was asked for and no call failed.
    have all : (s.ran.filterMap fun i => keys[i]?).Perm keys := by
      have := perm.filterMap fun i => keys[i]?
      rwa [BatchSet.filterMap_range_getElem?] at this
    refine ⟨fun returns => ⟨none, ?_⟩, ?_⟩
    · have oneByOne := sequential_deletes store [] returns
      rw [without_nil, List.nil_append] at oneByOne
      rw [oneByOne, world, without_perm del store all]
    · rintro ⟨key, listed, wrong⟩
      obtain ⟨i, below, rfl⟩ := List.mem_iff_getElem.mp listed
      obtain ⟨⟨_, outcome⟩, member, rfl⟩ := List.mem_map.mp (perm.mem_iff.mpr (List.mem_range.mpr below))
      obtain ⟨_, found, error⟩ := errors _ member
      cases (List.getElem?_eq_getElem below).symm.trans found
      exact absurd (error.symm.trans (fine _ member)) wrong

open BatchDelete in
/-- A key that comes twice is deleted, whichever goroutine gets to it first. -/
theorem concurrent_delete_is_sequential_twice : ∃ s,
    runConcurrent [7, 7].length 2 (erase (fun _ => (.returned () : CallEnd Unit Unit Unit)) [7, 7])
      (fun _ : Nat => some 1) twoTurns = .ok s ∧ s.world 7 = none ∧
    batchDeleteSequential (fun _ => (.returned () : CallEnd Unit Unit Unit)) (fun _ : Nat => some 1) [7, 7]
      = (.returned (), s.world) := by
  obtain ⟨s, ran, done, gone⟩ : ∃ s, runConcurrent [7, 7].length 2
      (erase (fun _ => (.returned () : CallEnd Unit Unit Unit)) [7, 7]) (fun _ : Nat => some 1) twoTurns = .ok s ∧
      (∀ w, s.workers w = .done) ∧ s.world 7 = none := by
    refine ⟨_, rfl, fun w => ?_, rfl⟩
    match w with
    | ⟨0, _⟩ => rfl
    | ⟨1, _⟩ => rfl
  have ended := (concurrent_delete_is_sequential _ (by decide) (by decide) ran).2.2.2 done
  exact ⟨s, ran, gone, (ended.1 fun _ _ => rfl).2⟩

end Memstash
