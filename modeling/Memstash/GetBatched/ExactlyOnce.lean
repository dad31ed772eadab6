import Memstash.GetBatched.Serving

/-! A worker answers every request it takes exactly once, unless a batch outgrows its links or a deletion
handler panics while the batch is collected. -/

namespace Memstash

open Programs Machine Read ReadLog

variable {K V E : Type} [DecidableEq K] [Inhabited V]

/-- A worker that is never handed more than 2 ^ 31 requests in a row serves them all. -/
theorem getBatchLoop_serves {calm : Prop} {polls : List (Option (AsyncGet K))} (memory : K → Option V)
    (pauses : ∀ burst : List (AsyncGet K), burst.map some <:+: polls → burst.length ≤ 2 ^ 31) :
    Ensures (rules calm) (getBatchLoop polls : Read K V E Unit)
      (fun out log => out = some () ∧
        (log.settled.map Prod.fst).Perm (polls.reduceOption.map AsyncGet.slot) ∧
        ∃ batches : List (BatchRecord K V E), (∀ batch ∈ batches, batch.Served calm) ∧
          polls.reduceOption = (batches.flatMap fun batch => batch.polled.map Prod.fst) ∧
          log.asked = batches.flatMap BatchRecord.asked ∧
          log.settled = batches.flatMap BatchRecord.settled) (.start memory) := by
  refine .recovering ((serveAll_serves polls.length le_rfl pauses).mono ?_)
  rintro _ log ⟨rfl, batches, served, requests, asked, settled⟩
  have settled : log.settled = batches.flatMap BatchRecord.settled := settled
  refine ⟨rfl, ?_, batches, served, requests, asked, settled⟩
  rw [settled, requests, List.map_flatMap, List.map_flatMap]
  exact List.Perm.flatMap_left _ fun batch member => (served batch member).slots

/-- Two keys queued together, and one of them once more. -/
def threeReads : List (Option (AsyncGet Nat)) := [some ⟨7, 0⟩, some ⟨8, 1⟩, some ⟨7, 2⟩]

omit [DecidableEq K] in
theorem pauses_of_short {polls : List (Option (AsyncGet K))} (short : polls.length ≤ 2 ^ 31)
    (burst : List (AsyncGet K)) (within : burst.map some <:+: polls) : burst.length ≤ 2 ^ 31 := by
  have bound := within.length_le
  rw [List.length_map] at bound
  omega

/-- Surroundings that answer every question the same way each time, and keep the log. -/
def ReadLog.answering (reply : (op : ReadOp K V E) → op.Ans) (op : ReadOp K V E) (log : ReadLog K V E) :
    Option (op.Ans × ReadLog K V E) :=
  some (reply op, after op (reply op) log)

/-- Nothing is in memory, and the second level has every key. -/
def everythingInL2 : (op : ReadOp Nat Unit Unit) → op.Ans
  | .getMemory _ => some none
  | .expireOffset => (0 : Nat)
  | .setMemory _ _ _ => some ()
  | .l2Get _ => some ((), true, none)
  | .l2BatchGet keys => some (keys.map fun key => (key, ()), none)
  | .settle _ _ => ()
  | .notifyPanic _ => ()

/-- The log of a worker that starts with an empty memory. -/
def blankLog : ReadLog Nat Unit Unit := .start fun _ => none

/-- A batch of requests for the number seven only. -/
structure Sevens (count : Nat) (b : GetBatch Nat) : Prop where
  keys : b.keys = [7]
  head : b.head = [int32 ((count : Int) - 1)]
  slots : b.slots.length = count
  index : b.index = none

/-- One more request for the number seven. -/
theorem Sevens.add {count : Nat} {b : GetBatch Nat} (sevens : Sevens count b) (slot : Nat) :
    Sevens (count + 1) (b.add ⟨7, slot⟩) := by
  have found : b.lookup 7 = some 0 := by
    rw [GetBatch.lookup, sevens.index, sevens.keys]
    rfl
  rw [GetBatch.add, found]
  refine ⟨sevens.keys, ?_, by simp [sevens.slots], sevens.index⟩
  simp only [sevens.head, sevens.slots, List.set_cons_zero, List.cons.injEq, and_true]
  congr 1
  omega

/-- Draining more requests for the number seven settles nothing. -/
theorem Sevens.drain (slots : List Nat) : ∀ {count : Nat} {b : GetBatch Nat} {log : ReadLog Nat Unit Unit},
    Sevens count b → ∃ b' log', Sevens (count + slots.length) b' ∧ log'.settled = log.settled ∧
      run (answering everythingInL2) (Read.drain b (slots.map fun slot => some ⟨7, slot⟩)) log
        = (.returned (b', []), log') := by
  induction slots with
  | nil => exact fun {count b log} sevens => ⟨b, log, sevens, rfl, rfl⟩
  | cons slot rest ih =>
    intro count b log sevens
    -- One key leaves room for more, and every request is filed.
    have room : b.keys.length < getBatchMax := by
      rw [sevens.keys]
      decide
    obtain ⟨b', log', sevens', same, ran⟩ :=
      @ih _ _ (after (.getMemory 7) (some none) log) (sevens.add slot)
    refine ⟨b', log', by rw [List.length_cons, ← Nat.add_assoc, Nat.add_right_comm]; exact sevens', same, ?_⟩
    rw [List.map_cons, Read.drain, if_pos room]
    exact ran

/-- A key whose head has wrapped around looks served. -/
theorem Sevens.resolve {count : Nat} {b : GetBatch Nat} (sevens : Sevens count b)
    (wrapped : int32 ((count : Int) - 1) < 0) (log : ReadLog Nat Unit Unit) :
    ∃ b' log', log'.settled = log.settled ∧
      run (answering everythingInL2) (resolveBatch b) log = (.returned b', log') := by
  have ended : b.chain (b.slots.length + 1) (b.headAt 0) = some [] := by
    rw [GetBatch.headAt, sevens.head, GetBatch.chain, if_pos (by simpa using wrapped)]
  have first : b.keys[0]? = some 7 := by
    rw [sevens.keys]
    rfl
  generalize asking : after (.l2Get 7) (some ((), true, none)) log = log₁
  have hit : run (answering everythingInL2) (settleHit b 0 () : Read Nat Unit Unit _) log₁
      = (.returned (.ok { b with head := b.head.set 0 (-1) }), after (.setMemory 7 () 0) (some ()) log₁) := by
    unfold settleHit settleKey
    rw [first, ended]
    rfl
  generalize { b with head := b.head.set 0 (-1) } = b' at hit
  have asked : run (answering everythingInL2) (askL2 b : Read Nat Unit Unit _) log
      = (.returned (.ok b'), after (.setMemory 7 () 0) (some ()) log₁) := by
    unfold askL2
    rw [sevens.keys, ← hit, ← asking]
    rfl
  exact ⟨b', after (.setMemory 7 () 0) (some ()) log₁, by rw [← asking]; rfl, run_bind asked⟩

/-- A worker whose batches fit the links, and whose lookups do not panic, settles every request it takes and
goes on, whenever a store panics in the deletion handler. -/
theorem panic_strands_nobody (memory : K → Option V) (polls : List (Option (AsyncGet K)))
    (pauses : ∀ burst : List (AsyncGet K), burst.map some <:+: polls → burst.length ≤ 2 ^ 31) :
    Ensures (rules False) (getBatchLoop polls : Read K V E Unit)
      (fun out log => out = some () ∧
        (log.settled.map Prod.fst).Perm (polls.reduceOption.map AsyncGet.slot)) (.start memory) := by
  refine (getBatchLoop_serves memory pauses).mono ?_
  rintro out log ⟨returned, perm, _⟩
  exact ⟨returned, perm⟩

/-- Three reads are settled whatever the handler does. -/
theorem panic_strands_nobody_three :
    Ensures (rules False) (getBatchLoop threeReads : Read Nat Nat Unit Unit)
      (fun out log => out = some () ∧ (log.settled.map Prod.fst).Perm [0, 1, 2]) (.start fun _ => none) :=
  panic_strands_nobody _ threeReads (pauses_of_short (by decide))

/-- The handler panics on the expired item of the number eight. -/
def panickingLookup : (op : ReadOp Nat Unit Unit) → op.Ans
  | .getMemory key => if key = 8 then none else some none
  | op => everythingInL2 op

/-- Two requests are taken and a third one waits: the worker is gone, and none is ever settled. -/
theorem lookup_strands_batch :
    run (answering panickingLookup) (getBatchLoop [some ⟨7, 0⟩, some ⟨8, 1⟩, none, some ⟨9, 2⟩]) blankLog
      = (.returned (), ⟨[(7, none)], [], [], Function.update (fun _ => none) 7 none⟩) := rfl

end Memstash
