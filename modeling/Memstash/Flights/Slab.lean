import Memstash.Flights.BatchSpec
import Memstash.Flights.Coalescing
import Memstash.Lib.Slices

/-! The flights of a batch as they lie in memory: a slab of calls the registry points into, and the owned keys,
which are the caller's own slice while no key was skipped. -/

namespace Memstash

open Scan Runs Slices

variable {K V E : Type}

namespace FlightCall

/-- What a call has for its waiters. -/
def result (call : FlightCall K V (LoadError E)) : FlightResult V E := ⟨call.val, call.err, call.ok⟩

end FlightCall

namespace Flights

variable [DecidableEq K] {s s' : Flights K V (LoadError E)} {keyHash : BitVec 64} {key : K} {call : Nat}

/-- A claim leaves the results of all calls as they are. -/
theorem claim_result {winner : Nat} {running : Bool}
    (ran : s.claim keyHash key call = .ok (s', winner, running)) (id : Nat) :
    (s'.calls id).result = (s.calls id).result := by
  have joins : ∀ other, ((s.join other).calls id).result = (s.calls id).result := by
    intro other
    by_cases same : id = other
    · subst same
      simp [join, putCall, FlightCall.result]
    · simp [join, putCall, same]
  have parks : ∀ place, ((s.putCall call { s.calls call with key := key, place := place }).calls id).result
      = (s.calls id).result := by
    intro place
    by_cases same : id = call
    · subst same
      simp [putCall, FlightCall.result]
    · simp [putCall, same]
  obtain ⟨found, _, ran⟩ := exists_of_bind_eq_ok ran
  cases found with
  | some other =>
    cases ran
    exact joins _
  | none =>
    dsimp only at ran
    split at ran
    · cases ran
      exact joins _
    · split at ran
      · cases ran
        exact parks _
      · cases ran
        exact parks _

end Flights

/-- The calls of a batch: consecutive cells of the store of calls. -/
structure CallSlab where
  base : Nat
  len : Nat
  cap : Nat

/-- The flights of one batch, and the memory and the registry they share with other callers. -/
structure BatchMemory (K V E : Type) where
  arrays : Arrays K
  registry : FlightRun K V (LoadError E)
  /-- The first cell of the store of calls that was not handed out yet. -/
  nextCall : Nat
  owned : Slice
  calls : Option CallSlab
  joined : List (K × Nat)
  /-- The owned keys are no longer the caller's own slice. -/
  copied : Bool

namespace BatchMemory

variable [Inhabited K] [Inhabited V] [DecidableEq K]

/-- A call in zeroed memory. -/
def zeroCall : FlightCall K V (LoadError E) := ⟨default, default, none, false, 0#16, false, false⟩

/-- The slab for the calls, made for the keys left when there is none. -/
def slabFor (w : BatchMemory K V E) (left : Nat) : BatchMemory K V E × CallSlab :=
  match w.calls with
  | some slab => (w, slab)
  | none =>
    let flights := { w.registry.flights with calls := fun id =>
      if w.nextCall ≤ id ∧ id < w.nextCall + left then zeroCall else w.registry.flights.calls id }
    ({ w with registry := { w.registry with flights := flights }, nextCall := w.nextCall + left },
      ⟨w.nextCall, 0, left⟩)

/-- The owned keys in an array of their own, with room for the batch. -/
def copyOwned (w : BatchMemory K V E) (keys : Slice) : Arrays K × Slice :=
  if w.copied then (w.arrays, w.owned)
  else (w.arrays.make keys.len).1.appendAll (w.arrays.make keys.len).2 (w.arrays.read w.owned)

/-- The owned keys with one more: a longer piece of the caller's slice while that is all they are. -/
def own (w : BatchMemory K V E) (keys : Slice) (i : Nat) (key : K) : Arrays K × Slice × Bool :=
  if w.copied = false ∧ w.owned.len = i then (w.arrays, { keys with len := i + 1 }, false)
  else
    let (arrays, owned) := w.copyOwned keys
    ((arrays.append owned key).1, (arrays.append owned key).2, true)

/-- Claim the flight of the key at a position of the batch, and say whether one was running. -/
def claim (hash : K → BitVec 64) (keys : Slice) (i : Nat) (w : BatchMemory K V E) :
    Except Fault (BatchMemory K V E × Bool) := do
  -- An index past the batch.
  if keys.len ≤ i then throw .panic
  let key := w.arrays.cells keys.array i
  let (w, slab) := w.slabFor (keys.len - i)
  -- A slice past its capacity.
  if slab.cap ≤ slab.len then throw .panic
  let call := slab.base + slab.len
  -- The error stands until the batch has a result, so that a panicking loader resolves the flight.
  let flights := w.registry.flights.putCall call
    { w.registry.flights.calls call with err := some .loaderPanic }
  let (flights, winner, running) ← flights.claim (hash key) key call
  if running then
    -- A joined key gives its cell back.
    return ({ w with registry := ⟨flights, w.registry.unreleased⟩, calls := some slab,
                     joined := w.joined ++ [(key, winner)] }, true)
  else
    let (arrays, owned, copied) := w.own keys i key
    return ({ w with arrays := arrays, owned := owned, copied := copied,
                     registry := ⟨flights, Function.update w.registry.unreleased call (some key)⟩,
                     calls := some { slab with len := slab.len + 1 } }, false)

/-- The owned keys are these: a piece of the caller's slice, or an array of their own with room for the batch. -/
structure OwnedKeys (keys : Slice) (content won : List K) (arrays : Arrays K) (owned : Slice)
    (copied : Bool) : Prop where
  caller : arrays.read keys = content
  made : keys.array < arrays.used
  listed : arrays.read owned = won
  shared : copied = false → owned.len = 0 ∨ owned.array = keys.array
  apart : copied = true → owned.array ≠ keys.array ∧ owned.array < arrays.used ∧ owned.cap = keys.len

section Owned

variable {keys : Slice} {content won : List K} {w : BatchMemory K V E} {i : Nat}

omit [Inhabited V] [DecidableEq K] in
/-- Copying the owned keys leaves the caller's slice as it was. -/
theorem OwnedKeys.copy (owns : OwnedKeys keys content won w.arrays w.owned w.copied)
    (few : w.owned.len ≤ keys.len) :
    OwnedKeys keys content won (w.copyOwned keys).1 (w.copyOwned keys).2 true ∧
      (w.copyOwned keys).2.len = w.owned.len := by
  unfold copyOwned
  cases copied : w.copied with
  | true =>
    rw [copied] at owns
    exact ⟨owns, rfl⟩
  | false =>
    obtain ⟨empty, others⟩ := Arrays.read_make (h := w.arrays) keys.len
    have length := w.arrays.length_read w.owned
    obtain ⟨all, slice, used, kept⟩ := Arrays.appendAll_of_room (h := (w.arrays.make keys.len).1)
      (s := (w.arrays.make keys.len).2) (w.arrays.read w.owned)
      (show 0 + (w.arrays.read w.owned).length ≤ keys.len by omega)
    have fresh : keys.array ≠ (w.arrays.make keys.len).2.array := owns.made.ne
    have made : keys.array < (w.arrays.make keys.len).1.used := Nat.lt_succ_of_lt owns.made
    simp only [Bool.false_eq_true, if_false]
    refine ⟨⟨?_, by rw [used]; exact made, ?_, nofun, fun _ => ?_⟩, ?_⟩
    · rw [kept keys fresh made, others keys owns.made, owns.caller]
    · rw [all, empty, owns.listed, List.nil_append]
    · rw [slice, used]
      exact ⟨fresh.symm, Nat.lt_succ_self _, rfl⟩
    · rw [slice, length]
      exact Nat.zero_add _

omit [Inhabited V] [DecidableEq K] [Inhabited K] in
/-- Adding a key to an array with room for it leaves the caller's slice as it was. -/
theorem OwnedKeys.append {arrays : Arrays K} {owned : Slice} (owns : OwnedKeys keys content won arrays owned true)
    (few : owned.len < keys.len) (key : K) :
    OwnedKeys keys content (won ++ [key]) (arrays.append owned key).1 (arrays.append owned key).2 true := by
  obtain ⟨apart, made, cap⟩ := owns.apart rfl
  obtain ⟨slice, used⟩ := Arrays.append_of_room (h := arrays) key (show owned.len < owned.cap by omega)
  refine ⟨?_, by rw [used]; exact owns.made, ?_, nofun, fun _ => ?_⟩
  · rw [Arrays.read_append_of_ne _ (Ne.symm apart) owns.made, owns.caller]
  · rw [Arrays.read_append, owns.listed]
  · rw [used, slice]
    exact ⟨apart, made, cap⟩

omit [Inhabited V] [DecidableEq K] in
/-- One more owned key leaves the caller's slice as it was. -/
theorem OwnedKeys.own (owns : OwnedKeys keys content won w.arrays w.owned w.copied) (inside : i < keys.len)
    (few : w.owned.len ≤ i) :
    OwnedKeys keys content (won ++ [w.arrays.cells keys.array i]) (w.own keys i (w.arrays.cells keys.array i)).1
      (w.own keys i (w.arrays.cells keys.array i)).2.1 (w.own keys i (w.arrays.cells keys.array i)).2.2 := by
  unfold BatchMemory.own
  split
  · next whole =>
    obtain ⟨notCopied, rfl⟩ := whole
    refine ⟨owns.caller, owns.made, ?_, fun _ => .inr rfl, nofun⟩
    -- All keys before this one are owned, so the owned ones are the beginning of the caller's.
    have before : w.arrays.read { keys with len := w.owned.len } = w.arrays.read w.owned := by
      rcases owns.shared notCopied with none | same
      · simp [Arrays.read, none]
      · simp [Arrays.read, same]
    rw [← owns.listed, ← before]
    exact w.arrays.read_succ { keys with len := w.owned.len }
  · obtain ⟨copied, len⟩ := owns.copy (by omega)
    exact copied.append (by omega) _

end Owned

/-- A step of the callers around a batch: its own claim of the key at a position, a step of another caller on the
registry, and another caller's result. -/
inductive Step (K V E : Type) where
  | own (i : Nat)
  | other (step : FlightStep K)
  | settle (call : Nat) (result : FlightResult V E)

/-- The call a step of another caller is about. -/
def callOf : FlightStep K → Nat
  | .claim _ call => call
  | .release call => call

/-- Take a step; the batch's own claims are logged with what they found. -/
def step (hash : K → BitVec 64) (keys : Slice) :
    BatchMemory K V E × List (Nat × Bool) → Step K V E → Except Fault (BatchMemory K V E × List (Nat × Bool))
  | (w, log), .own i => do
    let (w, running) ← w.claim hash keys i
    return (w, log ++ [(i, running)])
  | (w, log), .other other => do
    let registry ← w.registry.step hash other
    return ({ w with registry := registry, nextCall := max w.nextCall (callOf other + 1) }, log)
  | (w, log), .settle call result =>
    let flights := w.registry.flights.putCall call { w.registry.flights.calls call with
      val := result.val, err := result.err, ok := result.ok }
    return ({ w with registry := { w.registry with flights := flights } }, log)

/-- The cell is one of the batch's slab. -/
def Mine (w : BatchMemory K V E) (call : Nat) : Prop :=
  ∃ slab, w.calls = some slab ∧ slab.base ≤ call ∧ call < slab.base + slab.cap

/-- The batch claims positions in order, and other callers use calls of their own. -/
def Proper (keys : Slice) : BatchMemory K V E × List (Nat × Bool) → Step K V E → Prop
  | (_, log), .own i => i < keys.len ∧ ∀ entry ∈ log, entry.1 < i
  | (w, _), .other other => w.registry.Proper other ∧ ¬ w.Mine (callOf other)
  | (w, _), .settle call _ => ¬ w.Mine call

/-- The keys whose claims found no flight running, in the order of the claims. -/
def won (content : List K) (log : List (Nat × Bool)) : List K :=
  log.filterMap fun entry => if entry.2 then none else content[entry.1]?

/-- The calls of a slab are registered for the keys won, in their order, and none of the other cells is. -/
structure SlabAligned (won : List K) (registry : FlightRun K V (LoadError E)) (nextCall : Nat)
    (slab : CallSlab) : Prop where
  made : slab.base + slab.cap ≤ nextCall
  short : slab.len ≤ slab.cap
  len : slab.len = won.length
  registered : ∀ j key, won[j]? = some key → registry.unreleased (slab.base + j) = some key
  spare : ∀ j, slab.len ≤ j → j < slab.cap → registry.unreleased (slab.base + j) = none
  blank : ∀ j < slab.cap, (registry.flights.calls (slab.base + j)).val = default ∧
    (registry.flights.calls (slab.base + j)).ok = false ∧
    (j < slab.len → (registry.flights.calls (slab.base + j)).err = some .loaderPanic)

/-- The flights of a batch are in order: its slab was made at the first claim for all keys from there on. -/
structure Aligned (hash : K → BitVec 64) (keys : Slice) (content : List K) (w : BatchMemory K V E)
    (log : List (Nat × Bool)) : Prop where
  registry : w.registry.Inv hash
  fresh : ∀ id, w.nextCall ≤ id → w.registry.unreleased id = none
  owns : OwnedKeys keys content (won content log) w.arrays w.owned w.copied
  unclaimed : w.calls = none → log = []
  slab : ∀ slab, w.calls = some slab → SlabAligned (won content log) w.registry w.nextCall slab
  paced : ∀ slab, w.calls = some slab → ∃ first ≤ keys.len, slab.cap = keys.len - first ∧
    ∀ i, (∀ entry ∈ log, entry.1 < i) → slab.len + first ≤ i

section Steps

variable {hash : K → BitVec 64} {keys : Slice} {content : List K} {w : BatchMemory K V E}
  {log : List (Nat × Bool)} {i : Nat}

omit [Inhabited K] [Inhabited V] in
/-- The registry depends on the keys and the places of its calls only. -/
theorem inv_withCalls {registry : FlightRun K V (LoadError E)} (inv : registry.Inv hash)
    {calls : Nat → FlightCall K V (LoadError E)}
    (same : ∀ id, registry.unreleased id ≠ none → (calls id).key = (registry.flights.calls id).key ∧
      (calls id).place = (registry.flights.calls id).place) :
    FlightRun.Inv hash ⟨{ registry.flights with calls := calls }, registry.unreleased⟩ where
  consistent := ⟨inv.consistent.size, fun bucket inside => (inv.consistent.bucket bucket inside).congr
    fun id has => same id ((inv.registered id).mp ⟨bucket, inside, has⟩)⟩
  registered := inv.registered
  named := fun id key claimed => by
    have unreleased : registry.unreleased id = some key := claimed
    rw [(same id (by simp [unreleased])).1]
    exact inv.named id key unreleased

/-- The slab of a claim has a cell left for it. -/
theorem Aligned.slabFor (aligned : Aligned hash keys content w log) (inside : i < keys.len)
    (later : ∀ entry ∈ log, entry.1 < i) :
    ∃ w' slab first, w.slabFor (keys.len - i) = (w', slab) ∧ w'.registry.Inv hash ∧
      (∀ id, w'.nextCall ≤ id → w'.registry.unreleased id = none) ∧
      SlabAligned (won content log) w'.registry w'.nextCall slab ∧
      first ≤ keys.len ∧ slab.cap = keys.len - first ∧ slab.len + first ≤ i ∧
      w'.arrays = w.arrays ∧ w'.owned = w.owned ∧ w'.copied = w.copied ∧ w'.joined = w.joined ∧
      ∀ old, w.calls = some old → slab = old := by
  unfold BatchMemory.slabFor
  cases calls : w.calls with
  | some slab =>
    obtain ⟨first, few, cap, paced⟩ := aligned.paced slab calls
    exact ⟨w, slab, first, rfl, aligned.registry, aligned.fresh, aligned.slab slab calls, few, cap,
      paced i later, rfl, rfl, rfl, rfl, fun old same => Option.some_inj.mp same⟩
  | none =>
    obtain rfl := aligned.unclaimed calls
    refine ⟨_, _, i, rfl, inv_withCalls aligned.registry fun id claimed => ?_, fun id past =>
      aligned.fresh id (show w.nextCall ≤ id by simp only at past; omega), ⟨le_rfl, Nat.zero_le _, rfl, fun j key none => ?_,
      fun j _ _ => aligned.fresh _ (Nat.le_add_right _ _), fun j small => ?_⟩, inside.le, rfl, ?_, rfl, rfl, rfl,
      rfl, nofun⟩
    · -- Cells that were not handed out are not registered.
      have handed : id < w.nextCall := by
        by_contra past
        exact claimed (aligned.fresh id (by omega))
      rw [if_neg (by omega)]
      exact ⟨rfl, rfl⟩
    · simp [won] at none
    · have here : w.nextCall ≤ w.nextCall + j ∧ w.nextCall + j < w.nextCall + (keys.len - i) := by
        simp only at small
        omega
      simp only [if_pos here]
      exact ⟨rfl, rfl, nofun⟩
    · simp

omit [Inhabited K] [DecidableEq K] in
/-- Changes outside a slab leave it aligned. -/
theorem SlabAligned.elsewhere {won : List K} {registry registry' : FlightRun K V (LoadError E)}
    {nextCall nextCall' : Nat} {slab : CallSlab} (aligned : SlabAligned won registry nextCall slab)
    (more : nextCall ≤ nextCall')
    (unreleased : ∀ j < slab.cap, registry'.unreleased (slab.base + j) = registry.unreleased (slab.base + j))
    (result : ∀ j < slab.cap, (registry'.flights.calls (slab.base + j)).result
      = (registry.flights.calls (slab.base + j)).result) : SlabAligned won registry' nextCall' slab where
  made := aligned.made.trans more
  short := aligned.short
  len := aligned.len
  registered := fun j key named => by
    have inside : j < won.length := (List.getElem?_eq_some_iff.mp named).1
    rw [unreleased j (by have := aligned.len; have := aligned.short; omega)]
    exact aligned.registered j key named
  spare := fun j past small => by
    rw [unreleased j small]
    exact aligned.spare j past small
  blank := fun j small => by
    obtain ⟨val, err, ok⟩ := FlightResult.mk.inj (result j small)
    rw [val, err, ok]
    exact aligned.blank j small

section Claim

variable {won : List K} {registry : FlightRun K V (LoadError E)} {nextCall : Nat} {slab : CallSlab}
  {flights : Flights K V (LoadError E)} {winner : Nat} {running : Bool} {key : K}

omit [Inhabited K] in
/-- After a claim the cells of the slab are as they were, but for the error in the one that was claimed with. -/
theorem SlabAligned.blank_claim (aligned : SlabAligned won registry nextCall slab)
    (ran : (registry.flights.putCall (slab.base + slab.len) { registry.flights.calls (slab.base + slab.len) with
      err := some .loaderPanic }).claim (hash key) key (slab.base + slab.len) = .ok (flights, winner, running)) :
    ∀ j < slab.cap, (flights.calls (slab.base + j)).val = default ∧
      (flights.calls (slab.base + j)).ok = false ∧
      (j < slab.len + 1 → (flights.calls (slab.base + j)).err = some .loaderPanic) := by
  intro j small
  obtain ⟨val, ok, err⟩ := aligned.blank j small
  have kept := Flights.claim_result ran (slab.base + j)
  simp only [Flights.putCall] at kept
  by_cases here : j = slab.len
  · subst here
    rw [Function.update_self] at kept
    obtain ⟨val', err', ok'⟩ := FlightResult.mk.inj kept
    exact ⟨val'.trans val, ok'.trans ok, fun _ => err'⟩
  · rw [Function.update_of_ne (show slab.base + j ≠ slab.base + slab.len by omega)] at kept
    obtain ⟨val', err', ok'⟩ := FlightResult.mk.inj kept
    exact ⟨val'.trans val, ok'.trans ok, fun less => err'.trans (err (by omega))⟩

omit [Inhabited K] [DecidableEq K] in
/-- A key that is won has the next call of the slab. -/
theorem SlabAligned.wins (aligned : SlabAligned won registry nextCall slab) (room : slab.len < slab.cap) (key : K)
    (blank : ∀ j < slab.cap, (flights.calls (slab.base + j)).val = default ∧
      (flights.calls (slab.base + j)).ok = false ∧
      (j < slab.len + 1 → (flights.calls (slab.base + j)).err = some .loaderPanic)) :
    SlabAligned (won ++ [key])
      ⟨flights, Function.update registry.unreleased (slab.base + slab.len) (some key)⟩ nextCall
      { slab with len := slab.len + 1 } := by
  have total : slab.len = won.length := aligned.len
  refine ⟨aligned.made, room, by simp [total], fun j other at_j => ?_, fun j past small => ?_, blank⟩
  · by_cases last : j = slab.len
    · subst last
      rw [total, List.getElem?_concat_length] at at_j
      simp only [Function.update_self, at_j]
    · have before : j < won.length := by
        have := (List.getElem?_eq_some_iff.mp at_j).1
        simp only [List.length_append, List.length_cons, List.length_nil] at this
        omega
      rw [List.getElem?_append_left before] at at_j
      simp only
      rw [Function.update_of_ne (by omega)]
      exact aligned.registered j other at_j
  · simp only at past small ⊢
    rw [Function.update_of_ne (by omega)]
    exact aligned.spare j (by omega) small

end Claim

/-- A claim of the batch returns, and its flights stay aligned, whether it wins the key or joins. -/
theorem Aligned.claim (aligned : Aligned hash keys content w log) (inside : i < keys.len)
    (later : ∀ entry ∈ log, entry.1 < i) :
    ∃ w' running, w.claim hash keys i = .ok (w', running) ∧
      Aligned hash keys content w' (log ++ [(i, running)]) ∧
      ∀ slab, w.calls = some slab → ∃ len, w'.calls = some { slab with len := len } := by
  obtain ⟨w₁, slab, first, made, inv, fresh, slabbed, few, cap, paced, arrays, owned, copied, joined, same⟩ :=
    aligned.slabFor inside later
  have room : slab.len < slab.cap := by omega
  have idle : w₁.registry.unreleased (slab.base + slab.len) = none := slabbed.spare _ le_rfl room
  have marked : FlightRun.Inv hash ⟨w₁.registry.flights.putCall (slab.base + slab.len)
      { w₁.registry.flights.calls (slab.base + slab.len) with err := some .loaderPanic },
      w₁.registry.unreleased⟩ := inv_withCalls inv fun id claimed => by
    have apart : id ≠ slab.base + slab.len := by
      rintro rfl
      exact claimed idle
    rw [Function.update_of_ne apart]
    exact ⟨rfl, rfl⟩
  obtain ⟨flights, winner, running, ran, inv', _⟩ := marked.claim (w.arrays.cells keys.array i) idle
  have blank := slabbed.blank_claim ran
  have claimed : w.claim hash keys i = if running then
      .ok ({ w₁ with registry := ⟨flights, w₁.registry.unreleased⟩, calls := some slab,
                     joined := w₁.joined ++ [(w.arrays.cells keys.array i, winner)] }, true)
    else .ok ({ w₁ with
        arrays := (w₁.own keys i (w.arrays.cells keys.array i)).1
        owned := (w₁.own keys i (w.arrays.cells keys.array i)).2.1
        copied := (w₁.own keys i (w.arrays.cells keys.array i)).2.2
        registry := ⟨flights, Function.update w₁.registry.unreleased (slab.base + slab.len)
          (some (w.arrays.cells keys.array i))⟩
        calls := some { slab with len := slab.len + 1 } }, false) := by
    unfold BatchMemory.claim
    simp only [made, Nat.not_le.mpr inside, Nat.not_le.mpr room, if_false, ran]
    cases running <;> rfl
  have owns : OwnedKeys keys content (won content log) w₁.arrays w₁.owned w₁.copied := by
    rw [arrays, owned, copied]
    exact aligned.owns
  -- Every later position is past this one, and so past the cells that were used.
  have pace : ∀ len ≤ slab.len + 1, ∀ i', (∀ entry ∈ log ++ [(i, running)], entry.1 < i') → len + first ≤ i' := by
    intro len most i' past
    have := past (i, running) (by simp)
    simp only at this
    omega
  rw [claimed]
  cases running with
  | true =>
    have kept : won content (log ++ [(i, true)]) = won content log := by simp [won]
    refine ⟨_, true, rfl, ⟨inv', fresh, by rw [kept]; exact owns, nofun, fun slab' this => ?_, fun slab' this => ?_⟩,
      fun old was => ⟨slab.len, by rw [← same old was]⟩⟩
    · obtain rfl := Option.some_inj.mp this
      rw [kept]
      exact ⟨slabbed.made, slabbed.short, slabbed.len, slabbed.registered, slabbed.spare, fun j small =>
        ⟨(blank j small).1, (blank j small).2.1, fun less => (blank j small).2.2 (by omega)⟩⟩
    · obtain rfl := Option.some_inj.mp this
      exact ⟨first, few, cap, pace _ (Nat.le_succ _)⟩
  | false =>
    have named : content[i]? = some (w.arrays.cells keys.array i) := by
      rw [← aligned.owns.caller, Arrays.read_getElem?, if_pos inside]
    have gained : won content (log ++ [(i, false)]) = won content log ++ [w.arrays.cells keys.array i] := by
      simp [won, List.filterMap_append, named]
    have length : w₁.owned.len = slab.len := by
      rw [slabbed.len, ← owns.listed, Arrays.length_read]
    refine ⟨_, false, rfl, ⟨inv', fun id past => ?_, ?_, nofun, fun slab' this => ?_, fun slab' this => ?_⟩,
      fun old was => ⟨slab.len + 1, by rw [← same old was]⟩⟩
    · have := slabbed.made
      simp only at past ⊢
      rw [Function.update_of_ne (by omega)]
      exact fresh id past
    · have more := owns.own inside (by omega)
      rw [gained, ← arrays]
      exact more
    · obtain rfl := Option.some_inj.mp this
      rw [gained]
      exact slabbed.wins room _ blank
    · obtain rfl := Option.some_inj.mp this
      exact ⟨first, few, cap, pace _ le_rfl⟩

omit [Inhabited K] in
/-- What others do to the registry and to their own calls leaves the flights of the batch aligned. -/
theorem Aligned.elsewhere (aligned : Aligned hash keys content w log)
    {registry : FlightRun K V (LoadError E)} {nextCall : Nat} (inv : registry.Inv hash)
    (more : w.nextCall ≤ nextCall) (fresh : ∀ id, nextCall ≤ id → registry.unreleased id = none)
    (unreleased : ∀ id, w.Mine id → registry.unreleased id = w.registry.unreleased id)
    (result : ∀ id, w.Mine id → (registry.flights.calls id).result = (w.registry.flights.calls id).result) :
    Aligned hash keys content { w with registry := registry, nextCall := nextCall } log where
  registry := inv
  fresh := fresh
  owns := aligned.owns
  unclaimed := aligned.unclaimed
  paced := aligned.paced
  slab := fun slab calls => by
    have mine : ∀ j < slab.cap, w.Mine (slab.base + j) := fun j small => ⟨slab, calls, by omega, by omega⟩
    exact (aligned.slab slab calls).elsewhere more
      (fun j small => unreleased _ (mine j small)) fun j small => result _ (mine j small)

/-- Every step returns and leaves the flights aligned, and the slab where it was. -/
theorem Aligned.step (aligned : Aligned hash keys content w log) {next : Step K V E}
    (proper : Proper keys (w, log) next) :
    ∃ w' log', BatchMemory.step hash keys (w, log) next = .ok (w', log') ∧
      Aligned hash keys content w' log' ∧
      ∀ slab, w.calls = some slab → ∃ len, w'.calls = some { slab with len := len } := by
  have kept : ∀ slab, w.calls = some slab → ∃ len, w.calls = some { slab with len := len } :=
    fun slab calls => ⟨slab.len, calls⟩
  cases next with
  | own i =>
    obtain ⟨w', running, ran, aligned', slab⟩ := aligned.claim proper.1 proper.2
    exact ⟨w', _, by rw [BatchMemory.step, ran]; rfl, aligned', slab⟩
  | settle call value =>
    have other : ¬ w.Mine call := proper
    refine ⟨_, _, rfl, aligned.elsewhere (inv_withCalls aligned.registry fun id _ => ?_) le_rfl aligned.fresh
      (fun _ _ => rfl) (fun id mine => ?_), kept⟩
    · by_cases same : id = call
      · subst same
        simp
      · simp [same]
    · have apart : id ≠ call := by
        rintro rfl
        exact other mine
      simp [Flights.putCall, apart]
  | other move =>
    obtain ⟨proper, other⟩ := proper
    have apart : ∀ id, w.Mine id → id ≠ callOf move := by
      rintro id mine rfl
      exact other mine
    cases move with
    | claim key call =>
      obtain ⟨flights, winner, running, ran, inv, _⟩ := aligned.registry.claim key proper
      refine ⟨_, _, by rw [BatchMemory.step, FlightRun.step, ran]; rfl, aligned.elsewhere inv (le_max_left _ _)
        (fun id past => ?_) (fun id mine => ?_) (fun id _ => Flights.claim_result ran id), kept⟩
      · simp only [callOf, max_le_iff] at past
        cases running with
        | true => exact aligned.fresh id past.1
        | false =>
          simp only [Bool.false_eq_true, if_false]
          rw [Function.update_of_ne (by omega)]
          exact aligned.fresh id past.1
      · cases running with
        | true => rfl
        | false =>
          simp only [Bool.false_eq_true, if_false]
          exact Function.update_of_ne (apart id mine) _ _
    | release call =>
      obtain ⟨flights, ran, inv, _⟩ := aligned.registry.release proper
      obtain ⟨_, ran', _, _, _, others, _⟩ :=
        aligned.registry.consistent.release ((aligned.registry.registered call).mpr proper)
      rw [ran] at ran'
      cases ran'
      refine ⟨_, _, by rw [BatchMemory.step, FlightRun.step, ran]; rfl, aligned.elsewhere inv (le_max_left _ _)
        (fun id past => ?_) (fun id mine => Function.update_of_ne (apart id mine) _ _)
        (fun id mine => congrArg FlightCall.result (others id (apart id mine))), kept⟩
      simp only [callOf, max_le_iff] at past
      simp only
      rw [Function.update_of_ne (by omega)]
      exact aligned.fresh id past.1

end Steps

/-- A batch that has claimed nothing yet, over a registry without flights. -/
def start (arrays : Arrays K) (mask : Nat) (calls : Nat → FlightCall K V (LoadError E)) : BatchMemory K V E :=
  { arrays := arrays, registry := ⟨.empty mask calls, fun _ => none⟩, nextCall := 0, owned := ⟨0, 0, 0⟩
    calls := none, joined := [], copied := false }

omit [Inhabited K] in
/-- A batch that has claimed nothing is aligned. -/
theorem aligned_start (hash : K → BitVec 64) {mask : Nat} (size : mask < 2 ^ 8)
    (calls : Nat → FlightCall K V (LoadError E)) {arrays : Arrays K} {keys : Slice}
    (made : keys.array < arrays.used) :
    Aligned hash keys (arrays.read keys) (start arrays mask calls : BatchMemory K V E) [] := by
  obtain ⟨consistent, none⟩ := Flights.consistent_empty hash size calls
  exact {
    registry := ⟨consistent, fun id => by simp [start, none], fun id key claimed => nomatch claimed⟩
    fresh := fun _ _ => rfl
    owns := ⟨rfl, made, rfl, fun _ => .inl rfl, nofun⟩
    unclaimed := fun _ => rfl
    slab := nofun
    paced := nofun }

omit [Inhabited K] in
/-- The owned keys of an aligned batch are all different, since a key has one flight at a time. -/
theorem Aligned.nodup {hash : K → BitVec 64} {keys : Slice} {content : List K} {w : BatchMemory K V E}
    {log : List (Nat × Bool)} (aligned : Aligned hash keys content w log) : (won content log).Nodup := by
  cases calls : w.calls with
  | none =>
    rw [aligned.unclaimed calls]
    exact List.nodup_nil
  | some slab =>
    have slabbed := aligned.slab slab calls
    refine List.nodup_iff_getElem?_ne_getElem?.mpr fun j k less inside same => ?_
    obtain ⟨key, at_k⟩ := Option.ne_none_iff_exists'.mp (show (won content log)[k]? ≠ none by simpa using inside)
    rw [at_k] at same
    obtain ⟨registered, named⟩ := (aligned.registry.unreleased_iff _ _).mp (slabbed.registered j key same)
    obtain ⟨registered', named'⟩ := (aligned.registry.unreleased_iff _ _).mp (slabbed.registered k key at_k)
    have := aligned.registry.consistent.unique registered registered' (named.trans named'.symm)
    omega

/-- While a batch claims its keys in order, whatever other callers do: no claim fails, the owned keys are those
whose claims succeeded, each registered with the call at its place in a slab that stays where it is and within
its capacity; the caller's keys stay as they are; and an answer gives every owned flight the last value for its
key, or the error, and finds exactly the answers to owned keys. -/
theorem batch_flights_aligned (hash : K → BitVec 64) {mask : Nat} (size : mask < 2 ^ 8)
    (calls : Nat → FlightCall K V (LoadError E)) (arrays : Arrays K) {keys : Slice}
    (made : keys.array < arrays.used) {steps : List (Step K V E)}
    (proper : Meets (step hash keys) (Proper keys) (start arrays mask calls, []) steps) :
    ∀ done, done <+: steps → ∃ w log, run (step hash keys) (start arrays mask calls, []) done = .ok (w, log) ∧
      w.arrays.read w.owned = won (arrays.read keys) log ∧ w.arrays.read keys = arrays.read keys ∧
      (w.calls = none → log = []) ∧
      (∀ slab, w.calls = some slab → slab.len = w.owned.len ∧ slab.len ≤ slab.cap ∧
        (∀ j key, (w.arrays.read w.owned)[j]? = some key →
          w.registry.flights.Registered (slab.base + j) ∧
          (w.registry.flights.calls (slab.base + j)).key = key ∧
          (w.registry.flights.calls (slab.base + j)).result = Load.unresolved) ∧
        ∀ next w' log', done ++ [next] <+: steps → step hash keys (w, log) next = .ok (w', log') →
          ∃ len, w'.calls = some { slab with len := len }) ∧
      ∀ (loaded : List (K × V)) (err : Option (LoadError E)), Load.assignLoaded (w.arrays.read w.owned) loaded err
        = ((w.arrays.read w.owned).map (Load.flightResult loaded err),
          loaded.filter fun item => item.1 ∈ w.arrays.read w.owned) := by
  intro done within
  obtain ⟨⟨w, log⟩, ran, aligned⟩ := exists_run_eq
    (fun _ state => Aligned hash keys (arrays.read keys) state.1 state.2) (aligned_start hash size calls made)
    proper (fun _ next state _ aligned allowed => by
      obtain ⟨w', log', stepped, aligned', _⟩ := aligned.step allowed
      exact ⟨(w', log'), stepped, aligned'⟩) done within
  dsimp only at aligned
  refine ⟨w, log, ran, aligned.owns.listed, aligned.owns.caller, aligned.unclaimed, fun slab here => ?_,
    fun loaded err => ?_⟩
  · have slabbed := aligned.slab slab here
    refine ⟨?_, slabbed.short, fun j key at_j => ?_, fun next w' log' within' stepped => ?_⟩
    · rw [slabbed.len, ← aligned.owns.listed, Arrays.length_read]
    · rw [aligned.owns.listed] at at_j
      have inside : j < slab.len := by
        rw [slabbed.len]
        exact (List.getElem?_eq_some_iff.mp at_j).1
      obtain ⟨registered, named⟩ := (aligned.registry.unreleased_iff _ _).mp (slabbed.registered j key at_j)
      obtain ⟨val, ok, err⟩ := slabbed.blank j (inside.trans_le slabbed.short)
      exact ⟨registered, named, by simp only [FlightCall.result, val, ok, err inside, Load.unresolved]⟩
    · obtain ⟨w'', log'', stepped', _, kept⟩ := aligned.step (proper done next within' _ ran)
      rw [stepped] at stepped'
      cases stepped'
      exact kept slab here
  · rw [aligned.owns.listed]
    exact Load.assignLoaded_eq aligned.nodup loaded err

/-- A claim of the batch is logged. -/
theorem log_of_own {hash : K → BitVec 64} {keys : Slice} {state state' : BatchMemory K V E × List (Nat × Bool)}
    {i : Nat} (ran : step hash keys state (.own i) = .ok state') :
    ∃ running, state'.2 = state.2 ++ [(i, running)] := by
  obtain ⟨⟨w, running⟩, _, same⟩ := exists_of_bind_eq_ok ran
  cases same
  exact ⟨running, rfl⟩

/-- The keys 7, 7 and 8 of a batch in the first array. -/
def sevens : Arrays Nat := ⟨fun _ i => if i = 2 then 8 else 7, 1⟩

/-- The first of two equal keys is owned, and so is the key behind them. -/
theorem batch_flights_aligned_sevens : ∃ (w : BatchMemory Nat Unit Unit) (log : List (Nat × Bool)),
    run (step (fun _ => 0#64) ⟨0, 3, 3⟩) (start sevens 0 fun _ => zeroCall, []) [.own 0, .own 1, .own 2]
      = .ok (w, log) ∧ w.arrays.read w.owned = [7, 8] := by
  have logged : (run (step (fun _ => 0#64) ⟨0, 3, 3⟩) ((start sevens 0 fun _ => zeroCall, []) :
      BatchMemory Nat Unit Unit × List (Nat × Bool)) [.own 0, .own 1, .own 2]).map Prod.snd
        = .ok [(0, false), (1, true), (2, false)] := by decide +kernel
  have proper : Meets (step (fun _ => 0#64) ⟨0, 3, 3⟩) (Proper ⟨0, 3, 3⟩)
      ((start sevens 0 fun _ => zeroCall, []) : BatchMemory Nat Unit Unit × List (Nat × Bool))
      [.own 0, .own 1, .own 2] := by
    refine meets_cons ⟨by decide, by simp⟩ fun first ran => meets_cons ⟨by decide, ?_⟩ fun second ran' =>
      meets_cons ⟨by decide, ?_⟩ fun _ _ => meets_nil _ _ _
    · obtain ⟨_, log⟩ := log_of_own ran
      simp [log]
    · obtain ⟨_, log⟩ := log_of_own ran
      obtain ⟨_, log'⟩ := log_of_own ran'
      simp [log, log']
  obtain ⟨w, log, ran, owned, _⟩ :=
    batch_flights_aligned (fun _ => 0#64) (by decide) (fun _ => zeroCall) sevens (by decide) proper _ List.prefix_rfl
  rw [ran] at logged
  obtain rfl : log = _ := Except.ok.inj logged
  exact ⟨w, _, ran, owned⟩

end BatchMemory

end Memstash
