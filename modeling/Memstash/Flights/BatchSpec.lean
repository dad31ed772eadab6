import Memstash.Cache.Accounting
import Memstash.Flights.Solo
import Memstash.Lib.Occurrences

/-! What a batched load returns and leaves in memory when nothing disturbs it. -/

namespace Memstash

open Programs Occurrences

variable {K V E : Type} [DecidableEq K]

namespace Load

/-- Collect the pairs of a result into a map. -/
def toMap (t : List (K × V)) : Finmap fun _ : K => V := t.foldl (fun m item => m.insert item.1 item.2) ∅

/-- The last pair of a key decides. -/
theorem toMap_lookup (t : List (K × V)) (key : K) : (toMap t).lookup key = lastValue t key := by
  induction t using List.reverseRecOn with
  | nil => rfl
  | append_singleton rest item ih =>
    rw [toMap, List.foldl_append, lastValue_append]
    show ((toMap rest).insert item.1 item.2).lookup key = _
    by_cases same : item.1 = key
    · subst same
      simp [lastValue]
    · rw [Finmap.lookup_insert_of_ne _ (Ne.symm same), ih]
      simp [lastValue, same]

/-- The index has every owned key where it comes first. -/
theorem ownedIndex_lookup (keys : List K) (key : K) :
    ∀ i, (ownedIndex i keys).lookup key = (keys.idxOf? key).map (i + ·) := by
  induction keys with
  | nil => exact fun i => rfl
  | cons other rest ih =>
    intro i
    rw [ownedIndex, List.idxOf?_cons]
    by_cases same : other = key
    · subst same
      simp
    · rw [Finmap.lookup_insert_of_ne _ (Ne.symm same), ih, if_neg (by simpa using same), Option.map_map]
      congr 1
      funext j
      simp only [Function.comp_apply]
      omega

/-- Looking an owned key up, with the index or without. -/
theorem indexOf_eq_some {owned : List K} (distinct : owned.Nodup) {index : Option (Finmap fun _ : K => Nat)}
    (built : index = none ∨ index = some (ownedIndex 0 owned)) {key : K} {j : Nat} :
    indexOf owned key index = some j ↔ owned[j]? = some key := by
  rw [← idxOf?_eq_some_of_nodup distinct]
  rcases built with rfl | rfl
  · rw [indexOf, List.idxOf?]
    simp [beq_eq_decide]
  · rw [indexOf, ownedIndex_lookup]
    simp

/-- Writing the result of one owned key. -/
theorem map_set_of_nodup {α : Type} {owned : List K} (distinct : owned.Nodup) {key : K} {j : Nat}
    (here : owned[j]? = some key) (f : K → α) (a : α) :
    (owned.map f).set j a = owned.map (Function.update f key a) := by
  refine List.ext_getElem? fun i => ?_
  rw [List.getElem?_set, List.getElem?_map, List.getElem?_map, List.length_map]
  obtain ⟨inside, _⟩ := List.getElem?_eq_some_iff.mp here
  by_cases same : j = i
  · subst same
    rw [if_pos rfl, if_pos inside, here, Option.map_some, Function.update_self]
  · rw [if_neg same]
    cases other : owned[i]? with
    | none => rfl
    | some key' =>
      have apart : key' ≠ key := fun equal => same (getElem?_unique distinct here (equal ▸ other))
      simp [apart]

variable [Inhabited V]

/-- What the flight of a key gets from the answers to its batch. -/
def flightResult (resolved : List (K × V)) (err : Option (LoadError E)) (key : K) : FlightResult V E :=
  match lastValue resolved key with
  | some value => ⟨value, none, true⟩
  | none => ⟨default, err, false⟩

omit [Inhabited V] in
/-- Every answer goes to the flight of its key, a later one over an earlier one; those of strangers are
left out. -/
theorem assignItems_eq {owned : List K} (distinct : owned.Nodup) (items : List (K × V)) :
    ∀ (i : Nat) {index : Option (Finmap fun _ : K => Nat)} (f : K → FlightResult V E) (found : List (K × V)),
      (index = none ∨ index = some (ownedIndex 0 owned)) →
      assignItems owned i index items (owned.map f) found
        = (owned.map fun key => ((lastValue items key).map fun value => ⟨value, none, true⟩).getD (f key),
          found ++ items.filter fun item => item.1 ∈ owned) := by
  induction items with
  | nil =>
    intro i index f found _
    simp [assignItems]
  | cons item rest ih =>
    intro i index f found built
    -- An answer to the key in some slot, wherever the slot was found.
    have assigned : ∀ {j : Nat} {index : Option (Finmap fun _ : K => Nat)},
        (index = none ∨ index = some (ownedIndex 0 owned)) → owned[j]? = some item.1 →
        assignItems owned (i + 1) index rest ((owned.map f).set j ⟨item.2, none, true⟩) (found ++ [item])
          = (owned.map fun key =>
              ((lastValue (item :: rest) key).map fun value => ⟨value, none, true⟩).getD (f key),
            found ++ (item :: rest).filter fun item => item.1 ∈ owned) := by
      intro j index built here
      have known : item.1 ∈ owned := List.mem_of_getElem? here
      rw [map_set_of_nodup distinct here, ih _ _ _ built, List.filter_cons_of_pos (by simpa using known)]
      refine Prod.ext (List.map_congr_left fun key _ => ?_) (by simp)
      rw [lastValue_cons]
      by_cases same : item.1 = key
      · subst same
        cases lastValue rest item.1 <;> simp
      · rw [if_neg same, Option.or_none, Function.update_of_ne (Ne.symm same)]
    rw [assignItems]
    split
    · rename_i here
      exact assigned built here
    · dsimp only
      generalize later : (if index.isNone ∧ owned.length > ownedScanMax then some (ownedIndex 0 owned)
        else index) = index'
      have built' : index' = none ∨ index' = some (ownedIndex 0 owned) := by
        rw [← later]
        split
        · exact .inr rfl
        · exact built
      split
      · rename_i missing
        have stranger : item.1 ∉ owned := by
          intro known
          obtain ⟨j, here⟩ := List.mem_iff_getElem?.mp known
          rw [(indexOf_eq_some distinct built').mpr here] at missing
          cases missing
        rw [ih _ _ _ built', List.filter_cons_of_neg (by simpa using stranger)]
        refine Prod.ext (List.map_congr_left fun key member => ?_) rfl
        have apart : item.1 ≠ key := fun same => stranger (same ▸ member)
        rw [lastValue_cons, if_neg apart, Option.or_none]
      · rename_i j located
        exact assigned built' ((indexOf_eq_some distinct built').mp located)

/-- Every owned flight gets the last answer for its key, or the error. -/
theorem assignLoaded_eq {owned : List K} (distinct : owned.Nodup) (loaded : List (K × V))
    (err : Option (LoadError E)) :
    assignLoaded owned loaded err
      = (owned.map (flightResult loaded err), loaded.filter fun item => item.1 ∈ owned) := by
  rw [assignLoaded, assignItems_eq distinct loaded 0 (fun _ => unresolved) [] (.inl rfl)]
  refine Prod.ext ?_ (by simp)
  simp only [List.map_map]
  refine List.map_congr_left fun key _ => ?_
  simp only [Function.comp_apply, flightResult]
  cases lastValue loaded key <;> simp [unresolved]

end Load

namespace LoadReplies

variable (replies : LoadReplies K V E) (cfg : LoadConfig) (keys : List K)

/-- What the second level answers to a batch, when it is asked. -/
def fromL2 : List (K × V) := if cfg.l2Cache = true ∧ keys ≠ [] then (replies.l2BatchGet keys).1 else []

/-- The keys of a batch that the second level leaves to the loader. -/
def toLoad : List K := keys.filter fun key => key ∉ (replies.fromL2 cfg keys).map Prod.fst

/-- What the loader answers, when it is asked. -/
def loaded : List (K × V) :=
  if replies.toLoad cfg keys = [] then [] else (replies.batchLoad (replies.toLoad cfg keys)).1

/-- The error of the loader, when it is asked. -/
def loadErr : Option E :=
  if replies.toLoad cfg keys = [] then none else (replies.batchLoad (replies.toLoad cfg keys)).2

/-- Everything that is answered to a batch, the second level first. -/
def resolved : List (K × V) := replies.fromL2 cfg keys ++ replies.loaded cfg keys

/-- The loader calls of a batch. -/
def loads : List (List K) := if replies.toLoad cfg keys = [] then [] else [replies.toLoad cfg keys]

@[simp] theorem resolved_nil : replies.resolved cfg [] = [] := by simp [resolved, fromL2, loaded, toLoad]

@[simp] theorem loadErr_nil : replies.loadErr cfg [] = none := rfl

@[simp] theorem loads_nil : replies.loads cfg [] = [] := rfl

theorem toLoad_of_alone (alone : cfg.l2Cache = false) : replies.toLoad cfg keys = keys := by
  simp [toLoad, fromL2, alone]

end LoadReplies

namespace Solo

/-- Pairs were stored one after the other, and the loaders asked. -/
structure Puts (pairs : List (K × V)) (asked : List (List K)) (g g' : Solo K V E) : Prop where
  holding : g'.holding = g.holding
  results : g'.results = g.results
  memory : ∀ key, g'.memory key = (lastValue pairs key).or (g.memory key)
  asked : g'.asked = g.asked ++ asked

theorem Puts.nothing (g : Solo K V E) : Puts [] [] g g :=
  ⟨rfl, rfl, fun _ => rfl, (List.append_nil _).symm⟩

/-- Some pairs and then others. -/
theorem Puts.trans {pairs pairs' : List (K × V)} {asked asked' : List (List K)} {g g' g'' : Solo K V E}
    (first : Puts pairs asked g g') (second : Puts pairs' asked' g' g'') :
    Puts (pairs ++ pairs') (asked ++ asked') g g'' := by
  refine ⟨second.holding.trans first.holding, second.results.trans first.results, fun key => ?_, ?_⟩
  · rw [second.memory, first.memory, lastValue_append, Option.or_assoc]
  · rw [second.asked, first.asked, List.append_assoc]

end Solo

namespace Load

open Solo

variable {replies : LoadReplies K V E} {g : Solo K V E}

/-- Storing one pair. -/
theorem setMemory_puts (key : K) (value : V) (expireOff : Nat) :
    Ensures (Solo.rules replies) (setMemory key value expireOff : Load K V E Unit)
      (fun out g' => out = some () ∧ Puts [(key, value)] [] g g') g := by
  refine ⟨⟨trivial, trivial⟩, ?_⟩
  rintro _ rfl
  refine ⟨rfl, rfl, rfl, fun other => ?_, (List.append_nil _).symm⟩
  show Function.update g.memory key (some value) other = _
  by_cases same : key = other
  · subst same
    simp [lastValue]
  · simp [lastValue, same, Function.update_of_ne (Ne.symm same)]

/-- Storing pairs one after the other, however the offset of each is found. -/
theorem each_puts {step : K × V → Load K V E Unit}
    (stores : ∀ (item : K × V) g, Ensures (Solo.rules replies) (step item)
      (fun out g' => out = some () ∧ Puts [item] [] g g') g) (items : List (K × V)) :
    Ensures (Solo.rules replies) (Prog.each step items)
      (fun out g' => out = some () ∧ Puts items [] g g') g := by
  refine .each (fun rest g' => ∃ done, items = done ++ rest ∧ Puts done [] g g') (fun item rest g' holds => ?_)
    (fun g' holds => ?_) ⟨[], rfl, .nothing g⟩
  · obtain ⟨done, rfl, before⟩ := holds
    refine (stores item g').mono ?_
    rintro _ g'' ⟨rfl, stored⟩
    exact ⟨done ++ [item], by simp, before.trans stored⟩
  · obtain ⟨done, rfl, stored⟩ := holds
    rw [List.append_nil]
    exact ⟨rfl, stored⟩

/-- Reporting changes nothing. -/
theorem reportAll_idle (keys : List K) (err : Option E) :
    Ensures (Solo.rules replies) (reportAll keys err : Load K V E Unit)
      (fun out g' => out = some () ∧ g' = g) g := by
  cases err with
  | none => exact ⟨rfl, rfl⟩
  | some err =>
    refine .each (fun _ g' => g' = g) (fun key rest g' same => ?_) (fun g' same => ⟨rfl, same⟩) rfl
    refine ⟨⟨trivial, trivial⟩, ?_⟩
    rintro _ rfl
    exact same

/-- Caching loaded values stores them. -/
theorem storeLoadedBatch_puts (cfg : LoadConfig) (loaded : List (K × V)) :
    Ensures (Solo.rules replies) (storeLoadedBatch cfg loaded : Load K V E Unit)
      (fun out g' => out = some () ∧ Puts loaded [] g g') g := by
  unfold storeLoadedBatch
  split
  · rename_i empty
    rw [List.isEmpty_iff.mp empty]
    exact ⟨rfl, .nothing g⟩
  · refine ⟨⟨trivial, trivial⟩, fun off _ => Ensures.bind (p := Prog.each _ _)
      ((each_puts (fun item g => setMemory_puts item.1 item.2 off) loaded).mono ?_)⟩
    rintro _ g' ⟨rfl, stored⟩
    cases cfg.l2WritePolicy with
    | writeDisabled => exact ⟨rfl, stored⟩
    | writeThrough =>
      refine ⟨⟨trivial, trivial⟩, ?_⟩
      rintro _ rfl
      refine Ensures.mono (reportAll_idle _ _) ?_
      rintro _ _ ⟨rfl, rfl⟩
      exact ⟨rfl, stored⟩
    | writeBack =>
      refine .each (fun _ g'' => g'' = g') (fun item rest g'' same => ?_) (fun g'' same => ⟨rfl, same ▸ stored⟩) rfl
      refine ⟨⟨trivial, trivial⟩, ?_⟩
      rintro _ rfl
      exact same

/-- Running the loader stores what it answers. -/
theorem runLoader_puts (cfg : LoadConfig) (keys : List K) :
    Ensures (Solo.rules replies) (runLoader cfg keys : Load K V E (Reply K V E))
      (fun out g' => out = some (replies.batchLoad keys) ∧ Puts (replies.batchLoad keys).1 [keys] g g') g := by
  refine ⟨⟨trivial, trivial⟩, ?_⟩
  rintro _ rfl
  have asked : Puts [] [keys] g (Solo.after (.batchLoad keys) (some (replies.batchLoad keys)) g) :=
    ⟨rfl, rfl, fun _ => rfl, rfl⟩
  show Ensures (Solo.rules replies) (if (!(replies.batchLoad keys).1.isEmpty) = true then _ else _) _ _
  split
  · refine .bind ((storeLoadedBatch_puts cfg _).mono ?_)
    rintro _ g' ⟨rfl, stored⟩
    exact ⟨rfl, asked.trans stored⟩
  · rename_i nothing
    have empty : (replies.batchLoad keys).1 = [] := by simpa using nothing
    refine ⟨rfl, ?_⟩
    rw [empty]
    exact asked

theorem promote_puts (items : List (K × V)) :
    Ensures (Solo.rules replies) (promote items : Load K V E Unit)
      (fun out g' => out = some () ∧ Puts items [] g g') g := by
  refine each_puts (fun item g => ?_) items
  exact ⟨⟨trivial, trivial⟩, fun off _ => setMemory_puts item.1 item.2 off⟩

/-- Resolving the keys of a batch asks the loader for those the second level left, and stores everything that
was answered. -/
theorem batchLoad_puts (cfg : LoadConfig) {keys : List K} (someone : keys ≠ []) :
    Ensures (Solo.rules replies) (batchLoad cfg keys : Load K V E (Reply K V E))
      (fun out g' => out = some (replies.resolved cfg keys, replies.loadErr cfg keys) ∧
        Puts (replies.resolved cfg keys) (replies.loads cfg keys) g g') g := by
  unfold batchLoad
  split
  · rename_i alone
    have alone : cfg.l2Cache = false := by simpa using alone
    have all := replies.toLoad_of_alone cfg keys alone
    refine (runLoader_puts cfg keys).mono ?_
    rintro _ g' ⟨rfl, stored⟩
    simp only [LoadReplies.resolved, LoadReplies.loads, LoadReplies.loaded, LoadReplies.loadErr, all, if_neg someone,
      LoadReplies.fromL2, alone]
    exact ⟨rfl, stored⟩
  · rename_i present
    have present : cfg.l2Cache = true := by simpa using present
    have answered : replies.fromL2 cfg keys = (replies.l2BatchGet keys).1 := if_pos ⟨present, someone⟩
    refine .bind ⟨⟨trivial, trivial⟩, ?_⟩
    rintro _ rfl
    refine Ensures.bind (p := reportAll keys _) ((reportAll_idle keys _).mono ?_)
    rintro _ _ ⟨rfl, rfl⟩
    refine Ensures.bind (p := promote _) ((promote_puts _).mono ?_)
    rintro _ g' ⟨rfl, promoted⟩
    have rest : (if (replies.l2BatchGet keys).1.isEmpty then keys
        else keys.filter fun key => key ∉ (replies.l2BatchGet keys).1.map Prod.fst) = replies.toLoad cfg keys := by
      rw [LoadReplies.toLoad, answered]
      split
      · rename_i empty
        simp [List.isEmpty_iff.mp empty]
      · rfl
    dsimp only
    rw [rest]
    rw [← answered] at promoted ⊢
    split
    · rename_i nothing
      have nothing : replies.toLoad cfg keys = [] := by simpa using nothing
      simp only [LoadReplies.resolved, LoadReplies.loads, LoadReplies.loaded, LoadReplies.loadErr, if_pos nothing,
        List.append_nil]
      exact ⟨rfl, promoted⟩
    · rename_i something
      have something : replies.toLoad cfg keys ≠ [] := by simpa using something
      refine .bind ((runLoader_puts cfg _).mono ?_)
      rintro _ g'' ⟨rfl, stored⟩
      simp only [LoadReplies.resolved, LoadReplies.loads, LoadReplies.loaded, LoadReplies.loadErr, if_neg something]
      exact ⟨rfl, promoted.trans stored⟩

omit [DecidableEq K] in
/-- What memory has for some keys, in their order. -/
def hits (memory : K → Option V) (keys : List K) : List (K × V) :=
  keys.filterMap fun key => (memory key).map fun value => (key, value)

/-- The keys memory does not have, each where it comes first. -/
def misses (memory : K → Option V) (keys : List K) : List K :=
  (keys.filter fun key => (memory key).isNone).eraseDups

omit [DecidableEq K] in
theorem hits_concat (memory : K → Option V) (keys : List K) (key : K) :
    hits memory (keys ++ [key]) = hits memory keys ++ (memory key).toList.map fun value => (key, value) := by
  rw [hits, List.filterMap_append]
  congr 1
  cases answer : memory key <;> simp [answer]

/-- One more key that memory has does not miss. -/
theorem misses_concat_hit {memory : K → Option V} (keys : List K) {key : K} (hit : memory key ≠ none) :
    misses memory (keys ++ [key]) = misses memory keys := by
  have present : (memory key).isNone = false := by simpa [Option.isSome_iff_ne_none] using hit
  rw [misses, List.filter_append, List.filter_cons_of_neg (by simp [present])]
  simp [misses]

/-- One more key that memory does not have is one more miss, unless it missed before. -/
theorem misses_concat_miss {memory : K → Option V} (keys : List K) {key : K} (miss : memory key = none) :
    misses memory (keys ++ [key])
      = if key ∈ misses memory keys then misses memory keys else misses memory keys ++ [key] := by
  rw [misses, List.filter_append, List.filter_cons_of_pos (by simp [miss]), List.filter_nil, eraseDups_concat]
  simp only [misses, List.mem_eraseDups]

theorem mem_misses {memory : K → Option V} {keys : List K} {key : K} :
    key ∈ misses memory keys ↔ key ∈ keys ∧ memory key = none := by
  simp [misses]

/-- The memory pass over some keys: hits are noted, every missing key has a flight of this call, and its
repetitions join that flight. -/
structure Passed (memory : K → Option V) (asked : List (List K)) (keys : List K) (found : List (K × V))
    (fl : BatchFlights K) (g : Solo K V E) : Prop where
  untouched : g.memory = memory
  unasked : g.asked = asked
  found : found = hits memory keys
  owned : fl.owned = misses memory keys
  calls : g.holding.owned = fl.calls
  won : g.holding.won = fl.owned.zip fl.calls
  aligned : fl.owned.length = fl.calls.length
  mine : ∀ call ∈ fl.calls, call ∈ g.holding.mine
  distinct : fl.calls.Nodup
  joined : ∀ flight ∈ fl.joined, flight ∈ fl.owned.zip fl.calls ∧ flight.2 ∈ g.holding.joined

variable {memory : K → Option V} {asked : List (List K)} {keys : List K} {found : List (K × V)} {fl : BatchFlights K}

/-- A pass does not depend on the notes of its walks, nor on results. -/
theorem Passed.congr (passed : Passed memory asked keys found fl g) {g' : Solo K V E}
    (holding : g'.holding = g.holding) (same : g'.memory = g.memory) (asks : g'.asked = g.asked) :
    Passed memory asked keys found fl g' := by
  refine ⟨same.trans passed.untouched, asks.trans passed.unasked, passed.found, passed.owned, ?_, ?_, passed.aligned, ?_,
    passed.distinct, ?_⟩
  all_goals rw [holding]
  · exact passed.calls
  · exact passed.won
  · exact passed.mine
  · exact passed.joined

/-- A flight of the call is that of an owned key. -/
theorem Passed.flies (passed : Passed memory asked keys found fl g) {key : K} :
    (∃ call, g.Flies key call) ↔ key ∈ fl.owned := by
  constructor
  · rintro ⟨call, _, won⟩
    rw [passed.won] at won
    exact (List.of_mem_zip won).1
  · intro owned
    obtain ⟨i, inside, rfl⟩ := List.getElem_of_mem owned
    have inside' : i < fl.calls.length := passed.aligned ▸ inside
    refine ⟨fl.calls[i], ?_, ?_⟩
    · rw [passed.calls]
      exact List.getElem_mem inside'
    · rw [passed.won, List.mem_iff_getElem]
      exact ⟨i, by simp [inside, inside'], List.getElem_zip⟩

variable [Inhabited V]

/-- Claiming the flight of a key that misses. -/
theorem claimFor_passed (passed : Passed memory asked keys found fl g) {key : K} (miss : memory key = none) :
    Ensures (Solo.rules replies) (claimFor fl key : Load K V E (BatchFlights K))
      (fun out g' => ∃ fl', out = some fl' ∧ Passed memory asked (keys ++ [key]) found fl' g') g := by
  refine ⟨⟨trivial, trivial⟩, fun call fresh => ⟨⟨.inl rfl, trivial⟩, fun _ _ => ⟨⟨rfl, trivial⟩, fun running taken => ?_⟩⟩⟩
  have hit : found = hits memory (keys ++ [key]) := by
    rw [passed.found, hits_concat, miss]
    simp
  have known : (∃ call, g.Flies key call) ↔ key ∈ misses memory keys := by rw [← passed.owned, passed.flies]
  have owned := misses_concat_miss keys miss
  cases running with
  | some winner =>
    have flies : g.Flies key winner := taken
    rw [if_pos (known.mp ⟨winner, flies⟩), ← passed.owned] at owned
    refine ⟨_, rfl, passed.untouched, passed.unasked, hit, owned.symm, passed.calls, passed.won, passed.aligned,
      fun other member => List.mem_cons_of_mem _ (passed.mine other member), passed.distinct, fun flight member => ?_⟩
    rcases List.mem_append.mp member with before | last
    · obtain ⟨own, handed⟩ := passed.joined flight before
      exact ⟨own, List.mem_cons_of_mem _ handed⟩
    · rw [List.mem_singleton.mp last]
      exact ⟨passed.won ▸ flies.2, List.mem_cons_self⟩
  | none =>
    have free : ∀ other, ¬ g.Flies key other := taken
    rw [if_neg (fun member => (known.mpr member).elim free), ← passed.owned] at owned
    have wins : g.holding.won ++ [(key, call)] = (fl.owned ++ [key]).zip (fl.calls ++ [call]) := by
      rw [passed.won, List.zip_append passed.aligned]
      rfl
    refine ⟨_, rfl, passed.untouched, passed.unasked, hit, owned.symm, ?_, wins, by simp [passed.aligned],
      fun other member => ?_, ?_, fun flight member => ?_⟩
    · show g.holding.owned ++ [call] = _
      rw [passed.calls]
    · rcases List.mem_append.mp member with before | last
      · exact List.mem_cons_of_mem _ (passed.mine other before)
      · rw [List.mem_singleton.mp last]
        exact List.mem_cons_self
    · refine List.nodup_append.mpr ⟨passed.distinct, by simp, ?_⟩
      rintro other before _ last rfl
      rw [List.mem_singleton.mp last] at before
      exact fresh (passed.mine call before)
    · obtain ⟨own, handed⟩ := passed.joined flight member
      refine ⟨?_, handed⟩
      rw [List.zip_append passed.aligned]
      exact List.mem_append_left _ own

/-- One key of the pass, answered with what memory has. -/
theorem noteOrClaim_passed (passed : Passed memory asked keys found fl g) (key : K) :
    Ensures (Solo.rules replies) (noteOrClaim found fl key (memory key) : Load K V E (List (K × V) × BatchFlights K))
      (fun out g' => ∃ found' fl', out = some (found', fl') ∧
        Passed memory asked (keys ++ [key]) found' fl' g') g := by
  cases answer : memory key with
  | some value =>
    refine ⟨_, fl, rfl, passed.untouched, passed.unasked, ?_, ?_, passed.calls, passed.won, passed.aligned, passed.mine,
      passed.distinct, passed.joined⟩
    · rw [passed.found, hits_concat, answer]
      rfl
    · rw [passed.owned, misses_concat_hit keys (by simp [answer])]
  | none =>
    refine .bind ((claimFor_passed passed answer).mono ?_)
    rintro _ g' ⟨fl', rfl, passed'⟩
    exact ⟨found, fl', rfl, passed'⟩

/-- The memory pass of a small batch. -/
theorem passEach_passed (rest : List K) :
    ∀ {keys : List K} {found : List (K × V)} {fl : BatchFlights K} {g : Solo K V E},
      Passed memory asked keys found fl g →
      Ensures (Solo.rules replies) (passEach rest found fl : Load K V E (List (K × V) × BatchFlights K))
        (fun out g' => ∃ found' fl', out = some (found', fl') ∧ Passed memory asked (keys ++ rest) found' fl' g') g := by
  induction rest with
  | nil =>
    intro keys found fl g passed
    rw [List.append_nil]
    exact ⟨found, fl, rfl, passed⟩
  | cons key rest ih =>
    intro keys found fl g passed
    refine ⟨⟨trivial, trivial⟩, ?_⟩
    rintro _ rfl
    rw [passed.untouched]
    refine Ensures.bind (p := noteOrClaim found fl key (memory key)) ((noteOrClaim_passed passed key).mono ?_)
    rintro _ g' ⟨found', fl', rfl, passed'⟩
    rw [List.append_cons]
    exact ih passed'

omit [Inhabited V] in
/-- Walking a group takes a note for every key, or finds that memory does not have it. -/
theorem walkGroup_notes (keys : List K) :
    ∀ {g : Solo K V E}, Ensures (Solo.rules replies) (walkGroup keys : Load K V E (List (K × Option Candidate)))
      (fun out g' => ∃ seen, out = some seen ∧ seen.map Prod.fst = keys ∧ g'.holding = g.holding ∧
        g'.memory = g.memory ∧ g'.asked = g.asked ∧ g.seen ⊆ g'.seen ∧
        ∀ note ∈ seen, match note.2 with
          | none => g.memory note.1 = none
          | some candidate => (note.1, candidate) ∈ g'.seen) g := by
  induction keys with
  | nil => exact ⟨[], rfl, rfl, rfl, rfl, rfl, fun _ member => member, nofun⟩
  | cons key keys ih =>
    intro g
    refine ⟨⟨trivial, trivial⟩, fun found absent => Ensures.bind (p := walkGroup keys) (ih.mono ?_)⟩
    rintro _ g' ⟨seen, rfl, walked, holding, memory, asked, kept, notes⟩
    cases found with
    | none =>
      refine ⟨_, rfl, by rw [List.map_cons, walked], holding, memory, asked, kept, ?_⟩
      exact List.forall_mem_cons.mpr ⟨absent rfl, notes⟩
    | some candidate =>
      refine ⟨_, rfl, by rw [List.map_cons, walked], holding, memory, asked,
        fun note member => kept (List.mem_cons_of_mem _ member), ?_⟩
      exact List.forall_mem_cons.mpr ⟨kept List.mem_cons_self, notes⟩

omit [Inhabited V] in
/-- Validating the notes of a group answers with what memory has. -/
theorem validateGroup_answers (seen : List (K × Option Candidate))
    (notes : ∀ note ∈ seen, match note.2 with
      | none => g.memory note.1 = none
      | some candidate => (note.1, candidate) ∈ g.seen) :
    Ensures (Solo.rules replies) (validateGroup seen : Load K V E (List (K × Option V)))
      (fun out g' => out = some (seen.map fun note => (note.1, g.memory note.1)) ∧ g' = g) g := by
  induction seen with
  | nil => exact ⟨rfl, rfl⟩
  | cons note rest ih =>
    obtain ⟨here, later⟩ := List.forall_mem_cons.mp notes
    obtain ⟨key, found⟩ := note
    have answered : Ensures (Solo.rules replies)
        ((validateGroup rest : Load K V E (List (K × Option V))).bind fun answers =>
          .done ((key, g.memory key) :: answers))
        (fun out g' => out = some (((key, found) :: rest).map fun note => (note.1, g.memory note.1)) ∧ g' = g) g := by
      refine .bind ((ih later).mono ?_)
      rintro _ _ ⟨rfl, rfl⟩
      exact ⟨rfl, rfl⟩
    cases found with
    | none =>
      have absent : g.memory key = none := here
      rw [absent] at answered
      exact answered
    | some candidate =>
      refine ⟨⟨trivial, here⟩, ?_⟩
      rintro _ rfl
      exact answered

/-- Noting the hits of a group and claiming the flights of its misses. -/
theorem claimGroup_passed (rest : List K) :
    ∀ {keys : List K} {found : List (K × V)} {fl : BatchFlights K} {g : Solo K V E},
      Passed memory asked keys found fl g →
      Ensures (Solo.rules replies) (claimGroup (rest.map fun key => (key, memory key)) found fl :
          Load K V E (List (K × V) × BatchFlights K))
        (fun out g' => ∃ found' fl', out = some (found', fl') ∧ Passed memory asked (keys ++ rest) found' fl' g') g := by
  induction rest with
  | nil =>
    intro keys found fl g passed
    rw [List.append_nil]
    exact ⟨found, fl, rfl, passed⟩
  | cons key rest ih =>
    intro keys found fl g passed
    refine .bind ((noteOrClaim_passed passed key).mono ?_)
    rintro _ g' ⟨found', fl', rfl, passed'⟩
    rw [List.append_cons]
    exact ih passed'

/-- The memory pass of a larger batch. -/
theorem passGroups_passed (fuel : Nat) :
    ∀ {rest keys : List K} {found : List (K × V)} {fl : BatchFlights K} {g : Solo K V E}, rest.length ≤ fuel →
      Passed memory asked keys found fl g →
      Ensures (Solo.rules replies) (passGroups fuel rest found fl : Load K V E (List (K × V) × BatchFlights K))
        (fun out g' => ∃ found' fl', out = some (found', fl') ∧ Passed memory asked (keys ++ rest) found' fl' g') g := by
  induction fuel with
  | zero =>
    intro rest keys found fl g short passed
    obtain rfl := List.length_eq_zero_iff.mp (Nat.le_zero.mp short)
    rw [List.append_nil]
    exact ⟨found, fl, rfl, passed⟩
  | succ fuel ih =>
    intro rest keys found fl g short passed
    unfold passGroups
    split
    · rename_i empty
      rw [List.isEmpty_iff.mp empty, List.append_nil]
      exact ⟨found, fl, rfl, passed⟩
    · rename_i more
      refine .bind (.bind ((walkGroup_notes _).mono ?_))
      rintro _ g' ⟨seen, rfl, walked, holding, same, asks, kept, notes⟩
      have passed₁ := passed.congr holding same asks
      refine (validateGroup_answers seen (by rw [same]; exact notes)).mono ?_
      rintro _ g₁ ⟨rfl, rfl⟩
      have answers : (seen.map fun note => (note.1, g₁.memory note.1))
          = (rest.take MemoryLevel.batchGroupSize).map fun key => (key, memory key) := by
        rw [← walked, List.map_map, passed₁.untouched]
        rfl
      rw [answers]
      refine .bind ((claimGroup_passed _ passed₁).mono ?_)
      rintro _ g₂ ⟨found', fl', rfl, passed₂⟩
      have left : (rest.drop MemoryLevel.batchGroupSize).length ≤ fuel := by
        have some : 0 < rest.length := List.length_pos_iff.mpr (by simpa using more)
        rw [List.length_drop, MemoryLevel.batchGroupSize]
        omega
      have whole : keys ++ rest = keys ++ rest.take MemoryLevel.batchGroupSize
          ++ rest.drop MemoryLevel.batchGroupSize := by
        rw [List.append_assoc, List.take_append_drop]
      rw [whole]
      exact ih left passed₂

/-- The memory pass of a batched load. -/
theorem batchGetMemoryFlights_passed (memory : K → Option V) (asked : List (List K)) (keys : List K) :
    Ensures (Solo.rules replies) (batchGetMemoryFlights keys : Load K V E (List (K × V) × BatchFlights K))
      (fun out g' => ∃ found fl, out = some (found, fl) ∧ Passed memory asked keys found fl g')
      (.start memory asked) := by
  have nothing : Passed memory asked [] [] (⟨[], [], []⟩ : BatchFlights K) (.start memory asked : Solo K V E) :=
    ⟨rfl, rfl, rfl, rfl, rfl, rfl, rfl, nofun, .nil, nofun⟩
  unfold batchGetMemoryFlights
  split
  · exact passEach_passed keys nothing
  · exact passGroups_passed keys.length le_rfl nothing

omit [Inhabited V] in
/-- Writing the results of the calls of a batch. -/
theorem settleAll_settles (f : K → FlightResult V E) (owned : List K) :
    ∀ {calls : List Nat} {g : Solo K V E}, owned.length = calls.length → calls.Nodup →
      (∀ call ∈ calls, call ∈ g.holding.owned) →
      Ensures (Solo.rules replies) (settleAll calls (owned.map f) : Load K V E Unit)
        (fun out g' => out = some () ∧ g'.holding = g.holding ∧ g'.memory = g.memory ∧ g'.asked = g.asked ∧
          (∀ call, call ∉ calls → g'.results call = g.results call) ∧
          ∀ flight ∈ owned.zip calls, g'.results flight.2 = some (f flight.1)) g := by
  induction owned with
  | nil =>
    intro calls g aligned _ _
    obtain rfl := List.length_eq_zero_iff.mp aligned.symm
    exact ⟨rfl, rfl, rfl, rfl, fun _ _ => rfl, nofun⟩
  | cons key owned ih =>
    intro calls g aligned distinct held
    cases calls with
    | nil => cases aligned
    | cons call calls =>
      obtain ⟨apart, distinct⟩ := List.nodup_cons.mp distinct
      refine ⟨⟨.inr (held call List.mem_cons_self), trivial⟩, fun _ _ => ?_⟩
      refine Ensures.mono (ih (g := Solo.after (.settle call (f key)) () g) (Nat.succ.inj aligned) distinct
        fun other member => held other (List.mem_cons_of_mem _ member)) ?_
      rintro _ g' ⟨rfl, holding, memory, asked, others, own⟩
      refine ⟨rfl, holding, memory, asked, fun other member => ?_, List.forall_mem_cons.mpr ⟨?_, own⟩⟩
      · rw [List.mem_cons, not_or] at member
        exact (others other member.2).trans (Function.update_of_ne member.1 _ _)
      · exact (others call apart).trans (Function.update_self ..)

omit [Inhabited V] in
/-- Releasing the calls of a batch. -/
theorem releaseAll_releases {calls : List Nat} (owned : g.holding.owned = calls) :
    Ensures (Solo.rules replies) (releaseAll calls : Load K V E Unit)
      (fun out g' => out = some () ∧ g'.holding.owned = [] ∧ g'.holding.joined = g.holding.joined ∧
        g'.memory = g.memory ∧ g'.asked = g.asked ∧ g'.results = g.results) g := by
  refine .each (fun calls g' => g'.holding.owned = calls ∧ g'.holding.joined = g.holding.joined ∧
    g'.memory = g.memory ∧ g'.asked = g.asked ∧ g'.results = g.results) (fun call rest g' holds => ?_)
    (fun g' holds => ⟨rfl, holds⟩) ⟨owned, rfl, rfl, rfl, rfl⟩
  refine ⟨⟨?_, trivial⟩, fun _ _ => ⟨?_, holds.2⟩⟩
  · show call ∈ g'.holding.owned
    simp [holds.1]
  · show g'.holding.owned.erase call = rest
    simp [holds.1]

/-- Resolving what a batch owns: its flights carry the answers, and are released. -/
theorem loadOwned_resolves (cfg : LoadConfig) (passed : Passed memory asked keys found fl g) :
    Ensures (Solo.rules replies) (loadOwned cfg fl found : Load K V E (List (K × V) × Option (LoadError E)))
      (fun out g' =>
        out = some (found ++ (replies.resolved cfg fl.owned).filter (fun item => item.1 ∈ fl.owned),
          (replies.loadErr cfg fl.owned).map .failed) ∧
        g'.holding.owned = [] ∧ g'.holding.joined = g.holding.joined ∧
        (∀ key, g'.memory key = (lastValue (replies.resolved cfg fl.owned) key).or (memory key)) ∧
        g'.asked = asked ++ replies.loads cfg fl.owned ∧
        ∀ flight ∈ fl.owned.zip fl.calls, g'.results flight.2
          = some (flightResult (replies.resolved cfg fl.owned) ((replies.loadErr cfg fl.owned).map .failed) flight.1))
      g := by
  unfold loadOwned
  split
  · rename_i none
    have nobody : fl.owned = [] := List.isEmpty_iff.mp none
    have free : fl.calls = [] := List.length_eq_zero_iff.mp (by rw [← passed.aligned, nobody]; rfl)
    rw [nobody, LoadReplies.resolved_nil, LoadReplies.loads_nil, LoadReplies.loadErr_nil]
    refine ⟨by simp, passed.calls.trans free, rfl, fun key => ?_, ?_, by rintro _ ⟨⟩⟩
    · rw [passed.untouched]
      rfl
    · rw [passed.unasked, List.append_nil]
  · rename_i some
    have someone : fl.owned ≠ [] := by simpa using some
    have distinct : fl.owned.Nodup := by
      rw [passed.owned]
      exact nodup_eraseDups _
    refine .deferring (.bind ((batchLoad_puts cfg someone).mono ?_))
    rintro _ g₁ ⟨rfl, stored⟩
    dsimp only
    rw [assignLoaded_eq distinct]
    have held : ∀ call ∈ fl.calls, call ∈ g₁.holding.owned := by
      rw [stored.holding, passed.calls]
      exact fun _ member => member
    refine .bind ((settleAll_settles _ _ passed.aligned passed.distinct held).mono ?_)
    rintro _ g₂ ⟨rfl, holding, same, asks, _, own⟩
    have owned : g₂.holding.owned = fl.calls := by rw [holding, stored.holding, passed.calls]
    show Ensures _ (releaseAll fl.calls) _ g₂
    refine (releaseAll_releases owned).mono ?_
    rintro _ g₃ ⟨rfl, freed, joined, same', asks', results⟩
    refine ⟨rfl, freed, ?_, fun key => ?_, ?_, fun flight member => ?_⟩
    · rw [joined, holding, stored.holding]
    · rw [same', same, stored.memory, passed.untouched]
    · rw [asks', asks, stored.asked, passed.unasked]
    · rw [results]
      exact own flight member

/-- Waiting for the flights a batch joined, all of them its own: they add the answers to their keys once more. -/
theorem awaitJoined_collects {resolved : List (K × V)} {err : Option (LoadError E)} (joined : List (K × Nat)) :
    ∀ {found : List (K × V)}, g.holding.owned = [] →
      (∀ flight ∈ joined, flight.2 ∈ g.holding.joined ∧ g.results flight.2 = some (flightResult resolved err flight.1)) →
      Ensures (Solo.rules replies)
        (awaitJoined joined found err : Load K V E (List (K × V) × Option (LoadError E)))
        (fun out g' => out = some (found ++ (joined.map Prod.fst).filterMap fun key =>
          (lastValue resolved key).map fun value => (key, value), err) ∧ g' = g) g := by
  induction joined with
  | nil =>
    intro found _ _
    simp only [List.map_nil, List.filterMap_nil, List.append_nil]
    exact ⟨rfl, rfl⟩
  | cons flight rest ih =>
    intro found free handed
    obtain ⟨⟨joined, settled⟩, later⟩ := List.forall_mem_cons.mp handed
    refine ⟨⟨⟨joined, free⟩, trivial⟩, ?_⟩
    rintro _ rfl
    refine ⟨⟨joined, trivial⟩, fun result read => ?_⟩
    obtain rfl := read _ settled
    rw [List.map_cons]
    show Ensures (Solo.rules replies) (if _ ∧ _ then _ else _) _ g
    cases answer : lastValue resolved flight.1 with
    | some value =>
      rw [List.filterMap_cons_some (by rw [answer]; rfl)]
      simp only [flightResult, answer, Option.isNone_none, and_self, if_true]
      refine (ih free later).mono ?_
      rintro _ _ ⟨rfl, rfl⟩
      simp
    | none =>
      rw [List.filterMap_cons_none (by rw [answer]; rfl)]
      have kept : (if err.isNone = true then err else err) = err := ite_self _
      simp only [flightResult, answer, Bool.false_eq_true, and_false, if_false, kept]
      exact ih free later

/-- A batched load returns the hits, then the answers to the keys it owned, then those to their repetitions. -/
theorem batchGetOrLoad_ensures (cfg : LoadConfig) (memory : K → Option V) (asked : List (List K)) (keys : List K) :
    Ensures (Solo.rules replies)
      (batchGetOrLoad cfg true keys : Load K V E (List (K × V) × Option (LoadError E)))
      (fun out g' => ∃ again : List K, (∀ key ∈ again, key ∈ misses memory keys) ∧
        out = some (hits memory keys
            ++ (replies.resolved cfg (misses memory keys)).filter (fun item => item.1 ∈ misses memory keys)
            ++ again.filterMap fun key => (lastValue (replies.resolved cfg (misses memory keys)) key).map fun value =>
              (key, value),
          (replies.loadErr cfg (misses memory keys)).map .failed) ∧
        (∀ key, g'.memory key = (lastValue (replies.resolved cfg (misses memory keys)) key).or (memory key)) ∧
        g'.asked = asked ++ replies.loads cfg (misses memory keys))
      (.start memory asked) := by
  refine .bind ((batchGetMemoryFlights_passed memory asked keys).mono ?_)
  rintro _ g ⟨found, fl, rfl, passed⟩
  dsimp only
  split
  · rename_i none
    have nobody : misses memory keys = [] := by
      rw [← passed.owned]
      exact List.isEmpty_iff.mp none.1
    refine ⟨[], by rintro _ ⟨⟩, ?_, fun key => ?_, ?_⟩
    · simp [nobody, passed.found]
    · rw [passed.untouched, nobody, LoadReplies.resolved_nil]
      rfl
    · rw [passed.unasked, nobody, LoadReplies.loads_nil, List.append_nil]
  · refine .bind ((loadOwned_resolves cfg passed).mono ?_)
    rintro _ g' ⟨rfl, free, handed, stored, asks, own⟩
    have waits : ∀ flight ∈ fl.joined, flight.2 ∈ g'.holding.joined ∧ g'.results flight.2
        = some (flightResult (replies.resolved cfg fl.owned) ((replies.loadErr cfg fl.owned).map .failed) flight.1) := by
      intro flight member
      obtain ⟨mine, joined⟩ := passed.joined flight member
      exact ⟨by rw [handed]; exact joined, own flight mine⟩
    refine Ensures.mono (awaitJoined_collects fl.joined free waits) ?_
    rintro _ _ ⟨rfl, rfl⟩
    rw [← passed.owned, ← passed.found]
    refine ⟨fl.joined.map Prod.fst, fun key member => ?_, rfl, stored, asks⟩
    obtain ⟨flight, joined, rfl⟩ := List.mem_map.mp member
    exact (List.of_mem_zip (passed.joined flight joined).1).1

/-- What a batched load that nothing disturbs has for every key, in its result and in memory. -/
theorem batchGetOrLoad_runs [Inhabited K] {hash : K → BitVec 64} {clock : Nat → Nat} {cfg : LoadConfig} {keys : List K}
    {w : LoadWorld K V E (SoloEnv K V)} (idle : Agree hash w fun _ : Unit => .start)
    (inv : w.env.memory.level.Inv) {held : K → Option V} (holds : held = w.env.memory.level.held)
    (undisturbed : Always (LoadWorld.answer hash (replies.env clock)) (Undisturbed clock)
      (batchGetOrLoad cfg true keys) w) :
    ∃ result w', run (LoadWorld.answer hash (replies.env clock)) (batchGetOrLoad cfg true keys) w
        = (.returned (result, (replies.loadErr cfg (misses held keys)).map .failed), w') ∧
      w'.env.asked = w.env.asked ++ replies.loads cfg (misses held keys) ∧
      (∀ key, lastValue result key = if key ∈ keys then
        (if held key = none then lastValue (replies.resolved cfg (misses held keys)) key else held key) else none) ∧
      ∀ key, w'.env.memory.level.held key
        = (lastValue (replies.resolved cfg (misses held keys)) key).or (held key) := by
  subst holds
  obtain ⟨_, g, w', ran, ⟨again, repeated, rfl, memory, asked⟩, follows⟩ :=
    (Solo.Follows.start idle inv).run (batchGetOrLoad_ensures cfg w.env.memory.level.held w.env.asked keys) undisturbed
  refine ⟨_, w', ran, by rw [← follows.asked, asked], fun key => ?_, fun key => by rw [← follows.memory, memory]⟩
  generalize w.env.memory.level.held = held at *
  generalize replies.resolved cfg (misses held keys) = resolved
  rw [lastValue_append, lastValue_append, lastValue_filterMap, hits, lastValue_filterMap,
    lastValue_filter resolved (fun key => key ∈ misses held keys)]
  simp only [mem_misses, decide_eq_true_eq]
  -- A key whose repetitions are answered once more has missed.
  have within : key ∈ again → key ∈ keys ∧ held key = none := fun member => mem_misses.mp (repeated key member)
  by_cases member : key ∈ keys <;> by_cases miss : held key = none <;> by_cases more : key ∈ again
  all_goals simp_all

end Load

open Load in
/-- A batched load that nothing disturbs asks the loader at most once, for the distinct keys that neither memory nor
the second level resolved; it returns only what was asked for, and everything that was answered; and a key that
missed memory has the last value answered for it, in the result and in memory. -/
theorem batch_load_meets_specification [Inhabited K] [Inhabited V] (hash : K → BitVec 64)
    (replies : LoadReplies K V E) (clock : Nat → Nat) (cfg : LoadConfig) (keys : List K)
    {w : LoadWorld K V E (SoloEnv K V)} (idle : Agree hash w fun _ : Unit => .start)
    (inv : w.env.memory.level.Inv)
    (undisturbed : Always (LoadWorld.answer hash (replies.env clock)) (Undisturbed clock)
      (batchGetOrLoad cfg true keys) w) :
    ∃ result err w', run (LoadWorld.answer hash (replies.env clock)) (batchGetOrLoad cfg true keys) w
        = (.returned (result, err), w') ∧
      w'.env.asked = w.env.asked ++ replies.loads cfg (misses w.env.memory.level.held keys) ∧
      (∀ item ∈ result, item.1 ∈ keys) ∧
      (∀ key ∈ keys, w.env.memory.level.held key ≠ none ∨
        key ∈ (replies.resolved cfg (misses w.env.memory.level.held keys)).map Prod.fst →
          key ∈ result.map Prod.fst) ∧
      ∀ key ∈ keys, w.env.memory.level.held key = none → ∀ value,
        lastValue (replies.resolved cfg (misses w.env.memory.level.held keys)) key = some value →
          (toMap result).lookup key = some value ∧ w'.env.memory.level.held key = some value := by
  obtain ⟨result, w', ran, asked, last, stored⟩ := batchGetOrLoad_runs idle inv rfl undisturbed
  refine ⟨result, _, w', ran, asked, fun item member => ?_, fun key member found => ?_,
    fun key member miss value found => ⟨?_, ?_⟩⟩
  · -- A key without a last value is not in the result.
    by_contra stranger
    have none := last item.1
    rw [if_neg stranger, lastValue_eq_none_iff] at none
    exact none (List.mem_map_of_mem member)
  · by_contra missing
    have none := lastValue_eq_none_iff.mpr missing
    rw [last, if_pos member] at none
    rcases found with hit | answer
    · rw [if_neg hit] at none
      exact hit none
    · split at none
      · exact lastValue_eq_none_iff.mp none answer
      · rename_i hit
        exact hit none
  · rw [toMap_lookup, last, if_pos member, if_pos miss, found]
  · rw [stored, found]
    rfl

/-- A cache of numbers with room for a hundred of them. -/
def hundredNumbers : Config Nat Nat := { hundredItems with costFunc := none }

/-- A single processor, and numbers that hash to themselves. -/
def plainNumbers : Surroundings Nat Nat := { plainSurroundings with autoCostFunc := none }

/-- The cache of numbers before its first load. -/
def noNumbers : LoadWorld Nat Nat Unit (SoloEnv Nat Nat) :=
  ⟨hundredNumbers.flights plainNumbers fun _ => .zero, 0, ⟨⟨hundredNumbers.build plainNumbers, 0⟩, []⟩⟩

theorem noNumbers_idle : Agree plainNumbers.keyHash noNumbers fun _ : Unit => .start :=
  hundredNumbers.agree_loading plainNumbers _ _

section NoNumbers

variable {w : LoadWorld Nat Nat Unit (SoloEnv Nat Nat)} (empty : w.env.memory.level = hundredNumbers.build plainNumbers)

include empty

theorem inv_of_empty : w.env.memory.level.Inv := by
  rw [empty]
  exact MemoryLevel.inv_build (by decide) _

theorem held_of_empty : w.env.memory.level.held = fun _ => none := by
  rw [empty]
  exact funext fun key => MemoryLevel.held_build (by decide) _ key

theorem fresh_of_empty (key nowOff : Nat) : w.env.memory.level.Fresh key nowOff := by
  rw [empty]
  exact fun value off served => absurd served (MemoryLevel.not_serves_build (by decide) _ key value off)

/-- A lookup in it only reads the clock. -/
theorem looks_of_empty (replies : LoadReplies Nat Nat Unit) {key : Nat} {r : Option (Option Nat)}
    {w' : LoadWorld Nat Nat Unit (SoloEnv Nat Nat)}
    (answered : LoadWorld.answer plainNumbers.keyHash (replies.env fun _ => 0) (.getMemory key) w = some (r, w')) :
    r = some none ∧ w' = { w with env := { w.env with memory := w.env.memory.tick } } := by
  have looked : w.env.memory.getMemory (fun _ => 0) key = _ :=
    ClockedLevel.getMemory_missing (inv_of_empty empty) (congrFun (held_of_empty empty) key)
  rw [LoadWorld.answer, LoadWorld.outside, LoadReplies.env, looked] at answered
  · cases answered
    exact ⟨rfl, rfl⟩
  all_goals
    intros
    contradiction

end NoNumbers

/-- A second level that has nothing, and a batch loader that always answers with the same pairs. -/
def alwaysLoads (load : Nat → Except Unit Nat) (pairs : List (Nat × Nat)) : LoadReplies Nat Nat Unit where
  l2Get _ := .ok none
  l2BatchGet _ := ([], none)
  l2Set _ _ := none
  l2BatchSet _ := none
  load := load
  batchLoad _ := (pairs, none)

open Load in
/-- The number seven is asked for twice and loaded once. -/
theorem batch_load_meets_specification_seven : ∃ result err w',
    run (LoadWorld.answer plainNumbers.keyHash ((alwaysLoads (fun _ => .ok 0) [(7, 5)]).env fun _ => 0))
      (batchGetOrLoad memoryOnly true [7, 7]) noNumbers = (.returned (result, err), w') ∧
    w'.env.asked = [[7]] ∧ (toMap result).lookup 7 = some 5 ∧ w'.env.memory.level.held 7 = some 5 := by
  have undisturbed : Always
      (LoadWorld.answer plainNumbers.keyHash ((alwaysLoads (fun _ => .ok 0) [(7, 5)]).env fun _ => 0))
      (Undisturbed fun _ => 0) (batchGetOrLoad memoryOnly true [7, 7]) noNumbers := by
    -- The first lookup misses, and claims the flight.
    refine ⟨fresh_of_empty rfl 7 0, fun reply w' answered => ?_⟩
    obtain ⟨rfl, rfl⟩ := looks_of_empty rfl _ answered
    refine ⟨trivial, ?_⟩
    rintro _ _ ⟨⟩
    refine ⟨trivial, ?_⟩
    rintro _ _ ⟨⟩
    refine ⟨trivial, ?_⟩
    rintro _ _ ⟨⟩
    -- The second joins it.
    refine ⟨fresh_of_empty rfl 7 0, fun reply w' answered => ?_⟩
    obtain ⟨rfl, rfl⟩ := looks_of_empty rfl _ answered
    refine ⟨trivial, ?_⟩
    rintro _ _ ⟨⟩
    refine ⟨trivial, ?_⟩
    rintro _ _ ⟨⟩
    refine ⟨trivial, ?_⟩
    rintro _ _ ⟨⟩
    -- The loader answers, and the empty cache has room.
    refine ⟨trivial, ?_⟩
    rintro _ _ ⟨⟩
    refine ⟨trivial, ?_⟩
    rintro _ _ ⟨⟩
    refine ⟨hasRoom_build (by decide) (by decide) (by decide) (by decide) (by decide), fun stored w' _ => ?_⟩
    cases stored with
    | none => exact ⟨trivial, fun _ _ _ => trivial⟩
    | some _ =>
      refine ⟨trivial, fun _ _ _ => ⟨trivial, fun _ _ _ => ⟨trivial, fun canceled _ _ => ?_⟩⟩⟩
      cases canceled with
      | some err => trivial
      | none =>
        refine ⟨trivial, fun result _ _ => ?_⟩
        show Always _ _ (ite _ _ _) _
        split <;> trivial
  obtain ⟨result, err, w', ran, asked, _, _, answered⟩ := batch_load_meets_specification plainNumbers.keyHash
    (alwaysLoads (fun _ => .ok 0) [(7, 5)]) (fun _ => 0) memoryOnly [7, 7] noNumbers_idle (inv_of_empty rfl) undisturbed
  rw [held_of_empty rfl] at asked answered
  obtain ⟨mapped, held⟩ := answered 7 (by decide) rfl 5 (by decide)
  exact ⟨result, err, w', ran, asked, mapped, held⟩

end Memstash
