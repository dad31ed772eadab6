import Memstash.Flights.Loads

/-! What a load call holds of the registry, question by question, and that it lets go of all of it. -/

namespace Memstash

open Programs

variable {K V E : Type}

/-- A call of the load paths; a refresh includes its background goroutine. -/
inductive LoadCall (K : Type) where
  | getOrLoad (loader : Bool) (key : K)
  | batchGetOrLoad (loader : Bool) (keys : List K)
  | getAndRefresh (loader : Bool) (key : K)
  | batchGetAndRefresh (loader : Bool) (keys : List K)

/-- What a call returns to its caller. -/
inductive LoadResult (K V E : Type) where
  | value (value : V) (err : Option (LoadError E))
  | values (found : List (K × V)) (err : Option (LoadError E))
  | current (value : Option V)
  | currents (found : List (K × V))

/-- The program of a call. -/
def LoadCall.prog [DecidableEq K] [Inhabited V] (cfg : LoadConfig) :
    LoadCall K → Load K V E (LoadResult K V E)
  | .getOrLoad loader key => do
    let (value, err) ← Load.getOrLoad cfg loader key
    return .value value err
  | .batchGetOrLoad loader keys => do
    let (found, err) ← Load.batchGetOrLoad cfg loader keys
    return .values found err
  -- The goroutine starts when the caller has its value, and goes on alone.
  | .getAndRefresh loader key => do
    let (value, background) ← Load.getAndRefresh cfg loader key
    background.getD (pure ())
    return .current value
  | .batchGetAndRefresh loader keys => do
    let (found, background) ← Load.batchGetAndRefresh cfg loader keys
    background.getD (pure ())
    return .currents found

/-- What a call has to do with flights. -/
structure Holding (K : Type) where
  /-- The calls it allocated. -/
  mine : List Nat
  /-- The one of them it has not claimed with yet. -/
  pending : Option Nat
  /-- The flights it claimed, with their keys. -/
  won : List (K × Nat)
  /-- Those it has not released. -/
  owned : List Nat
  /-- The flights of others it was handed. -/
  joined : List Nat
  /-- The deletion handler panicked in a lookup while flights were owned. -/
  interrupted : Bool

namespace Holding

/-- A call before its first question. -/
def start : Holding K := ⟨[], none, [], [], [], false⟩

/-- A lookup panics. -/
def interrupt (h : Holding K) : Holding K :=
  { h with interrupted := h.interrupted || !h.owned.isEmpty }

/-- The holding after a question. -/
def after : (op : LoadOp K V E) → op.Ans → Holding K → Holding K
  | .newCall, id, h => { h with pending := some id, mine := id :: h.mine }
  | .claim key call, none, h =>
    { h with pending := none, won := h.won ++ [(key, call)], owned := h.owned ++ [call] }
  | .claim _ _, some winner, h => { h with pending := none, joined := winner :: h.joined }
  | .release call, _, h => { h with owned := h.owned.erase call }
  | .getMemory _, none, h => h.interrupt
  | .validate _ _, none, h => h.interrupt
  | _, _, h => h

/-- A call claims with what it allocated, writes and releases what is its own, and waits only for a
flight it was handed and without holding any. -/
def Allowed : LoadOp K V E → Holding K → Prop
  | .claim _ call, h => h.pending = some call
  | .release call, h => call ∈ h.owned
  | .settle call _, h => h.pending = some call ∨ call ∈ h.owned
  | .wait call, h => call ∈ h.joined ∧ h.owned = []
  | .result call, h => call ∈ h.joined
  | _, _ => True

/-- The rules of the registry. -/
def rules : Rules (LoadOp K V E) LoadOp.Ans (Holding K) where
  allowed := Allowed
  possible _ _ _ := True
  after := after

/-- The questions that have nothing to do with flights. -/
def Quiet : LoadOp K V E → Prop
  | .newCall | .claim _ _ | .release _ | .settle _ _ | .wait _ | .result _ => False
  | .getMemory _ | .validate _ _ => False
  | _ => True

theorem ensures_of_quiet {α : Type} {p : Load K V E α} (quiet : p.Asks Quiet) (h : Holding K) :
    Ensures rules p (fun _ h' => h' = h) h := by
  refine .of_asks quiet (fun op h kind => ?_) fun op answer h kind _ => ?_
  · cases op <;> trivial
  · cases op <;> first | rfl | cases kind

end Holding

namespace Load

open Holding Prog

theorem reportAll_quiet (keys : List K) (err : Option E) :
    (reportAll keys err : Load K V E Unit).Asks Quiet := by
  cases err with
  | none => trivial
  | some err => exact asks_each keys fun key _ => asks_ask trivial asks_orPanic

/-- Nor does storing a value. -/
theorem storeLoaded_quiet (cfg : LoadConfig) (key : K) (value : V) :
    (storeLoaded cfg key value : Load K V E Unit).Asks Quiet := by
  refine asks_ask trivial fun off => (asks_ask trivial asks_orPanic).bind fun _ => ?_
  cases cfg.l2WritePolicy with
  | writeBack => exact asks_ask trivial asks_orPanic
  | writeThrough => exact (asks_ask trivial asks_orPanic).bind fun err => reportAll_quiet [key] err
  | writeDisabled => trivial

/-- Nor does storing a batch. -/
theorem storeLoadedBatch_quiet (cfg : LoadConfig) (loaded : List (K × V)) :
    (storeLoadedBatch cfg loaded : Load K V E Unit).Asks Quiet := by
  unfold storeLoadedBatch
  split
  · trivial
  · refine asks_ask trivial fun off =>
      (asks_each loaded fun item _ => asks_ask trivial asks_orPanic).bind fun _ => ?_
    cases cfg.l2WritePolicy with
    | writeBack => exact asks_each loaded fun item _ => asks_ask trivial asks_orPanic
    | writeThrough => exact (asks_ask trivial asks_orPanic).bind fun err => reportAll_quiet _ err
    | writeDisabled => trivial

theorem runLoader_quiet (cfg : LoadConfig) (keys : List K) :
    (runLoader cfg keys : Load K V E (Reply K V E)).Asks Quiet := by
  refine (asks_ask trivial asks_orPanic).bind fun reply => ?_
  dsimp only
  split
  · exact (storeLoadedBatch_quiet cfg _).bind fun _ => trivial
  · trivial

/-- Nor does resolving the keys of a batch. -/
theorem batchLoad_quiet [DecidableEq K] (cfg : LoadConfig) (keys : List K) :
    (batchLoad cfg keys : Load K V E (Reply K V E)).Asks Quiet := by
  unfold batchLoad
  split
  · exact runLoader_quiet cfg keys
  · refine (asks_ask trivial asks_orPanic).bind fun reply => (reportAll_quiet keys _).bind fun _ => ?_
    refine (asks_each _ fun item _ => asks_ask trivial fun off => asks_ask trivial asks_orPanic).bind
      fun _ => ?_
    dsimp only
    -- The keys that are left may be all of them.
    split <;> split
    · trivial
    · exact (runLoader_quiet cfg _).bind fun _ => True.intro
    · trivial
    · exact (runLoader_quiet cfg _).bind fun _ => True.intro

variable [Inhabited V]

/-- Nor does running the loader of one key. -/
theorem runLoad_quiet (cfg : LoadConfig) (key : K) :
    (runLoad cfg key : Load K V E (V × Option (LoadError E))).Asks Quiet := by
  refine (asks_ask trivial asks_orPanic).bind fun answer => ?_
  cases answer with
  | error err => trivial
  | ok value => exact (storeLoaded_quiet cfg key value).bind fun _ => trivial

/-- A load keeps what its call holds, whatever panics in it. -/
theorem doLoad_keeps (cfg : LoadConfig) (key : K) (h : Holding K) :
    Ensures rules (doLoad cfg key : Load K V E (V × Option (LoadError E)))
      (fun _ h' => h'.owned = h.owned) h := by
  refine .bind ⟨trivial, fun answer _ => ?_⟩
  rcases answer with _ | _ | value
  · rfl
  · -- From here on nothing touches the flights.
    have kept {p : Load K V E (V × Option (LoadError E))} (quiet : p.Asks Quiet) :
        Ensures rules p (fun _ h' => h'.owned = h.owned) h :=
      (ensures_of_quiet quiet _).mono fun _ _ same => by rw [same]
    show Ensures rules (ite _ _ _) _ h
    split
    · refine kept ((asks_ask trivial asks_orPanic).bind fun reply => ?_)
      rcases reply with err | _ | value
      · exact (asks_ask trivial asks_orPanic).bind fun _ => runLoad_quiet cfg key
      · exact runLoad_quiet cfg key
      · exact asks_ask trivial fun off => (asks_ask trivial asks_orPanic).bind fun _ => trivial
    · exact kept (runLoad_quiet cfg key)
  · rfl

omit [Inhabited V] in
/-- Waiting for a flight that was handed over, with none of its own held. -/
theorem await_keeps {winner : Nat} {h : Holding K} (handed : winner ∈ h.joined) (free : h.owned = []) :
    Ensures rules (await winner : Load K V E (Except (LoadError E) (FlightResult V E)))
      (fun out h' => out ≠ none ∧ h' = h) h := by
  refine ⟨⟨handed, free⟩, fun canceled _ => ?_⟩
  cases canceled with
  | some err => exact ⟨nofun, rfl⟩
  | none => exact ⟨handed, fun result _ => ⟨nofun, rfl⟩⟩

/-- A single load ends without a flight of its own. -/
theorem getOrLoad_frees (cfg : LoadConfig) (loader : Bool) (key : K) :
    Ensures rules (getOrLoad cfg loader key : Load K V E (V × Option (LoadError E)))
      (fun _ h => h.owned = []) start := by
  unfold getOrLoad
  split
  · rfl
  · refine .bind ⟨trivial, fun answer _ => ?_⟩
    match answer with
    | none => rfl
    | some (some value) => rfl
    | some none =>
      refine ⟨trivial, fun call _ => ⟨rfl, fun running _ => ?_⟩⟩
      match running with
      | some winner =>
        refine Ensures.bind (p := await winner) ((await_keeps List.mem_cons_self rfl).mono ?_)
        rintro (_ | answer) h ⟨returned, rfl⟩
        · exact absurd rfl returned
        · cases answer <;> rfl
      | none =>
        refine ⟨.inr (by simp [Holding.rules, Holding.after]), fun _ _ => .deferring (.bind ?_)⟩
        refine (doLoad_keeps cfg key _).mono ?_
        intro out h kept
        have mine : h.owned = [call] := kept
        have released : Ensures rules (release call : Load K V E Unit) (fun _ h => h.owned = []) h :=
          ⟨by simp [Holding.rules, Holding.Allowed, mine], fun _ _ => by
            simp [Holding.rules, Holding.after, Ensures, mine]⟩
        cases out with
        | none =>
          refine released.mono fun cleaned h free => ?_
          cases cleaned <;> exact free
        | some answer =>
          refine ⟨.inr (by simp [mine]), fun _ _ => released.mono fun cleaned h free => ?_⟩
          cases cleaned <;> exact free

/-- A batch has its calls' flights, and was handed those it joined. -/
structure Has (fl : BatchFlights K) (h : Holding K) : Prop where
  owned : h.owned = fl.calls
  aligned : fl.owned.length = fl.calls.length
  joined : ∀ flight ∈ fl.joined, flight.2 ∈ h.joined

/-- A batch that claims a flight has it, or was handed another. -/
theorem claimFor_has {fl : BatchFlights K} {h : Holding K} (has : Has fl h) (key : K) :
    Ensures rules (claimFor fl key : Load K V E (BatchFlights K))
      (fun out h' => h'.interrupted = h.interrupted ∧ ∃ fl', out = some fl' ∧ Has fl' h') h := by
  refine ⟨trivial, fun call _ => ⟨.inl rfl, fun _ _ => ⟨rfl, fun running _ => ?_⟩⟩⟩
  cases running with
  | some winner =>
    refine ⟨rfl, _, rfl, has.owned, has.aligned, fun flight member => ?_⟩
    rcases List.mem_append.mp member with before | last
    · exact List.mem_cons_of_mem _ (has.joined flight before)
    · rw [List.mem_singleton.mp last]
      exact List.mem_cons_self
  | none =>
    refine ⟨rfl, _, rfl, ?_, by simp [has.aligned], has.joined⟩
    show h.owned ++ [call] = fl.calls ++ [call]
    rw [has.owned]

/-- How the memory pass of a batch may end: with its flights in hand, or cut off while it had some. -/
def PassEnd (out : Option (List (K × V) × BatchFlights K)) (h : Holding K) : Prop :=
  match out with
  | some (_, fl) => Has fl h
  | none => h.owned = [] ∨ h.interrupted = true

theorem interrupt_end (h : Holding K) : h.interrupt.owned = [] ∨ h.interrupt.interrupted = true := by
  show h.owned = [] ∨ (h.interrupted || !h.owned.isEmpty) = true
  by_cases empty : h.owned = []
  · exact .inl empty
  · refine .inr ?_
    simp [empty]

/-- One key of the pass: a hit is noted, a miss claimed. -/
theorem noteOrClaim_has {fl : BatchFlights K} {h : Holding K} (has : Has fl h) (found : List (K × V))
    (key : K) (answer : Option V) :
    Ensures rules (noteOrClaim found fl key answer : Load K V E (List (K × V) × BatchFlights K))
      (fun out h => ∃ found fl, out = some (found, fl) ∧ Has fl h) h := by
  cases answer with
  | some value => exact ⟨_, _, rfl, has⟩
  | none =>
    refine .bind ((claimFor_has has key).mono ?_)
    rintro _ h ⟨_, fl', rfl, has'⟩
    exact ⟨_, _, rfl, has'⟩

/-- The memory pass of a small batch. -/
theorem passEach_has (keys : List K) :
    ∀ {found : List (K × V)} {fl : BatchFlights K} {h : Holding K}, Has fl h →
      Ensures rules (passEach keys found fl : Load K V E (List (K × V) × BatchFlights K)) PassEnd h := by
  induction keys with
  | nil => exact fun has => has
  | cons key keys ih =>
    intro found fl h has
    refine ⟨trivial, fun answer _ => ?_⟩
    cases answer with
    | none => exact interrupt_end h
    | some answer =>
      refine Ensures.bind (p := noteOrClaim found fl key answer) ((noteOrClaim_has has found key answer).mono ?_)
      rintro _ h ⟨found', fl', rfl, has'⟩
      exact ih has'

omit [Inhabited V] in
/-- Walking a group has nothing to do with flights, and nothing in it panics. -/
theorem walkGroup_keeps (keys : List K) (h : Holding K) :
    Ensures rules (walkGroup keys : Load K V E (List (K × Option Candidate)))
      (fun out h' => out ≠ none ∧ h' = h) h := by
  induction keys with
  | nil => exact ⟨nofun, rfl⟩
  | cons key keys ih =>
    refine ⟨trivial, fun seen _ => Ensures.bind (p := walkGroup keys) (ih.mono ?_)⟩
    rintro (_ | rest) h' ⟨returned, rfl⟩
    · exact absurd rfl returned
    · exact ⟨nofun, rfl⟩

omit [Inhabited V] in
/-- Validating a group keeps what the batch has, unless it cuts the pass off. -/
theorem validateGroup_has {fl : BatchFlights K} (seen : List (K × Option Candidate)) :
    ∀ {h : Holding K}, Has fl h →
      Ensures rules (validateGroup seen : Load K V E (List (K × Option V))) (fun out h => match out with
        | some _ => Has fl h
        | none => h.owned = [] ∨ h.interrupted = true) h := by
  induction seen with
  | nil => exact fun has => has
  | cons head rest ih =>
    intro h has
    obtain ⟨key, seen⟩ := head
    -- The rest of the group, with this key's answer put in front.
    have later : ∀ answer : Option V, Ensures rules
        ((validateGroup rest : Load K V E (List (K × Option V))).bind fun answers =>
          .done ((key, answer) :: answers)) (fun out h => match out with
        | some _ => Has fl h
        | none => h.owned = [] ∨ h.interrupted = true) h := fun answer => by
      refine .bind ((ih has).mono fun out h' holds => ?_)
      cases out <;> exact holds
    cases seen with
    | none => exact later none
    | some seen =>
      refine ⟨trivial, fun answer _ => ?_⟩
      cases answer with
      | none => exact interrupt_end h
      | some answer => exact later answer

/-- Claiming the flights of a group. -/
theorem claimGroup_has (answers : List (K × Option V)) :
    ∀ {found : List (K × V)} {fl : BatchFlights K} {h : Holding K}, Has fl h →
      Ensures rules (claimGroup answers found fl : Load K V E (List (K × V) × BatchFlights K))
        (fun out h => ∃ found fl, out = some (found, fl) ∧ Has fl h) h := by
  induction answers with
  | nil => exact fun has => ⟨_, _, rfl, has⟩
  | cons head rest ih =>
    intro found fl h has
    refine .bind ((noteOrClaim_has has found head.1 head.2).mono ?_)
    rintro _ h ⟨found', fl', rfl, has'⟩
    exact ih has'

/-- The memory pass of a larger batch. -/
theorem passGroups_has (fuel : Nat) :
    ∀ {keys : List K} {found : List (K × V)} {fl : BatchFlights K} {h : Holding K}, Has fl h →
      Ensures rules (passGroups fuel keys found fl : Load K V E (List (K × V) × BatchFlights K))
        PassEnd h := by
  induction fuel with
  | zero => exact fun has => has
  | succ fuel ih =>
    intro keys found fl h has
    unfold passGroups
    split
    · exact has
    · refine .bind (.bind ((walkGroup_keeps _ h).mono ?_))
      rintro (_ | seen) _ ⟨returned, rfl⟩
      · exact absurd rfl returned
      · refine (validateGroup_has seen has).mono fun out h holds => ?_
        cases out with
        | none => exact holds
        | some answers =>
          refine .bind ((claimGroup_has answers holds).mono ?_)
          rintro _ h ⟨found', fl', rfl, has'⟩
          exact ih has'

omit [Inhabited V] in
/-- Releasing the calls of a batch, in order, leaves none owned. -/
theorem releaseAll_frees {calls : List Nat} {h : Holding K} (owned : h.owned = calls) :
    Ensures rules (releaseAll calls : Load K V E Unit)
      (fun out h' => out ≠ none ∧ h'.owned = [] ∧ h'.joined = h.joined) h := by
  refine .each (fun calls h' => h'.owned = calls ∧ h'.joined = h.joined) (fun call rest h' holds => ?_)
    (fun h' holds => ⟨nofun, holds⟩) ⟨owned, rfl⟩
  refine ⟨?_, fun _ _ => ⟨?_, holds.2⟩⟩
  · show call ∈ h'.owned
    simp [holds.1]
  · show h'.owned.erase call = rest
    simp [holds.1]

omit [Inhabited V] in
/-- Writing the results of owned calls keeps what is held. -/
theorem settleAll_keeps {h : Holding K} (calls : List Nat) :
    ∀ (results : List (FlightResult V E)), (∀ call ∈ calls, call ∈ h.owned) →
      Ensures rules (settleAll calls results : Load K V E Unit) (fun _ h' => h' = h) h := by
  induction calls with
  | nil =>
    intro results _
    rfl
  | cons call calls ih =>
    intro results owned
    cases results with
    | nil => rfl
    | cons result results =>
      exact ⟨.inr (owned call (by simp)), fun _ _ => ih results fun other member => owned other (by simp [member])⟩

variable [DecidableEq K]

/-- Resolving what a batch owns releases it, however that ends. -/
theorem loadOwned_frees (cfg : LoadConfig) {fl : BatchFlights K} {h : Holding K} (has : Has fl h)
    (found : List (K × V)) :
    Ensures rules (loadOwned cfg fl found : Load K V E (List (K × V) × Option (LoadError E)))
      (fun _ h' => h'.owned = [] ∧ h'.joined = h.joined) h := by
  unfold loadOwned
  split
  · rename_i none
    have empty : fl.calls = [] := by
      have aligned := has.aligned
      rw [List.isEmpty_iff.mp none] at aligned
      exact List.length_eq_zero_iff.mp aligned.symm
    exact ⟨has.owned.trans empty, rfl⟩
  · have released {post : Option Unit → Holding K → Prop}
        (enough : ∀ cleaned h', h'.owned = [] ∧ h'.joined = h.joined → post cleaned h') :
        Ensures rules (releaseAll fl.calls : Load K V E Unit) post h :=
      (releaseAll_frees has.owned).mono fun cleaned h' freed => enough cleaned h' freed.2
    refine .deferring (.bind ((ensures_of_quiet (batchLoad_quiet cfg fl.owned) h).mono ?_))
    rintro (_ | ⟨resolved, err⟩) h' rfl
    · exact released (by rintro (_ | _) _ freed <;> exact freed)
    · refine .bind ((settleAll_keeps fl.calls _ fun call member => by rw [has.owned]; exact member).mono ?_)
      rintro (_ | _) h' rfl <;> exact released (by rintro (_ | _) _ freed <;> exact freed)

omit [DecidableEq K] [Inhabited V] in
/-- Waiting for the flights a batch joined claims nothing. -/
theorem awaitJoined_frees (joined : List (K × Nat)) :
    ∀ {found : List (K × V)} {loadErr : Option (LoadError E)} {h : Holding K},
      (∀ flight ∈ joined, flight.2 ∈ h.joined) → h.owned = [] →
      Ensures rules (awaitJoined joined found loadErr : Load K V E (List (K × V) × Option (LoadError E)))
        (fun _ h => h.owned = []) h := by
  induction joined with
  | nil => exact fun _ free => free
  | cons flight rest ih =>
    intro found loadErr h handed free
    refine .bind ((await_keeps (handed flight (by simp)) free).mono ?_)
    rintro (_ | answer) h' ⟨returned, rfl⟩
    · exact free
    · cases answer with
      | error err => exact free
      | ok result =>
        dsimp only
        split
        · exact ih (fun other member => handed other (by simp [member])) free
        · exact ih (fun other member => handed other (by simp [member])) free

/-- A batch of loads ends without a flight of its own, unless a lookup was cut off while it had some. -/
theorem batchGetOrLoad_frees (cfg : LoadConfig) (loader : Bool) (keys : List K) :
    Ensures rules (batchGetOrLoad cfg loader keys : Load K V E (List (K × V) × Option (LoadError E)))
      (fun _ h => h.owned = [] ∨ h.interrupted = true) start := by
  have nothing : Has (⟨[], [], []⟩ : BatchFlights K) start := ⟨rfl, rfl, by simp⟩
  have pass : Ensures rules (batchGetMemoryFlights keys : Load K V E (List (K × V) × BatchFlights K))
      PassEnd start := by
    unfold batchGetMemoryFlights
    split
    · exact passEach_has keys nothing
    · exact passGroups_has keys.length nothing
  unfold batchGetOrLoad
  split
  · exact .inl rfl
  · refine .bind (pass.mono ?_)
    rintro (_ | ⟨found, fl⟩) h has
    · exact has
    · dsimp only
      split
      · rename_i none
        -- Without owned keys there are no calls either.
        have empty : fl.calls = [] := by
          have aligned := has.aligned
          rw [List.isEmpty_iff.mp none.1] at aligned
          exact List.length_eq_zero_iff.mp aligned.symm
        exact .inl (has.owned.trans empty)
      · refine .bind ((loadOwned_frees cfg has found).mono ?_)
        rintro (_ | ⟨found, loadErr⟩) h' ⟨free, handed⟩
        · exact .inl free
        · refine (awaitJoined_frees fl.joined (fun flight member => ?_) free).mono fun out h free => .inl free
          rw [handed]
          exact has.joined flight member

omit [DecidableEq K] in
/-- The background part of a refresh releases the flight it was started with. -/
theorem loadInto_frees (cfg : LoadConfig) (key : K) {call : Nat} {h : Holding K} (owned : h.owned = [call]) :
    Ensures rules (loadInto cfg key call : Load K V E Unit) (fun _ h => h.owned = []) h := by
  have mine : call ∈ h.owned := by simp [owned]
  have released : Ensures rules (release call : Load K V E Unit) (fun _ h => h.owned = []) h :=
    ⟨mine, fun _ _ => by simp [Holding.rules, Holding.after, Ensures, owned]⟩
  -- However the load ended, the deferred release follows with the flight still owned.
  refine .deferring (.recovering (.bind ⟨trivial, fun answer _ => ?_⟩))
  rcases answer with _ | err | value
  · exact ⟨.inr mine, fun _ _ => released.mono (by rintro (_ | _) _ free <;> exact free)⟩
  · exact ⟨.inr mine, fun _ _ => released.mono (by rintro (_ | _) _ free <;> exact free)⟩
  · refine Ensures.bind (p := storeLoaded cfg key value)
      ((ensures_of_quiet (storeLoaded_quiet cfg key value) h).mono ?_)
    rintro (_ | _) _ rfl <;>
      exact ⟨.inr mine, fun _ _ => released.mono (by rintro (_ | _) _ free <;> exact free)⟩

omit [DecidableEq K] in
/-- A refresh and its background part end without a flight. -/
theorem getAndRefresh_frees (cfg : LoadConfig) (loader : Bool) (key : K) :
    Ensures rules (getAndRefresh cfg loader key : Load K V E (Option V × Option (Load K V E Unit)))
      (fun out h => match out with
        | some (_, background) =>
          Ensures rules (background.getD (pure ())) (fun _ h => h.owned = []) h
        | none => h.owned = []) start := by
  refine ⟨trivial, fun value _ => ?_⟩
  show Ensures rules (ite _ _ _) _ _
  split
  · rfl
  · refine ⟨trivial, fun closing _ => ?_⟩
    show Ensures rules (ite _ _ _) _ _
    split
    · rfl
    · refine ⟨trivial, fun call _ => ⟨.inl rfl, fun _ _ => ⟨rfl, fun running _ => ?_⟩⟩⟩
      cases running with
      | some winner => rfl
      | none => exact loadInto_frees cfg key rfl

omit [DecidableEq K] in
/-- Claiming the flights of a list of keys. -/
theorem claimAll_has (keys : List K) :
    ∀ {fl : BatchFlights K} {h : Holding K}, Has fl h →
      Ensures rules (claimAll keys fl : Load K V E (BatchFlights K))
        (fun out h => ∃ fl, out = some fl ∧ Has fl h) h := by
  induction keys with
  | nil => exact fun has => ⟨_, rfl, has⟩
  | cons key keys ih =>
    intro fl h has
    refine .bind ((claimFor_has has key).mono ?_)
    rintro _ h ⟨_, fl', rfl, has'⟩
    exact ih has'

/-- The background part of a batched refresh releases every flight it claims. -/
theorem loadBatchInto_frees (cfg : LoadConfig) (keys : List K) {h : Holding K} (free : h.owned = []) :
    Ensures rules (loadBatchInto cfg keys : Load K V E Unit) (fun _ h => h.owned = []) h := by
  have nothing : Has (⟨[], [], []⟩ : BatchFlights K) h := ⟨free, rfl, by simp⟩
  refine .bind ((claimAll_has keys nothing).mono ?_)
  rintro _ h ⟨fl, rfl, has⟩
  show Ensures rules (ite _ _ _) _ _
  split
  · rename_i none
    have aligned := has.aligned
    rw [List.isEmpty_iff.mp none] at aligned
    exact has.owned.trans (List.length_eq_zero_iff.mp aligned.symm)
  · have released {post : Option Unit → Holding K → Prop}
        (enough : ∀ cleaned h, h.owned = [] → post cleaned h) :
        Ensures rules (releaseAll fl.calls : Load K V E Unit) post h :=
      (releaseAll_frees has.owned).mono fun cleaned h freed => enough cleaned h freed.2.1
    have settled : ∀ results : List (FlightResult V E),
        Ensures rules (settleAll fl.calls results : Load K V E Unit) (fun _ h' => h' = h) h :=
      fun results => settleAll_keeps fl.calls results fun call member => by rw [has.owned]; exact member
    -- The recovery writes the error to every call, and the release follows it as well.
    have recovered {post : Option Unit → Holding K → Prop}
        (enough : ∀ cleaned h, h.owned = [] → post cleaned h) :
        Ensures rules (settleAll fl.calls (fl.owned.map fun _ => unresolved) : Load K V E Unit)
          (fun _ h => Ensures rules (releaseAll fl.calls : Load K V E Unit) post h) h := by
      refine (settled _).mono ?_
      rintro _ _ rfl
      exact released enough
    refine .deferring (.recovering (.bind ⟨trivial, fun answer _ => ?_⟩))
    rcases answer with _ | ⟨loaded, err⟩
    · exact recovered (by rintro (_ | _) _ free <;> exact free)
    · refine Ensures.bind (p := storeLoadedBatch cfg loaded)
        ((ensures_of_quiet (storeLoadedBatch_quiet cfg loaded) h).mono ?_)
      rintro (_ | _) _ rfl
      · exact recovered (by rintro (_ | _) _ free <;> exact free)
      · refine (settled _).mono ?_
        rintro (_ | _) _ rfl
        · exact recovered (by rintro (_ | _) _ free <;> exact free)
        · exact released (by rintro (_ | _) _ free <;> exact free)

omit [Inhabited V] [DecidableEq K] in
/-- Reading what memory holds has nothing to do with flights, and nothing in it panics. -/
theorem peekAll_keeps (keys : List K) (h : Holding K) :
    Ensures rules (peekAll keys : Load K V E (List (K × V))) (fun out h' => out ≠ none ∧ h' = h) h := by
  induction keys with
  | nil => exact ⟨nofun, rfl⟩
  | cons key keys ih =>
    refine ⟨trivial, fun value _ => Ensures.bind (p := peekAll keys) (ih.mono ?_)⟩
    rintro (_ | rest) h' ⟨returned, rfl⟩
    · exact absurd rfl returned
    · exact ⟨nofun, rfl⟩

/-- A batched refresh and its background part end without a flight. -/
theorem batchGetAndRefresh_frees (cfg : LoadConfig) (loader : Bool) (keys : List K) :
    Ensures rules (batchGetAndRefresh cfg loader keys : Load K V E (List (K × V) × Option (Load K V E Unit)))
      (fun out h => match out with
        | some (_, background) =>
          Ensures rules (background.getD (pure ())) (fun _ h => h.owned = []) h
        | none => h.owned = []) start := by
  refine .bind ((peekAll_keeps keys start).mono ?_)
  rintro (_ | found) h ⟨returned, rfl⟩
  · exact absurd rfl returned
  · show Ensures rules (ite _ _ _) _ _
    split
    · rfl
    · refine ⟨trivial, fun closing _ => ?_⟩
      show Ensures rules (ite _ _ _) _ _
      split
      · rfl
      · exact loadBatchInto_frees cfg keys rfl

end Load

/-- A lookup of a batched load was cut off by a panic while the load had flights. -/
def LoadCall.CutOff (call : LoadCall K) (h : Holding K) : Prop :=
  match call with
  | .batchGetOrLoad _ _ => h.interrupted = true
  | _ => False

/-- Every call ends without a flight of its own, unless it was cut off. -/
theorem LoadCall.prog_frees [DecidableEq K] [Inhabited V] (cfg : LoadConfig) (call : LoadCall K) :
    Ensures Holding.rules (call.prog cfg : Load K V E (LoadResult K V E))
      (fun _ h => h.owned = [] ∨ call.CutOff h) Holding.start := by
  cases call with
  | getOrLoad loader key =>
    refine .bind ((Load.getOrLoad_frees cfg loader key).mono fun out h free => ?_)
    cases out <;> exact .inl free
  | batchGetOrLoad loader keys =>
    refine .bind ((Load.batchGetOrLoad_frees cfg loader keys).mono fun out h free => ?_)
    cases out <;> exact free
  | getAndRefresh loader key =>
    refine .bind ((Load.getAndRefresh_frees cfg loader key).mono fun out h free => ?_)
    cases out with
    | none => exact .inl free
    | some answer =>
      refine .bind (free.mono fun out h free => ?_)
      cases out <;> exact .inl free
  | batchGetAndRefresh loader keys =>
    refine .bind ((Load.batchGetAndRefresh_frees cfg loader keys).mono fun out h free => ?_)
    cases out with
    | none => exact .inl free
    | some answer =>
      refine .bind (free.mono fun out h free => ?_)
      cases out <;> exact .inl free

end Memstash
