import Memstash.Flights.RegistryLaws
import Memstash.Cache.Accounting

/-! In any interleaving of claims and releases, a key has one flight at a time and everyone joins it. -/

namespace Memstash

open Scan Runs

variable {K V E : Type}

/-- What callers do to the registry, each under the lock of one bucket. -/
inductive FlightStep (K : Type) where
  | claim (key : K) (call : Nat)
  | release (call : Nat)

/-- The registry, and for every call that was claimed and not released since the key it is for. -/
structure FlightRun (K V E : Type) where
  flights : Flights K V E
  unreleased : Nat → Option K

namespace FlightRun

variable [DecidableEq K] {hash : K → BitVec 64} {s : FlightRun K V E}

/-- Take a step; a call is unreleased from the claim that registers it to its release. -/
def step (hash : K → BitVec 64) (s : FlightRun K V E) : FlightStep K → Except Fault (FlightRun K V E)
  | .claim key call => do
    let (flights, _, running) ← s.flights.claim (hash key) key call
    return ⟨flights, if running then s.unreleased else Function.update s.unreleased call (some key)⟩
  | .release call => do
    let flights ← s.flights.release call
    return ⟨flights, Function.update s.unreleased call none⟩

/-- A caller claims with a call of its own that is not registered, and releases what it claimed. -/
def Proper (s : FlightRun K V E) : FlightStep K → Prop
  | .claim _ call => s.unreleased call = none
  | .release call => s.unreleased call ≠ none

/-- The registry has exactly the unreleased calls, under their keys. -/
structure Inv (hash : K → BitVec 64) (s : FlightRun K V E) : Prop where
  consistent : s.flights.Consistent hash
  registered : ∀ id, s.flights.Registered id ↔ s.unreleased id ≠ none
  named : ∀ id key, s.unreleased id = some key → (s.flights.calls id).key = key

/-- The unreleased call of a key is the registered one. -/
theorem Inv.unreleased_iff (inv : s.Inv hash) (id : Nat) (key : K) :
    s.unreleased id = some key ↔ s.flights.Registered id ∧ (s.flights.calls id).key = key := by
  rw [inv.registered]
  constructor
  · intro claimed
    exact ⟨by simp [claimed], inv.named id key claimed⟩
  · rintro ⟨some, rfl⟩
    obtain ⟨key, claimed⟩ := Option.ne_none_iff_exists'.mp some
    rw [claimed, inv.named id key claimed]

/-- What a claim answers: its own call when the key has no unreleased one, and that one otherwise. -/
theorem Inv.claim (inv : s.Inv hash) (key : K) {call : Nat} (own : s.unreleased call = none) :
    ∃ flights winner running, s.flights.claim (hash key) key call = .ok (flights, winner, running) ∧
      Inv hash ⟨flights,
        if running then s.unreleased else Function.update s.unreleased call (some key)⟩ ∧
      (running = false ↔ ∀ id, s.unreleased id ≠ some key) ∧
      (running = true → s.unreleased winner = some key) ∧ (running = false → winner = call) := by
  have fresh : ¬ s.flights.Registered call := by simp [inv.registered, own]
  obtain ⟨flights, winner, running, ran, consistent, claimed⟩ := inv.consistent.claim key fresh
  refine ⟨flights, winner, running, ran, ?_⟩
  cases claimed with
  | joined registered named =>
    have owner := (inv.unreleased_iff winner key).mpr ⟨registered, named⟩
    refine ⟨⟨consistent, inv.registered, fun id key' claimed => ?_⟩, ?_, fun _ => owner, nofun⟩
    · show (Function.update s.flights.calls winner _ id).key = key'
      by_cases same : id = winner
      · subst same
        rw [Function.update_self]
        exact inv.named id key' claimed
      · rw [Function.update_of_ne same]
        exact inv.named id key' claimed
    · simp only [Bool.true_eq_false, false_iff, not_forall, not_not]
      exact ⟨winner, owner⟩
  | owned absent registers _ named others =>
    refine ⟨⟨consistent, fun id => ?_, fun id key' claimed => ?_⟩, ?_, nofun, fun _ => rfl⟩
    · rw [registers, inv.registered]
      by_cases same : id = call
      · simp [same]
      · simp [same]
    · simp only [Bool.false_eq_true, if_false] at claimed
      by_cases same : id = call
      · subst same
        rw [Function.update_self] at claimed
        rw [← Option.some_inj.mp claimed]
        exact named
      · rw [Function.update_of_ne same] at claimed
        simp only [others id same]
        exact inv.named id key' claimed
    · simp only [true_iff]
      intro id claimed
      obtain ⟨registered, own⟩ := (inv.unreleased_iff id key).mp claimed
      exact absent id registered own

/-- A release takes its own call out, and no other. -/
theorem Inv.release (inv : s.Inv hash) {call : Nat} (claimed : s.unreleased call ≠ none) :
    ∃ flights, s.flights.release call = .ok flights ∧
      Inv hash ⟨flights, Function.update s.unreleased call none⟩ ∧
      ∀ id, flights.Registered id ↔ s.flights.Registered id ∧ id ≠ call := by
  obtain ⟨flights, ran, consistent, _, registers, others, _⟩ :=
    inv.consistent.release ((inv.registered call).mpr claimed)
  refine ⟨flights, ran, ⟨consistent, fun id => ?_, fun id key kept => ?_⟩, registers⟩
  · rw [registers, inv.registered]
    by_cases same : id = call
    · simp [same]
    · simp [same]
  · by_cases same : id = call
    · simp [same] at kept
    · have before : s.unreleased id = some key := by
        rw [← Function.update_of_ne same none s.unreleased]
        exact kept
      simp only [others id same]
      exact inv.named id key before

/-- Every proper step returns and keeps the registry right. -/
theorem Inv.step (inv : s.Inv hash) {next : FlightStep K} (proper : s.Proper next) :
    ∃ s', s.step hash next = .ok s' ∧ s'.Inv hash := by
  cases next with
  | claim key call =>
    obtain ⟨flights, winner, running, ran, inv', _⟩ := inv.claim key proper
    exact ⟨_, by rw [FlightRun.step, ran]; rfl, inv'⟩
  | release call =>
    obtain ⟨flights, ran, inv', _⟩ := inv.release proper
    exact ⟨_, by rw [FlightRun.step, ran]; rfl, inv'⟩

end FlightRun

variable [DecidableEq K] [Inhabited K] [Inhabited V]

omit [DecidableEq K] in
/-- The number of a shard fits a byte, and so does the number of a bucket. -/
theorem Config.shardMask_lt (cfg : Config K V) (around : Surroundings K V) :
    (cfg.build around).shardMask < 2 ^ 8 := by
  obtain ⟨b, small, count, _⟩ := cfg.shardCount_spec around.gomaxprocs
  have bound : 2 ^ b ≤ 2 ^ 7 := Nat.pow_le_pow_right (by norm_num) small
  show cfg.shardCount around.gomaxprocs - 1 < 2 ^ 8
  omega

/-- The registry of a new cache, before the first flight. -/
def Config.flights (cfg : Config K V) (around : Surroundings K V) (calls : Nat → FlightCall K V E) :
    FlightRun K V E :=
  ⟨.empty (cfg.build around).shardMask calls, fun _ => none⟩

/-- In every run of claims and releases, at every moment: the registry is consistent and has exactly
the unreleased calls, a key has at most one of them, a claim starts a flight exactly when its key has
none and joins the one it has otherwise, and a release takes out its own call alone. -/
theorem one_flight_per_key (cfg : Config K V) (around : Surroundings K V)
    (calls : Nat → FlightCall K V E) {steps : List (FlightStep K)}
    (proper : Meets (FlightRun.step around.keyHash) FlightRun.Proper (cfg.flights around calls) steps) :
    ∀ done, done <+: steps → ∃ s,
      run (FlightRun.step around.keyHash) (cfg.flights around calls) done = .ok s ∧
      s.flights.Consistent around.keyHash ∧
      (∀ id, s.flights.Registered id ↔ s.unreleased id ≠ none) ∧
      (∀ id id' key, s.unreleased id = some key → s.unreleased id' = some key → id = id') ∧
      (∀ key call, s.unreleased call = none → ∃ flights winner running,
        s.flights.claim (around.keyHash key) key call = .ok (flights, winner, running) ∧
        flights.Consistent around.keyHash ∧
        (running = false ↔ ∀ id, s.unreleased id ≠ some key) ∧
        (running = true → s.unreleased winner = some key) ∧ (running = false → winner = call)) ∧
      (∀ call, s.unreleased call ≠ none → ∃ flights, s.flights.release call = .ok flights ∧
        flights.Consistent around.keyHash ∧
        ∀ id, flights.Registered id ↔ s.flights.Registered id ∧ id ≠ call) := by
  intro done within
  obtain ⟨empty, none⟩ := Flights.consistent_empty around.keyHash (cfg.shardMask_lt around) calls
  have opened : (cfg.flights around calls).Inv around.keyHash :=
    ⟨empty, fun id => by simp [Config.flights, none], fun id key claimed => nomatch claimed⟩
  obtain ⟨s, ran, inv⟩ := exists_run_eq (fun _ s => s.Inv around.keyHash) opened proper
    (fun _ next _ _ inv proper => inv.step proper) done within
  refine ⟨s, ran, inv.consistent, inv.registered, fun id id' key claimed claimed' => ?_,
    fun key call own => ?_, fun call claimed => ?_⟩
  · obtain ⟨registered, named⟩ := (inv.unreleased_iff id key).mp claimed
    obtain ⟨registered', named'⟩ := (inv.unreleased_iff id' key).mp claimed'
    exact inv.consistent.unique registered registered' (named.trans named'.symm)
  · obtain ⟨flights, winner, running, ran, inv', answers⟩ := inv.claim key own
    exact ⟨flights, winner, running, ran, inv'.consistent, answers⟩
  · obtain ⟨flights, ran, inv', registers⟩ := inv.release claimed
    exact ⟨flights, ran, inv'.consistent, registers⟩

/-- A call nobody has claimed with. -/
def idleCall : FlightCall Nat Unit Unit :=
  { key := 0, val := (), err := none, finished := false, place := 0#16, ok := false, joined := false }

/-- Two callers ask for one key, and the first of them is released. -/
theorem one_flight_per_key_seven : ∃ s,
    run (FlightRun.step plainSurroundings.keyHash) (hundredItems.flights plainSurroundings fun _ => idleCall)
      [.claim 7 0, .claim 7 1, .release 0] = .ok s ∧
    s.flights.Consistent plainSurroundings.keyHash := by
  have proper : Meets (FlightRun.step plainSurroundings.keyHash) FlightRun.Proper
      (hundredItems.flights plainSurroundings fun _ => idleCall) [.claim 7 0, .claim 7 1, .release 0] := by
    -- The calls are run out: the first registers call 0, and the second joins it.
    refine meets_cons rfl fun s first => ?_
    cases first
    refine meets_cons rfl fun s' second => ?_
    cases second
    exact meets_cons (Option.some_ne_none 7) fun _ _ => meets_nil _ _ _
  obtain ⟨s, ran, consistent, _⟩ := one_flight_per_key hundredItems plainSurroundings (fun _ => idleCall)
    proper _ (List.prefix_refl _)
  exact ⟨s, ran, consistent⟩

end Memstash
