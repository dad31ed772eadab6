import Memstash.WriteBack.ReadingBack

/-! The two levels agree under `WriteThrough`, unless a write overlaps another or a promotion. -/

namespace Memstash

open Traces Effect

variable {K V σ : Type}

/-- What a call has done to the memory and not yet to the second level. -/
def Stage.ahead : Stage K V → List (Effect K V)
  | store [] handoff | check [] handoff | forward handoff => handoff.effects
  | _ => []

/-- The value a call has read from the second level and not yet put into the memory. -/
def Stage.carried : Stage K V → Option V
  | promote _ value => some value
  | _ => none

/-- What a client has done to the memory and not yet to the second level. -/
def Client.ahead : Client K V → List (Effect K V)
  | free => []
  | busy _ stage => stage.ahead

/-- The value a client has read from the second level and not yet put into the memory. -/
def Client.carried : Client K V → Option V
  | free => none
  | busy _ stage => stage.carried

/-- The stages of such calls under `WriteThrough`. -/
def Stage.Through (key : K) : Stage K V → Prop
  | store [(stored, value)] handoff => stored = key ∧ ∃ ttl, handoff = .direct (.set key value ttl)
  | check [removed] handoff | remove removed [] handoff =>
    removed = key ∧ handoff = .direct (.delete key)
  | store [] handoff | check [] handoff | forward handoff =>
    (∃ value ttl, handoff = .direct (.set key value ttl)) ∨ handoff = .direct (.delete key)
  | read looked | readL2 looked | promote looked _ => looked = key
  | finish _ => True
  | store _ _ | check _ _ | remove _ _ _ | send _ _ | sync _ _ | mark _ _ | await _ _ => False

namespace TwoLevel

/-- No client is between its memory update and its call of the second level while another is, or
while another is between its read of the second level and its promotion. -/
def Exclusive (s : TwoLevel K V σ) : Prop :=
  ∀ one other, one ≠ other → (s.clients one).ahead ≠ [] →
    (s.clients other).ahead = [] ∧ (s.clients other).carried = none

/-- How the levels agree while calls are in progress. -/
structure Agrees [DecidableEq K] (entry : σ → K → Option V) (key : K) (s : TwoLevel K V σ) : Prop where
  /-- The memory is ahead by what one call owes, if no other is ahead. -/
  memory : ∀ one, (∀ other, other ≠ one → (s.clients other).ahead = []) →
    Holds s.memory key (settle key (entry s.l2 key) (s.clients one).ahead)
  /-- What is about to be promoted is what the second level holds, if no call is ahead. -/
  carried : ∀ one value, (s.clients one).carried = some value →
    (∀ other, (s.clients other).ahead = []) → entry s.l2 key = some value

section Steps

variable [DecidableEq K] {cfg : SystemConfig K} {adapter : Adapter K V σ} {entry : σ → K → Option V}
  {s s' : TwoLevel K V σ} {label : Happening K V} {key : K}

/-- A step that only loses items, and after which no client is ahead by more or carries another value,
keeps the levels in agreement. -/
theorem Agrees.quiet (agrees : Agrees entry key s) (forgets : Forgets s.memory s'.memory)
    (l2 : s'.l2 = s.l2) (ahead : ∀ one, (s'.clients one).ahead = (s.clients one).ahead)
    (carried : ∀ one value, (s'.clients one).carried = some value →
      (s.clients one).carried = some value) : Agrees entry key s' := by
  refine ⟨fun one alone => ?_, fun one value carrying none => ?_⟩
  · rw [l2, ahead]
    exact (agrees.memory one fun other apart => (ahead other).symm.trans (alone other apart)).forgets
      (forgets key)
  · rw [l2]
    exact agrees.carried one value (carried one value carrying) fun other =>
      (ahead other).symm.trans (none other)

omit [DecidableEq K] in
/-- A client that is ahead as before leaves all clients ahead as before. -/
theorem turn_ahead {client : Nat} {next : Client K V} (clients : s'.clients = s.clients)
    (ahead : next.ahead = (s.clients client).ahead) (one : Nat) :
    ((s'.turn client next).clients one).ahead = (s.clients one).ahead := by
  by_cases same : one = client
  · subst same
    rw [turn_self, ahead]
  · rw [turn_of_ne s' same, clients]

/-- Such a step of a client keeps the levels in agreement. -/
theorem Agrees.quiet_turn (agrees : Agrees entry key s) {client : Nat} {next : Client K V}
    (forgets : Forgets s.memory s'.memory) (l2 : s'.l2 = s.l2) (clients : s'.clients = s.clients)
    (ahead : next.ahead = (s.clients client).ahead)
    (carried : ∀ value, next.carried = some value → (s.clients client).carried = some value) :
    Agrees entry key (s'.turn client next) := by
  refine agrees.quiet forgets l2 (turn_ahead clients ahead) fun one value carrying => ?_
  by_cases same : one = client
  · subst same
    rw [turn_self] at carrying
    exact carried value carrying
  · rwa [turn_of_ne s' same, clients] at carrying

/-- After a client updated the memory, it alone is ahead, and the memory holds what it owes. -/
theorem agrees_of_ahead {client : Nat} {next : Client K V} (owes : next.ahead ≠ []) (holds : Holds s.memory key (settle key (entry s.l2 key) next.ahead)) :
    Agrees entry key (s.turn client next) := by
  have mine : ((s.turn client next).clients client).ahead ≠ [] := by rwa [turn_self]
  refine ⟨fun one alone => ?_, fun one value carrying none => absurd (none client) mine⟩
  obtain rfl : client = one := by
    by_contra apart
    exact mine (alone client apart)
  rw [turn_self]
  exact holds

variable [Inhabited K] [Inhabited V]

/-- Every step of a client in an exclusive run keeps the levels in agreement. -/
theorem ClientStep.agrees (keyed : adapter.Keyed entry) {client : Nat} {call : Call K V}
    {stage : Stage K V} {next : Client K V}
    (stepped : ClientStep cfg adapter s client call stage label s' next)
    (busy : s.clients client = .busy call stage) (through : stage.Through key)
    (exclusive : s.Exclusive) (agrees : Agrees entry key s) : Agrees entry key (s'.turn client next) := by
  have same : Forgets s.memory s.memory := fun _ => .inl rfl
  cases stepped with
  | @store stored value items handoff memory stores =>
    cases items with
    | cons => exact through.elim
    | nil =>
      obtain ⟨rfl, ttl, rfl⟩ := through
      refine agrees_of_ahead nofun fun held found => ?_
      rcases stores.1 with kept | dropped
      · have found : memory stored = some held := found
        rw [kept] at found
        cases found
        exact if_pos rfl
      · have found : memory stored = some held := found
        rw [dropped] at found
        cases found
  | stored =>
    exact agrees.quiet_turn same rfl rfl (by rw [busy]; rfl) fun _ => nofun
  | @missing removed keys handoff absent =>
    cases keys with
    | cons => exact through.elim
    | nil =>
      obtain ⟨rfl, rfl⟩ := through
      refine agrees_of_ahead nofun fun held found => ?_
      rw [absent] at found
      cases found
  | @present removed keys handoff live =>
    exact agrees.quiet_turn same rfl rfl (by rw [busy]; rfl) fun _ => nofun
  | @remove removed keys handoff =>
    cases keys with
    | cons => exact through.elim
    | nil =>
      obtain ⟨rfl, rfl⟩ := through
      refine agrees_of_ahead nofun fun held found => ?_
      have found : Function.update s.memory removed none removed = some held := found
      rw [Function.update_self] at found
      cases found
  | checked => exact agrees.quiet_turn same rfl rfl (by rw [busy]; rfl) fun _ => nofun
  | @direct write =>
    -- The call that was ahead is through, and no other was ahead or carried a value.
    have mine : (s.clients client).ahead = write.effects := by rw [busy]; rfl
    have owes : (s.clients client).ahead ≠ [] := by
      rw [mine]
      rcases through with ⟨value, ttl, made⟩ | made <;> cases made <;> nofun
    have others := fun other apart => exclusive client other (Ne.symm apart) owes
    have entry' : entry (adapter.call s.l2 write).1 key = settle key (entry s.l2 key) write.effects := by
      rw [keyed.call_eq, keyed.entry_foldl]
    rw [keyed.accepts, if_neg nofun]
    have none : ∀ one, ((({ s with l2 := (adapter.call s.l2 write).1 } : TwoLevel K V σ).turn client
        (.busy call (.finish none))).clients one).ahead = [] := by
      intro one
      by_cases same : one = client
      · subst same
        rw [turn_self]
        rfl
      · rw [turn_of_ne _ same]
        exact (others one same).1
    refine ⟨fun one _ => ?_, fun one value carrying _ => ?_⟩
    · rw [none]
      show Holds s.memory key (entry (adapter.call s.l2 write).1 key)
      rw [entry', ← mine]
      exact agrees.memory client fun other apart => (others other apart).1
    · exfalso
      by_cases same : one = client
      · subst same
        rw [turn_self] at carrying
        cases carrying
      · rw [turn_of_ne _ same] at carrying
        have uncarried := (others one same).2
        rw [uncarried] at carrying
        cases carrying
  | hit => exact agrees.quiet_turn same rfl rfl (by rw [busy]; rfl) fun _ => nofun
  | miss => exact agrees.quiet_turn same rfl rfl (by rw [busy]; rfl) fun _ => nofun
  | absent => exact agrees.quiet_turn same rfl rfl (by rw [busy]; rfl) fun _ => nofun
  | @found read value present =>
    obtain rfl : read = key := through
    have ahead : ∀ one, ((s.turn client (.busy call (.promote read value))).clients one).ahead
        = (s.clients one).ahead := turn_ahead rfl (by rw [busy]; rfl)
    refine ⟨fun one alone => ?_, fun one carried carrying none => ?_⟩
    · rw [ahead]
      exact agrees.memory one fun other apart => (ahead other).symm.trans (alone other apart)
    · -- What was found is what the second level holds.
      by_cases same : one = client
      · subst same
        rw [turn_self] at carrying
        cases carrying
        rw [← present, keyed.reads]
        rfl
      · rw [turn_of_ne s same] at carrying
        exact agrees.carried one carried carrying fun other => (ahead other).symm.trans (none other)
  | @promote read value memory stores =>
    obtain rfl : read = key := through
    have carrying : (s.clients client).carried = some value := by rw [busy]; rfl
    have ahead : ∀ one, ((({ s with memory := memory } : TwoLevel K V σ).turn client
        (.busy call (.finish (some value)))).clients one).ahead = (s.clients one).ahead :=
      turn_ahead rfl (by rw [busy]; rfl)
    refine ⟨fun one alone => ?_, fun one carried carrying' none => ?_⟩
    · -- No call is ahead while a value is carried, so the value is what the second level holds.
      have none : ∀ other, (s.clients other).ahead = [] := by
        intro other
        by_cases same : other = one
        · by_contra owes
          by_cases mine : other = client
          · rw [mine, busy] at owes
            exact owes rfl
          · rw [(exclusive other client mine owes).2] at carrying
            cases carrying
        · rw [← ahead]
          exact alone other same
      rw [ahead, none]
      exact .stores stores (fun _ => agrees.carried client value carrying none) fun apart => absurd rfl apart
    · by_cases same : one = client
      · subst same
        rw [turn_self] at carrying'
        cases carrying'
      · rw [turn_of_ne _ same] at carrying'
        exact agrees.carried one carried carrying' fun other => (ahead other).symm.trans (none other)
  | finish => exact agrees.quiet_turn same rfl rfl (by rw [busy]; rfl) fun _ => nofun
  | skip | enqueued | running | stopped => rcases through with ⟨_, _, made⟩ | made <;> cases made
  | send | full | sync | mark | markStopped | marked | await | awaitStopped | awaited =>
    exact through.elim

/-- A call on the key stays in its stages, and gives no task to a queue. -/
theorem ClientStep.through {client : Nat} {call : Call K V} {stage : Stage K V} {next : Client K V}
    (stepped : ClientStep cfg adapter s client call stage label s' next) (through : stage.Through key) :
    (∀ call' stage', next = .busy call' stage' → stage'.Through key) ∧
      ∀ by' queue write, label ≠ .accepted by' queue write := by
  cases stepped with
  | @store stored value items handoff memory stores =>
    cases items with
    | cons => exact through.elim
    | nil =>
      obtain ⟨rfl, ttl, rfl⟩ := through
      refine ⟨fun _ _ still => ?_, nofun⟩
      cases still
      exact .inl ⟨value, ttl, rfl⟩
  | @missing removed keys handoff absent =>
    cases keys with
    | cons => exact through.elim
    | nil =>
      refine ⟨fun _ _ still => ?_, nofun⟩
      cases still
      exact .inr through.2
  | @present removed keys handoff live =>
    cases keys with
    | cons => exact through.elim
    | nil =>
      refine ⟨fun _ _ still => ?_, nofun⟩
      cases still
      exact through
  | @remove removed keys handoff =>
    cases keys with
    | cons => exact through.elim
    | nil =>
      refine ⟨fun _ _ still => ?_, nofun⟩
      cases still
      exact .inr through.2
  | direct =>
    refine ⟨fun _ _ still => ?_, nofun⟩
    split at still
    · cases still
    · cases still
      trivial
  | stored | checked | hit | miss | absent | found | promote =>
    refine ⟨fun _ _ still => ?_, nofun⟩
    cases still
    first | exact through | trivial
  | finish => exact ⟨nofun, nofun⟩
  | skip | enqueued | running | stopped => rcases through with ⟨_, _, made⟩ | made <;> cases made
  | send | full | sync | mark | markStopped | marked | await | awaitStopped | awaited =>
    exact through.elim

end Steps

section TwoClients

end TwoClients

end TwoLevel

end Memstash
