import Memstash.WriteBack.Ordering

/-! One client reads its own writes back, unless it reads the second level past a task of its own. -/

namespace Memstash

open Traces Effect

variable {K V σ : Type}

/-- The calls on one key. -/
def Call.Single : Call K V → Prop
  | set .. | delete _ | get _ => True
  | batchSet _ | batchDelete _ | wait => False

namespace TwoLevel

/-- The memory holds nothing for a key but what is expected. -/
def Holds (memory : K → Option V) (key : K) (expected : Option V) : Prop :=
  ∀ value, memory key = some value → expected = some value

/-- Losing items does no harm. -/
theorem Holds.forgets {memory memory' : K → Option V} {key : K} {expected : Option V}
    (holds : Holds memory key expected) (forgets : memory' key = memory key ∨ memory' key = none) :
    Holds memory' key expected := by
  intro value held
  rcases forgets with same | lost
  · exact holds value (same ▸ held)
  · rw [lost] at held
    cases held

/-- Storing the expected value for the key, or any value for another key, is as expected. -/
theorem Holds.stores {memory memory' : K → Option V} {key stored : K} {value : V}
    {expected : Option V} (stores : Stores stored value memory memory')
    (mine : stored = key → expected = some value)
    (other : stored ≠ key → Holds memory key expected) : Holds memory' key expected := by
  by_cases same : stored = key
  · subst same
    intro held found
    rcases stores.1 with kept | dropped
    · rw [kept] at found
      cases found
      exact mine rfl
    · rw [dropped] at found
      cases found
  · exact (other same).forgets (stores.2 key (Ne.symm same))

section Fits

variable [DecidableEq K]

/-- How the memory and a client fit what is expected of a key once all tasks given so far are through. -/
def Fits (memory : K → Option V) (key : K) (expected : Option V) : Client K V → Prop
  | .free => Holds memory key expected
  | .busy call stage =>
    match stage with
    -- Before its memory update a call has changed nothing.
    | .store [(stored, value)] handoff => Holds memory key expected ∧ (∀ read, call ≠ .get read) ∧
      ∃ ttl, handoff.effects = [.set stored value ttl]
    | .check [removed] handoff | .remove removed [] handoff => Holds memory key expected ∧
      (∀ read, call ≠ .get read) ∧ handoff.effects = [.delete removed]
    -- After it the memory is ahead by what the call owes.
    | .store [] handoff | .check [] handoff | .forward handoff =>
      Holds memory key (settle key expected handoff.effects) ∧ ∀ read, call ≠ .get read
    | .send write rest | .sync write rest =>
      Holds memory key (settle key expected (write.effect :: rest.map L2Write.effect)) ∧
        ∀ read, call ≠ .get read
    | .read read | .readL2 read => Holds memory key expected ∧ call = .get read
    | .promote read value =>
      Holds memory key expected ∧ call = .get read ∧ (read = key → expected = some value)
    | .finish answer => Holds memory key expected ∧ (call = .get key → answer = expected)
    | .store _ _ | .check _ _ | .remove _ _ _ | .mark _ _ | .await _ _ => False

variable {key : K} {expected : Option V}

/-- Losing items fits. -/
theorem Fits.forgets {memory memory' : K → Option V} {at' : Client K V}
    (fits : Fits memory key expected at') (forgets : Forgets memory memory') :
    Fits memory' key expected at' := by
  have still : ∀ {expected}, Holds memory key expected → Holds memory' key expected :=
    fun holds => holds.forgets (forgets key)
  unfold Fits at fits ⊢
  split at fits
  · exact still fits
  · split at fits <;> first | exact fits.elim | exact ⟨still fits.1, fits.2⟩

variable [Inhabited V] {cfg : SystemConfig K}

/-- A call on one key starts as expected. -/
theorem start_fits (backed : cfg.policy = .writeBack) {call : Call K V} (single : call.Single)
    {memory : K → Option V} (holds : Holds memory key expected) (number : Nat) :
    Fits memory key expected (.busy call (call.start cfg number)) := by
  cases call with
  | set stored value ttl =>
    refine ⟨holds, nofun, ttl, ?_⟩
    rw [SystemConfig.handoff, backed]
    rfl
  | delete removed =>
    refine ⟨holds, nofun, ?_⟩
    rw [SystemConfig.handoff, backed]
    rfl
  | get read => exact ⟨holds, rfl⟩
  | batchSet | batchDelete | wait => exact single.elim

variable [Inhabited K] {adapter : Adapter K V σ} {entry : σ → K → Option V} {s s' : TwoLevel K V σ}
  {label : Happening K V} {labels : List (Happening K V)} {client : Nat}

/-- A client's step fits, when it makes no call itself and what it reads is as expected. -/
theorem ClientStep.fits {call : Call K V} {stage : Stage K V} {next : Client K V}
    (stepped : ClientStep cfg adapter s client call stage label s' next)
    (unmade : ∀ events, label ≠ .made client events)
    (reads : label = .looked client key → adapter.get s.l2 key = expected)
    (fits : Fits s.memory key expected (.busy call stage)) :
    Fits s'.memory key (settle key expected label.given) next := by
  cases stepped with
  | @store stored value items handoff memory stores =>
    cases items with
    | cons => exact fits.elim
    | nil =>
      obtain ⟨holds, writing, ttl, owed⟩ := fits
      refine ⟨.stores stores (fun same => ?_) fun apart => ?_, writing⟩
      · rw [owed]
        exact if_pos same
      · rw [owed]
        -- A write of another key is not expected to change this one.
        show Holds s.memory key (if stored = key then some value else expected)
        rw [if_neg apart]
        exact holds
  | stored => exact fits
  | @missing removed keys handoff absent =>
    cases keys with
    | cons => exact fits.elim
    | nil =>
      obtain ⟨holds, writing, owed⟩ := fits
      refine ⟨fun value held => ?_, writing⟩
      rw [owed]
      by_cases same : removed = key
      · subst same
        rw [absent] at held
        cases held
      · show (if removed = key then none else expected) = some value
        rw [if_neg same]
        exact holds value held
  | @present removed keys handoff live =>
    cases keys with
    | cons => exact fits.elim
    | nil => exact fits
  | @remove removed keys handoff =>
    cases keys with
    | cons => exact fits.elim
    | nil =>
      obtain ⟨holds, writing, owed⟩ := fits
      refine ⟨fun value held => ?_, writing⟩
      have held : Function.update s.memory removed none key = some value := held
      rw [owed]
      by_cases same : key = removed
      · subst same
        rw [Function.update_self] at held
        cases held
      · rw [Function.update_of_ne same] at held
        show (if removed = key then none else expected) = some value
        rw [if_neg (Ne.symm same)]
        exact holds value held
  | checked => exact fits
  | skip => exact ⟨fits.1, fun reading => absurd reading (fits.2 key)⟩
  | direct => exact absurd rfl (unmade _)
  | enqueued => exact ⟨fits.1, fun reading => absurd reading (fits.2 key)⟩
  | running => exact fits
  | stopped => exact fits
  | send => exact fits
  | full => exact fits
  | sync => exact absurd rfl (unmade _)
  | @hit read value live =>
    obtain ⟨holds, reading⟩ := fits
    refine ⟨holds, fun mine => ?_⟩
    rw [reading] at mine
    cases mine
    exact (holds value live).symm
  | miss => exact fits
  | @absent read missing =>
    obtain ⟨holds, reading⟩ := fits
    refine ⟨holds, fun mine => ?_⟩
    rw [reading] at mine
    cases mine
    exact missing.symm.trans (reads rfl)
  | @found read value present =>
    obtain ⟨holds, reading⟩ := fits
    refine ⟨holds, reading, fun mine => ?_⟩
    subst mine
    exact (reads rfl).symm.trans present
  | @promote read value memory stores =>
    obtain ⟨holds, reading, mine⟩ := fits
    refine ⟨.stores stores mine fun _ => holds, fun same => ?_⟩
    rw [reading] at same
    cases same
    exact (mine rfl).symm
  | mark | markStopped | marked | await | awaitStopped | awaited => exact fits.elim
  | finish => exact fits.1

/-- One client makes calls on single keys one after the other, the queues never overflow and the cache
stays open; and the client reads a key from the second level only when no task for it is waiting. -/
def Careful (cfg : SystemConfig K) (key : K) (client : Nat) (s : TwoLevel K V σ) : Happening K V → Prop
  | .began by' call => by' = client ∧ call.Single
  | .made _ _ | .closing => False
  | .looked _ read => read = key →
    ∀ effect ∈ (s.pipe (cfg.writeQueueOf key)).pending, ¬ effect.Touches key
  | _ => True

omit [Inhabited K] [Inhabited V] [DecidableEq K] in
theorem Careful.alone (careful : Careful cfg key client s label) : Alone cfg key client s label := by
  cases label with
  | began by' call => exact .inl careful.1
  | made => exact careful.elim
  | accepted | looked | worked | returned | closing | internal => trivial

/-- What holds along the run of one careful client. -/
structure Reading (cfg : SystemConfig K) (entry : σ → K → Option V) (key : K) (client : Nat)
    (start : Option V) (labels : List (Happening K V)) (s : TwoLevel K V σ) : Prop where
  queued : Queued cfg entry key start labels s
  owing : ∀ client, Owing cfg labels client (s.clients client)
  solo : Solo cfg key client labels s
  others : ∀ other, other ≠ client → s.clients other = .free
  fits : Fits s.memory key (settle key start (labels.flatMap Happening.given)) (s.clients client)

/-- Every careful step keeps the memory as expected. -/
theorem Step.reading (backed : cfg.policy = .writeBack) (keyed : adapter.Keyed entry)
    {start : Option V} (stepped : Step cfg adapter s label s') (careful : Careful cfg key client s label)
    (reading : Reading cfg entry key client start labels s) :
    Reading cfg entry key client start (labels ++ [label]) s' := by
  have calm : ∀ l2 call, (deliverCall cfg.toWriteBackConfig adapter l2 call).2.2 = false := by
    intro l2 call
    rw [keyed.toOrderly.deliverCall_eq]
  have grown : settle key start ((labels ++ [label]).flatMap Happening.given) =
      settle key (settle key start (labels.flatMap Happening.given)) label.given := by
    rw [List.flatMap_append, List.flatMap_singleton, settle_append]
  refine ⟨stepped.stirs.queued keyed careful.alone reading.queued, stepped.owing calm reading.owing,
    stepped.solo keyed.toOrderly careful.alone reading.owing reading.solo, ?_, ?_⟩
  · intro other apart
    cases stepped with
    | @begin caller call free =>
      have different : other ≠ caller := fun same => apart (same.trans careful.1)
      exact (turn_of_ne s different _).trans (reading.others other apart)
    | @client caller call stage _ mid next busy stepped =>
      have different : other ≠ caller := by
        rintro rfl
        rw [reading.others other apart] at busy
        cases busy
      rw [turn_of_ne mid different, stepped.frame.clients]
      exact reading.others other apart
    | evict | work | close | joined | drain | drained | closed => exact reading.others other apart
  · rw [grown]
    cases stepped with
    | @begin caller call free =>
      obtain ⟨rfl, single⟩ := careful
      have before := reading.fits
      rw [free] at before
      show Fits s.memory key _ ((s.turn caller _).clients caller)
      rw [turn_self]
      exact start_fits backed single before _
    | @client caller call stage _ mid next busy stepped =>
      -- Only the one client is in a call.
      obtain rfl : caller = client := by
        by_contra different
        rw [reading.others caller different] at busy
        cases busy
      have before := reading.fits
      rw [busy] at before
      show Fits mid.memory key _ ((mid.turn caller next).clients caller)
      rw [turn_self]
      refine stepped.fits (fun events made => ?_) (fun looked => ?_) before
      · subst made
        exact careful.elim
      · -- With no task of the key waiting, its entry is what all tasks make of it.
        subst looked
        have target := reading.queued.target
        rw [settle_of_untouched (careful rfl)] at target
        rw [keyed.reads, target]
    | evict forgets => exact reading.fits.forgets forgets
    | work | close | joined | drain | drained | closed => exact reading.fits

/-- Every read of a careful client's key returns what its last write of the key left: the value, or
nothing after a delete. -/
theorem reads_last_write (backed : cfg.policy = .writeBack) (keyed : adapter.Keyed entry) {l2 : σ}
    (trace : Trace (Restrict (Step cfg adapter) (Careful cfg key client)) (fresh (fun _ => none) l2)
      labels s) {answer : Option V}
    (returns : Step cfg adapter s (.returned client (.get key) answer) s')
    (earlier later : List (Effect K V)) {last : Effect K V}
    (asked : labels.flatMap (Happening.asked cfg client) = earlier ++ last :: later)
    (touches : last.Touches key) (untouched : ∀ effect ∈ later, ¬ effect.Touches key) :
    answer = last.outcome := by
  have initial : Reading cfg entry key client (entry l2 key) [] (fresh (fun _ => none) l2) :=
    ⟨⟨fun _ _ => nofun, rfl⟩, fun _ => rfl, ⟨fun _ _ _ _ => nofun, fun _ => rfl, rfl⟩,
      fun _ _ => rfl, fun _ => nofun⟩
  have reading := trace.invariant (Reading cfg entry key client (entry l2 key)) initial
    fun labels mid label last reading stepped => stepped.1.reading backed keyed stepped.2 reading
  cases returns with
  | client caller busy stepped =>
    cases stepped
    have fits := reading.fits
    have owing := reading.owing client
    have asking := reading.solo.asking
    rw [busy] at fits owing asking
    obtain ⟨part, issued, none, _⟩ := owing
    -- A read asks for nothing, so all the client asked for was given.
    have nothing : (Call.get key : Call K V).effects cfg = [] := by simp [Call.effects]
    have asking : _ = _ := asking
    rw [nothing] at none asking
    obtain rfl : part = [] := (List.append_eq_nil_iff.mp none.symm).1
    rw [fits.2 rfl, reading.solo.given, issued, List.append_nil, ← List.append_nil (labels.flatMap _),
      ← asking, asked, settle_last touches untouched]

end Fits

section OneClient

/-- A written value is read back after it was drained and evicted. -/
theorem reads_last_write_one : ∃ (s s' : TwoLevel Nat Nat (Nat → Option (Nat × Int)))
    (labels : List (Happening Nat Nat)) (answer : Option Nat),
    Trace (Step backed mapAdapter) (fresh (fun _ => none) fun _ => none) labels s ∧
    labels.flatMap (Happening.asked backed 0) = [.set 7 1 5] ∧
    Step backed mapAdapter s (.returned 0 (.get 7) answer) s' ∧ answer = some 1 := by
  have written : Trace (Restrict (Step backed mapAdapter) (Careful backed 7 0))
      (fresh (fun _ => none) fun _ => none) _ _ :=
    ((((((((((Trace.nil.snoc ⟨.begin 0 (.set 7 1 5) rfl, rfl, trivial⟩).snoc
      ⟨.client 0 rfl (.store (stores_holding 7 1 _)), trivial⟩).snoc
      ⟨.client 0 rfl .stored, trivial⟩).snoc ⟨.client 0 rfl (.running rfl), trivial⟩).snoc
      ⟨.client 0 rfl (.send (by decide)), trivial⟩).snoc ⟨.client 0 rfl .enqueued, trivial⟩).snoc
      ⟨.client 0 rfl .finish, trivial⟩).snoc ⟨.work 0 (by decide) rfl, trivial⟩).snoc
      ⟨.work 0 (by decide) rfl, trivial⟩).snoc ⟨.work 0 (by decide) rfl, trivial⟩).snoc
      ⟨.work 0 (by decide) rfl, trivial⟩
  have evicted : Forgets (holding 7 1) fun _ => none := fun _ => .inr rfl
  have reading := ((((written.snoc ⟨.evict evicted, trivial⟩).snoc
    ⟨.begin 0 (.get 7) rfl, rfl, trivial⟩).snoc ⟨.client 0 rfl (.miss rfl), trivial⟩).snoc
    ⟨.client 0 rfl (.found rfl), fun _ => nofun⟩).snoc
    ⟨.client 0 rfl (.promote (stores_holding 7 1 _)), trivial⟩
  exact ⟨_, _, _, _, reading.of_restrict, rfl, .client 0 rfl .finish,
    reads_last_write rfl mapAdapter_keyed reading (.client 0 rfl .finish) [] [] rfl rfl nofun⟩

/-- A read between a delete and its drain brings the deleted value back into the memory, where it
outlives the drain. -/
theorem deleted_value_returns : ∃ (s s' : TwoLevel Nat Nat (Nat → Option (Nat × Int)))
    (labels : List (Happening Nat Nat)),
    Trace (Step backed mapAdapter) (fresh (fun _ => none) fun _ => none) labels s ∧
    labels.flatMap (Happening.asked backed 0) = [.set 7 1 5, .delete 7] ∧
    (∀ queue, s.queues queue = [] ∧ s.workers queue = .idle) ∧
    Step backed mapAdapter s (.returned 0 (.get 7) (some 1)) s' := by
  have written : Trace (Step backed mapAdapter) (fresh (fun _ => none) fun _ => none) _ _ :=
    ((((((((((Trace.nil.snoc (.begin 0 (.set 7 1 5) rfl)).snoc
      (.client 0 rfl (.store (stores_holding 7 1 _)))).snoc (.client 0 rfl .stored)).snoc
      (.client 0 rfl (.running rfl))).snoc (.client 0 rfl (.send (by decide)))).snoc
      (.client 0 rfl .enqueued)).snoc (.client 0 rfl .finish)).snoc (.work 0 (by decide) rfl)).snoc
      (.work 0 (by decide) rfl)).snoc (.work 0 (by decide) rfl)).snoc (.work 0 (by decide) rfl)
  have deleted := (((((((written.snoc (.begin 0 (.delete 7) rfl)).snoc
    (.client 0 rfl (.present (by decide)))).snoc (.client 0 rfl .remove)).snoc
    (.client 0 rfl .checked)).snoc (.client 0 rfl (.running rfl))).snoc
    (.client 0 rfl (.send (by decide)))).snoc (.client 0 rfl .enqueued)).snoc (.client 0 rfl .finish)
  have promoted := ((((deleted.snoc (.begin 0 (.get 7) rfl)).snoc
    (.client 0 rfl (.miss (by decide)))).snoc (.client 0 rfl (.found rfl))).snoc
    (.client 0 rfl (.promote (stores_holding 7 1 _)))).snoc (.client 0 rfl .finish)
  have drained := (((promoted.snoc (.work 0 (by decide) rfl)).snoc (.work 0 (by decide) rfl)).snoc
    (.work 0 (by decide) rfl)).snoc (.work 0 (by decide) rfl)
  refine ⟨_, _, _, (drained.snoc (.begin 0 (.get 7) rfl)).snoc (.client 0 rfl (.hit rfl)), rfl,
    fun queue => ?_, .client 0 rfl .finish⟩
  cases queue <;> exact ⟨rfl, rfl⟩

end OneClient

end TwoLevel

end Memstash
