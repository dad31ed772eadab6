import Memstash.Flights.RegistryLaws
import Memstash.Lib.Runs

/-! No waiter of a flight sleeps past its finish, whatever the order of the loads, stores and swaps. -/

namespace Memstash

open Scan Runs

variable {K V E ι : Type}

/-- Where the owner of a call is between its first write and the end of its release. -/
inductive Owner where
  | unused
  | loading
  /-- Released, and someone joined: about to store `over`. -/
  | storing
  /-- About to load `waiter`. -/
  | looking
  | closing (ch : Nat)
  | finished
  /-- Released without a finish. -/
  | released
deriving DecidableEq

/-- Where a wait is; a wait that has not been handed a flight is outside. -/
inductive Waiting where
  | outside
  /-- About to load `over` for the first time. -/
  | joined (call : Nat)
  /-- About to load `waiter`. -/
  | loading (call : Nat)
  /-- About to publish a channel of its own. -/
  | swapping (call ch : Nat)
  /-- Another wait was first: about to load `waiter` again. -/
  | reloading (call : Nat)
  /-- About to load `over` again, with the parking spot it has. -/
  | rechecking (call : Nat) (spot : Option Nat)
  | parked (call ch : Nat)
  /-- The wait returned nil. -/
  | woken (call : Nat)
  /-- The wait returned the error of its context. -/
  | canceled (call : Nat)
deriving DecidableEq

namespace Waiting

/-- The flight a wait was handed. -/
def call : Waiting → Option Nat
  | outside => none
  | joined call | loading call | swapping call _ | reloading call | rechecking call _ | parked call _
  | woken call | canceled call => some call

end Waiting

namespace Owner

/-- The owner has nothing more to write, and has said so. -/
def Told : Owner → Prop
  | looking | closing _ | finished => True
  | unused | loading | storing | released => False

end Owner

/-- One of the three fields an owner leaves for its waiters. -/
inductive FlightWrite (V E : Type) where
  | val (v : V)
  | err (e : Option E)
  | ok (b : Bool)

/-- Write one field. -/
def FlightWrite.apply (call : FlightCall K V E) : FlightWrite V E → FlightCall K V E
  | .val v => { call with val := v }
  | .err e => { call with err := e }
  | .ok b => { call with ok := b }

/-- The registry, the atomic words of its calls, the channels, and where everyone is. -/
structure Wakeup (K V E ι : Type) where
  flights : Flights K V E
  /-- The channel behind the `waiter` word of a call. -/
  waiter : Nat → Option Nat
  over' : Nat → Bool
  /-- How many channels were made. -/
  made : Nat
  /-- The channels that were closed, the last one first. -/
  closed : List Nat
  owners : Nat → Owner
  waits : ι → Waiting

/-- What one goroutine does next; an owner is named by its call. -/
inductive WakeupStep (K V E ι : Type) where
  | write (call : Nat) (field : FlightWrite V E)
  | claim (w : ι) (key : K) (call : Nat)
  /-- The part of `release` under the bucket's lock. -/
  | release (call : Nat)
  | finish (call : Nat)
  | wait (w : ι)
  /-- The context of a parked wait is done. -/
  | cancel (w : ι)

namespace Wakeup

/-- No call is claimed, and nobody waits. -/
def start [Inhabited K] [Inhabited V] (mask : Nat) : Wakeup K V E ι :=
  ⟨.empty mask fun _ => ⟨default, default, none, false, 0, false, false⟩, fun _ => none, fun _ => false, 0, [],
    fun _ => .unused, fun _ => .outside⟩

/-- Move the owner of a call. -/
def setOwner (s : Wakeup K V E ι) (call : Nat) (owner : Owner) : Wakeup K V E ι :=
  { s with owners := Function.update s.owners call owner }

/-- Closing a channel twice is a panic. -/
def close (s : Wakeup K V E ι) (ch : Nat) : Except Fault (Wakeup K V E ι) :=
  if ch ∈ s.closed then .error .panic else .ok { s with closed := ch :: s.closed }

/-- The next step of `finish`. -/
def finish (s : Wakeup K V E ι) (call : Nat) : Except Fault (Wakeup K V E ι) :=
  match s.owners call with
  | .storing => .ok { s.setOwner call .looking with over' := Function.update s.over' call true }
  | .looking =>
    match s.waiter call with
    | none => .ok (s.setOwner call .finished)
    | some ch => .ok (s.setOwner call (.closing ch))
  | .closing ch => (s.setOwner call .finished).close ch
  | .unused | .loading | .finished | .released => .error .hang

variable [DecidableEq ι]

/-- Move a wait. -/
def setWait (s : Wakeup K V E ι) (w : ι) (waiting : Waiting) : Wakeup K V E ι :=
  { s with waits := Function.update s.waits w waiting }

/-- The next step of `wait`; a parked one has none until its channel is closed. -/
def wait (s : Wakeup K V E ι) (w : ι) : Except Fault (Wakeup K V E ι) :=
  match s.waits w with
  | .joined call => .ok (s.setWait w (if s.over' call then .woken call else .loading call))
  | .loading call =>
    match s.waiter call with
    | some ch => .ok (s.setWait w (.rechecking call (some ch)))
    | none => .ok { s.setWait w (.swapping call s.made) with made := s.made + 1 }
  | .swapping call ch =>
    match s.waiter call with
    | some _ => .ok (s.setWait w (.reloading call))
    | none => .ok { s.setWait w (.rechecking call (some ch)) with
        waiter := Function.update s.waiter call (some ch) }
  | .reloading call => .ok (s.setWait w (.rechecking call (s.waiter call)))
  | .rechecking call spot =>
    if s.over' call then .ok (s.setWait w (.woken call))
    else
      match spot with
      | some ch => .ok (s.setWait w (.parked call ch))
      -- The select reads the channel of a nil spot.
      | none => .error .panic
  | .parked call ch => if ch ∈ s.closed then .ok (s.setWait w (.woken call)) else .error .hang
  | .outside | .woken _ | .canceled _ => .error .hang

variable [DecidableEq K]

/-- One step of one goroutine; one that has no such step now hangs. -/
def step (hash : K → BitVec 64) (s : Wakeup K V E ι) : WakeupStep K V E ι → Except Fault (Wakeup K V E ι)
  | .write call field =>
    -- A call is its owner's own until the release.
    if s.owners call = .unused ∨ s.owners call = .loading then
      .ok { s with flights := s.flights.putCall call (field.apply (s.flights.calls call)) }
    else .error .hang
  | .claim w key call =>
    if s.waits w = .outside ∧ s.owners call = .unused then
      match s.flights.claim (hash key) key call with
      | .error fault => .error fault
      | .ok (flights, winner, true) => .ok { s.setWait w (.joined winner) with flights := flights }
      | .ok (flights, _, false) => .ok { s.setOwner call .loading with flights := flights }
    else .error .hang
  | .release call =>
    if s.owners call = .loading then
      match s.flights.release call with
      | .error fault => .error fault
      | .ok flights => .ok { s.setOwner call (if (s.flights.calls call).joined then .storing else .released) with
          flights := flights }
    else .error .hang
  | .finish call => s.finish call
  | .wait w => s.wait w
  | .cancel w =>
    match s.waits w with
    | .parked call _ => .ok (s.setWait w (.canceled call))
    | _ => .error .hang

/-- Everyone who waits on a flight was handed it while it was registered, and is known to have joined. -/
structure Joins (hash : K → BitVec 64) (s : Wakeup K V E ι) : Prop where
  consistent : s.flights.Consistent hash
  registered : ∀ call, s.flights.Registered call ↔ s.owners call = .loading
  joined : ∀ w call, (s.waits w).call = some call → (s.flights.calls call).joined = true
  alone : ∀ call, s.owners call = .unused ∨ s.owners call = .released → (s.flights.calls call).joined = false
  /-- The mark that lets waiters go on where a release is one step. -/
  marked : ∀ call, s.owners call = .storing ∨ (s.owners call).Told → (s.flights.calls call).finished = true

/-- A channel is of one flight, and a flight has one channel. -/
structure Channels (s : Wakeup K V E ι) : Prop where
  spot : ∀ w call spot, s.waits w = .rechecking call spot → spot ≠ none ∧ s.waiter call = spot
  parked : ∀ w call ch, s.waits w = .parked call ch → s.waiter call = some ch
  reloading : ∀ w call, s.waits w = .reloading call → s.waiter call ≠ none
  below : ∀ call ch, s.waiter call = some ch → ch < s.made
  fresh : ∀ w call ch, s.waits w = .swapping call ch → ch < s.made ∧ ∀ other, s.waiter other ≠ some ch
  apart : ∀ w w' call call' ch, s.waits w = .swapping call ch → s.waits w' = .swapping call' ch → w = w'
  own : ∀ call call' ch, s.waiter call = some ch → s.waiter call' = some ch → call = call'

/-- The finisher closes the channel it sees, and whoever it does not see sees it. -/
structure Signals (s : Wakeup K V E ι) : Prop where
  told : ∀ call, s.over' call = true ↔ (s.owners call).Told
  closing : ∀ call ch, s.owners call = .closing ch → s.waiter call = some ch ∧ ch ∉ s.closed
  closed : ∀ ch ∈ s.closed, ∃ call, s.waiter call = some ch ∧ s.owners call = .finished
  once : s.closed.Nodup
  parked : ∀ w call ch, s.waits w = .parked call ch →
    (s.owners call = .loading ∨ s.owners call = .storing ∨ s.owners call = .looking) ∨
      s.owners call = .closing ch ∨ ch ∈ s.closed
  woken : ∀ w call, s.waits w = .woken call → s.over' call = true

variable {hash : K → BitVec 64} {s s' : Wakeup K V E ι}

/-- What a step does, by what it read. -/
inductive Moves (hash : K → BitVec 64) (s : Wakeup K V E ι) : Wakeup K V E ι → Prop
  | wrote {call : Nat} (field : FlightWrite V E) (own : s.owners call = .unused ∨ s.owners call = .loading) :
      Moves hash s { s with flights := s.flights.putCall call (field.apply (s.flights.calls call)) }
  | joined {w : ι} {key : K} {call winner : Nat} {flights : Flights K V E} (here : s.waits w = .outside)
      (unused : s.owners call = .unused)
      (claimed : s.flights.claim (hash key) key call = .ok (flights, winner, true)) :
      Moves hash s { s.setWait w (.joined winner) with flights := flights }
  | owned {key : K} {call winner : Nat} {flights : Flights K V E} (unused : s.owners call = .unused)
      (claimed : s.flights.claim (hash key) key call = .ok (flights, winner, false)) :
      Moves hash s { s.setOwner call .loading with flights := flights }
  | released {call : Nat} {flights : Flights K V E} (here : s.owners call = .loading)
      (left : s.flights.release call = .ok flights) :
      Moves hash s { s.setOwner call (if (s.flights.calls call).joined then .storing else .released) with
        flights := flights }
  | told {call : Nat} (here : s.owners call = .storing) :
      Moves hash s { s.setOwner call .looking with over' := Function.update s.over' call true }
  | unseen {call : Nat} (here : s.owners call = .looking) (none : s.waiter call = none) :
      Moves hash s (s.setOwner call .finished)
  | seen {call ch : Nat} (here : s.owners call = .looking) (some : s.waiter call = some ch) :
      Moves hash s (s.setOwner call (.closing ch))
  | closed {call ch : Nat} (here : s.owners call = .closing ch) (open' : ch ∉ s.closed) :
      Moves hash s { s.setOwner call .finished with closed := ch :: s.closed }
  | woke {w : ι} {call : Nat} (here : s.waits w = .joined call ∨ (∃ spot, s.waits w = .rechecking call spot))
      (over' : s.over' call = true) : Moves hash s (s.setWait w (.woken call))
  | looked {w : ι} {call : Nat} (here : s.waits w = .joined call) (running : s.over' call = false) :
      Moves hash s (s.setWait w (.loading call))
  | reused {w : ι} {call : Nat} (here : s.waits w = .loading call ∨ s.waits w = .reloading call)
      (some : s.waits w = .loading call → s.waiter call ≠ none) :
      Moves hash s (s.setWait w (.rechecking call (s.waiter call)))
  | made {w : ι} {call : Nat} (here : s.waits w = .loading call) (none : s.waiter call = none) :
      Moves hash s { s.setWait w (.swapping call s.made) with made := s.made + 1 }
  | published {w : ι} {call ch : Nat} (here : s.waits w = .swapping call ch) (none : s.waiter call = none) :
      Moves hash s { s.setWait w (.rechecking call (some ch)) with
        waiter := Function.update s.waiter call (some ch) }
  | outrun {w : ι} {call ch : Nat} (here : s.waits w = .swapping call ch) (some : s.waiter call ≠ none) :
      Moves hash s (s.setWait w (.reloading call))
  | parks {w : ι} {call ch : Nat} (here : s.waits w = .rechecking call (some ch))
      (running : s.over' call = false) : Moves hash s (s.setWait w (.parked call ch))
  | signalled {w : ι} {call ch : Nat} (here : s.waits w = .parked call ch) (closed : ch ∈ s.closed) :
      Moves hash s (s.setWait w (.woken call))
  | canceled {w : ι} {call ch : Nat} (here : s.waits w = .parked call ch) :
      Moves hash s (s.setWait w (.canceled call))

/-- A step of `finish` is one of its moves. -/
theorem moves_of_finish {call : Nat} (stepped : s.finish call = .ok s') : Moves hash s s' := by
  unfold finish at stepped
  split at stepped
  · rename_i here
    cases stepped
    exact .told here
  · rename_i here
    split at stepped
    · rename_i none
      cases stepped
      exact .unseen here none
    · rename_i ch some
      cases stepped
      exact .seen here some
  · rename_i ch here
    unfold close at stepped
    split at stepped
    · cases stepped
    · rename_i open'
      cases stepped
      exact .closed here open'
  all_goals cases stepped

/-- A step of `wait` is one of its moves. -/
theorem moves_of_wait {w : ι} (stepped : s.wait w = .ok s') : Moves hash s s' := by
  unfold wait at stepped
  split at stepped
  · rename_i call here
    cases stepped
    cases running : s.over' call with
    | true => exact .woke (.inl here) running
    | false => exact .looked here running
  · rename_i call here
    split at stepped
    · rename_i ch some
      cases stepped
      rw [← some]
      exact .reused (.inl here) fun _ => by rw [some]; simp
    · rename_i none
      cases stepped
      exact .made here none
  · rename_i call ch here
    split at stepped
    · rename_i some
      cases stepped
      exact .outrun here (by rw [some]; simp)
    · rename_i none
      cases stepped
      exact .published here none
  · rename_i call here
    cases stepped
    exact .reused (.inr here) fun other => by rw [here] at other; cases other
  · rename_i call spot here
    split at stepped
    · rename_i over'
      cases stepped
      exact .woke (.inr ⟨spot, here⟩) over'
    · rename_i running
      split at stepped
      · cases stepped
        exact .parks here (Bool.eq_false_iff.mpr running)
      · cases stepped
  · rename_i call ch here
    split at stepped
    · rename_i closed
      cases stepped
      exact .signalled here closed
    · cases stepped
  all_goals cases stepped

/-- A step is one of the moves. -/
theorem moves_of_step {a : WakeupStep K V E ι} (stepped : step hash s a = .ok s') : Moves hash s s' := by
  cases a with
  | write call field =>
    simp only [step] at stepped
    split at stepped
    · rename_i own
      cases stepped
      exact .wrote field own
    · cases stepped
  | claim w key call =>
    simp only [step] at stepped
    split at stepped
    · rename_i free
      split at stepped
      · cases stepped
      · rename_i claimed
        cases stepped
        exact .joined free.1 free.2 claimed
      · rename_i claimed
        cases stepped
        exact .owned free.2 claimed
    · cases stepped
  | release call =>
    simp only [step] at stepped
    split at stepped
    · rename_i here
      split at stepped
      · cases stepped
      · rename_i left
        cases stepped
        exact .released here left
    · cases stepped
  | finish call => exact moves_of_finish stepped
  | wait w => exact moves_of_wait stepped
  | cancel w =>
    simp only [step] at stepped
    split at stepped
    · rename_i here
      cases stepped
      exact .canceled here
    · cases stepped

/-- A flight is handed out only while it is registered, and whoever releases it reads who joined. -/
theorem Joins.moves (joins : Joins hash s) (moves : Moves hash s s') : Joins hash s' := by
  obtain ⟨consistent, registered, joined, alone, marked⟩ := joins
  cases moves with
  | @wrote call field own =>
    have kept : ∀ id, ((s.flights.putCall call (field.apply (s.flights.calls call))).calls id).joined =
        (s.flights.calls id).joined ∧
        ((s.flights.putCall call (field.apply (s.flights.calls call))).calls id).finished =
          (s.flights.calls id).finished := by
      intro id
      by_cases same : id = call
      · subst same
        cases field <;> simp [Flights.putCall, FlightWrite.apply]
      · simp [Flights.putCall, same]
    refine ⟨consistent.putCall ?_ ?_, registered, fun w id on => ?_, fun id at' => ?_, fun id told => ?_⟩
    · cases field <;> rfl
    · cases field <;> rfl
    · exact (kept id).1.trans (joined w id on)
    · exact (kept id).1.trans (alone id at')
    · exact (kept id).2.trans (marked id told)
  | @joined w key call winner flights here unused claimed =>
    have fresh : ¬ s.flights.Registered call := by rw [registered, unused]; simp
    obtain ⟨after, winner', running, ran, consistent', effect⟩ := consistent.claim key fresh
    rw [claimed] at ran
    cases ran
    cases effect with
    | joined running named =>
      have marks : ∀ id, ((s.flights.join winner).calls id).joined =
          (decide (id = winner) || (s.flights.calls id).joined) ∧
          ((s.flights.join winner).calls id).finished = (s.flights.calls id).finished := by
        intro id
        by_cases same : id = winner
        · subst same
          simp [Flights.join, Flights.putCall]
        · simp [Flights.join, Flights.putCall, same]
      refine ⟨consistent', registered, fun w' id on => ?_, fun id at' => ?_,
        fun id told => (marks id).2.trans (marked id told)⟩
      · simp only [setWait, Function.update_apply] at on
        rw [(marks id).1]
        grind [Waiting.call]
      · rw [(marks id).1]
        have loading := (registered winner).mp running
        simp only [setWait] at at'
        grind
  | @owned key call winner flights unused claimed =>
    have fresh : ¬ s.flights.Registered call := by rw [registered, unused]; simp
    obtain ⟨after, winner', running, ran, consistent', effect⟩ := consistent.claim key fresh
    rw [claimed] at ran
    cases ran
    cases effect with
    | owned absent registers mask named others =>
      refine ⟨consistent', fun id => ?_, fun w' id on => ?_, fun id at' => ?_, fun id told => ?_⟩
      · rw [registers, registered]
        simp only [setOwner, Function.update_apply]
        grind
      · have was := joined w' id on
        have apart : id ≠ call := by
          rintro rfl
          rw [alone id (.inl unused)] at was
          cases was
        simp only [others id apart, was]
      · simp only [setOwner, Function.update_apply] at at'
        have apart : id ≠ call := by
          rintro rfl
          simp at at'
        rw [others id apart]
        exact alone id (by simpa [apart] using at')
      · simp only [setOwner, Function.update_apply] at told
        have apart : id ≠ call := by
          rintro rfl
          simp [Owner.Told] at told
        rw [others id apart]
        exact marked id (by simpa [apart] using told)
  | @released call flights here left =>
    obtain ⟨after, ran, consistent', mask, registers, others, same⟩ :=
      consistent.release ((registered call).mpr here)
    rw [left] at ran
    cases ran
    have kept : ∀ id, (flights.calls id).joined = (s.flights.calls id).joined := by
      intro id
      by_cases at' : id = call
      · subst at'
        rw [same]
      · rw [others id at']
    refine ⟨consistent', fun id => ?_, fun w id on => (kept id).trans (joined w id on), fun id at' => ?_,
      fun id told => ?_⟩
    · rw [registers, registered]
      simp only [setOwner, Function.update_apply]
      grind
    · refine (kept id).trans ?_
      simp only [setOwner, Function.update_apply] at at'
      grind
    · simp only [setOwner, Function.update_apply] at told
      by_cases at' : id = call
      · subst at'
        rw [same]
        cases flag : (s.flights.calls id).joined <;> simp [flag, Owner.Told] at told ⊢
      · rw [others id at']
        exact marked id (by simpa [at'] using told)
  | _ =>
    refine ⟨consistent, ?_, ?_, ?_, ?_⟩ <;> simp only [setOwner, setWait, Function.update_apply] <;>
      grind [Waiting.call, Owner.Told]

/-- Channels are made one by one, and the first to be published stays. -/
theorem Channels.moves (channels : Channels s) (moves : Moves hash s s') : Channels s' := by
  obtain ⟨spot, parked, reloading, below, fresh, apart, own⟩ := channels
  cases moves with
  | wrote | owned | released | told | unseen | seen | closed =>
    -- An owner touches neither the spots nor the waits.
    exact ⟨spot, parked, reloading, below, fresh, apart, own⟩
  | _ =>
    constructor <;> simp only [setWait, Function.update_apply] <;> grind -ring -linarith

omit [DecidableEq ι] in
/-- While its flag is down, a flight that someone waits on is loading or about to raise it. -/
theorem Signals.running (signals : Signals s) (joins : Joins hash s) {w : ι} {call : Nat}
    (on : (s.waits w).call = some call) (running : s.over' call = false) :
    s.owners call = .loading ∨ s.owners call = .storing := by
  have joined := joins.joined w call on
  have untold : ¬ (s.owners call).Told := by
    rw [← signals.told, running]
    simp
  cases at' : s.owners call with
  | unused =>
    rw [joins.alone call (.inl at')] at joined
    cases joined
  | released =>
    rw [joins.alone call (.inr at')] at joined
    cases joined
  | loading => exact .inl rfl
  | storing => exact .inr rfl
  | looking | closing | finished =>
    rw [at'] at untold
    exact absurd trivial untold

/-- Of the finisher that looks for a channel and the wait that looks at the flag, one sees the other. -/
theorem Signals.moves (signals : Signals s) (channels : Channels s) (joins : Joins hash s)
    (moves : Moves hash s s') : Signals s' := by
  obtain ⟨told, closing, closed, once, parked, woken⟩ := signals
  obtain ⟨spot, held, reloading, below, fresh, apart, own⟩ := channels
  have joined : ∀ w call ch, s.waits w = .parked call ch → (s.flights.calls call).joined = true :=
    fun w call ch here => joins.joined w call (by rw [here]; rfl)
  cases moves with
  | @parks w call ch here running =>
    -- The finisher has yet to look for a channel, and will find the one this wait parks on.
    have ahead := Signals.running ⟨told, closing, closed, once, parked, woken⟩ joins
      (show (s.waits w).call = some call by rw [here]; rfl) running
    constructor <;> simp only [setWait, Function.update_apply] <;> grind -ring -linarith
  | wrote => exact ⟨told, closing, closed, once, parked, woken⟩
  | _ =>
    clear joins spot reloading below fresh apart
    constructor <;> simp only [setOwner, setWait, Function.update_apply] <;> grind -ring -linarith [Owner.Told]

/-- What holds of everyone at every moment. -/
structure Inv (hash : K → BitVec 64) (s : Wakeup K V E ι) : Prop where
  joins : Joins hash s
  channels : Channels s
  signals : Signals s

theorem Inv.moves (inv : Inv hash s) (moves : Moves hash s s') : Inv hash s' :=
  ⟨inv.joins.moves moves, inv.channels.moves moves, inv.signals.moves inv.channels inv.joins moves⟩

omit [DecidableEq ι] in
/-- Nothing is closed twice, and nobody parks on a missing channel. -/
theorem Inv.finish_ne_panic (inv : Inv hash s) (call : Nat) : s.finish call ≠ .error .panic := by
  unfold finish
  split
  · simp
  · split <;> simp
  · rename_i ch here
    have fresh : ch ∉ (s.setOwner call .finished).closed := (inv.signals.closing call ch here).2
    simp [close, fresh]
  all_goals simp

omit [DecidableEq K] in
theorem Channels.wait_ne_panic (channels : Channels s) (w : ι) : s.wait w ≠ .error .panic := by
  unfold wait
  split
  · simp
  · split <;> simp
  · split <;> simp
  · simp
  · rename_i call spot here
    split
    · simp
    · split
      · simp
      · exact absurd rfl (channels.spot w call none here).1
  · split <;> simp
  all_goals simp

theorem Inv.step_ne_panic (inv : Inv hash s) (a : WakeupStep K V E ι) : step hash s a ≠ .error .panic := by
  obtain ⟨joins, channels, _⟩ := id inv
  cases a with
  | write call field =>
    simp only [step]
    split <;> simp
  | claim w key call =>
    simp only [step]
    split
    · rename_i free
      have fresh : ¬ s.flights.Registered call := by rw [joins.registered, free.2]; simp
      obtain ⟨flights, winner, running, claimed, _⟩ := joins.consistent.claim key fresh
      rw [claimed]
      cases running <;> simp
    · simp
  | release call =>
    simp only [step]
    split
    · rename_i here
      obtain ⟨flights, left, _⟩ := joins.consistent.release ((joins.registered call).mpr here)
      simp [left]
    · simp
  | finish call => exact inv.finish_ne_panic call
  | wait w => exact channels.wait_ne_panic w
  | cancel w =>
    simp only [step]
    split <;> simp

omit [DecidableEq ι] in
/-- A run starts with the invariant. -/
theorem inv_start [Inhabited K] [Inhabited V] (hash : K → BitVec 64) {mask : Nat} (size : mask < 2 ^ 8) :
    Inv hash (start mask : Wakeup K V E ι) := by
  obtain ⟨consistent, none⟩ := Flights.consistent_empty (V := V) (E := E) hash size
    fun _ => ⟨default, default, none, false, 0, false, false⟩
  refine ⟨⟨consistent, fun call => ?_, ?_, ?_, ?_⟩, ?_, ?_⟩
  · exact iff_of_false (none call) (by simp [start])
  · intro w call on
    cases on
  · exact fun _ _ => rfl
  · simp [start, Owner.Told]
  · constructor <;> simp [start]
  · constructor <;> simp [start, Owner.Told]

end Wakeup

/-- What an owner leaves for its waiters. -/
def FlightCall.outcome (call : FlightCall K V E) : V × Option E × Bool := (call.val, call.err, call.ok)

namespace Wakeup

variable [DecidableEq ι] [DecidableEq K] {hash : K → BitVec 64} {s s' s'' : Wakeup K V E ι}

/-- What stays from one moment of a run on: a flight that is over, its spot, and what it says. -/
structure Ahead (s s' : Wakeup K V E ι) : Prop where
  finished : ∀ call, s.owners call = .finished → s'.owners call = .finished
  released : ∀ call, s.owners call = .released → s'.owners call = .released
  spot : ∀ call ch, s.waiter call = some ch → s'.waiter call = some ch
  told : ∀ call, (s.owners call).Told →
    (s'.owners call).Told ∧ (s'.flights.calls call).outcome = (s.flights.calls call).outcome

omit [DecidableEq ι] [DecidableEq K] in
theorem Ahead.refl (s : Wakeup K V E ι) : Ahead s s :=
  ⟨fun _ => id, fun _ => id, fun _ _ => id, fun _ told => ⟨told, rfl⟩⟩

omit [DecidableEq ι] [DecidableEq K] in
theorem Ahead.trans (first : Ahead s s') (second : Ahead s' s'') : Ahead s s'' where
  finished call at' := second.finished call (first.finished call at')
  released call at' := second.released call (first.released call at')
  spot call ch held := second.spot call ch (first.spot call ch held)
  told call told :=
    have kept := first.told call told
    have kept' := second.told call kept.1
    ⟨kept'.1, kept'.2.trans kept.2⟩

/-- Owners write before they tell, and nobody takes back what was told. -/
theorem Joins.ahead (joins : Joins hash s) (moves : Moves hash s s') : Ahead s s' := by
  obtain ⟨consistent, registered, _, _, _⟩ := joins
  cases moves with
  | @wrote call field own =>
    refine ⟨fun _ => id, fun _ => id, fun _ _ => id, fun id told => ⟨told, ?_⟩⟩
    have apart : id ≠ call := by
      rintro rfl
      rcases own with own | own <;> simp [own, Owner.Told] at told
    simp [Flights.putCall, apart]
  | @joined w key call winner flights here unused claimed =>
    have fresh : ¬ s.flights.Registered call := by rw [registered, unused]; simp
    obtain ⟨after, winner', running, ran, _, effect⟩ := consistent.claim key fresh
    rw [claimed] at ran
    cases ran
    cases effect with
    | joined running named =>
      refine ⟨fun _ => id, fun _ => id, fun _ _ => id, fun id told => ⟨told, ?_⟩⟩
      show (Function.update s.flights.calls winner _ id).outcome = _
      by_cases same : id = winner
      · subst same
        rw [Function.update_self]
        rfl
      · rw [Function.update_of_ne same]
  | @owned key call winner flights unused claimed =>
    have fresh : ¬ s.flights.Registered call := by rw [registered, unused]; simp
    obtain ⟨after, winner', running, ran, _, effect⟩ := consistent.claim key fresh
    rw [claimed] at ran
    cases ran
    cases effect with
    | owned absent registers mask named others =>
      have kept : ∀ id, s.owners id ≠ .unused → Function.update s.owners call .loading id = s.owners id :=
        fun id used => Function.update_of_ne (by rintro rfl; exact used unused) _ _
      refine ⟨fun id at' => ?_, fun id at' => ?_, fun _ _ => id, fun id told => ?_⟩
      · exact (kept id (by simp [at'])).trans at'
      · exact (kept id (by simp [at'])).trans at'
      · have used : s.owners id ≠ .unused := by
          intro at'
          simp [at', Owner.Told] at told
        refine ⟨?_, ?_⟩
        · show (Function.update s.owners call .loading id).Told
          rwa [kept id used]
        · show (flights.calls id).outcome = _
          rw [others id (by rintro rfl; exact used unused)]
  | @released call flights here left =>
    obtain ⟨after, ran, _, mask, registers, others, same⟩ := consistent.release ((registered call).mpr here)
    rw [left] at ran
    cases ran
    have kept : ∀ id owner, s.owners id ≠ .loading → Function.update s.owners call owner id = s.owners id :=
      fun id owner moved => Function.update_of_ne (by rintro rfl; exact moved here) _ _
    refine ⟨fun id at' => ?_, fun id at' => ?_, fun _ _ => id, fun id told => ?_⟩
    · exact (kept id _ (by simp [at'])).trans at'
    · exact (kept id _ (by simp [at'])).trans at'
    · have moved : s.owners id ≠ .loading := by
        intro at'
        simp [at', Owner.Told] at told
      refine ⟨?_, ?_⟩
      · show (Function.update s.owners call _ id).Told
        rwa [kept id _ moved]
      · show (flights.calls id).outcome = _
        rw [others id (by rintro rfl; exact moved here)]
  | _ =>
    constructor <;> simp only [setOwner, setWait, Function.update_apply] <;>
      grind -ring -linarith [Owner.Told]

/-- A run keeps the invariant and what was over, and does not panic. -/
theorem Inv.run (inv : Inv hash s) (steps : List (WakeupStep K V E ι)) :
    Runs.run (step hash) s steps ≠ .error .panic ∧
      ∀ s', Runs.run (step hash) s steps = .ok s' → Inv hash s' ∧ Ahead s s' := by
  have meets : Meets (step hash) (fun _ _ => True) s steps := fun _ _ _ _ _ => trivial
  refine run_keeps (fun mid => Inv hash mid ∧ Ahead s mid) ⟨inv, .refl s⟩ meets
    (fun mid next ⟨holds, ahead⟩ _ => ⟨holds.step_ne_panic next, ?_⟩) steps (List.prefix_refl _)
  intro mid' stepped
  have moves := moves_of_step stepped
  exact ⟨holds.moves moves, ahead.trans (holds.joins.ahead moves)⟩

end Wakeup

open Wakeup

/-- Once a flight is finished nobody sleeps on it; its one channel is closed once; what a woken wait reads is
final; and a flight released without a finish has no waiter. -/
theorem flights_wake_their_waiters [DecidableEq ι] [DecidableEq K] [Inhabited K] [Inhabited V]
    (hash : K → BitVec 64) {mask : Nat} (size : mask < 2 ^ 7) (steps : List (WakeupStep K V E ι)) :
    Runs.run (step hash) (start mask) steps ≠ .error .panic ∧
      ∀ s, Runs.run (step hash) (start mask) steps = .ok s → s.closed.Nodup ∧
        ∀ call more s', Runs.run (step hash) s more = .ok s' →
          (s.owners call = .finished → ∀ w ch, s'.waits w = .parked call ch → ch ∈ s'.closed) ∧
          (∀ w w' ch ch', s.waits w = .parked call ch → s'.waits w' = .parked call ch' → ch = ch') ∧
          (∀ w, s.waits w = .woken call → (s.owners call).Told ∧
            (s'.flights.calls call).outcome = (s.flights.calls call).outcome) ∧
          (s.owners call = .released → ∀ w, (s'.waits w).call ≠ some call) := by
  obtain ⟨sound, keeps⟩ := (inv_start (ι := ι) (E := E) (V := V) hash (by omega : mask < 2 ^ 8)).run steps
  refine ⟨sound, fun s ran => ?_⟩
  have inv := (keeps s ran).1
  refine ⟨inv.signals.once, fun call more s' later => ?_⟩
  obtain ⟨inv', ahead⟩ := (inv.run more).2 s' later
  refine ⟨fun at' w ch parked => ?_, fun w w' ch ch' parked parked' => ?_, fun w woken => ?_, fun at' w on => ?_⟩
  · have over' := ahead.finished call at'
    simpa [over'] using inv'.signals.parked w call ch parked
  · have held := ahead.spot call ch (inv.channels.parked w call ch parked)
    exact Option.some.inj (held.symm.trans (inv'.channels.parked w' call ch' parked'))
  · have told := (inv.signals.told call).mp (inv.signals.woken w call woken)
    exact ⟨told, (ahead.told call told).2⟩
  · have alone := inv'.joins.alone call (.inr (ahead.released call at'))
    rw [inv'.joins.joined w call on] at alone
    cases alone

/-- Two waits on one flight: the second finds the spot of the first, and both are parked when the finish starts. -/
def twoWaits : List (WakeupStep Nat Nat Unit Bool) :=
  [.claim true 7 0, .claim true 7 1, .claim false 7 1, .wait true, .wait false, .wait true, .wait false,
    .wait true, .wait false, .wait false, .write 0 (.val 5), .write 0 (.ok true), .wait true, .wait false,
    .release 0, .finish 0, .finish 0, .finish 0]

/-- Both sleep on the channel of the first when the flight is finished, and it is closed. -/
theorem flights_wake_their_waiters_two : ∃ s : Wakeup Nat Nat Unit Bool,
    Runs.run (step fun _ => 0#64) (start 0) twoWaits = .ok s ∧ s.owners 0 = .finished ∧
      s.waits true = .parked 0 0 ∧ s.waits false = .parked 0 0 ∧ 0 ∈ s.closed := by
  obtain ⟨s, ran, over', first, second⟩ : ∃ s : Wakeup Nat Nat Unit Bool,
      Runs.run (step fun _ => 0#64) (start 0) twoWaits = .ok s ∧ s.owners 0 = .finished ∧
        s.waits true = .parked 0 0 ∧ s.waits false = .parked 0 0 := ⟨_, rfl, rfl, rfl, rfl⟩
  have wakes := ((flights_wake_their_waiters (fun _ => 0#64) (by decide) twoWaits).2 s ran).2 0 [] s rfl
  exact ⟨s, ran, over', first, second, wakes.1 over' true 0 first⟩

end Memstash
