import Memstash.Flights.Coalescing
import Memstash.Flights.Holding
import Memstash.Lib.Threads

/-! Load calls side by side over one registry: whatever their surroundings answer, a call that is over has
released every flight it claimed. -/

namespace Memstash

open Programs Scan

variable {K V E ε ι : Type}

/-- The registry with the calls it points to, the address of the next call, and everything else. -/
structure LoadWorld (K V E ε : Type) where
  run : FlightRun K V (LoadError E)
  next : Nat
  env : ε

/-- What memory, the second level, the loaders and the context answer, and how they change. -/
abbrev LoadEnv (K V E ε : Type) := (op : LoadOp K V E) → ε → Option (op.Ans × ε)

/-- A call as it is allocated. -/
def FlightCall.zero [Inhabited K] [Inhabited V] : FlightCall K V E :=
  { key := default, val := default, err := none, finished := false, place := 0#16, ok := false
    joined := false }

/-- Replace one call, registered or not. -/
def FlightRun.putCall (s : FlightRun K V E) (id : Nat) (call : FlightCall K V E) : FlightRun K V E :=
  ⟨s.flights.putCall id call, s.unreleased⟩

namespace LoadWorld

variable [DecidableEq K] [Inhabited K] [Inhabited V]

/-- A question about anything but flights. -/
def outside (env : LoadEnv K V E ε) (op : LoadOp K V E) (w : LoadWorld K V E ε) :
    Option (op.Ans × LoadWorld K V E ε) :=
  (env op w.env).map fun (answer, e) => (answer, { w with env := e })

/-- How a world answers a question; a missing answer means that the caller waits. -/
def answer (hash : K → BitVec 64) (env : LoadEnv K V E ε) :
    (op : LoadOp K V E) → LoadWorld K V E ε → Option (op.Ans × LoadWorld K V E ε)
  | .newCall, w => some (w.next, { w with next := w.next + 1, run := w.run.putCall w.next .zero })
  | .claim key call, w =>
    match w.run.flights.claim (hash key) key call with
    | .error _ => none
    | .ok (flights, winner, running) =>
      some (if running then some winner else none, { w with
        run := ⟨flights,
          if running then w.run.unreleased else Function.update w.run.unreleased call (some key)⟩ })
  | .release call, w =>
    match w.run.step hash (.release call) with
    | .error _ => none
    | .ok run => some ((), { w with run := run })
  | .settle call result, w =>
    let settled := { w.run.flights.calls call with
      val := result.val, err := result.err, ok := result.ok }
    some ((), { w with run := w.run.putCall call settled })
  | .wait call, w =>
    match outside env (.wait call) w with
    | some (none, w) => if (w.run.flights.calls call).finished then some (none, w) else none
    | canceled => canceled
  | .result call, w =>
    let call := w.run.flights.calls call
    some (⟨call.val, call.err, call.ok⟩, w)
  | op, w => outside env op w

end LoadWorld

/-- What one call holds makes sense in a world. -/
structure Holding.Fits (w : LoadWorld K V E ε) (h : Holding K) : Prop where
  old : ∀ id ∈ h.mine, id < w.next
  pending : ∀ id, h.pending = some id →
    id ∈ h.mine ∧ (∀ key, (key, id) ∉ h.won) ∧ (w.run.flights.calls id).joined = false
  won : ∀ flight ∈ h.won, flight.2 ∈ h.mine
  owned : ∀ id ∈ h.owned, ∃ key, (key, id) ∈ h.won
  once : h.owned.Nodup
  handed : ∀ id ∈ h.joined, id < w.next ∧ (w.run.flights.calls id).joined = true

/-- What the calls hold agrees with the registry: it has exactly the flights they own, and a flight that
was handed to someone is registered or over. -/
structure Agree [DecidableEq K] (hash : K → BitVec 64) (w : LoadWorld K V E ε) (known : ι → Holding K) :
    Prop where
  registry : w.run.Inv hash
  fits : ∀ i, (known i).Fits w
  /-- A call is allocated by one caller. -/
  apart : ∀ i j id, id ∈ (known i).mine → id ∈ (known j).mine → i = j
  /-- What is unreleased is owned by the one who won it. -/
  held : ∀ id key, w.run.unreleased id = some key ↔ ∃ i, id ∈ (known i).owned ∧ (key, id) ∈ (known i).won
  woken : ∀ id < w.next, (w.run.flights.calls id).joined = true →
    w.run.unreleased id ≠ none ∨ (w.run.flights.calls id).finished = true

/-- A call that does nothing keeps making sense while flags are only raised on calls of others. -/
theorem Holding.Fits.mono {w w' : LoadWorld K V E ε} {h : Holding K} (fits : h.Fits w)
    (later : w.next ≤ w'.next)
    (idle : ∀ id, h.pending = some id → (w'.run.flights.calls id).joined = (w.run.flights.calls id).joined)
    (raised : ∀ id ∈ h.joined, (w.run.flights.calls id).joined = true →
      (w'.run.flights.calls id).joined = true) : h.Fits w' where
  old id member := (fits.old id member).trans_le later
  pending id some := by
    rw [idle id some]
    exact fits.pending id some
  won := fits.won
  owned := fits.owned
  once := fits.once
  handed id member :=
    ⟨(fits.handed id member).1.trans_le later, raised id member (fits.handed id member).2⟩

namespace Agree

variable [DecidableEq K] {hash : K → BitVec 64} {w : LoadWorld K V E ε} {known : ι → Holding K}

/-- A call that nobody owns is not unreleased. -/
theorem unreleased_eq_none (agree : Agree hash w known) {id : Nat}
    (unowned : ∀ i, id ∉ (known i).owned) : w.run.unreleased id = none := by
  by_contra some
  obtain ⟨key, claimed⟩ := Option.ne_none_iff_exists'.mp some
  obtain ⟨i, owned, _⟩ := (agree.held id key).mp claimed
  exact unowned i owned

theorem mine_of_owned (agree : Agree hash w known) {i : ι} {id : Nat} (owned : id ∈ (known i).owned) :
    id ∈ (known i).mine := by
  obtain ⟨key, won⟩ := (agree.fits i).owned id owned
  exact (agree.fits i).won _ won

theorem unreleased_of_owned (agree : Agree hash w known) {i : ι} {id : Nat}
    (owned : id ∈ (known i).owned) : ∃ key, (key, id) ∈ (known i).won ∧ w.run.unreleased id = some key := by
  obtain ⟨key, won⟩ := (agree.fits i).owned id owned
  exact ⟨key, won, (agree.held id key).mpr ⟨i, owned, won⟩⟩

/-- A call that is pending is not unreleased. -/
theorem unreleased_of_pending (agree : Agree hash w known) {i : ι} {id : Nat}
    (pending : (known i).pending = some id) : w.run.unreleased id = none := by
  obtain ⟨mine, unwon, _⟩ := (agree.fits i).pending id pending
  refine agree.unreleased_eq_none fun j owned => ?_
  obtain rfl := agree.apart j i id (agree.mine_of_owned owned) mine
  obtain ⟨key, won⟩ := (agree.fits j).owned id owned
  exact unwon key won

/-- Replacing a call that is not registered keeps the registry right. -/
theorem registry_putCall (agree : Agree hash w known) {id : Nat} (free : w.run.unreleased id = none)
    (call : FlightCall K V (LoadError E)) : (w.run.putCall id call).Inv hash := by
  have unregistered : ¬ w.run.flights.Registered id := by simp [agree.registry.registered, free]
  refine ⟨⟨agree.registry.consistent.size, fun j inside =>
    (agree.registry.consistent.bucket j inside).congr fun other has => ?_⟩, agree.registry.registered, ?_⟩
  · have apart : other ≠ id := fun same => unregistered (same ▸ ⟨j, inside, has⟩)
    simp [FlightRun.putCall, Flights.putCall, apart]
  · intro other key claimed
    have apart : other ≠ id := by
      rintro rfl
      rw [show w.run.unreleased other = some key from claimed] at free
      cases free
    simp only [FlightRun.putCall, Flights.putCall, Function.update_of_ne apart]
    exact agree.registry.named other key claimed

variable [DecidableEq ι]

omit [DecidableEq K] in
/-- A caller that allocated nothing new still allocates apart from the others. -/
theorem apart_update {known : ι → Holding K}
    (apart : ∀ i j id, id ∈ (known i).mine → id ∈ (known j).mine → i = j) {i : ι} {h : Holding K}
    (mine : ∀ id ∈ h.mine, id ∈ (known i).mine ∨ ∀ j, id ∉ (known j).mine) :
    ∀ j l id, id ∈ (Function.update known i h j).mine → id ∈ (Function.update known i h l).mine → j = l := by
  intro j l id member member'
  by_cases hereJ : j = i <;> by_cases hereL : l = i
  · rw [hereJ, hereL]
  · subst hereJ
    rw [Function.update_self] at member
    rw [Function.update_of_ne hereL] at member'
    rcases mine id member with before | fresh
    · exact apart j l id before member'
    · exact absurd member' (fresh l)
  · subst hereL
    rw [Function.update_of_ne hereJ] at member
    rw [Function.update_self] at member'
    rcases mine id member' with before | fresh
    · exact apart j l id member before
    · exact absurd member (fresh j)
  · rw [Function.update_of_ne hereJ] at member
    rw [Function.update_of_ne hereL] at member'
    exact apart j l id member member'

omit [DecidableEq K] in
/-- A caller that owns and has won what it did leaves the flights with their owners. -/
theorem owners_update {known : ι → Holding K} {i : ι} {h : Holding K} (owned : h.owned = (known i).owned)
    (won : h.won = (known i).won) (id : Nat) (key : K) :
    (∃ j, id ∈ (known j).owned ∧ (key, id) ∈ (known j).won) ↔
      ∃ j, id ∈ (Function.update known i h j).owned ∧ (key, id) ∈ (Function.update known i h j).won := by
  refine exists_congr fun j => ?_
  by_cases here : j = i
  · subst here
    rw [Function.update_self, owned, won]
  · rw [Function.update_of_ne here]

/-- A caller that learns nothing about flights, in a world that changes nothing about them. -/
theorem of_outside (agree : Agree hash w known) (e : ε) {i : ι} {h : Holding K}
    (mine : h.mine = (known i).mine) (pending : h.pending = (known i).pending)
    (won : h.won = (known i).won) (owned : h.owned = (known i).owned)
    (joined : h.joined = (known i).joined) :
    Agree hash { w with env := e } (Function.update known i h) := by
  have own := agree.fits i
  refine ⟨agree.registry, Function.forall_update_iff known (fun _ h => h.Fits _) |>.mpr ⟨?_, ?_⟩,
    apart_update agree.apart fun id member => .inl (mine ▸ member), ?_, agree.woken⟩
  · exact ⟨mine ▸ own.old, by rw [pending, mine, won]; exact own.pending, by rw [won, mine]; exact own.won,
      by rw [owned, won]; exact own.owned, by rw [owned]; exact own.once, joined ▸ own.handed⟩
  · exact fun j _ => (agree.fits j).mono le_rfl (fun _ _ => rfl) fun _ _ raised => raised
  · exact fun id key => (agree.held id key).trans (owners_update owned won id key)

/-- Allocating a call. -/
theorem newCall [Inhabited K] [Inhabited V] (agree : Agree hash w known) (i : ι) :
    Agree hash { w with next := w.next + 1, run := w.run.putCall w.next .zero }
      (Function.update known i
        { known i with pending := some w.next, mine := w.next :: (known i).mine }) := by
  have fresh : ∀ j, w.next ∉ (known j).mine :=
    fun j member => absurd ((agree.fits j).old _ member) (lt_irrefl _)
  have free : w.run.unreleased w.next = none :=
    agree.unreleased_eq_none fun j owned => fresh j (agree.mine_of_owned owned)
  have zero : ((w.run.putCall w.next .zero).flights.calls w.next).joined = false := by
    simp [FlightRun.putCall, Flights.putCall, FlightCall.zero]
  -- The new address is nobody's, so the others see no change.
  have kept : ∀ id, id ≠ w.next → ((w.run.putCall w.next .zero).flights.calls id)
      = w.run.flights.calls id := fun id apart => Function.update_of_ne apart _ _
  have others : ∀ j, (known j).Fits { w with next := w.next + 1, run := w.run.putCall w.next .zero } := by
    intro j
    refine (agree.fits j).mono (Nat.le_succ _) (fun id pending => ?_) fun id member joined => ?_
    · rw [kept id fun same => fresh j (same ▸ ((agree.fits j).pending id pending).1)]
    · rw [kept id ((agree.fits j).handed id member).1.ne]
      exact joined
  have own := others i
  refine ⟨agree.registry_putCall free _, Function.forall_update_iff known (fun _ h => h.Fits _) |>.mpr
    ⟨⟨?_, ?_, ?_, own.owned, own.once, own.handed⟩, fun j _ => others j⟩,
    apart_update agree.apart fun id member => ?_, ?_, ?_⟩
  · intro id member
    rcases List.mem_cons.mp member with rfl | before
    · exact Nat.lt_succ_self _
    · exact own.old id before
  · intro id pending
    cases pending
    exact ⟨List.mem_cons_self, fun key won => fresh i ((agree.fits i).won _ won), zero⟩
  · exact fun flight member => List.mem_cons_of_mem _ (own.won flight member)
  · rcases List.mem_cons.mp member with rfl | before
    · exact .inr fresh
    · exact .inl before
  · intro id key
    refine (agree.held id key).trans (owners_update ?_ ?_ id key)
    · rfl
    · rfl
  · intro id bound joined
    by_cases same : id = w.next
    · rw [same, zero] at joined
      cases joined
    · rw [kept id same] at joined ⊢
      exact agree.woken id (lt_of_le_of_ne (Nat.lt_succ_iff.mp bound) same) joined

omit [DecidableEq ι] in
/-- Writing the result of a call. -/
theorem settle (agree : Agree hash w known) (call : Nat) (result : FlightResult V E) :
    Agree hash { w with run := w.run.putCall call { w.run.flights.calls call with
      val := result.val, err := result.err, ok := result.ok } } known := by
  -- Neither the flags nor the place of the call change.
  have kept : ∀ id, (Function.update w.run.flights.calls call { w.run.flights.calls call with
      val := result.val, err := result.err, ok := result.ok } id).joined = (w.run.flights.calls id).joined ∧
      (Function.update w.run.flights.calls call { w.run.flights.calls call with
        val := result.val, err := result.err, ok := result.ok } id).finished
        = (w.run.flights.calls id).finished ∧
      (Function.update w.run.flights.calls call { w.run.flights.calls call with
        val := result.val, err := result.err, ok := result.ok } id).key = (w.run.flights.calls id).key := by
    intro id
    by_cases same : id = call
    · subst same
      simp
    · simp [same]
  refine ⟨⟨agree.registry.consistent.putCall rfl rfl, agree.registry.registered, ?_⟩, fun j =>
    (agree.fits j).mono le_rfl (fun id _ => (kept id).1) fun id _ joined => ?_, agree.apart, agree.held, ?_⟩
  · intro id key claimed
    exact (kept id).2.2.trans (agree.registry.named id key claimed)
  · exact (kept id).1.trans joined
  · intro id bound joined
    refine (agree.woken id bound ((kept id).1.symm.trans joined)).imp (fun held => held) fun finished => ?_
    exact (kept id).2.1.trans finished

/-- What a call leaves for its waiters, and whether it is over. -/
def SameAnswer (call call' : FlightCall K V (LoadError E)) : Prop :=
  call'.val = call.val ∧ call'.err = call.err ∧ call'.ok = call.ok ∧ call'.finished = call.finished ∧
    call'.key = call.key

/-- A caller that claims gets the flight of the key when there is one, and has it otherwise. -/
theorem claim [Inhabited K] [Inhabited V] (agree : Agree hash w known) (env : LoadEnv K V E ε) {i : ι}
    (key : K) {call : Nat} (pending : (known i).pending = some call) :
    ∃ r w', LoadWorld.answer hash env (.claim key call) w = some (r, w') ∧
      Agree hash w' (Function.update known i
        (Holding.after (.claim key call : LoadOp K V E) r (known i))) ∧
      w'.env = w.env ∧ w'.next = w.next ∧
      (∀ id, id ≠ call → SameAnswer (w.run.flights.calls id) (w'.run.flights.calls id)) ∧
      ((∃ winner, r = some winner ∧ w.run.unreleased winner = some key ∧
          w'.run.unreleased = w.run.unreleased) ∨
        (r = none ∧ (∀ id, w.run.unreleased id ≠ some key) ∧
          w'.run.unreleased = Function.update w.run.unreleased call (some key))) := by
  have own := agree.unreleased_of_pending pending
  obtain ⟨mine, unwon, idle⟩ := (agree.fits i).pending call pending
  obtain ⟨flights, winner, running, ran, inv, answers⟩ := agree.registry.claim key own
  obtain ⟨_, _, _, ran', _, claimed⟩ := agree.registry.consistent.claim key
    (by simp [agree.registry.registered, own] : ¬ w.run.flights.Registered call)
  rw [ran] at ran'
  cases ran'
  simp only [LoadWorld.answer, ran]
  cases claimed with
  | joined registered named =>
    have taken : w.run.unreleased winner = some key := answers.2.1 rfl
    obtain ⟨owner, ownedThere, _⟩ := (agree.held winner key).mp taken
    have old := (agree.fits owner).old _ (agree.mine_of_owned ownedThere)
    -- Only the flag of the winner is raised.
    have kept : ∀ id, id ≠ winner → (w.run.flights.join winner).calls id = w.run.flights.calls id :=
      fun id apart => Function.update_of_ne apart _ _
    have raised : ((w.run.flights.join winner).calls winner).joined = true := by
      simp [Flights.join, Flights.putCall]
    have others : ∀ j, (known j).Fits { w with
        run := ⟨w.run.flights.join winner, w.run.unreleased⟩ } := by
      intro j
      refine (agree.fits j).mono le_rfl (fun id waiting => ?_) fun id _ joined => ?_
      · have apart : id ≠ winner := by
          rintro rfl
          rw [agree.unreleased_of_pending waiting] at taken
          cases taken
        exact congrArg FlightCall.joined (kept id apart)
      · by_cases same : id = winner
        · exact same ▸ raised
        · exact (congrArg FlightCall.joined (kept id same)).trans joined
    refine ⟨_, _, rfl, ⟨inv, Function.forall_update_iff known (fun _ h => h.Fits _) |>.mpr ⟨?_,
      fun j _ => others j⟩, apart_update agree.apart fun id member => .inl member, fun id other =>
        (agree.held id other).trans ?_, ?_⟩, rfl, rfl, fun id _ => ?_, .inl ⟨winner, rfl, taken, rfl⟩⟩
    · refine ⟨(others i).old, fun id waiting => (by cases waiting), (others i).won, (others i).owned,
        (others i).once, fun id member => ?_⟩
      rcases List.mem_cons.mp member with rfl | before
      · exact ⟨old, raised⟩
      · exact (others i).handed id before
    · apply owners_update
      · rfl
      · rfl
    · intro id bound joined
      by_cases same : id = winner
      · subst same
        exact .inl (by simp [taken])
      · have before := congrArg FlightCall.joined (kept id same)
        refine (agree.woken id bound (before.symm.trans joined)).imp (fun held => held) fun finished => ?_
        exact (congrArg FlightCall.finished (kept id same)).trans finished
    · by_cases same : id = winner
      · subst same
        simp [SameAnswer, Flights.join, Flights.putCall]
      · simp [SameAnswer, kept id same]
  | owned absent registers mask named unchanged =>
    have free : ∀ id, w.run.unreleased id ≠ some key := answers.1.mp rfl
    have others : ∀ j, j ≠ i → (known j).Fits { w with
        run := ⟨flights, Function.update w.run.unreleased call (some key)⟩ } := by
      intro j away
      refine (agree.fits j).mono le_rfl (fun id waiting => ?_) fun id member joined => ?_
      · have apart : id ≠ call := by
          rintro rfl
          exact away (agree.apart j i id ((agree.fits j).pending id waiting).1 mine)
        exact congrArg FlightCall.joined (unchanged id apart)
      · have apart : id ≠ call := by
          rintro rfl
          rw [idle] at joined
          cases joined
        exact (congrArg FlightCall.joined (unchanged id apart)).trans joined
    refine ⟨_, _, rfl, ⟨inv, Function.forall_update_iff known (fun _ h => h.Fits _) |>.mpr ⟨?_, others⟩,
      apart_update agree.apart fun id member => .inl member, ?_, ?_⟩, rfl, rfl, fun id apart => ?_,
      .inr ⟨rfl, free, rfl⟩⟩
    · have fits := agree.fits i
      refine ⟨fits.old, fun id waiting => (by cases waiting), fun flight member => ?_, fun id member => ?_, ?_,
        fun id member => ?_⟩
      · rcases List.mem_append.mp member with before | last
        · exact fits.won flight before
        · rw [List.mem_singleton.mp last]
          exact mine
      · rcases List.mem_append.mp member with before | last
        · obtain ⟨other, won⟩ := fits.owned id before
          exact ⟨other, List.mem_append_left _ won⟩
        · rw [List.mem_singleton.mp last]
          exact ⟨key, List.mem_append_right _ List.mem_cons_self⟩
      · refine List.nodup_append.mpr ⟨fits.once, by simp, ?_⟩
        rintro id before _ last rfl
        obtain ⟨other, won⟩ := fits.owned id before
        rw [List.mem_singleton.mp last] at won
        exact unwon other won
      · obtain ⟨old, joined⟩ := fits.handed id member
        have apart : id ≠ call := by
          rintro rfl
          rw [idle] at joined
          cases joined
        exact ⟨old, (congrArg FlightCall.joined (unchanged id apart)).trans joined⟩
    · intro id other
      show Function.update w.run.unreleased call (some key) id = some other ↔ _
      by_cases same : id = call
      · subst same
        rw [Function.update_self]
        constructor
        · rintro ⟨rfl⟩
          refine ⟨i, ?_⟩
          rw [Function.update_self]
          exact ⟨List.mem_append_right _ List.mem_cons_self, List.mem_append_right _ List.mem_cons_self⟩
        · -- The call was won once, just now and for this key.
          rintro ⟨j, owned, won⟩
          have here : j = i := by
            by_contra away
            rw [Function.update_of_ne away] at owned
            exact away (agree.apart j i id (agree.mine_of_owned owned) mine)
          subst here
          rw [Function.update_self] at won
          rcases List.mem_append.mp won with before | last
          · exact absurd before (unwon other)
          · cases List.mem_singleton.mp last
            rfl
      · rw [Function.update_of_ne same, agree.held id other]
        refine exists_congr fun j => ?_
        by_cases here : j = i
        · subst here
          simp [Holding.after, same]
        · rw [Function.update_of_ne here]
    · intro id bound joined
      by_cases same : id = call
      · subst same
        exact .inl (by simp)
      · have before := congrArg FlightCall.joined (unchanged id same)
        refine (agree.woken id bound (before.symm.trans joined)).imp (fun held => ?_) fun finished => ?_
        · show Function.update w.run.unreleased call (some key) id ≠ none
          rw [Function.update_of_ne same]
          exact held
        · exact (congrArg FlightCall.finished (unchanged id same)).trans finished
    · have kept : flights.calls id = w.run.flights.calls id := unchanged id apart
      simp [SameAnswer, kept]

/-- A caller that releases what it owns no longer has it, and its waiters may go on. -/
theorem release [Inhabited K] [Inhabited V] (agree : Agree hash w known) (env : LoadEnv K V E ε) {i : ι}
    {call : Nat} (owned : call ∈ (known i).owned) :
    ∃ w', LoadWorld.answer hash env (.release call) w = some ((), w') ∧
      Agree hash w' (Function.update known i { known i with owned := (known i).owned.erase call }) ∧
      w'.env = w.env ∧ w'.next = w.next ∧ w'.run.unreleased = Function.update w.run.unreleased call none ∧
      (∀ id, id ≠ call → w'.run.flights.calls id = w.run.flights.calls id) ∧
      w'.run.flights.calls call = { w.run.flights.calls call with
        finished := (w.run.flights.calls call).joined || (w.run.flights.calls call).finished } := by
  obtain ⟨key, won, claimed⟩ := agree.unreleased_of_owned owned
  have some : w.run.unreleased call ≠ none := by simp [claimed]
  obtain ⟨flights, ran, inv, _⟩ := agree.registry.release some
  obtain ⟨_, ran', _, _, _, others, own⟩ :=
    agree.registry.consistent.release ((agree.registry.registered call).mpr some)
  rw [ran] at ran'
  cases ran'
  have answered : LoadWorld.answer hash env (.release call) w = .some ((), { w with
      run := ⟨flights, Function.update w.run.unreleased call none⟩ }) := by
    simp only [LoadWorld.answer, FlightRun.step, ran, Bind.bind, Except.bind, Pure.pure, Except.pure]
  -- The flag that someone was handed a call is never taken back.
  have flags : ∀ id, (flights.calls id).joined = (w.run.flights.calls id).joined := by
    intro id
    by_cases same : id = call
    · rw [same, own]
    · rw [others id same]
  have fits : ∀ j, (known j).Fits { w with
      run := ⟨flights, Function.update w.run.unreleased call none⟩ } := fun j =>
    (agree.fits j).mono le_rfl (fun id _ => flags id) fun id _ joined => (flags id).trans joined
  have mine := agree.mine_of_owned owned
  refine ⟨_, answered, ⟨inv, Function.forall_update_iff known (fun _ h => h.Fits _) |>.mpr ⟨?_,
    fun j _ => fits j⟩, apart_update agree.apart fun id member => .inl member, ?_, ?_⟩, rfl, rfl, rfl,
    others, own⟩
  · exact ⟨(fits i).old, (fits i).pending, (fits i).won,
      fun id member => (fits i).owned id (List.mem_of_mem_erase member), (fits i).once.erase call,
      (fits i).handed⟩
  · intro id other
    show Function.update w.run.unreleased call none id = .some other ↔ _
    by_cases same : id = call
    · subst same
      rw [Function.update_self]
      refine ⟨fun claimed => (by cases claimed), ?_⟩
      rintro ⟨j, held, _⟩
      by_cases here : j = i
      · subst here
        rw [Function.update_self] at held
        exact absurd held ((agree.fits j).once.not_mem_erase)
      · rw [Function.update_of_ne here] at held
        exact absurd (agree.apart j i id (agree.mine_of_owned held) mine) here
    · rw [Function.update_of_ne same, agree.held id other]
      refine exists_congr fun j => ?_
      by_cases here : j = i
      · subst here
        rw [Function.update_self, List.mem_erase_of_ne same]
      · rw [Function.update_of_ne here]
  · intro id bound joined
    have before := (flags id).symm.trans joined
    by_cases same : id = call
    · subst same
      refine .inr ?_
      show (flights.calls id).finished = true
      rw [own, before]
      rfl
    · refine (agree.woken id bound before).imp (fun held => ?_) fun finished => ?_
      · show Function.update w.run.unreleased call none id ≠ none
        rw [Function.update_of_ne same]
        exact held
      · show (flights.calls id).finished = true
        rw [others id same]
        exact finished

/-- Asking for anything but flights leaves them alone, and teaches at most that a lookup panicked. -/
theorem outside (agree : Agree hash w known) {env : LoadEnv K V E ε} {i : ι} {op : LoadOp K V E}
    {r : op.Ans} {w' : LoadWorld K V E ε} (answered : LoadWorld.outside env op w = some (r, w'))
    {h : Holding K} (same : h = known i ∨ h = (known i).interrupt) :
    Agree hash w' (Function.update known i h) := by
  unfold LoadWorld.outside at answered
  cases found : env op w.env with
  | none =>
    rw [found] at answered
    cases answered
  | some pair =>
    rw [found] at answered
    cases answered
    rcases same with rfl | rfl <;> exact agree.of_outside _ rfl rfl rfl rfl rfl

/-- Waiting for a flight leaves all of them alone. -/
theorem wait [Inhabited K] [Inhabited V] (agree : Agree hash w known) {env : LoadEnv K V E ε} {i : ι}
    {call : Nat} {r : Option E} {w' : LoadWorld K V E ε}
    (answered : LoadWorld.answer hash env (.wait call) w = some (r, w')) :
    Agree hash w' (Function.update known i (known i)) := by
  rw [LoadWorld.answer] at answered
  cases asked : LoadWorld.outside env (.wait call) w with
  | none =>
    rw [asked] at answered
    cases answered
  | some pair =>
    obtain ⟨_ | err, mid⟩ := pair
    · rw [asked] at answered
      dsimp only at answered
      split at answered
      · cases answered
        exact agree.outside asked (.inl rfl)
      · cases answered
    · rw [asked] at answered
      cases answered
      exact agree.outside asked (.inl rfl)

/-- The world answers every caller by the rules of the registry. -/
theorem answers [Inhabited K] [Inhabited V] (hash : K → BitVec 64) (env : LoadEnv K V E ε) :
    Pool.Answers (LoadWorld.answer hash env) (fun _ _ _ _ => True)
      (fun _ : ι => (Holding.rules : Rules (LoadOp K V E) LoadOp.Ans (Holding K))) (Agree hash) := by
  intro w known i op r w' agree allowed answered _
  refine ⟨trivial, ?_⟩
  cases op with
  | newCall =>
    cases answered
    exact agree.newCall i
  | claim key call =>
    obtain ⟨_, _, answered', agree', _⟩ := agree.claim env key allowed
    rw [answered] at answered'
    cases answered'
    exact agree'
  | release call =>
    obtain ⟨_, answered', agree', _⟩ := agree.release env allowed
    rw [answered] at answered'
    cases answered'
    exact agree'
  | settle call result =>
    cases answered
    show Agree hash _ (Function.update known i (known i))
    rw [Function.update_eq_self]
    exact agree.settle call result
  | wait call => exact agree.wait answered
  | result call =>
    cases answered
    show Agree hash _ (Function.update known i (known i))
    rw [Function.update_eq_self]
    exact agree
  | getMemory key =>
    refine agree.outside answered ?_
    cases r with
    | none => exact .inr rfl
    | some found => exact .inl rfl
  | validate key seen =>
    refine agree.outside answered ?_
    cases r with
    | none => exact .inr rfl
    | some found => exact .inl rfl
  | candidate => exact agree.outside answered (.inl rfl)
  | peekMemory => exact agree.outside answered (.inl rfl)
  | expireOffset => exact agree.outside answered (.inl rfl)
  | setMemory => exact agree.outside answered (.inl rfl)
  | l2Get => exact agree.outside answered (.inl rfl)
  | l2BatchGet => exact agree.outside answered (.inl rfl)
  | l2Set => exact agree.outside answered (.inl rfl)
  | l2BatchSet => exact agree.outside answered (.inl rfl)
  | enqueueWriteBack => exact agree.outside answered (.inl rfl)
  | reportL2Err => exact agree.outside answered (.inl rfl)
  | load => exact agree.outside answered (.inl rfl)
  | batchLoad => exact agree.outside answered (.inl rfl)
  | closing => exact agree.outside answered (.inl rfl)

end Agree

variable [DecidableEq K] [Inhabited K] [Inhabited V] [DecidableEq ι]

/-- What a call holds after the questions it has asked. -/
def holding (t : Thread (LoadOp K V E) LoadOp.Ans (LoadResult K V E)) : Holding K :=
  t.knows Holding.rules Holding.start

omit [DecidableEq ι] in
/-- A new cache on which some calls are about to be made. -/
def Config.loading (cfg : Config K V) (around : Surroundings K V)
    (store : Nat → FlightCall K V (LoadError E)) (e : ε) (load : LoadConfig) (calls : ι → LoadCall K) :
    Pool (LoadOp K V E) LoadOp.Ans ι (LoadResult K V E) (LoadWorld K V E ε) :=
  ⟨⟨cfg.flights around store, 0, e⟩, fun i => .start ((calls i).prog load)⟩

omit [DecidableEq ι] in
/-- Before the first question, nobody holds anything. -/
theorem Config.agree_loading (cfg : Config K V) (around : Surroundings K V)
    (store : Nat → FlightCall K V (LoadError E)) (e : ε) :
    Agree around.keyHash (⟨cfg.flights around store, 0, e⟩ : LoadWorld K V E ε)
      (fun _ : ι => Holding.start) := by
  obtain ⟨empty, none⟩ := Flights.consistent_empty around.keyHash (cfg.shardMask_lt around) store
  refine ⟨⟨empty, fun id => by simp [Config.flights, none], fun id key claimed => by cases claimed⟩,
    fun i => ⟨?_, ?_, ?_, ?_, .nil, ?_⟩, fun i j id member => ?_, fun id key => ?_, fun id bound => ?_⟩
  · rintro id ⟨⟩
  · rintro id ⟨⟩
  · rintro flight ⟨⟩
  · rintro id ⟨⟩
  · rintro id ⟨⟩
  · cases member
  · constructor
    · rintro ⟨⟩
    · rintro ⟨_, ⟨⟩, _⟩
  · exact absurd bound (Nat.not_lt_zero id)

/-- In every run of load calls, whatever memory, the second level, the loaders and the handlers answer
and wherever they panic, a call that is over and was not cut off has no flight left in the registry, and
a key that only such calls claimed gets a fresh flight. -/
theorem no_flight_left (cfg : Config K V) (around : Surroundings K V)
    (store : Nat → FlightCall K V (LoadError E)) (env : LoadEnv K V E ε) (e : ε) (load : LoadConfig)
    (calls : ι → LoadCall K) {schedule : List ι}
    {s : Pool (LoadOp K V E) LoadOp.Ans ι (LoadResult K V E) (LoadWorld K V E ε)}
    (ran : Runs.run (Pool.step (LoadWorld.answer around.keyHash env))
      (cfg.loading around store e load calls) schedule = .ok s) :
    (∀ i, (s.threads i).Over → ¬ (calls i).CutOff (holding (s.threads i)) →
      ∀ flight ∈ (holding (s.threads i)).won, ¬ s.world.run.flights.Registered flight.2) ∧
    ∀ key, (∀ i, (∃ id, (key, id) ∈ (holding (s.threads i)).won) →
        (s.threads i).Over ∧ ¬ (calls i).CutOff (holding (s.threads i))) →
      ∀ call, ¬ s.world.run.flights.Registered call →
        ∃ flights, s.world.run.flights.claim (around.keyHash key) key call = .ok (flights, call, false) := by
  have sound : (cfg.loading around store e load calls).Sound (fun _ => Holding.rules) Holding.start
      (fun i _ h => h.owned = [] ∨ (calls i).CutOff h) (Agree around.keyHash) :=
    ⟨cfg.agree_loading around store e, fun i => (calls i).prog_frees load⟩
  have reached := sound.run (Agree.answers around.keyHash env)
    (fun _ _ _ _ _ _ _ _ _ _ _ => trivial) ran
  have agree : Agree around.keyHash s.world fun i => holding (s.threads i) := reached.agree
  -- A call that is over owns nothing, and what is registered is owned.
  have freed : ∀ i, (s.threads i).Over → ¬ (calls i).CutOff (holding (s.threads i)) →
      (holding (s.threads i)).owned = [] := by
    intro i ended whole
    obtain ⟨out, free, _⟩ := reached.ended ended
    exact free.resolve_right whole
  refine ⟨fun i ended whole flight member registered => ?_, fun key only call unregistered => ?_⟩
  · obtain ⟨key, claimed⟩ := Option.ne_none_iff_exists'.mp ((agree.registry.registered _).mp registered)
    obtain ⟨j, owned, _⟩ := (agree.held _ key).mp claimed
    have mine := (agree.fits i).won flight member
    obtain rfl := agree.apart j i _ (agree.mine_of_owned owned) mine
    rw [freed j ended whole] at owned
    cases owned
  · have own : s.world.run.unreleased call = none := by
      rw [agree.registry.registered, not_not] at unregistered
      exact unregistered
    obtain ⟨flights, winner, running, claimed, _, fresh, _, started⟩ := agree.registry.claim key own
    have free : running = false := by
      refine fresh.mpr fun id claimed => ?_
      obtain ⟨i, owned, won⟩ := (agree.held id key).mp claimed
      obtain ⟨ended, whole⟩ := only i ⟨id, won⟩
      rw [freed i ended whole] at owned
      cases owned
    rw [started free, free] at claimed
    exact ⟨flights, claimed⟩

/-- Surroundings in which nothing is in memory or in the second level; lookups and loads may panic. -/
def nothingStored (lookup : Nat → Option (Option Unit)) (load : Option (Except Unit Unit)) :
    LoadEnv Nat Unit Unit Unit
  | .getMemory key, e => some (lookup key, e)
  | .candidate _, e => some (none, e)
  | .validate key _, e => some (lookup key, e)
  | .peekMemory _, e => some (none, e)
  | .expireOffset, e => some (0, e)
  | .setMemory _ _ _, e => some (some (), e)
  | .wait _, e => some (none, e)
  | .l2Get _, e => some (some (.ok none), e)
  | .l2BatchGet _, e => some (some ([], none), e)
  | .l2Set _ _, e => some (some none, e)
  | .l2BatchSet _, e => some (some none, e)
  | .enqueueWriteBack _ _, e => some (some (), e)
  | .reportL2Err _ _, e => some (some (), e)
  | .load _, e => some (load, e)
  | .batchLoad _, e => some (load.map fun _ => ([], none), e)
  | .closing, e => some (false, e)
  -- The registry answers these.
  | .newCall, _ | .claim _ _, _ | .release _, _ | .settle _ _, _ | .result _, _ => none

/-- A cache without a second level. -/
def memoryOnly : LoadConfig := ⟨false, .writeDisabled⟩

/-- A single load whose loader panics has released its flight. -/
theorem no_flight_left_one : ∃ s,
    Runs.run (Pool.step (LoadWorld.answer plainSurroundings.keyHash (nothingStored (fun _ => some none) none)))
      (hundredItems.loading plainSurroundings (fun _ => .zero) () memoryOnly
        fun _ : Unit => .getOrLoad true 1) (List.replicate 7 ()) = .ok s ∧
    (s.threads ()).prog = .panic ∧ (holding (s.threads ())).won = [(1, 0)] ∧
    ¬ s.world.run.flights.Registered 0 := by
  refine ⟨_, rfl, rfl, rfl, ?_⟩
  have ran : Runs.run (Pool.step (LoadWorld.answer plainSurroundings.keyHash
      (nothingStored (fun _ => some none) none))) (hundredItems.loading plainSurroundings (fun _ => .zero) ()
        memoryOnly fun _ : Unit => .getOrLoad true 1) (List.replicate 7 ()) = .ok _ := rfl
  exact (no_flight_left _ _ _ _ _ _ _ ran).1 () (.inl rfl) (fun cut => cut) (1, 0) List.mem_cons_self

/-- A small batch, and a single load of one of its keys that comes after. -/
def batchThenLoad : Fin 2 → LoadCall Nat
  | 0 => .batchGetOrLoad true [1, 2]
  | 1 => .getOrLoad true 1

/-- The batch claims the flight of its first key, and the handler panics in the lookup of the second: the
batch is over, its flight is still registered, and a load of the first key waits for it. -/
theorem flight_stays_behind : ∃ s,
    Runs.run (Pool.step (LoadWorld.answer plainSurroundings.keyHash
        (nothingStored (fun key => if key = 2 then none else some none) (some (.ok ())))))
      (hundredItems.loading plainSurroundings (fun _ => .zero) () memoryOnly batchThenLoad)
      [0, 0, 0, 0, 0, 1, 1, 1] = .ok s ∧
    (s.threads 0).prog = .panic ∧ (holding (s.threads 0)).won = [(1, 0)] ∧
    s.world.run.flights.Registered 0 ∧
    s.step (LoadWorld.answer plainSurroundings.keyHash
      (nothingStored (fun key => if key = 2 then none else some none) (some (.ok ())))) 1
        = .error .blocked := by
  refine ⟨_, rfl, rfl, rfl, ⟨0, by decide, .inl ⟨0, by decide, rfl⟩⟩, rfl⟩

end Memstash
