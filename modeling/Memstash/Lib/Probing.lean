import Memstash.Lib.RangeSum
import Memstash.Lib.Scan

/-! Linear probing on a ring of slots with tombstones and per-group overflow counts. -/

namespace Probing

open Scan RangeSum

variable {K : Type*}

/-- What one slot of the ring holds. -/
inductive Cell (K : Type*) where
  /-- Never occupied: ends every probe that reaches it. -/
  | vacant
  /-- Holds a key that lookups must find. -/
  | live (key : K)
  /-- Held a key, and its owner still refers to the slot. -/
  | tomb (key : K)
  /-- Held a key nobody refers to anymore, so an insert may take the slot. -/
  | released
  deriving DecidableEq

/-- The key a slot is bound to, by a live entry or by a tombstone still referred to. -/
def Cell.key? : Cell K → Option K
  | .live key => some key
  | .tomb key => some key
  | _ => none

@[simp] theorem Cell.key?_vacant : (Cell.vacant : Cell K).key? = none := rfl
@[simp] theorem Cell.key?_live (key : K) : (Cell.live key).key? = some key := rfl
@[simp] theorem Cell.key?_tomb (key : K) : (Cell.tomb key).key? = some key := rfl
@[simp] theorem Cell.key?_released : (Cell.released : Cell K).key? = none := rfl

/-- A slot is reached from a start when no vacancy lies on the way to it. -/
def Reached (n start : Nat) (cells : Nat → Cell K) (i : Nat) : Prop :=
  ∃ d < n, (start + d) % n = i ∧ ∀ e < d, cells ((start + e) % n) ≠ .vacant

/-- Every bound key is reached from its home, and no key is bound twice. -/
structure Chained (n : Nat) (home : K → Nat) (cells : Nat → Cell K) : Prop where
  home_lt : ∀ key, home key < n
  reach : ∀ i < n, ∀ key, (cells i).key? = some key → Reached n (home key) cells i
  unique : ∀ i < n, ∀ j < n, ∀ key, (cells i).key? = some key → (cells j).key? = some key → i = j

/-- Positions less than one turn apart are different slots. -/
theorem ring_injective {n start a b : Nat} (smallA : a < n) (smallB : b < n)
    (same : (start + a) % n = (start + b) % n) : a = b := by
  have congruent : a ≡ b [MOD n] := Nat.ModEq.add_left_cancel' start same
  rwa [Nat.ModEq, Nat.mod_eq_of_lt smallA, Nat.mod_eq_of_lt smallB] at congruent

/-- Every slot is less than one turn from any start. -/
theorem exists_distance {n start i : Nat} (startIn : start < n) (within : i < n) :
    ∃ d < n, (start + d) % n = i := by
  -- Either the slot lies ahead of the start, or the walk wraps once to reach it.
  rcases Nat.lt_or_ge i start with behind | ahead
  · refine ⟨i + n - start, by omega, ?_⟩
    rw [show start + (i + n - start) = i + n by omega, Nat.add_mod_right, Nat.mod_eq_of_lt within]
  · refine ⟨i - start, by omega, ?_⟩
    rw [show start + (i - start) = i by omega, Nat.mod_eq_of_lt within]

/-- Filling vacancies never breaks a path. -/
theorem Reached.mono {n start i : Nat} {cells cells' : Nat → Cell K}
    (kept : ∀ j < n, cells j ≠ .vacant → cells' j ≠ .vacant) (path : Reached n start cells i) :
    Reached n start cells' i := by
  obtain ⟨d, small, arrives, filled⟩ := path
  exact ⟨d, small, arrives, fun e before =>
    kept _ (Nat.mod_lt _ (by omega)) (filled e before)⟩

section Update

variable {n i : Nat} {home : K → Nat} {cells cells' : Nat → Cell K}

/-- An empty ring is chained whatever the homes are. -/
theorem Chained.empty (inside : ∀ key, home key < n) : Chained n home (fun _ => (.vacant : Cell K)) :=
  ⟨inside, by simp, by simp⟩

/-- A ring is chained by what its slots are. -/
theorem Chained.congr (chained : Chained n home cells) (same : ∀ j < n, cells' j = cells j) :
    Chained n home cells' := by
  refine ⟨chained.home_lt, fun i inside key named => ?_, fun i insideI j insideJ key first second => ?_⟩
  · rw [same i inside] at named
    exact (chained.reach i inside key named).mono fun j within filled => by rwa [same j within]
  · rw [same i insideI] at first
    rw [same j insideJ] at second
    exact chained.unique i insideI j insideJ key first second

/-- Changing one slot without binding a new key to it keeps the ring chained. -/
theorem Chained.rebind (chained : Chained n home cells)
    (others : ∀ j < n, j ≠ i → cells' j = cells j) (filled : cells' i ≠ .vacant)
    (bound : ∀ key, (cells' i).key? = some key → (cells i).key? = some key) :
    Chained n home cells' := by
  -- Keys only disappear, and no slot becomes vacant.
  have keys : ∀ j < n, ∀ key, (cells' j).key? = some key → (cells j).key? = some key := by
    intro j inside key named
    by_cases same : j = i
    · subst same; exact bound key named
    · rwa [others j inside same] at named
  refine ⟨chained.home_lt, ?_, ?_⟩
  · intro j inside key named
    refine (chained.reach j inside key (keys j inside key named)).mono ?_
    intro l insideL nonvacant
    by_cases same : l = i
    · subst same; exact filled
    · rwa [others l insideL same]
  · intro j inside l insideL key named namedL
    exact chained.unique j inside l insideL key (keys j inside key named) (keys l insideL key namedL)

/-- Binding a key no other slot is bound to, in a slot its probe reaches, keeps the ring chained. -/
theorem Chained.place {key : K} (chained : Chained n home cells)
    (others : ∀ j < n, j ≠ i → cells' j = cells j) (bound : (cells' i).key? = some key)
    (alone : ∀ j < n, j ≠ i → (cells j).key? ≠ some key) (path : Reached n (home key) cells i) :
    Chained n home cells' := by
  have filled : cells' i ≠ .vacant := by
    intro vacant
    simp [vacant] at bound
  have kept : ∀ j < n, cells j ≠ .vacant → cells' j ≠ .vacant := by
    intro j inside nonvacant
    by_cases same : j = i
    · subst same; exact filled
    · rwa [others j inside same]
  refine ⟨chained.home_lt, ?_, ?_⟩
  · intro j inside other named
    by_cases same : j = i
    · -- The placed key is reached by the path its probe took.
      subst same
      obtain rfl : key = other := by rw [bound] at named; exact Option.some.inj named
      exact path.mono kept
    · rw [others j inside same] at named
      exact (chained.reach j inside other named).mono kept
  · intro j inside l insideL other named namedL
    by_cases sameJ : j = i
    · by_cases sameL : l = i
      · rw [sameJ, sameL]
      · -- A second slot bound to the placed key was bound before, which was ruled out.
        subst sameJ
        obtain rfl : key = other := by rw [bound] at named; exact Option.some.inj named
        rw [others l insideL sameL] at namedL
        exact absurd namedL (alone l insideL sameL)
    · by_cases sameL : l = i
      · subst sameL
        obtain rfl : key = other := by rw [bound] at namedL; exact Option.some.inj namedL
        rw [others j inside sameJ] at named
        exact absurd named (alone j inside sameJ)
      · rw [others j inside sameJ] at named
        rw [others l insideL sameL] at namedL
        exact chained.unique j inside l insideL other named namedL

end Update

/-- The number of slots that are not vacant. -/
def occupied [DecidableEq K] (n : Nat) (cells : Nat → Cell K) : Int :=
  count n fun i => cells i ≠ .vacant

/-- From every slot a walk comes to a vacancy within one pass, unless the table is full. -/
theorem exists_vacancy_ahead [DecidableEq K] {n start : Nat} {cells : Nat → Cell K} (startIn : start < n)
    (room : occupied n cells < n) : ∃ d < n, cells ((start + d) % n) = .vacant := by
  obtain ⟨hole, holeIn, vacant⟩ := exists_not_of_count_lt room
  rw [not_not] at vacant
  obtain ⟨d, small, arrives⟩ := exists_distance startIn holeIn
  exact ⟨d, small, by rw [arrives, vacant]⟩

/-- A path is no longer than the number of occupied slots. -/
theorem path_lt_occupied [DecidableEq K] {n start d : Nat} {cells : Nat → Cell K} (small : d < n)
    (filled : ∀ e ≤ d, cells ((start + e) % n) ≠ .vacant) : (d : Int) < occupied n cells := by
  -- The path visits that many different slots, the last one included.
  have visited : ((d + 1 : Nat) : Int) ≤ occupied n cells := by
    refine le_count_of_injective (f := fun e => (start + e) % n) ?_ ?_
    · intro a insideA b insideB same
      exact ring_injective (by omega) (by omega) same
    · intro a inside
      exact ⟨Nat.mod_lt _ (by omega), filled a (by omega)⟩
  omega

/-- Whether a slot holds a live key whose home lies in a group the slot is not part of. -/
def strays (home : K → Nat) (width group i : Nat) : Cell K → Bool
  | .live key => decide (home key / width = group) && decide (i / width ≠ group)
  | _ => false

/-- The number of live keys homed in a group that live outside it. -/
def displaced (n : Nat) (home : K → Nat) (width : Nat) (cells : Nat → Cell K) (group : Nat) : Int :=
  count n fun i => strays home width group i (cells i) = true

/-- One probe step of a lookup: stop at the group's edge, at a vacancy, or at the key. -/
def lookupVisit [DecidableEq K] (n edge : Nat) (overflowed : Bool) (key : K)
    (cells : Nat → Cell K) (pos : Nat) : Option (Except Fault (Option Nat)) :=
  if pos = edge ∧ overflowed = false then some (.ok none)
  else
    match cells (pos % n) with
    | .vacant => some (.ok none)
    | .live other => if other = key then some (.ok (some pos)) else none
    | _ => none

/-- A walk that has left its home group and not come around to it is outside the group. -/
theorem outside_group {n width start d : Nat} (positive : 0 < width)
    (startIn : start < n) (past : (start / width + 1) * width ≤ start + d)
    (short : d + width ≤ n) : (start + d) % n / width ≠ start / width := by
  -- Past the edge but before the end of the ring the group number is larger.
  have startDiv := Nat.div_add_mod start width
  have startMod := Nat.mod_lt start positive
  intro same
  rcases Nat.lt_or_ge (start + d) n with before | wrapped
  · rw [Nat.mod_eq_of_lt before] at same
    have larger : start / width + 1 ≤ (start + d) / width := by
      rw [Nat.le_div_iff_mul_le positive]
      exact past
    omega
  · -- After wrapping, the walk is still short of its own group.
    have wrap : (start + d) % n = start + d - n := by
      rw [Nat.mod_eq_sub_mod wrapped, Nat.mod_eq_of_lt (by omega)]
    rw [wrap] at same
    have below : start + d - n < start / width * width := by
      have : start / width * width = width * (start / width) := Nat.mul_comm _ _
      omega
    have smaller : (start + d - n) / width < start / width := by
      rw [Nat.div_lt_iff_lt_mul positive]
      exact below
    omega

/-- A lookup that stops early on a zero overflow count still decides whether the key is live. -/
theorem lookup_decides [DecidableEq K] {n width : Nat} {home : K → Nat} {cells : Nat → Cell K}
    (chained : Chained n home cells) (positive : 0 < width)
    (room : occupied n cells + width ≤ n) (key : K) {overflowed : Bool}
    (exact : overflowed = true ↔ displaced n home width cells (home key / width) ≠ 0) :
    (∃ pos, scan (lookupVisit n ((home key / width + 1) * width) overflowed key cells) n (home key)
        = .ok (some pos) ∧ cells (pos % n) = .live key) ∨
      (scan (lookupVisit n ((home key / width + 1) * width) overflowed key cells) n (home key)
        = .ok none ∧ ∀ i < n, cells i ≠ .live key) := by
  have homeIn := chained.home_lt key
  -- A vacancy within one turn guarantees that some visit decides.
  obtain ⟨reachHole, small, vacant⟩ := @exists_vacancy_ahead _ _ n _ cells homeIn (by omega)
  have holeDecides : lookupVisit n ((home key / width + 1) * width) overflowed key cells
      (home key + reachHole) ≠ none := by
    simp only [lookupVisit, vacant]
    split <;> simp
  obtain ⟨steps, early, result, undecided, decided, scanned⟩ := exists_scan_eq small holeDecides
  -- Before a deciding visit, the live slot of the key cannot have been passed.
  have notPassed : ∀ i < n, cells i = .live key → ∃ d < n, (home key + d) % n = i ∧
      (∀ e ≤ d, cells ((home key + e) % n) ≠ .vacant) ∧ steps ≤ d := by
    intro i inside holds
    obtain ⟨d, smallD, arrivesD, filled⟩ := chained.reach i inside key (by simp [holds])
    refine ⟨d, smallD, arrivesD, ?_, ?_⟩
    · intro e upTo
      rcases Nat.lt_or_ge e d with before | at_d
      · exact filled e before
      · obtain rfl : e = d := by omega
        rw [arrivesD, holds]
        simp
    · by_contra passed
      have quiet := undecided d (by omega)
      simp only [lookupVisit, arrivesD, holds] at quiet
      split at quiet <;> simp at quiet
  unfold lookupVisit at decided
  split at decided
  · -- Stopping at the edge means nothing homed in the group lives past it.
    rename_i edge
    obtain rfl : Except.ok none = result := Option.some.inj decided
    refine .inr ⟨scanned, fun i inside holds => ?_⟩
    obtain ⟨d, smallD, arrivesD, filled, later⟩ := notPassed i inside holds
    have occupiedBound := path_lt_occupied smallD filled
    have away : i / width ≠ home key / width := by
      rw [← arrivesD]
      exact outside_group positive homeIn (by omega) (by omega)
    have counted : 0 < displaced n home width cells (home key / width) :=
      count_pos inside (by simp [strays, holds, away])
    have flagged := exact.mpr (by omega)
    rw [edge.2] at flagged
    exact Bool.false_ne_true flagged
  · split at decided
    · -- A vacancy cannot lie on the way to the key.
      rename_i vacant
      obtain rfl : Except.ok none = result := Option.some.inj decided
      refine .inr ⟨scanned, fun i inside holds => ?_⟩
      obtain ⟨d, smallD, arrivesD, filled, later⟩ := notPassed i inside holds
      exact filled steps later vacant
    · rename_i other found
      split at decided
      · rename_i same
        subst same
        obtain rfl : Except.ok (some (home other + steps)) = result := Option.some.inj decided
        exact .inl ⟨_, scanned, found⟩
      · simp at decided
    · simp at decided

/-- One step of a walk to a key or to the vacancy that ends its path. -/
def seekVisit [DecidableEq K] (n : Nat) (key : K) (cells : Nat → Cell K) (pos : Nat) :
    Option (Except Fault (Bool × Nat)) :=
  match cells (pos % n) with
  | .vacant => some (.ok (false, pos))
  | .live other => if other = key then some (.ok (true, pos)) else none
  | _ => none

/-- What a walk from a key's home ends at: the key, or a vacancy when the key is nowhere. -/
inductive Sought (n start : Nat) (key : K) (cells : Nat → Cell K) : Bool × Nat → Prop
  | found {d : Nat} (near : d < n) (live : cells ((start + d) % n) = .live key) :
      Sought n start key cells (true, start + d)
  | missed {d : Nat} (near : d < n) (vacant : cells ((start + d) % n) = .vacant)
      (filled : ∀ e < d, cells ((start + e) % n) ≠ .vacant) (absent : ∀ i < n, cells i ≠ .live key) :
      Sought n start key cells (false, start + d)

/-- On a ring with a vacancy every walk from a key's home ends, and finds the key when it is there. -/
theorem seek_decides [DecidableEq K] {n start : Nat} {home : K → Nat} {cells : Nat → Cell K} {key : K}
    (chained : Chained n home cells) (room : occupied n cells < n) (begins : start % n = home key) :
    ∃ result, scan (seekVisit n key cells) n start = .ok result ∧ Sought n start key cells result := by
  have around : ∀ e, (home key + e) % n = (start + e) % n := fun e => by rw [← begins, Nat.mod_add_mod]
  obtain ⟨reach, small, vacant⟩ := @exists_vacancy_ahead _ _ n _ cells (chained.home_lt key) room
  obtain ⟨d, near, result, before, decided, scanned⟩ := @exists_scan_eq _
    (seekVisit n key cells) n start reach small (by simp [seekVisit, ← around, vacant])
  rw [scanned]
  unfold seekVisit at decided
  split at decided
  · rename_i vacant
    obtain rfl := Option.some.inj decided
    -- No vacancy was passed, so the path to the key cannot end later.
    have filled : ∀ e < d, cells ((start + e) % n) ≠ .vacant := fun e earlier empty => by
      have := before e earlier
      simp [seekVisit, empty] at this
    refine ⟨_, rfl, .missed (by omega) vacant filled fun i inside live => ?_⟩
    obtain ⟨far, farIn, arrives, path⟩ := chained.reach i inside key (by simp [live])
    rw [around] at arrives
    rcases Nat.lt_trichotomy far d with passed | rfl | later
    · have := before far passed
      simp [seekVisit, arrives, live] at this
    · rw [arrives, live] at vacant
      cases vacant
    · exact path d later (by rw [around, vacant])
  · rename_i other live
    split at decided
    · rename_i same
      obtain rfl := Option.some.inj decided
      exact ⟨_, rfl, .found (by omega) (same ▸ live)⟩
    · cases decided
  · cases decided

/-- The ring that keys leave when each takes the first vacancy from its home on, one after the other. -/
inductive Laid [DecidableEq K] (n : Nat) (home : K → Nat) : List K → (Nat → Cell K) → Prop
  | nil : Laid n home [] fun _ => .vacant
  | snoc {keys : List K} {cells : Nat → Cell K} {key : K} {d : Nat} (laid : Laid n home keys cells)
      (small : d < n) (filled : ∀ e < d, cells ((home key + e) % n) ≠ .vacant)
      (vacant : cells ((home key + d) % n) = .vacant) :
      Laid n home (keys ++ [key]) (Function.update cells ((home key + d) % n) (.live key))

end Probing
