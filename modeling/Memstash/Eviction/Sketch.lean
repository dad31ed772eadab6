import Memstash.Eviction.WTinyLfu
import Memstash.Lib.Digits

/-! The frequency sketch counts without carries and never below the true count of a key. -/

namespace Memstash

open Digits

namespace FreqSketch

/-- One of the sixteen counters of a word. -/
def nibble (s : FreqSketch) (word j : Nat) : Nat := digit 16 (s.table word).toNat j

theorem counter_eq (s : FreqSketch) (word j : Nat) : s.counter word (j * 4) = s.nibble word j := by
  have power : (16 : Nat) ^ j = 2 ^ (j * 4) := by rw [Nat.mul_comm, pow_mul]; rfl
  rw [counter, nibble, digit, power, BitVec.toNat_ushiftRight, Nat.shiftRight_eq_div_pow]

theorem nibble_le (s : FreqSketch) (word j : Nat) : s.nibble word j ≤ counterMax :=
  Nat.le_of_lt_succ (Nat.mod_lt _ (by decide))

/-- The word and the digit of a key's `i`-th counter. -/
def place (s : FreqSketch) (hash : BitVec 64) (i : Nat) : Nat × Nat :=
  ((s.counterAt hash i).1, (s.counterAt hash i).2 / 4)

theorem counterAt_eq (s : FreqSketch) (hash : BitVec 64) (i : Nat) :
    s.counterAt hash i = ((s.place hash i).1, (s.place hash i).2 * 4) ∧ (s.place hash i).2 < 16 := by
  simp only [place, counterAt, Nat.mul_div_cancel _ (show 0 < 4 by omega), true_and]
  exact Nat.mod_lt _ (by decide)

/-- The four counters of a key are four different digits, since the step between them is odd. -/
theorem place_injective (s : FreqSketch) (hash : BitVec 64) {i k : Nat} (smallI : i < 4) (smallK : k < 4)
    (same : s.place hash i = s.place hash k) : i = k := by
  have digits := (Prod.mk.inj same).2
  simp only [counterAt, Nat.mul_div_cancel _ (show 0 < 4 by omega)] at digits
  have odd : (hash.toNat / 2 ^ 32 ||| 1) % 2 = 1 := by simp
  generalize hash.toNat / 2 ^ 32 ||| 1 = hi at digits odd
  generalize hash.toNat % 2 ^ 32 = lo at digits
  interval_cases i <;> interval_cases k <;> omega

/-- Adding one at a digit below the ceiling changes that digit alone. -/
theorem nibble_update (s : FreqSketch) {word j : Nat} (inside : j < 16) (below : s.nibble word j < counterMax)
    (word' j' : Nat) :
    nibble { s with table := Function.update s.table word (s.table word + 1#64 <<< (j * 4)) } word' j'
      = s.nibble word' j' + if (word', j') = (word, j) then 1 else 0 := by
  simp only [nibble, Prod.mk.injEq]
  by_cases here : word' = word
  · subst here
    have power : (1#64 <<< (j * 4)).toNat = 16 ^ j := by
      have short : 2 ^ (j * 4) < 2 ^ 64 := Nat.pow_lt_pow_right (by omega) (by omega)
      rw [BitVec.toNat_shiftLeft, Nat.shiftLeft_eq, BitVec.toNat_ofNat, show 1 % 2 ^ 64 = 1 from rfl, Nat.one_mul,
        Nat.mod_eq_of_lt short, Nat.mul_comm, pow_mul]
      rfl
    have room : digit 16 (s.table word').toNat j + 1 < 16 := Nat.succ_lt_succ below
    have fits : (s.table word').toNat + 16 ^ j < 2 ^ 64 := add_pow_lt room inside (s.table word').isLt
    rw [Function.update_self, BitVec.toNat_add, power, Nat.mod_eq_of_lt fits, digit_add_pow room]
    simp
  · rw [Function.update_of_ne here, if_neg fun both => here both.1, Nat.add_zero]

/-- Whether a digit is one of the first `n` counters of a key. -/
def charges (s : FreqSketch) (hash : BitVec 64) (n word j : Nat) : Bool :=
  (List.range n).any fun i => s.place hash i = (word, j)

theorem bump_frame (hash : BitVec 64) (n : Nat) (s : FreqSketch) :
    (bump hash n s).1 = { s with table := (bump hash n s).1.table } := by
  induction n with
  | zero => rfl
  | succ n ih =>
    simp only [bump]
    split
    · rw [ih]
    · exact ih

/-- Bumping raises by one exactly those of a key's counters that are below the ceiling. -/
theorem nibble_bump (hash : BitVec 64) (s : FreqSketch) {n : Nat} (few : n ≤ 4) {word j : Nat} (inside : j < 16) :
    nibble (bump hash n s).1 word j
      = s.nibble word j + if s.charges hash n word j ∧ s.nibble word j < counterMax then 1 else 0 := by
  induction n generalizing word j with
  | zero => simp [bump, charges]
  | succ n ih =>
    have at_same : (bump hash n s).1.counterAt hash n = s.counterAt hash n := by rw [bump_frame]; rfl
    have charged : s.charges hash (n + 1) word j
        = (s.charges hash n word j || decide (s.place hash n = (word, j))) := by
      simp [charges, List.range_succ]
    obtain ⟨at_eq, digit_lt⟩ := s.counterAt_eq hash n
    have distinct : ∀ i < n, s.place hash i ≠ s.place hash n := fun i less same =>
      absurd (s.place_injective hash (by omega) (by omega) same) (by omega)
    obtain ⟨word', j', placed⟩ : ∃ word' j', s.place hash n = (word', j') := ⟨_, _, rfl⟩
    rw [placed] at at_eq digit_lt distinct charged
    -- The counter to bump is none of those bumped before it.
    have fresh : s.charges hash n word' j' = false := by
      simpa only [charges, List.any_eq_false, List.mem_range, decide_eq_true_eq] using distinct
    have untouched : nibble (bump hash n s).1 word' j' = s.nibble word' j' := by
      rw [ih (by omega) digit_lt, fresh]
      simp
    simp only [bump, at_same, at_eq, counter_eq, untouched, charged]
    by_cases here : (word', j') = (word, j)
    · obtain ⟨rfl, rfl⟩ := Prod.mk.inj here
      by_cases below : s.nibble word' j' < counterMax
      · rw [if_pos below, nibble_update _ digit_lt (by rwa [untouched]), untouched]
        simp [below]
      · rw [if_neg below, untouched]
        simp [below]
    · rw [decide_eq_false here, Bool.or_false, ← ih (by omega) inside]
      split
      · next below => rw [nibble_update _ digit_lt (by rwa [untouched]), if_neg (Ne.symm here), Nat.add_zero]
      · rfl

/-- Aging halves each counter on its own. -/
theorem nibble_reset (s : FreqSketch) {word j : Nat} (inside : j < 16) :
    s.reset.nibble word j = s.nibble word j / 2 := by
  have halved : (s.table word >>> 1 &&& 0x7777777777777777#64).toNat
      = (s.table word).toNat / 2 &&& 0x7777777777777777 := by
    rw [BitVec.toNat_and, BitVec.toNat_ushiftRight, Nat.shiftRight_eq_div_pow]
    rfl
  rw [nibble, reset, halved, digit_half inside, nibble]

/-- The sketch after a use is counted and before it may age. -/
def counted (s : FreqSketch) (hash : BitVec 64) : FreqSketch :=
  if s.words = 0 then s
  else
    let (s, added) := bump hash 4 s
    if added then { s with additions := (s.additions + 1) % 2 ^ 32 } else s

/-- Whether counting a use fills the sample window. -/
def ages (s : FreqSketch) (hash : BitVec 64) : Bool :=
  s.words ≠ 0 && (bump hash 4 s).2 && (s.counted hash).additions ≥ (s.counted hash).sampleSize

/-- Counting a use bumps the counters of the key and then ages the sketch when the window is full. -/
theorem increment_eq (s : FreqSketch) (hash : BitVec 64) :
    s.increment hash = if s.ages hash then (s.counted hash).reset else s.counted hash := by
  unfold increment ages counted
  by_cases off : s.words = 0
  · simp [off]
  · rcases bumped : bump hash 4 s with ⟨s', _ | _⟩
    · simp [off]
    · simp [off]

/-- Counting a use raises by one exactly those of the key's four counters that are below the ceiling. -/
theorem nibble_counted (s : FreqSketch) (on : s.words ≠ 0) (hash : BitVec 64) {word j : Nat} (inside : j < 16) :
    (s.counted hash).nibble word j
      = s.nibble word j + if s.charges hash 4 word j ∧ s.nibble word j < counterMax then 1 else 0 := by
  rw [← nibble_bump hash s le_rfl inside, counted, if_neg on]
  rcases bump hash 4 s with ⟨s', _ | _⟩ <;> rfl

theorem place_inside (s : FreqSketch) (hash : BitVec 64) (i : Nat) :
    (s.place hash i).1 ≤ s.mask ∧ (s.place hash i).2 < 16 :=
  ⟨Nat.and_le_right, (s.counterAt_eq hash i).2⟩

theorem charges_place (s : FreqSketch) (hash : BitVec 64) {i : Nat} (small : i < 4) :
    s.charges hash 4 (s.place hash i).1 (s.place hash i).2 = true := by
  simp only [charges, List.any_eq_true, List.mem_range, decide_eq_true_eq]
  exact ⟨i, small, rfl⟩

/-- The estimate is the least of a key's four counters. -/
theorem le_estimate (s : FreqSketch) (on : s.words ≠ 0) (hash : BitVec 64) {n : Nat} (most : n ≤ counterMax)
    (least : ∀ i < 4, n ≤ s.nibble (s.place hash i).1 (s.place hash i).2) : n ≤ s.estimate hash := by
  have value : ∀ i, s.counter (s.counterAt hash i).1 (s.counterAt hash i).2
      = s.nibble (s.place hash i).1 (s.place hash i).2 := fun i => by
    rw [(s.counterAt_eq hash i).1, counter_eq]
  simp only [estimate, if_neg on, value]
  -- The minimum starts at the ceiling and only meets counters of the key.
  refine List.foldlRecOn (motive := fun est => n ≤ est) _ _ most fun est ahead i member => ?_
  exact le_min ahead (least i (List.mem_range.mp member))

theorem estimate_le (s : FreqSketch) (hash : BitVec 64) : s.estimate hash ≤ counterMax := by
  unfold estimate
  split
  · exact Nat.zero_le _
  · refine List.foldlRecOn (motive := fun est => est ≤ counterMax) _ _ le_rfl fun est below i _ => ?_
    exact (min_le_left _ _).trans below

end FreqSketch

/-- A step of a sketch: counting a use of a key, or aging. -/
inductive SketchOp where
  | increment (hash : BitVec 64)
  | reset

namespace SketchOp

/-- A step of a sketch beside the count of each key: a use raises its key's count up to the ceiling, and
aging halves all counts. -/
def work : FreqSketch × (BitVec 64 → Nat) → SketchOp → FreqSketch × (BitVec 64 → Nat)
  | (s, uses), .increment hash =>
    let uses' := Function.update uses hash (min (uses hash + 1) counterMax)
    (s.increment hash, if s.ages hash then fun key => uses' key / 2 else uses')
  | (s, uses), .reset => (s.reset, fun key => uses key / 2)

/-- Every counter of a key is at least the count of the key. -/
structure Covers (s : FreqSketch) (uses : BitVec 64 → Nat) : Prop where
  on : s.words ≠ 0
  most : ∀ hash, uses hash ≤ counterMax
  least : ∀ hash, ∀ i < 4, uses hash ≤ s.nibble (s.place hash i).1 (s.place hash i).2

section

variable {s : FreqSketch} {uses : BitVec 64 → Nat}

/-- Halving everything keeps the counters above the counts. -/
theorem Covers.reset (covers : Covers s uses) : Covers s.reset fun key => uses key / 2 where
  on := covers.on
  most := fun hash => (Nat.div_le_self _ _).trans (covers.most hash)
  least := fun hash i small => by
    show uses hash / 2 ≤ s.reset.nibble (s.place hash i).1 (s.place hash i).2
    rw [s.nibble_reset (s.place_inside hash i).2]
    exact Nat.div_le_div_right (covers.least hash i small)

/-- Counting a use keeps the counters above the counts. -/
theorem Covers.counted (covers : Covers s uses) (hash : BitVec 64) :
    Covers (s.counted hash) (Function.update uses hash (min (uses hash + 1) counterMax)) := by
  have frame : (s.counted hash).words = s.words ∧ (s.counted hash).mask = s.mask := by
    have words := congrArg FreqSketch.words (FreqSketch.bump_frame hash 4 s)
    have mask := congrArg FreqSketch.mask (FreqSketch.bump_frame hash 4 s)
    rw [FreqSketch.counted, if_neg covers.on]
    rcases bumped : FreqSketch.bump hash 4 s with ⟨s', _ | _⟩ <;> rw [bumped] at words mask <;>
      exact ⟨words, mask⟩
  refine ⟨by rw [frame.1]; exact covers.on, fun key => ?_, fun key i small => ?_⟩
  · by_cases here : key = hash
    · subst here
      simp
    · simpa [here] using covers.most key
  · have places : (s.counted hash).place key i = s.place key i := by
      simp only [FreqSketch.place, FreqSketch.counterAt, frame.2]
    have ceiling := s.nibble_le (s.place key i).1 (s.place key i).2
    have below := covers.least key i small
    rw [places, s.nibble_counted covers.on hash (s.place_inside key i).2]
    by_cases here : key = hash
    · subst here
      rw [Function.update_self, s.charges_place key small]
      simp only [true_and]
      split <;> omega
    · rw [Function.update_of_ne here]
      omega

/-- Every step keeps the counters above the counts. -/
theorem Covers.work (covers : Covers s uses) (op : SketchOp) :
    Covers (SketchOp.work (s, uses) op).1 (SketchOp.work (s, uses) op).2 := by
  cases op with
  | reset => exact covers.reset
  | increment hash =>
    simp only [SketchOp.work, s.increment_eq hash]
    split
    · exact (covers.counted hash).reset
    · exact covers.counted hash

end

theorem covers_new {keys : Int} (enabled : 0 < keys) : Covers (newFreqSketch keys) fun _ => 0 where
  on := by
    rw [newFreqSketch, if_neg (by omega)]
    exact (Nat.two_pow_pos _).ne'
  most := fun _ => Nat.zero_le _
  least := fun _ _ _ => Nat.zero_le _

/-- All steps keep the counters above the counts. -/
theorem covers_run {keys : Int} (enabled : 0 < keys) (ops : List SketchOp) :
    Covers (ops.foldl work (newFreqSketch keys, fun _ => 0)).1
      (ops.foldl work (newFreqSketch keys, fun _ => 0)).2 :=
  List.foldlRecOn (motive := fun state => Covers state.1 state.2) ops work (covers_new enabled)
    fun _ covers op _ => covers.work op

/-- After any steps an enabled sketch estimates each key at no less than its count and at no more than the
ceiling; the next use of a key charges four different digits, each by at most one and no other, before it may
age the sketch; and aging halves every digit on its own. -/
theorem never_underestimates {keys : Int} (enabled : 0 < keys) (ops : List SketchOp) :
    ∃ s uses, ops.foldl work (newFreqSketch keys, fun _ => 0) = (s, uses) ∧
      (∀ hash, uses hash ≤ s.estimate hash ∧ s.estimate hash ≤ counterMax) ∧
      (∀ hash, s.increment hash = if s.ages hash then (s.counted hash).reset else s.counted hash) ∧
      (∀ hash, ∀ i < 4, ∀ k < 4, s.place hash i = s.place hash k → i = k) ∧
      (∀ hash word, ∀ j < 16, (s.counted hash).nibble word j = s.nibble word j +
        if s.charges hash 4 word j ∧ s.nibble word j < counterMax then 1 else 0) ∧
      ∀ word, ∀ j < 16, s.reset.nibble word j = s.nibble word j / 2 := by
  have covers := covers_run enabled ops
  refine ⟨_, _, rfl, fun hash => ⟨?_, FreqSketch.estimate_le _ hash⟩, fun hash => FreqSketch.increment_eq _ hash,
    fun hash i smallI k smallK => FreqSketch.place_injective _ hash smallI smallK,
    fun hash word j inside => FreqSketch.nibble_counted _ covers.on hash inside,
    fun word j inside => FreqSketch.nibble_reset _ inside⟩
  exact FreqSketch.le_estimate _ covers.on hash (covers.most hash) (covers.least hash)

/-- A key used twice is estimated at two or more. -/
theorem never_underestimates_twice : 0 < (1 : Int) ∧
    2 ≤ ([increment 7#64, increment 7#64].foldl work (newFreqSketch 1, fun _ => 0)).1.estimate 7#64 := by
  have twice : ([increment 7#64, increment 7#64].foldl work (newFreqSketch 1, fun _ => 0)).2 7#64 = 2 := by
    decide +kernel
  obtain ⟨s, uses, ran, covered, _⟩ :=
    never_underestimates (show 0 < (1 : Int) by decide) [increment 7#64, increment 7#64]
  rw [ran] at twice ⊢
  exact ⟨by decide, twice ▸ (covered 7#64).1⟩

/-- A disabled sketch drops the use it is told of. -/
theorem disabled_underestimates :
    ([increment 7#64].foldl work (newFreqSketch 0, fun _ => 0)).1.estimate 7#64
      < ([increment 7#64].foldl work (newFreqSketch 0, fun _ => 0)).2 7#64 := by
  decide

end SketchOp

end Memstash
