import Memstash.Eviction.S3Fifo

/-! The ghost table of S3-FIFO against a ledger of what was pushed, consumed and displaced. -/

namespace Memstash

open Machine

variable {K : Type}

/-- The operations of the ghost table. -/
inductive GhostOp (K : Type) where
  | push (key : K)
  | hit (key : K)

/-- How many pushes there were, and which of them was the last of a fingerprint in a bucket, unless it has
been consumed or displaced since. -/
structure GhostLedger where
  pushes : Nat
  last : Nat × Nat → Option Nat

namespace GhostLedger

/-- Nothing was pushed. -/
def empty : GhostLedger := ⟨0, fun _ => none⟩

/-- A fingerprint is pushed. -/
def record (l : GhostLedger) (mark : Nat × Nat) : GhostLedger :=
  ⟨l.pushes + 1, Function.update l.last mark (some (l.pushes + 1))⟩

/-- A fingerprint is consumed or displaced. -/
def forget (l : GhostLedger) (mark : Nat × Nat) : GhostLedger := ⟨l.pushes, Function.update l.last mark none⟩

end GhostLedger

namespace GhostTable

/-- The slot a push writes. -/
def target (g : GhostTable K) (key : K) : Nat :=
  let (first, shortHash) := g.locate key
  let seq := (g.seq + 1) % 2 ^ 32
  if (g.slots first).shortHash = shortHash then first
  else if (g.slots (first + 1)).shortHash = shortHash then first + 1
  else if sub32 seq (g.slots (first + 1)).seq > sub32 seq (g.slots first).seq then first + 1
  else first

/-- The other fingerprint a push overwrites, with its bucket. -/
def displaced (g : GhostTable K) (key : K) : Option (Nat × Nat) :=
  let held := (g.slots (g.target key)).shortHash
  if held = 0 ∨ held = (g.locate key).2 then none else some ((g.locate key).1, held)

theorem push_eq {g : GhostTable K} (sized : g.slotCount ≠ 0) (key : K) :
    g.push key = { g with
      slots := Function.update g.slots (g.target key) ⟨(g.locate key).2, (g.seq + 1) % 2 ^ 32⟩
      seq := (g.seq + 1) % 2 ^ 32 } := by
  rw [push, if_neg sized]
  rfl

/-- A lookup empties the slot that remembers the key. -/
theorem hit_eq {g : GhostTable K} (sized : g.slotCount ≠ 0) (key : K) :
    g.hit key = if g.remembers (g.locate key).1 (g.locate key).2 = true then
        ({ g with slots := Function.update g.slots (g.locate key).1 default }, true)
      else if g.remembers ((g.locate key).1 + 1) (g.locate key).2 = true then
        ({ g with slots := Function.update g.slots ((g.locate key).1 + 1) default }, true)
      else (g, false) := by
  rw [hit, if_neg sized]

end GhostTable

/-- One operation, on the table and in the ledger. -/
def GhostOp.work (s : GhostTable K × GhostLedger) : GhostOp K → GhostTable K × GhostLedger
  | .push key =>
    let ledger := match s.1.displaced key with
      | none => s.2
      | some other => s.2.forget other
    (s.1.push key, ledger.record (s.1.locate key))
  | .hit key =>
    match s.1.hit key with
    | (g, true) => (g, s.2.forget (s.1.locate key))
    | (g, false) => (g, s.2)

/-- A run of operations on a new table. -/
def GhostOp.run (hash : K → BitVec 64) (capacity : Int) (ops : List (GhostOp K)) : GhostTable K × GhostLedger :=
  ops.foldl GhostOp.work (newGhostTable hash capacity, .empty)

/-- Whether an operation is a push. -/
def GhostOp.isPush : GhostOp K → Bool
  | .push _ => true
  | .hit _ => false

theorem sub32_of_le {a b : Nat} (older : b ≤ a) (small : a < 2 ^ 32) : sub32 a b = a - b := by
  unfold sub32
  omega

namespace GhostTable

variable {g : GhostTable K} {l : GhostLedger}

theorem locate_even (g : GhostTable K) (key : K) : (g.locate key).1 % 2 = 0 := by
  simp only [locate]
  omega

theorem locate_ne_zero (g : GhostTable K) (key : K) : (g.locate key).2 ≠ 0 := by
  simp only [locate]
  split <;> omega

/-- The table carries what the ledger says: every fingerprint that was neither consumed nor displaced, in one
slot of its bucket and stamped with its last push. -/
structure Ledgered (g : GhostTable K) (l : GhostLedger) : Prop where
  sized : g.slotCount ≠ 0
  seq : g.seq = l.pushes
  /-- An empty slot has no stamp, and every other was stamped by a push. -/
  stamped : ∀ i, ((g.slots i).shortHash = 0 ∧ (g.slots i).seq = 0) ∨
    ((g.slots i).shortHash ≠ 0 ∧ 0 < (g.slots i).seq ∧ (g.slots i).seq ≤ l.pushes)
  /-- The slots of a bucket differ in their fingerprints and in their stamps. -/
  apart : ∀ first, first % 2 = 0 → (g.slots first).shortHash ≠ 0 → (g.slots (first + 1)).shortHash ≠ 0 →
    (g.slots first).shortHash ≠ (g.slots (first + 1)).shortHash ∧ (g.slots first).seq ≠ (g.slots (first + 1)).seq
  carried : ∀ first fingerprint n, first % 2 = 0 → fingerprint ≠ 0 →
    (l.last (first, fingerprint) = some n ↔
      g.slots first = ⟨fingerprint, n⟩ ∨ g.slots (first + 1) = ⟨fingerprint, n⟩)

/-- A new table. -/
theorem ledgered_new (hash : K → BitVec 64) {capacity : Int} (positive : 0 < capacity) :
    (newGhostTable hash capacity).Ledgered .empty := by
  rw [newGhostTable, if_neg (by omega)]
  refine ⟨?_, rfl, fun i => .inl ⟨rfl, rfl⟩, fun first _ occupied => absurd rfl occupied, ?_⟩
  · show max _ 2 ≠ 0
    omega
  · intro first fingerprint n _ some
    refine ⟨nofun, ?_⟩
    rintro (same | same)
    · exact absurd (congrArg GhostSlot.shortHash same).symm some
    · exact absurd (congrArg GhostSlot.shortHash same).symm some

/-- What a push displaces was in the slot it writes. -/
theorem displaced_eq_some_iff (g : GhostTable K) (key : K) {mark : Nat × Nat} :
    g.displaced key = some mark ↔ mark = ((g.locate key).1, (g.slots (g.target key)).shortHash) ∧
      (g.slots (g.target key)).shortHash ≠ 0 ∧ (g.slots (g.target key)).shortHash ≠ (g.locate key).2 := by
  simp only [displaced]
  split
  · rename_i own
    exact ⟨nofun, fun ⟨_, full, strange⟩ => (own.elim full strange).elim⟩
  · rename_i other
    rw [Option.some.injEq, eq_comm]
    exact ⟨fun same => ⟨same, fun none => other (.inl none), fun own => other (.inr own)⟩, fun same => same.1⟩

/-- The two slots of a bucket, in either order. -/
def Pair (first i j : Nat) : Prop := i = first ∧ j = first + 1 ∨ i = first + 1 ∧ j = first

/-- What a push overwrites: its own fingerprint, an empty slot, or the older of two others. -/
theorem Ledgered.target (ledgered : g.Ledgered l) (few : l.pushes + 1 < 2 ^ 32) (key : K) :
    ∃ kept, Pair (g.locate key).1 (g.target key) kept ∧ (g.slots kept).shortHash ≠ (g.locate key).2 ∧
      ((g.slots (g.target key)).shortHash ≠ (g.locate key).2 → (g.slots (g.target key)).shortHash ≠ 0 →
        (g.slots kept).shortHash ≠ 0 ∧ (g.slots (g.target key)).seq < (g.slots kept).seq) := by
  have even := g.locate_even key
  have occupied := g.locate_ne_zero key
  have apart := ledgered.apart _ even
  have a := ledgered.stamped (g.locate key).1
  have b := ledgered.stamped ((g.locate key).1 + 1)
  have now : (g.seq + 1) % 2 ^ 32 = l.pushes + 1 := by rw [ledgered.seq]; omega
  have age : ∀ i, sub32 (l.pushes + 1) (g.slots i).seq = l.pushes + 1 - (g.slots i).seq := by
    intro i
    refine sub32_of_le ?_ few
    rcases ledgered.stamped i with ⟨_, none⟩ | ⟨_, _, past⟩ <;> omega
  simp only [GhostTable.target, now, age]
  split
  · rename_i own
    refine ⟨_, .inl ⟨rfl, rfl⟩, fun again => ?_, fun strange => absurd own strange⟩
    exact (apart (own ▸ occupied) (again ▸ occupied)).1 (own.trans again.symm)
  · rename_i strangeA
    split
    · rename_i own
      exact ⟨_, .inr ⟨rfl, rfl⟩, strangeA, fun strange => absurd own strange⟩
    · rename_i strangeB
      split
      · -- The second slot is older, so the first was stamped.
        rename_i older
        exact ⟨_, .inr ⟨rfl, rfl⟩, strangeA, fun _ _ => by omega⟩
      · rename_i younger
        refine ⟨_, .inl ⟨rfl, rfl⟩, strangeB, fun _ full => ?_⟩
        have later : (g.slots ((g.locate key).1 + 1)).shortHash ≠ 0 := by omega
        have differ := (apart full later).2
        omega

theorem Pair.ne {first other i j : Nat} (pair : Pair first i j) (even : first % 2 = 0) (even' : other % 2 = 0)
    (apart : other ≠ first) : other ≠ i ∧ other + 1 ≠ i := by
  unfold Pair at pair
  omega

theorem Pair.or_iff {first i j : Nat} (pair : Pair first i j) (p : Nat → Prop) :
    p first ∨ p (first + 1) ↔ p i ∨ p j := by
  rcases pair with ⟨rfl, rfl⟩ | ⟨rfl, rfl⟩
  · exact Iff.rfl
  · exact or_comm

/-- Slots that are both occupied differ in their fingerprints and in their stamps. -/
theorem Ledgered.apart_pair (ledgered : g.Ledgered l) {first i j : Nat} (pair : Pair first i j)
    (even : first % 2 = 0) (full : (g.slots i).shortHash ≠ 0) (full' : (g.slots j).shortHash ≠ 0) :
    (g.slots i).shortHash ≠ (g.slots j).shortHash ∧ (g.slots i).seq ≠ (g.slots j).seq := by
  rcases pair with ⟨rfl, rfl⟩ | ⟨rfl, rfl⟩
  · exact ledgered.apart _ even full full'
  · obtain ⟨fingerprints, stamps⟩ := ledgered.apart _ even full' full
    exact ⟨fingerprints.symm, stamps.symm⟩

/-- Writing one slot of a bucket, when the ledger is brought up to date for that bucket. -/
theorem Ledgered.write (ledgered : g.Ledgered l) {first i kept : Nat} (pair : Pair first i kept)
    (even : first % 2 = 0) {slot : GhostSlot} {l' : GhostLedger} (later : l.pushes ≤ l'.pushes)
    (others : ∀ other fingerprint, other ≠ first → l'.last (other, fingerprint) = l.last (other, fingerprint))
    (stamped : (slot.shortHash = 0 ∧ slot.seq = 0) ∨
      (slot.shortHash ≠ 0 ∧ 0 < slot.seq ∧ slot.seq ≤ l'.pushes))
    (apart : slot.shortHash ≠ 0 → (g.slots kept).shortHash ≠ 0 →
      slot.shortHash ≠ (g.slots kept).shortHash ∧ slot.seq ≠ (g.slots kept).seq)
    (carried : ∀ fingerprint n, fingerprint ≠ 0 → (l'.last (first, fingerprint) = some n ↔
      slot = ⟨fingerprint, n⟩ ∨ g.slots kept = ⟨fingerprint, n⟩)) :
    ({ g with slots := Function.update g.slots i slot, seq := l'.pushes } : GhostTable K).Ledgered l' := by
  have differ : kept ≠ i := by
    unfold Pair at pair
    omega
  have elsewhere : ∀ other, other % 2 = 0 → other ≠ first →
      Function.update g.slots i slot other = g.slots other ∧
        Function.update g.slots i slot (other + 1) = g.slots (other + 1) := by
    intro other even' away
    obtain ⟨neither, nor⟩ := pair.ne even even' away
    exact ⟨Function.update_of_ne neither _ _, Function.update_of_ne nor _ _⟩
  refine ⟨ledgered.sized, rfl, fun j => ?_, fun other even' => ?_, fun other fingerprint n even' some => ?_⟩
  · show ((Function.update g.slots i slot j).shortHash = 0 ∧ _) ∨ _
    by_cases here : j = i
    · subst here
      simpa using stamped
    · dsimp only
      rw [Function.update_of_ne here]
      refine (ledgered.stamped j).imp_right fun ⟨full, positive, past⟩ => ⟨full, positive, past.trans later⟩
  · dsimp only
    by_cases here : other = first
    · subst here
      -- In the bucket itself the new slot stands beside the one that was kept.
      have own := Function.update_self i slot g.slots
      have same := Function.update_of_ne differ slot g.slots
      rcases pair with ⟨rfl, rfl⟩ | ⟨rfl, rfl⟩
      · rw [own, same]
        exact apart
      · rw [own, same]
        intro full full'
        obtain ⟨fingerprints, stamps⟩ := apart full' full
        exact ⟨fingerprints.symm, stamps.symm⟩
    · obtain ⟨a, b⟩ := elsewhere other even' here
      rw [a, b]
      exact ledgered.apart other even'
  · dsimp only
    by_cases here : other = first
    · subst here
      rw [pair.or_iff fun j => Function.update g.slots i slot j = ⟨fingerprint, n⟩, Function.update_self,
        Function.update_of_ne differ]
      exact carried fingerprint n some
    · obtain ⟨a, b⟩ := elsewhere other even' here
      rw [a, b, others other fingerprint here]
      exact ledgered.carried other fingerprint n even' some

/-- A push keeps the table with the ledger. -/
theorem Ledgered.push (ledgered : g.Ledgered l) (few : l.pushes + 1 < 2 ^ 32) (key : K) :
    (GhostOp.work (g, l) (.push key)).1.Ledgered (GhostOp.work (g, l) (.push key)).2 := by
  obtain ⟨kept, pair, strange, _⟩ := ledgered.target few key
  have even := g.locate_even key
  have full := g.locate_ne_zero key
  have now : (g.seq + 1) % 2 ^ 32 = l.pushes + 1 := by rw [ledgered.seq]; omega
  have past : (g.slots kept).seq ≤ l.pushes := by
    rcases ledgered.stamped kept with ⟨_, none⟩ | ⟨_, _, past⟩ <;> omega
  -- The ledger after the push, whatever was displaced.
  have pushes : (GhostOp.work (g, l) (.push key)).2.pushes = l.pushes + 1 := by
    simp only [GhostOp.work, GhostLedger.record]
    split <;> rfl
  have last : ∀ mark, (GhostOp.work (g, l) (.push key)).2.last mark
      = if mark = g.locate key then some (l.pushes + 1)
        else if g.displaced key = some mark then none else l.last mark := by
    intro mark
    simp only [GhostOp.work, GhostLedger.record, GhostLedger.forget, Function.update_apply]
    cases gone : g.displaced key with
    | none => simp
    | some other =>
      by_cases own : mark = g.locate key
      · simp [own]
      · by_cases same : mark = other
        · simp [same]
        · simp [own, same, Ne.symm same]
  have written : (GhostOp.work (g, l) (.push key)).1 = { g with
      slots := Function.update g.slots (g.target key) ⟨(g.locate key).2, l.pushes + 1⟩
      seq := (GhostOp.work (g, l) (.push key)).2.pushes } := by
    rw [pushes, ← now]
    exact push_eq ledgered.sized key
  rw [written]
  refine ledgered.write pair even (by omega) (fun other fingerprint away => ?_) (.inr ⟨full, by simp, ?_⟩)
    (fun _ _ => ⟨strange.symm, ?_⟩) fun fingerprint n nonzero => ?_
  · rw [last, if_neg fun same => away (congrArg Prod.fst same), if_neg]
    intro gone
    exact away (congrArg Prod.fst ((displaced_eq_some_iff g key).mp gone).1)
  · rw [pushes]
  · dsimp only
    omega
  · rw [last]
    by_cases own : fingerprint = (g.locate key).2
    · -- The pushed fingerprint is in the slot that was written, and only there.
      subst own
      rw [if_pos rfl]
      refine ⟨fun same => .inl ?_, ?_⟩
      · rw [Option.some.inj same]
      · rintro (same | same)
        · exact congrArg some (congrArg GhostSlot.seq same)
        · exact absurd (congrArg GhostSlot.shortHash same) strange
    · rw [if_neg fun same => own (congrArg Prod.snd same)]
      have elsewhere : (⟨(g.locate key).2, l.pushes + 1⟩ : GhostSlot) ≠ ⟨fingerprint, n⟩ :=
        fun same => own (congrArg GhostSlot.shortHash same).symm
      by_cases held : (g.slots (g.target key)).shortHash = fingerprint
      · rw [if_pos ((displaced_eq_some_iff g key).mpr ⟨by rw [held], held ▸ nonzero, held ▸ own⟩)]
        refine ⟨nofun, ?_⟩
        rintro (same | same)
        · exact absurd same elsewhere
        · -- A displaced fingerprint was not in the other slot as well.
          have again := congrArg GhostSlot.shortHash same
          exact absurd (held.trans again.symm) (ledgered.apart_pair pair even (held ▸ nonzero) (again ▸ nonzero)).1
      · rw [if_neg fun gone => held (congrArg Prod.snd ((displaced_eq_some_iff g key).mp gone).1).symm,
          ledgered.carried _ fingerprint n even nonzero, pair.or_iff fun j => g.slots j = ⟨fingerprint, n⟩]
        have gone : g.slots (g.target key) ≠ ⟨fingerprint, n⟩ := fun same => held (congrArg GhostSlot.shortHash same)
        simp only [elsewhere, gone]

/-- A slot remembers a fingerprint that was pushed within the age window. -/
theorem Ledgered.remembers_iff (ledgered : g.Ledgered l) (few : l.pushes < 2 ^ 32) (i fingerprint : Nat) :
    g.remembers i fingerprint = true ↔
      ∃ n, g.slots i = ⟨fingerprint, n⟩ ∧ l.pushes - n < g.ageWindow := by
  have past : (g.slots i).seq ≤ l.pushes := by
    rcases ledgered.stamped i with ⟨_, none⟩ | ⟨_, _, past⟩ <;> omega
  rw [remembers, Bool.and_eq_true, beq_iff_eq, decide_eq_true_iff, ledgered.seq, sub32_of_le past few]
  constructor
  · rintro ⟨same, young⟩
    exact ⟨(g.slots i).seq, by rw [← same], young⟩
  · rintro ⟨n, same, young⟩
    rw [same]
    exact ⟨rfl, young⟩

/-- A hit is what the ledger says: the last push of the fingerprint is there, and young enough. -/
theorem Ledgered.hit_iff (ledgered : g.Ledgered l) (few : l.pushes < 2 ^ 32) (key : K) :
    (g.hit key).2 = true ↔ ∃ n, l.last (g.locate key) = some n ∧ l.pushes - n < g.ageWindow := by
  have either : (g.hit key).2 = true ↔ g.remembers (g.locate key).1 (g.locate key).2 = true ∨
      g.remembers ((g.locate key).1 + 1) (g.locate key).2 = true := by
    rw [hit_eq ledgered.sized]
    split
    · simp_all
    · split <;> simp_all
  have carried := fun n => ledgered.carried (g.locate key).1 (g.locate key).2 n (g.locate_even key)
    (g.locate_ne_zero key)
  simp only [either, ledgered.remembers_iff few, carried, ← exists_or, ← or_and_right]

/-- A lookup keeps the table with the ledger. -/
theorem Ledgered.hit (ledgered : g.Ledgered l) (few : l.pushes < 2 ^ 32) (key : K) :
    (GhostOp.work (g, l) (.hit key)).1.Ledgered (GhostOp.work (g, l) (.hit key)).2 := by
  have even := g.locate_even key
  -- Emptying the slot of the fingerprint.
  have consumed : ∀ {i kept : Nat}, Pair (g.locate key).1 i kept → g.remembers i (g.locate key).2 = true →
      ({ g with slots := Function.update g.slots i default } : GhostTable K).Ledgered (l.forget (g.locate key)) := by
    intro i kept pair remembered
    obtain ⟨n, held, _⟩ := (ledgered.remembers_iff few i _).mp remembered
    have emptied : ({ g with slots := Function.update g.slots i default } : GhostTable K)
        = { g with slots := Function.update g.slots i default, seq := (l.forget (g.locate key)).pushes } := by
      rw [show (l.forget (g.locate key)).pushes = g.seq from ledgered.seq.symm]
    rw [emptied]
    refine ledgered.write pair even le_rfl (fun other fingerprint away => ?_) (.inl ⟨rfl, rfl⟩)
      (fun full => absurd rfl full) fun fingerprint m nonzero => ?_
    · exact Function.update_of_ne (fun same => away (congrArg Prod.fst same)) _ _
    · have nothing : (default : GhostSlot) ≠ ⟨fingerprint, m⟩ :=
        fun same => nonzero (congrArg GhostSlot.shortHash same).symm
      by_cases own : fingerprint = (g.locate key).2
      · subst own
        have kept' : g.slots kept ≠ ⟨(g.locate key).2, m⟩ := by
          intro again
          refine (ledgered.apart_pair pair even ?_ ?_).1 ?_ <;> simp [held, again, nonzero]
        simp [GhostLedger.forget, nothing, kept']
      · have apart : ((g.locate key).1, fingerprint) ≠ g.locate key := fun same => own (congrArg Prod.snd same)
        have gone : g.slots i ≠ ⟨fingerprint, m⟩ := by
          rw [held]
          exact fun same => own (congrArg GhostSlot.shortHash same).symm
        have same : (l.forget (g.locate key)).last ((g.locate key).1, fingerprint)
            = l.last ((g.locate key).1, fingerprint) := Function.update_of_ne apart _ _
        rw [same, ledgered.carried _ fingerprint m even nonzero,
          pair.or_iff fun j => g.slots j = ⟨fingerprint, m⟩]
        simp only [nothing, gone]
  simp only [GhostOp.work, hit_eq ledgered.sized]
  by_cases a : g.remembers (g.locate key).1 (g.locate key).2 = true
  · rw [if_pos a]
    exact consumed (.inl ⟨rfl, rfl⟩) a
  · rw [if_neg a]
    by_cases b : g.remembers ((g.locate key).1 + 1) (g.locate key).2 = true
    · rw [if_pos b]
      exact consumed (.inr ⟨rfl, rfl⟩) b
    · rw [if_neg b]
      exact ledgered

end GhostTable

namespace GhostOp

open GhostTable

variable {capacity : Int}

theorem run_append (hash : K → BitVec 64) (capacity : Int) (ops : List (GhostOp K)) (op : GhostOp K) :
    run hash capacity (ops ++ [op]) = work (run hash capacity ops) op := by
  simp [run]

theorem work_pushes (s : GhostTable K × GhostLedger) (op : GhostOp K) :
    (work s op).2.pushes = s.2.pushes + if op.isPush then 1 else 0 := by
  cases op with
  | push key =>
    simp only [work, GhostLedger.record, isPush]
    split <;> rfl
  | hit key =>
    simp only [work]
    split <;> rfl

/-- The table stays with the ledger for as long as the sequence number has not wrapped. -/
theorem run_ledgered (hash : K → BitVec 64) (positive : 0 < capacity) (ops : List (GhostOp K)) (few : ops.countP isPush < 2 ^ 32) :
    (run hash capacity ops).1.Ledgered (run hash capacity ops).2 ∧
      (run hash capacity ops).2.pushes = ops.countP isPush := by
  induction ops using List.reverseRecOn with
  | nil => exact ⟨ledgered_new hash positive, rfl⟩
  | append_singleton ops op ih =>
    rw [List.countP_append] at few
    obtain ⟨ledgered, pushes⟩ := ih (by omega)
    rw [run_append, List.countP_append]
    refine ⟨?_, ?_⟩
    · cases op with
      | push key =>
        refine ledgered.push ?_ key
        rw [pushes]
        simpa [isPush] using few
      | hit key => exact ledgered.hit (by omega) key
    · rw [work_pushes, pushes]
      cases op <;> rfl

/-- In every run of fewer than 2^32 pushes, a lookup hits exactly when the last push of its fingerprint is
within the age window and was neither consumed nor displaced since, no fingerprint is in both slots of a
bucket, and a push displaces another fingerprint only from a full bucket, and then the older one. -/
theorem forgets_by_age (hash : K → BitVec 64) (positive : 0 < capacity) (ops : List (GhostOp K))
    (few : ops.countP isPush < 2 ^ 32) :
    (∀ key, ((run hash capacity ops).1.hit key).2 = true ↔
      ∃ n, (run hash capacity ops).2.last ((run hash capacity ops).1.locate key) = some n ∧
        (run hash capacity ops).2.pushes - n < (run hash capacity ops).1.ageWindow) ∧
    (∀ first, first % 2 = 0 → ((run hash capacity ops).1.slots first).shortHash ≠ 0 →
      ((run hash capacity ops).1.slots first).shortHash ≠ ((run hash capacity ops).1.slots (first + 1)).shortHash) ∧
    ∀ before key later, ops = before ++ .push key :: later →
      ∀ other, (run hash capacity before).1.displaced key = some other →
        ((run hash capacity before).1.slots other.1).shortHash ≠ 0 ∧
        ((run hash capacity before).1.slots (other.1 + 1)).shortHash ≠ 0 ∧
        ∃ kept n m, kept ≠ other.2 ∧ (run hash capacity before).2.last other = some n ∧
          (run hash capacity before).2.last (other.1, kept) = some m ∧ n < m := by
  obtain ⟨ledgered, pushes⟩ := run_ledgered hash positive ops few
  refine ⟨fun key => ledgered.hit_iff (by omega) key, fun first even full same => ?_, ?_⟩
  · exact (ledgered.apart first even full (same ▸ full)).1 same
  · rintro before key later rfl other gone
    have fewer : before.countP isPush + 1 < 2 ^ 32 := by
      rw [List.countP_append, List.countP_cons] at few
      simp only [isPush, if_true] at few
      omega
    obtain ⟨ledgered, pushes⟩ := run_ledgered hash positive before (by omega)
    obtain ⟨rfl, full, strange⟩ := (displaced_eq_some_iff _ key).mp gone
    obtain ⟨kept, pair, _, older⟩ := ledgered.target (by omega) key
    obtain ⟨full', stamps⟩ := older strange full
    have even := (run hash capacity before).1.locate_even key
    have carried : ∀ i, i = (run hash capacity before).1.target key ∨ i = kept →
        ((run hash capacity before).1.slots i).shortHash ≠ 0 →
        (run hash capacity before).2.last (((run hash capacity before).1.locate key).1,
          ((run hash capacity before).1.slots i).shortHash) = some ((run hash capacity before).1.slots i).seq := by
      intro i here nonzero
      refine (ledgered.carried _ _ _ even nonzero).mpr ((pair.or_iff fun j =>
        (run hash capacity before).1.slots j = _).mpr ?_)
      exact here.imp (fun same => by rw [← same]) fun same => by rw [← same]
    have both : ((run hash capacity before).1.slots ((run hash capacity before).1.locate key).1).shortHash ≠ 0 ∧
        ((run hash capacity before).1.slots (((run hash capacity before).1.locate key).1 + 1)).shortHash ≠ 0 := by
      rcases pair with ⟨here, rfl⟩ | ⟨here, rfl⟩
      · rw [here] at full
        exact ⟨full, full'⟩
      · rw [here] at full
        exact ⟨full', full⟩
    exact ⟨both.1, both.2, ((run hash capacity before).1.slots kept).shortHash, _, _,
      (ledgered.apart_pair pair even full full').1.symm, carried _ (.inl rfl) full, carried _ (.inr rfl) full',
      stamps⟩

/-- Two keys with fingerprints of their own, in one bucket. -/
def twoMarks (key : Bool) : BitVec 64 := if key then 2#64 <<< 32 else 1#64 <<< 32

/-- A key that was pushed before another is found. -/
theorem forgets_by_age_two : ((run twoMarks 2 [.push false, .push true]).1.hit false).2 = true := by
  refine ((forgets_by_age twoMarks (by decide) [.push false, .push true] (by decide)).1 false).mpr ⟨1, ?_, ?_⟩
  · decide +kernel
  · decide +kernel

/-- A table of one bucket for both keys. -/
def markTable (slots : Nat → GhostSlot) (seq : Nat) : GhostTable Bool :=
  { newGhostTable twoMarks 2 with slots := slots, seq := seq }

/-- Both keys are in the bucket, each under its fingerprint. -/
theorem markTable_locate (slots : Nat → GhostSlot) (seq : Nat) (key : Bool) :
    (markTable slots seq).locate key = (0, if key then 2 else 1) := by
  have mask : (markTable slots seq).mask = 0 := by
    show (newGhostTable twoMarks 2).mask = 0
    decide +kernel
  have marks : (twoMarks key).toNat / 2 ^ 32 = if key then 2 else 1 := by
    cases key <;> decide
  have hash : (markTable slots seq).hash key = twoMarks key := by
    show (newGhostTable twoMarks 2).hash key = _
    cases key <;> decide +kernel
  simp only [locate, mask, hash, marks, Nat.and_zero]
  cases key <;> rfl

/-- A push that displaces nothing, in the table of both keys. -/
theorem work_markTable {slots : Nat → GhostSlot} {seq i : Nat} {key : Bool}
    (target : (markTable slots seq).target key = i)
    (own : (slots i).shortHash = 0 ∨ (slots i).shortHash = if key then 2 else 1) (l : GhostLedger) :
    work (markTable slots seq, l) (.push key)
      = (markTable (Function.update slots i ⟨if key then 2 else 1, (seq + 1) % 2 ^ 32⟩) ((seq + 1) % 2 ^ 32),
        l.record (0, if key then 2 else 1)) := by
  have none : (markTable slots seq).displaced key = none := by
    simp only [displaced, target, markTable_locate]
    exact if_pos own
  have sized : (markTable slots seq).slotCount ≠ 0 := by
    show (newGhostTable twoMarks 2).slotCount ≠ 0
    decide +kernel
  simp only [work, none, push_eq sized, target, markTable_locate]
  rfl

/-- The slots of the bucket, when the first key was pushed first and the second last. -/
def bothMarks (seq : Nat) : Nat → GhostSlot := Function.update (Function.update (fun _ => default) 0 ⟨1, 1⟩) 1 ⟨2, seq⟩

/-- A key is pushed, and then another one over and over. -/
theorem run_replicate (n : Nat) : ∃ last, last (0, 1) = some 1 ∧
    run twoMarks 2 (.push false :: List.replicate (n + 1) (.push true))
      = (markTable (bothMarks ((n + 2) % 2 ^ 32)) ((n + 2) % 2 ^ 32), ⟨n + 2, last⟩) := by
  induction n with
  | zero =>
    have new : newGhostTable twoMarks 2 = markTable (fun _ => default) 0 := by
      unfold markTable newGhostTable
      split <;> rfl
    have first : (markTable (fun _ => default) 0).target false = 0 := by decide +kernel
    have second : (markTable (Function.update (fun _ => default) 0 ⟨1, 1⟩) 1).target true = 1 := by decide +kernel
    refine ⟨((GhostLedger.empty.record (0, 1)).record (0, 2)).last, rfl, ?_⟩
    show work (work (newGhostTable twoMarks 2, .empty) (.push false)) (.push true) = _
    rw [new, work_markTable first (.inl rfl)]
    exact work_markTable second (.inl rfl) _
  | succ n ih =>
    obtain ⟨last, kept, ran⟩ := ih
    have target : (markTable (bothMarks ((n + 2) % 2 ^ 32)) ((n + 2) % 2 ^ 32)).target true = 1 := by
      simp only [GhostTable.target, markTable_locate]
      simp [markTable, bothMarks]
    rw [List.replicate_succ', ← List.cons_append, run_append, ran, work_markTable target (.inr rfl),
      Nat.mod_add_mod]
    refine ⟨Function.update last (0, 2) (some (n + 3)), ?_, ?_⟩
    · simp [kept]
    · simp [bothMarks, GhostLedger.record]

/-- After 2^32 more pushes the sequence number is where it was: a key that was pushed before all of them is
found again, in a table that should remember the last two pushes. -/
theorem wrapped_hit :
    ((run twoMarks 2 (.push false :: List.replicate (2 ^ 32) (.push true))).1.hit false).2 = true ∧
    (run twoMarks 2 (.push false :: List.replicate (2 ^ 32) (.push true))).1.ageWindow = 2 ∧
    (run twoMarks 2 (.push false :: List.replicate (2 ^ 32) (.push true))).2.pushes = 2 ^ 32 + 1 ∧
    (run twoMarks 2 (.push false :: List.replicate (2 ^ 32) (.push true))).2.last
      ((run twoMarks 2 (.push false :: List.replicate (2 ^ 32) (.push true))).1.locate false) = some 1 := by
  obtain ⟨last, kept, ran⟩ := run_replicate (2 ^ 32 - 1)
  have size : 2 ^ 32 - 1 + 1 = 2 ^ 32 := by norm_num
  have back : (2 ^ 32 - 1 + 2) % 2 ^ 32 = 1 := by norm_num
  rw [size, back] at ran
  rw [ran]
  refine ⟨?_, ?_, by norm_num, ?_⟩
  · show ((markTable (bothMarks 1) 1).hit false).2 = true
    decide +kernel
  · show (newGhostTable twoMarks 2).ageWindow = 2
    decide +kernel
  · rw [markTable_locate]
    exact kept

end GhostOp

end Memstash
