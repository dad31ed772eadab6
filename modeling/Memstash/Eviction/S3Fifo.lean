import Memstash.Eviction.TwoQueues
import Memstash.Lib.Machine

/-! S3-FIFO: a quarantine for newcomers, a GCLOCK main queue, and a memory of evicted keys. -/

namespace Memstash

open Scan Turns Machine

variable {K V : Type}

/-- One fingerprint of an evicted key, with the push that stored it. -/
structure GhostSlot where
  shortHash : Nat
  seq : Nat
  deriving DecidableEq, Repr, Inhabited

/-- Fingerprints of recently evicted keys in a 2-way set-associative table. -/
structure GhostTable (K : Type) where
  hash : K → BitVec 64
  slots : Nat → GhostSlot
  slotCount : Nat
  mask : Nat
  seq : Nat
  ageWindow : Nat

/-- A table of at least `capacity` slots, rounded up to a power of two. -/
def newGhostTable (hash : K → BitVec 64) (capacity : Int) : GhostTable K :=
  if capacity ≤ 0 then
    { hash, slots := fun _ => default, slotCount := 0, mask := 0, seq := 0, ageWindow := 0 }
  else
    -- A bucket holds a full pair of slots.
    let slots := max (2 ^ (capacity.toNat - 1).size) 2
    { hash, slots := fun _ => default, slotCount := slots, mask := (slots / 2 - 1) % 2 ^ 32,
      seq := 0, ageWindow := slots % 2 ^ 32 }

namespace GhostTable

/-- The first slot of a key's bucket, and the key's fingerprint. -/
def locate (g : GhostTable K) (key : K) : Nat × Nat :=
  let hash := (g.hash key).toNat
  let shortHash := hash / 2 ^ 32
  (((hash % 2 ^ 32) &&& g.mask) * 2 % 2 ^ 32, if shortHash = 0 then 1 else shortHash)

/-- Record a key in its own slot if it has one, else in the older slot of its bucket. -/
def push (g : GhostTable K) (key : K) : GhostTable K :=
  if g.slotCount = 0 then g
  else
    let (first, shortHash) := g.locate key
    let seq := (g.seq + 1) % 2 ^ 32
    let a := g.slots first
    let b := g.slots (first + 1)
    let target :=
      if a.shortHash = shortHash then first
      else if b.shortHash = shortHash then first + 1
      else if sub32 seq b.seq > sub32 seq a.seq then first + 1
      else first
    { g with slots := Function.update g.slots target { shortHash, seq }, seq := seq }

/-- Whether a slot holds the fingerprint and was stored within the age window. -/
def remembers (g : GhostTable K) (slot : Nat) (shortHash : Nat) : Bool :=
  (g.slots slot).shortHash == shortHash && sub32 g.seq (g.slots slot).seq < g.ageWindow

/-- Whether the key was pushed recently, consuming the entry on a hit. -/
def hit (g : GhostTable K) (key : K) : GhostTable K × Bool :=
  if g.slotCount = 0 then (g, false)
  else
    let (first, shortHash) := g.locate key
    if g.remembers first shortHash then
      ({ g with slots := Function.update g.slots first default }, true)
    else if g.remembers (first + 1) shortHash then
      ({ g with slots := Function.update g.slots (first + 1) default }, true)
    else (g, false)

end GhostTable

/-- The S3-FIFO policy. -/
structure S3FIFOPolicy (K : Type) where
  small : EvictQueue
  main : EvictQueue
  ghost : GhostTable K
  smallWeight : Int
  smallCap : Int

/-- A policy for a shard of the given capacity, remembering `ghostSize` evicted keys. -/
def newS3FIFO (hash : K → BitVec 64) (shardCap ghostSize : Int) : S3FIFOPolicy K :=
  { small := default, main := default, ghost := newGhostTable hash ghostSize, smallWeight := 0,
    smallCap := max (shardCap.tdiv 10) 1 }

namespace S3FIFOPolicy

/-- Queue a new item, straight in main if it was evicted recently. -/
def add (p : S3FIFOPolicy K) (t : FlatHashMap K V) (node : QNode) : S3FIFOPolicy K :=
  match p.ghost.hit (t.itemAt node.idx).entry.key with
  | (ghost, true) => { p with ghost := ghost, main := p.main.push node }
  | (ghost, false) =>
    { p with ghost := ghost, small := p.small.push node,
             smallWeight := int64 (p.smallWeight + node.cost) }

/-- How many nodes are queued. -/
def len (p : S3FIFOPolicy K) : Nat := p.small.size + p.main.size

/-- Drop the nodes of dead items, releasing each. -/
def sweep {σ : Type} (buried : σ → Nat → Bool) (release : σ → Nat → σ) (p : S3FIFOPolicy K) (s : σ) :
    S3FIFOPolicy K × σ :=
  -- Dead nodes that leave small give their weight back.
  let (small, smallWeight, s) := sweepWeighed buried release
    (fun weight node => int64 (weight - node.cost)) p.small p.smallWeight s
  let (main, _, s) := sweepWeighed buried release (fun weight _ => weight) p.main 0 s
  ({ p with small := small, main := main, smallWeight := smallWeight }, s)

/-- Re-link the queues after a table swap. -/
def rebuild {σ : Type} (remap : σ → Nat → Except Fault (σ × Option Nat)) (p : S3FIFOPolicy K)
    (s : σ) : Except Fault (S3FIFOPolicy K × σ) := do
  let (small, smallWeight, s) ← rebuildWeighed remap
    (fun weight node => int64 (weight - node.cost)) p.small p.smallWeight s
  let (main, _, s) ← rebuildWeighed remap (fun weight _ => weight) p.main 0 s
  return ({ p with small := small, main := main, smallWeight := smallWeight }, s)

/-- Look at the head of small: it is given up, or promoted to main with a clean counter. -/
def evictSmallOnce (p : S3FIFOPolicy K) (t : FlatHashMap K V) (nowOff : Nat) :
    S3FIFOPolicy K × FlatHashMap K V × Option Nat :=
  match p.small.pop with
  | (none, small) => ({ p with small := small }, t, none)
  | (some candidate, small) =>
    let p := { p with small := small, smallWeight := int64 (p.smallWeight - candidate.cost) }
    let item := t.itemAt candidate.idx
    match judge item.metaWord nowOff with
    | .reclaim => (p, t, some candidate.idx)
    | .touched =>
      ({ p with main := p.main.push candidate }, t.put candidate.idx item.resetChances, none)
    | .idle => ({ p with ghost := p.ghost.push item.entry.key }, t, some candidate.idx)

/-- One GCLOCK step over main. -/
def evictMainOnce (p : S3FIFOPolicy K) (t : FlatHashMap K V) (nowOff : Nat) :
    S3FIFOPolicy K × FlatHashMap K V × Option Nat :=
  match clockStep p.main t nowOff with
  | none => (p, t, none)
  | some step =>
    ({ p with main := step.q }, step.t, if step.reclaimed then some step.candidate.idx else none)

/-- The quarantine and the main queue, the former too heavy when over its target. -/
def queues : TwoQueues (S3FIFOPolicy K) where
  front p := p.small
  main p := p.main
  heavy p := p.smallWeight > p.smallCap

/-- Choose an item to give up. -/
def evict (p : S3FIFOPolicy K) (t : FlatHashMap K V) (nowOff : Nat) :
    Except Fault (S3FIFOPolicy K × FlatHashMap K V × Option Nat) :=
  -- One promotion or two chances for each node, and the turn that ends the loop.
  turns (queues.turn (fun p t => p.evictSmallOnce t nowOff) fun p t => p.evictMainOnce t nowOff)
    (2 * p.len + 1) (p, t)

/-- Both queues are well formed. -/
abbrev Valid (p : S3FIFOPolicy K) : Prop := queues.Valid p

/-- The queued nodes, newcomers first. -/
abbrev nodes (p : S3FIFOPolicy K) : List QNode := queues.nodes p

/-- Looking at small gives its head up or moves it to main. -/
theorem evictSmallOnce_spec {p : S3FIFOPolicy K} (valid : p.Valid) (t : FlatHashMap K V) (nowOff : Nat)
    (some_small : p.small.toList ≠ []) : queues.LookSpec p t (p.evictSmallOnce t nowOff) := by
  have validSmall : p.small.Valid := valid.1
  have validMain : p.main.Valid := valid.2
  obtain ⟨node, rest, list⟩ := List.exists_cons_of_ne_nil some_small
  obtain ⟨small, popped, validSmall', list'⟩ := EvictQueue.pop_cons validSmall list
  cases verdict : judge (t.itemAt node.idx).metaWord nowOff with
  | reclaim =>
    simp only [evictSmallOnce, popped, verdict]
    exact .giveUp ⟨validSmall', validMain⟩ list list' rfl
  | idle =>
    simp only [evictSmallOnce, popped, verdict]
    exact .giveUp ⟨validSmall', validMain⟩ list list' rfl
  | touched =>
    have clean := Item.resetChances_chances (t.itemAt node.idx)
    obtain ⟨word, entry⟩ := Item.resetChances_steady (t.itemAt node.idx)
    have only := FlatHashMap.OnlyChances.put word entry (by omega)
    obtain ⟨pushed, listed⟩ := EvictQueue.push_spec validMain node
    simp only [evictSmallOnce, popped, verdict]
    exact .promote ⟨validSmall', pushed⟩ only
      (by simpa [FlatHashMap.itemAt, FlatHashMap.put_slots] using clean) list list' listed

/-- Looking at main gives its head up or spends one of its chances. -/
theorem evictMainOnce_spec {p : S3FIFOPolicy K} (valid : p.Valid) (t : FlatHashMap K V) (nowOff : Nat)
    (some_main : p.main.toList ≠ []) : queues.LookSpec p t (p.evictMainOnce t nowOff) := by
  have validMain : p.main.Valid := valid.2
  obtain ⟨node, rest, list⟩ := List.exists_cons_of_ne_nil some_main
  obtain ⟨step, stepped, spec⟩ := clockStep_cons validMain list t nowOff
  simp only [evictMainOnce, stepped]
  exact .clock ⟨valid.1, spec.valid⟩ spec list rfl rfl

/-- An eviction always ends, and takes one queued node unless there is none. -/
theorem evict_spec {p : S3FIFOPolicy K} (valid : p.Valid) (t : FlatHashMap K V) (nowOff : Nat) :
    ∃ p' t' victim, p.evict t nowOff = .ok (p', t', victim) ∧ p'.Valid ∧
      Evicted p.nodes p'.nodes t t' victim :=
  TwoQueues.turns_spec (fun _ t valid some_small => evictSmallOnce_spec valid t nowOff some_small)
    (fun _ t valid some_main => evictMainOnce_spec valid t nowOff some_main) valid t

/-- A new item is queued once, whichever queue takes it. -/
theorem add_spec {p : S3FIFOPolicy K} (valid : p.Valid) (t : FlatHashMap K V) (node : QNode) :
    (p.add t node).Valid ∧ (p.add t node).nodes.Perm (node :: p.nodes) := by
  have validSmall : p.small.Valid := valid.1
  have validMain : p.main.Valid := valid.2
  unfold add
  split
  · obtain ⟨pushed, listed⟩ := EvictQueue.push_spec validMain node
    refine ⟨⟨validSmall, pushed⟩, ?_⟩
    simp only [TwoQueues.nodes, queues, listed, ← List.append_assoc]
    exact List.perm_append_singleton node _
  · obtain ⟨pushed, listed⟩ := EvictQueue.push_spec validSmall node
    refine ⟨⟨pushed, validMain⟩, ?_⟩
    simp only [TwoQueues.nodes, queues, listed]
    exact (List.perm_append_singleton node _).append_right _

/-- A sweep of the policy sweeps both queues. -/
theorem sweep_spec {σ : Type} {buried : σ → Nat → Bool} {release : σ → Nat → σ}
    (stable : ∀ s idx other, buried (release s idx) other = buried s other) {p : S3FIFOPolicy K}
    (valid : p.Valid) (s : σ) :
    (p.sweep buried release s).1.Valid ∧
      Swept buried release p.nodes (p.sweep buried release s).1.nodes s
        (p.sweep buried release s).2 := by
  obtain ⟨small, sweptSmall⟩ := sweepWeighed_spec stable
    (fun weight node => int64 (weight - node.cost)) valid.1 p.smallWeight s
  obtain ⟨main, sweptMain⟩ := sweepWeighed_spec stable (fun weight _ => weight) valid.2 0
    (sweepWeighed buried release (fun weight node => int64 (weight - node.cost)) p.small
      p.smallWeight s).2.2
  exact ⟨⟨small, main⟩, sweptSmall.append stable sweptMain⟩

/-- A rebuild of the policy re-links small and then main. -/
theorem rebuild_queues {σ : Type} {remap : σ → Nat → Except Fault (σ × Option Nat)}
    {p : S3FIFOPolicy K} (valid : p.Valid) {s s₁ s' : σ} {keptSmall keptMain : List QNode}
    (first : relink remap s p.small.toList = .ok (s₁, keptSmall))
    (second : relink remap s₁ p.main.toList = .ok (s', keptMain)) :
    ∃ p', p.rebuild remap s = .ok (p', s') ∧ p'.Valid ∧ p'.small.toList = keptSmall ∧
      p'.main.toList = keptMain := by
  have small_valid : p.small.Valid := valid.1
  have main_valid : p.main.Valid := valid.2
  obtain ⟨small, weight, ranSmall, validSmall, listSmall⟩ := rebuildWeighed_spec
    (fun weight node => int64 (weight - node.cost)) small_valid p.smallWeight first
  obtain ⟨main, _, ranMain, validMain, listMain⟩ :=
    rebuildWeighed_spec (fun weight _ => weight) main_valid 0 second
  refine ⟨{ p with small := small, main := main, smallWeight := weight }, ?_,
    ⟨validSmall, validMain⟩, listSmall, listMain⟩
  simp [rebuild, ranSmall, ranMain, bind, Except.bind, pure, Except.pure]

end S3FIFOPolicy

end Memstash
