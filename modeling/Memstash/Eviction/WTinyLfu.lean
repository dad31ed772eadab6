import Memstash.Eviction.TwoQueues
import Memstash.Lib.Machine

/-! W-TinyLFU: an admission window before a GCLOCK main queue, gated by a frequency sketch. -/

namespace Memstash

open Scan Turns Machine

variable {K V : Type}

/-- A Count-Min sketch of 4-bit counters, sixteen to a word. -/
structure FreqSketch where
  table : Nat → BitVec 64
  words : Nat
  mask : Nat
  additions : Nat
  sampleSize : Nat

/-- The ceiling of a 4-bit counter. -/
def counterMax : Nat := 15

/-- A sketch for about `keys` distinct keys, disabled when there are none. -/
def newFreqSketch (keys : Int) : FreqSketch :=
  if keys ≤ 0 then { table := fun _ => 0#64, words := 0, mask := 0, additions := 0, sampleSize := 0 }
  else
    let words := 2 ^ (keys.toNat - 1).size
    { table := fun _ => 0#64, words := words, mask := (words - 1) % 2 ^ 32, additions := 0,
      sampleSize := min (words * 10) (2 ^ 30) }

namespace FreqSketch

/-- The word and the bit position of a key's `i`-th counter. -/
def counterAt (s : FreqSketch) (hash : BitVec 64) (i : Nat) : Nat × Nat :=
  let lo := hash.toNat % 2 ^ 32
  -- An odd step keeps the four positions distinct.
  let hi := hash.toNat / 2 ^ 32 ||| 1
  let h := (lo + i * hi) % 2 ^ 32
  (h / 16 &&& s.mask, h % 16 * 4)

/-- The value of one counter. -/
def counter (s : FreqSketch) (word shift : Nat) : Nat := (s.table word >>> shift).toNat % 16

/-- Halve every counter. -/
def reset (s : FreqSketch) : FreqSketch :=
  { s with table := fun i => s.table i >>> 1 &&& 0x7777777777777777#64, additions := s.additions / 2 }

/-- Bump the key's first `n` counters, and say whether one of them was below the ceiling. -/
def bump (hash : BitVec 64) : Nat → FreqSketch → FreqSketch × Bool
  | 0, s => (s, false)
  | n + 1, s =>
    let (s, added) := bump hash n s
    let (word, shift) := s.counterAt hash n
    if s.counter word shift < counterMax then
      ({ s with table := Function.update s.table word (s.table word + 1#64 <<< shift) }, true)
    else (s, added)

/-- Count one use of a key, aging the sketch when the sample window is full. -/
def increment (s : FreqSketch) (hash : BitVec 64) : FreqSketch :=
  if s.words = 0 then s
  else
    match bump hash 4 s with
    | (s, false) => s
    | (s, true) =>
      let s := { s with additions := (s.additions + 1) % 2 ^ 32 }
      if s.additions ≥ s.sampleSize then s.reset else s

/-- The least of the key's counters. -/
def estimate (s : FreqSketch) (hash : BitVec 64) : Nat :=
  if s.words = 0 then 0
  else (List.range 4).foldl (fun est i =>
    let (word, shift) := s.counterAt hash i
    min est (s.counter word shift)) counterMax

end FreqSketch

/-- The W-TinyLFU policy. -/
structure WTinyLFUPolicy (K : Type) where
  keyHash : K → BitVec 64
  window : EvictQueue
  main : EvictQueue
  sketch : FreqSketch
  windowWeight : Int
  windowCap : Int

/-- A policy for a shard of the given capacity, with a sketch sized for `sketchKeys` keys. -/
def newWTinyLFU (hash : K → BitVec 64) (shardCap sketchKeys : Int) : WTinyLFUPolicy K :=
  { keyHash := hash, window := default, main := default, sketch := newFreqSketch sketchKeys,
    windowWeight := 0, windowCap := max (shardCap.tdiv 100) 1 }

namespace WTinyLFUPolicy

/-- Queue a new item in the window and count its use. -/
def add (p : WTinyLFUPolicy K) (t : FlatHashMap K V) (node : QNode) : WTinyLFUPolicy K :=
  { p with sketch := p.sketch.increment (p.keyHash (t.itemAt node.idx).entry.key),
           window := p.window.push node, windowWeight := int64 (p.windowWeight + node.cost) }

/-- How many nodes are queued. -/
def len (p : WTinyLFUPolicy K) : Nat := p.window.size + p.main.size

/-- Drop the nodes of dead items, releasing each. -/
def sweep {σ : Type} (buried : σ → Nat → Bool) (release : σ → Nat → σ) (p : WTinyLFUPolicy K)
    (s : σ) : WTinyLFUPolicy K × σ :=
  -- Dead nodes that leave the window give their weight back.
  let (window, windowWeight, s) := sweepWeighed buried release
    (fun weight node => int64 (weight - node.cost)) p.window p.windowWeight s
  let (main, _, s) := sweepWeighed buried release (fun weight _ => weight) p.main 0 s
  ({ p with window := window, main := main, windowWeight := windowWeight }, s)

/-- Re-link the queues after a table swap. -/
def rebuild {σ : Type} (remap : σ → Nat → Except Fault (σ × Option Nat)) (p : WTinyLFUPolicy K)
    (s : σ) : Except Fault (WTinyLFUPolicy K × σ) := do
  let (window, windowWeight, s) ← rebuildWeighed remap
    (fun weight node => int64 (weight - node.cost)) p.window p.windowWeight s
  let (main, _, s) ← rebuildWeighed remap (fun weight _ => weight) p.main 0 s
  return ({ p with window := window, main := main, windowWeight := windowWeight }, s)

/-- Whether a candidate may enter main: it must be used more than main's next victim. -/
def admits (p : WTinyLFUPolicy K) (t : FlatHashMap K V) (candidateKey : K) : Bool :=
  match p.main.peek with
  -- An empty main or a tombstone at its head admits freely.
  | none => true
  | some victim =>
    let item := t.itemAt victim.idx
    item.metaWord.isDead ||
      decide (p.sketch.estimate (p.keyHash candidateKey)
        > p.sketch.estimate (p.keyHash item.entry.key))

/-- Look at the head of the window: it is given up, or admitted to main. -/
def evictWindowOnce (p : WTinyLFUPolicy K) (t : FlatHashMap K V) (nowOff : Nat) :
    WTinyLFUPolicy K × FlatHashMap K V × Option Nat :=
  match p.window.pop with
  | (none, window) => ({ p with window := window }, t, none)
  | (some candidate, window) =>
    let p := { p with window := window, windowWeight := int64 (p.windowWeight - candidate.cost) }
    let item := t.itemAt candidate.idx
    match judge item.metaWord nowOff with
    | .reclaim => (p, t, some candidate.idx)
    | .touched =>
      -- A touched item is admitted without consulting the filter.
      ({ p with sketch := p.sketch.increment (p.keyHash item.entry.key),
                main := p.main.push candidate }, t.put candidate.idx item.resetChances, none)
    | .idle =>
      if p.admits t item.entry.key then ({ p with main := p.main.push candidate }, t, none)
      else (p, t, some candidate.idx)

/-- One GCLOCK step over main, counting the use of an item it spares. -/
def evictMainOnce (p : WTinyLFUPolicy K) (t : FlatHashMap K V) (nowOff : Nat) :
    WTinyLFUPolicy K × FlatHashMap K V × Option Nat :=
  match clockStep p.main t nowOff with
  | none => (p, t, none)
  | some step =>
    let sketch :=
      if step.reclaimed then p.sketch
      else p.sketch.increment (p.keyHash (step.t.itemAt step.candidate.idx).entry.key)
    ({ p with main := step.q, sketch := sketch }, step.t,
      if step.reclaimed then some step.candidate.idx else none)

/-- The window and the main queue, the former too heavy when over its target. -/
def queues : TwoQueues (WTinyLFUPolicy K) where
  front p := p.window
  main p := p.main
  heavy p := p.windowWeight > p.windowCap

/-- Choose an item to give up. -/
def evict (p : WTinyLFUPolicy K) (t : FlatHashMap K V) (nowOff : Nat) :
    Except Fault (WTinyLFUPolicy K × FlatHashMap K V × Option Nat) :=
  turns (queues.turn (fun p t => p.evictWindowOnce t nowOff) fun p t => p.evictMainOnce t nowOff)
    (2 * p.len + 1) (p, t)

/-- Both queues are well formed. -/
abbrev Valid (p : WTinyLFUPolicy K) : Prop := queues.Valid p

/-- The queued nodes, newcomers first. -/
abbrev nodes (p : WTinyLFUPolicy K) : List QNode := queues.nodes p

/-- Looking at the window gives its head up or moves it to main. -/
theorem evictWindowOnce_spec {p : WTinyLFUPolicy K} (valid : p.Valid) (t : FlatHashMap K V)
    (nowOff : Nat) (some_window : p.window.toList ≠ []) :
    queues.LookSpec p t (p.evictWindowOnce t nowOff) := by
  have validWindow : p.window.Valid := valid.1
  have validMain : p.main.Valid := valid.2
  obtain ⟨node, rest, list⟩ := List.exists_cons_of_ne_nil some_window
  obtain ⟨window, popped, validWindow', list'⟩ := EvictQueue.pop_cons validWindow list
  obtain ⟨pushed, listed⟩ := EvictQueue.push_spec validMain node
  cases verdict : judge (t.itemAt node.idx).metaWord nowOff with
  | reclaim =>
    simp only [evictWindowOnce, popped, verdict]
    exact .giveUp ⟨validWindow', validMain⟩ list list' rfl
  | idle =>
    simp only [evictWindowOnce, popped, verdict]
    split
    · -- An idle item has no chance to bring with it, so its counter needs no reset.
      exact .promote ⟨validWindow', pushed⟩ (.refl t) (judge_idle verdict) list list' listed
    · exact .giveUp ⟨validWindow', validMain⟩ list list' rfl
  | touched =>
    have clean := Item.resetChances_chances (t.itemAt node.idx)
    obtain ⟨word, entry⟩ := Item.resetChances_steady (t.itemAt node.idx)
    have only := FlatHashMap.OnlyChances.put word entry (by omega)
    simp only [evictWindowOnce, popped, verdict]
    exact .promote ⟨validWindow', pushed⟩ only
      (by simpa [FlatHashMap.itemAt, FlatHashMap.put_slots] using clean) list list' listed

/-- Looking at main gives its head up or spends one of its chances. -/
theorem evictMainOnce_spec {p : WTinyLFUPolicy K} (valid : p.Valid) (t : FlatHashMap K V)
    (nowOff : Nat) (some_main : p.main.toList ≠ []) :
    queues.LookSpec p t (p.evictMainOnce t nowOff) := by
  have validMain : p.main.Valid := valid.2
  obtain ⟨node, rest, list⟩ := List.exists_cons_of_ne_nil some_main
  obtain ⟨step, stepped, spec⟩ := clockStep_cons validMain list t nowOff
  simp only [evictMainOnce, stepped]
  exact .clock ⟨valid.1, spec.valid⟩ spec list rfl rfl

/-- An eviction always ends, and takes one queued node unless there is none. -/
theorem evict_spec {p : WTinyLFUPolicy K} (valid : p.Valid) (t : FlatHashMap K V) (nowOff : Nat) :
    ∃ p' t' victim, p.evict t nowOff = .ok (p', t', victim) ∧ p'.Valid ∧
      Evicted p.nodes p'.nodes t t' victim :=
  TwoQueues.turns_spec (fun _ t valid some_window => evictWindowOnce_spec valid t nowOff some_window)
    (fun _ t valid some_main => evictMainOnce_spec valid t nowOff some_main) valid t

/-- A new item is queued once. -/
theorem add_spec {p : WTinyLFUPolicy K} (valid : p.Valid) (t : FlatHashMap K V) (node : QNode) :
    (p.add t node).Valid ∧ (p.add t node).nodes.Perm (node :: p.nodes) := by
  have validWindow : p.window.Valid := valid.1
  obtain ⟨pushed, listed⟩ := EvictQueue.push_spec validWindow node
  refine ⟨⟨pushed, valid.2⟩, ?_⟩
  simp only [TwoQueues.nodes, queues, add, listed]
  exact (List.perm_append_singleton node _).append_right _

/-- A sweep of the policy sweeps both queues. -/
theorem sweep_spec {σ : Type} {buried : σ → Nat → Bool} {release : σ → Nat → σ}
    (stable : ∀ s idx other, buried (release s idx) other = buried s other) {p : WTinyLFUPolicy K}
    (valid : p.Valid) (s : σ) :
    (p.sweep buried release s).1.Valid ∧
      Swept buried release p.nodes (p.sweep buried release s).1.nodes s
        (p.sweep buried release s).2 := by
  obtain ⟨window, sweptWindow⟩ := sweepWeighed_spec stable
    (fun weight node => int64 (weight - node.cost)) valid.1 p.windowWeight s
  obtain ⟨main, sweptMain⟩ := sweepWeighed_spec stable (fun weight _ => weight) valid.2 0
    (sweepWeighed buried release (fun weight node => int64 (weight - node.cost)) p.window
      p.windowWeight s).2.2
  exact ⟨⟨window, main⟩, sweptWindow.append stable sweptMain⟩

/-- A rebuild of the policy re-links the window and then main. -/
theorem rebuild_queues {σ : Type} {remap : σ → Nat → Except Fault (σ × Option Nat)}
    {p : WTinyLFUPolicy K} (valid : p.Valid) {s s₁ s' : σ} {keptWindow keptMain : List QNode}
    (first : relink remap s p.window.toList = .ok (s₁, keptWindow))
    (second : relink remap s₁ p.main.toList = .ok (s', keptMain)) :
    ∃ p', p.rebuild remap s = .ok (p', s') ∧ p'.Valid ∧ p'.window.toList = keptWindow ∧
      p'.main.toList = keptMain := by
  have window_valid : p.window.Valid := valid.1
  have main_valid : p.main.Valid := valid.2
  obtain ⟨window, weight, ranWindow, validWindow, listWindow⟩ := rebuildWeighed_spec
    (fun weight node => int64 (weight - node.cost)) window_valid p.windowWeight first
  obtain ⟨main, _, ranMain, validMain, listMain⟩ :=
    rebuildWeighed_spec (fun weight _ => weight) main_valid 0 second
  refine ⟨{ p with window := window, main := main, windowWeight := weight }, ?_,
    ⟨validWindow, validMain⟩, listWindow, listMain⟩
  simp [rebuild, ranWindow, ranMain, bind, Except.bind, pure, Except.pure]

end WTinyLFUPolicy

end Memstash
