import Memstash.Eviction.Clock
import Memstash.Eviction.S3Fifo
import Memstash.Eviction.SieveLaws
import Memstash.Eviction.WTinyLfu

/-! The eviction contract: what a shard may rely on, whichever built-in policy it runs. -/

namespace Memstash

open Scan

variable {K V σ : Type}

/-- The eviction algorithm a cache is configured with. -/
inductive PolicyKind where
  | s3fifo
  | clock
  | wtinylfu
  | sieve
  deriving DecidableEq, Repr

/-- One shard's eviction policy. -/
inductive EvictionPolicy (K : Type) where
  | s3fifo (p : S3FIFOPolicy K)
  | clock (p : ClockPolicy)
  | wtinylfu (p : WTinyLFUPolicy K)
  | sieve (p : SievePolicy)

/-- A policy with nothing queued; the ghost table and the sketch hash with a seed of their own. -/
def newPolicy (kind : PolicyKind) (hash : K → BitVec 64) (shardCap ghostSize : Int) :
    EvictionPolicy K :=
  match kind with
  | .s3fifo => .s3fifo (newS3FIFO hash shardCap ghostSize)
  | .clock => .clock { q := default }
  | .wtinylfu => .wtinylfu (newWTinyLFU hash shardCap ghostSize)
  | .sieve => .sieve newSieve

namespace EvictionPolicy

/-- Register the node of a newly inserted item. -/
def add (policy : EvictionPolicy K) (t : FlatHashMap K V) (node : QNode) :
    Except Fault (EvictionPolicy K) :=
  match policy with
  | .s3fifo p => .ok (.s3fifo (p.add t node))
  | .clock p => .ok (.clock (p.add node))
  | .wtinylfu p => .ok (.wtinylfu (p.add t node))
  | .sieve p => (p.add node).map .sieve

/-- Remove the next reclaimable node and return its index, or nothing when none is queued. -/
def evict (policy : EvictionPolicy K) (t : FlatHashMap K V) (nowOff : Nat) :
    Except Fault (EvictionPolicy K × FlatHashMap K V × Option Nat) :=
  match policy with
  | .s3fifo p => (p.evict t nowOff).map fun r => (.s3fifo r.1, r.2)
  | .clock p => (p.evict t nowOff).map fun r => (.clock r.1, r.2)
  | .wtinylfu p => (p.evict t nowOff).map fun r => (.wtinylfu r.1, r.2)
  | .sieve p => (p.evict t nowOff).map fun r => (.sieve r.1, r.2)

/-- The number of queued nodes, dead ones included. -/
def len : EvictionPolicy K → Nat
  | .s3fifo p => p.len
  | .clock p => p.len
  | .wtinylfu p => p.len
  | .sieve p => p.len

/-- Remove the nodes of dead items and hand their indices to `release`. -/
def sweep (buried : σ → Nat → Bool) (release : σ → Nat → σ) (policy : EvictionPolicy K) (s : σ) :
    Except Fault (EvictionPolicy K × σ) :=
  match policy with
  | .s3fifo p => .ok (.s3fifo (p.sweep buried release s).1, (p.sweep buried release s).2)
  | .clock p => .ok (.clock (p.sweep buried release s).1, (p.sweep buried release s).2)
  | .wtinylfu p => .ok (.wtinylfu (p.sweep buried release s).1, (p.sweep buried release s).2)
  | .sieve p => (p.sweep buried release s).map fun r => (.sieve r.1, r.2)

/-- Re-link the queues after a table rebuild, dropping the nodes `remap` reports dead. -/
def rebuild (remap : σ → Nat → Except Fault (σ × Option Nat)) (policy : EvictionPolicy K) (s : σ) :
    Except Fault (EvictionPolicy K × σ) :=
  match policy with
  | .s3fifo p => (p.rebuild remap s).map fun r => (.s3fifo r.1, r.2)
  | .clock p => (p.rebuild remap s).map fun r => (.clock r.1, r.2)
  | .wtinylfu p => (p.rebuild remap s).map fun r => (.wtinylfu r.1, r.2)
  | .sieve p => (p.rebuild remap s).map fun r => (.sieve r.1, r.2)

/-- The queued nodes, in the order a rebuild visits them. -/
def queued : EvictionPolicy K → List QNode
  | .s3fifo p => p.nodes
  | .clock p => p.q.toList
  | .wtinylfu p => p.nodes
  | .sieve p => p.queued

/-- The queued nodes, queue by queue. -/
def lanes : EvictionPolicy K → List (List QNode)
  | .s3fifo p => [p.small.toList, p.main.toList]
  | .clock p => [p.q.toList]
  | .wtinylfu p => [p.window.toList, p.main.toList]
  | .sieve p => [p.queued]

theorem lanes_flatten (policy : EvictionPolicy K) : policy.lanes.flatten = policy.queued := by
  cases policy <;> simp [lanes, queued, TwoQueues.nodes, S3FIFOPolicy.queues, WTinyLFUPolicy.queues]

/-- The policy's own bookkeeping is well formed. -/
def Valid : EvictionPolicy K → Prop
  | .s3fifo p => p.Valid
  | .clock p => p.q.Valid
  | .wtinylfu p => p.Valid
  | .sieve p => p.Valid

/-- One more node can be queued: SIEVE numbers its nodes in 32 signed bits, the others do not. -/
def Room : EvictionPolicy K → Prop
  | .sieve p => p.size < 2 ^ 31
  | _ => True

/-- SIEVE's slice has at most so many positions. -/
def Slack (n : Nat) : EvictionPolicy K → Prop
  | .sieve p => p.count ≤ n
  | _ => True

/-- Which of the built-in policies it is. -/
def kind : EvictionPolicy K → PolicyKind
  | .s3fifo _ => .s3fifo
  | .clock _ => .clock
  | .wtinylfu _ => .wtinylfu
  | .sieve _ => .sieve

theorem room_of_kind {policy : EvictionPolicy K} (other : policy.kind ≠ .sieve) : policy.Room := by
  cases policy with
  | sieve p => exact absurd rfl other
  | s3fifo p => trivial
  | clock p => trivial
  | wtinylfu p => trivial

theorem newPolicy_kind (kind : PolicyKind) (hash : K → BitVec 64) (shardCap ghostSize : Int) :
    (newPolicy kind hash shardCap ghostSize).kind = kind := by
  cases kind <;> rfl

section Kind

variable {policy policy' : EvictionPolicy K}

/-- Queueing a node does not change the policy's kind. -/
theorem add_kind {t : FlatHashMap K V} {node : QNode} (ran : policy.add t node = .ok policy') :
    policy'.kind = policy.kind := by
  cases policy with
  | sieve p =>
    obtain ⟨p', _, rfl⟩ := exists_of_map_eq_ok ran
    rfl
  | s3fifo p => cases ran; rfl
  | clock p => cases ran; rfl
  | wtinylfu p => cases ran; rfl

/-- Choosing a victim does not change the policy's kind. -/
theorem evict_kind {t t' : FlatHashMap K V} {nowOff : Nat} {victim : Option Nat}
    (ran : policy.evict t nowOff = .ok (policy', t', victim)) : policy'.kind = policy.kind := by
  cases policy <;>
  · obtain ⟨result, _, same⟩ := exists_of_map_eq_ok ran
    obtain ⟨rfl, _⟩ := Prod.mk.inj same
    rfl

/-- Sweeping does not change the policy's kind. -/
theorem sweep_kind {buried : σ → Nat → Bool} {release : σ → Nat → σ} {s s' : σ}
    (ran : policy.sweep buried release s = .ok (policy', s')) : policy'.kind = policy.kind := by
  cases policy with
  | sieve p =>
    obtain ⟨result, _, same⟩ := exists_of_map_eq_ok ran
    cases same
    rfl
  | s3fifo p => cases ran; rfl
  | clock p => cases ran; rfl
  | wtinylfu p => cases ran; rfl

theorem rebuild_kind {remap : σ → Nat → Except Fault (σ × Option Nat)} {s s' : σ}
    (ran : policy.rebuild remap s = .ok (policy', s')) : policy'.kind = policy.kind := by
  cases policy <;>
  · obtain ⟨result, _, same⟩ := exists_of_map_eq_ok ran
    cases same
    rfl

end Kind

/-- A new policy is well formed and has nothing queued. -/
theorem newPolicy_spec (kind : PolicyKind) (hash : K → BitVec 64) (shardCap ghostSize : Int) :
    (newPolicy kind hash shardCap ghostSize).Valid ∧
      (newPolicy kind hash shardCap ghostSize).queued = [] := by
  cases kind with
  | s3fifo => exact ⟨⟨EvictQueue.valid_default, EvictQueue.valid_default⟩, rfl⟩
  | clock => exact ⟨EvictQueue.valid_default, rfl⟩
  | wtinylfu => exact ⟨⟨EvictQueue.valid_default, EvictQueue.valid_default⟩, rfl⟩
  | sieve => exact ⟨⟨[], [], SievePolicy.rep_newSieve⟩, rfl⟩

/-- The reported length is the number of queued nodes. -/
theorem length_queued {policy : EvictionPolicy K} (valid : policy.Valid) :
    policy.queued.length = policy.len := by
  -- Two-queue policies report the sum of their queues, SIEVE its own size.
  cases policy with
  | s3fifo p =>
    have small : p.small.Valid := valid.1
    have main : p.main.Valid := valid.2
    simp [queued, len, S3FIFOPolicy.len, S3FIFOPolicy.queues, TwoQueues.nodes,
      EvictQueue.length_toList small, EvictQueue.length_toList main]
  | clock p => exact EvictQueue.length_toList valid
  | wtinylfu p =>
    have window : p.window.Valid := valid.1
    have main : p.main.Valid := valid.2
    simp [queued, len, WTinyLFUPolicy.len, WTinyLFUPolicy.queues, TwoQueues.nodes,
      EvictQueue.length_toList window, EvictQueue.length_toList main]
  | sieve p =>
    obtain ⟨live, spare, rep⟩ := valid
    simp only [queued, len, SievePolicy.len]
    rw [rep.queued, List.length_map, List.length_reverse, rep.size]

/-- With room for it, a new node is queued exactly once. -/
theorem add_spec {policy : EvictionPolicy K} (valid : policy.Valid) (room : policy.Room)
    (t : FlatHashMap K V) (node : QNode) :
    ∃ policy', policy.add t node = .ok policy' ∧ policy'.Valid ∧
      policy'.queued.Perm (node :: policy.queued) := by
  cases policy with
  | s3fifo p => exact ⟨_, rfl, p.add_spec valid t node⟩
  | clock p =>
    obtain ⟨pushed, listed⟩ := EvictQueue.push_spec valid node
    refine ⟨_, rfl, pushed, ?_⟩
    simp only [queued, ClockPolicy.add, listed]
    exact List.perm_append_singleton node _
  | wtinylfu p => exact ⟨_, rfl, p.add_spec valid t node⟩
  | sieve p =>
    obtain ⟨live, spare, rep⟩ := valid
    obtain ⟨p', cur, spare', added, rep', here, others, _⟩ := SievePolicy.add_spec rep room node
    refine ⟨.sieve p', by simp [add, added, Except.map], ⟨_, _, rep'⟩, ?_⟩
    -- The new node is the newest, so it is listed last.
    simp only [queued, rep'.queued, rep.queued, List.reverse_cons, List.map_append, List.map_cons,
      List.map_nil, here]
    rw [List.map_congr_left fun j listed => others j (List.mem_reverse.mp listed)]
    exact List.perm_append_singleton node _

/-- An eviction always ends, and takes one queued node unless there is none. -/
theorem evict_spec {policy : EvictionPolicy K} (valid : policy.Valid) (t : FlatHashMap K V)
    (nowOff : Nat) :
    ∃ policy' t' victim, policy.evict t nowOff = .ok (policy', t', victim) ∧ policy'.Valid ∧
      Evicted policy.queued policy'.queued t t' victim := by
  cases policy with
  | s3fifo p =>
    obtain ⟨p', t', victim, ran, valid', evicted⟩ := p.evict_spec valid t nowOff
    exact ⟨.s3fifo p', t', victim, by simp [evict, ran, Except.map], valid', evicted⟩
  | clock p =>
    obtain ⟨p', t', victim, ran, valid', evicted⟩ := p.evict_spec valid t nowOff
    exact ⟨.clock p', t', victim, by simp [evict, ran, Except.map], valid', evicted⟩
  | wtinylfu p =>
    obtain ⟨p', t', victim, ran, valid', evicted⟩ := p.evict_spec valid t nowOff
    exact ⟨.wtinylfu p', t', victim, by simp [evict, ran, Except.map], valid', evicted⟩
  | sieve p =>
    obtain ⟨p', t', victim, ran, valid', evicted⟩ := p.evict_spec valid t nowOff
    exact ⟨.sieve p', t', victim, by simp [evict, ran, Except.map], valid', evicted⟩

/-- A sweep keeps the live nodes in order and releases every dead one, in some order. -/
theorem sweep_spec {buried : σ → Nat → Bool} {release : σ → Nat → σ}
    (stable : ∀ s idx other, buried (release s idx) other = buried s other)
    {policy : EvictionPolicy K} (valid : policy.Valid) (s : σ) :
    ∃ (policy' : EvictionPolicy K) (s' : σ) (dropped : List QNode),
      policy.sweep buried release s = .ok (policy', s') ∧ policy'.Valid ∧
      policy'.queued = policy.queued.filter (fun node => !buried s node.idx) ∧
      dropped.Perm (policy.queued.filter fun node => buried s node.idx) ∧
      s' = dropped.foldl (fun s node => release s node.idx) s := by
  cases policy with
  | s3fifo p =>
    obtain ⟨valid', swept⟩ := p.sweep_spec stable valid s
    exact ⟨_, _, _, rfl, valid', swept.kept, .refl _, swept.released⟩
  | clock p =>
    obtain ⟨valid', swept⟩ := p.sweep_spec stable valid s
    exact ⟨_, _, _, rfl, valid', swept.kept, .refl _, swept.released⟩
  | wtinylfu p =>
    obtain ⟨valid', swept⟩ := p.sweep_spec stable valid s
    exact ⟨_, _, _, rfl, valid', swept.kept, .refl _, swept.released⟩
  | sieve p =>
    -- SIEVE walks from the newest end, so its releases run against the queue order.
    obtain ⟨p', s', ran, valid', kept, released⟩ := p.sweep_spec stable valid s
    exact ⟨.sieve p', s', _, by simp [sweep, ran, Except.map], valid', kept,
      List.reverse_perm _, released⟩

/-- A rebuild re-links the queued nodes in their order, each in the queue it was in. -/
theorem rebuild_spec {remap : σ → Nat → Except Fault (σ × Option Nat)} {policy : EvictionPolicy K}
    (valid : policy.Valid) {s s' : σ} {kept : List QNode}
    (linked : relink remap s policy.queued = .ok (s', kept)) :
    ∃ policy', policy.rebuild remap s = .ok (policy', s') ∧ policy'.Valid ∧
      policy'.queued = kept ∧ Relinks remap s policy.lanes s' policy'.lanes := by
  cases policy with
  | s3fifo p =>
    obtain ⟨s₁, keptSmall, keptMain, first, second, rfl⟩ := relink_append linked
    obtain ⟨p', ran, valid', rfl, rfl⟩ := p.rebuild_queues valid first second
    exact ⟨.s3fifo p', by simp [rebuild, ran, Except.map], valid', rfl,
      .cons first (.cons second (.nil _))⟩
  | clock p =>
    obtain ⟨p', ran, valid', rfl⟩ := p.rebuild_spec valid linked
    exact ⟨.clock p', by simp [rebuild, ran, Except.map], valid', rfl, .cons linked (.nil _)⟩
  | wtinylfu p =>
    obtain ⟨s₁, keptWindow, keptMain, first, second, rfl⟩ := relink_append linked
    obtain ⟨p', ran, valid', rfl, rfl⟩ := p.rebuild_queues valid first second
    exact ⟨.wtinylfu p', by simp [rebuild, ran, Except.map], valid', rfl,
      .cons first (.cons second (.nil _))⟩
  | sieve p =>
    obtain ⟨p', ran, valid', rfl⟩ := p.rebuild_spec valid linked
    exact ⟨.sieve p', by simp [rebuild, ran, Except.map], valid', rfl, .cons linked (.nil _)⟩

end EvictionPolicy

end Memstash
