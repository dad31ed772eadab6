import Memstash.Eviction.Policy

/-! The eviction contract in every state a policy can reach. -/

namespace Memstash

open Scan

variable {K V σ : Type}

/-- Whether the item in a slot is dead. -/
def buried (word : σ → Nat → MetaWord) (s : σ) (idx : Nat) : Bool := (word s idx).isDead

/-- A release that touches the slot it is given alone, and leaves it as dead as it was. -/
structure Releases (word : σ → Nat → MetaWord) (release : σ → Nat → σ) : Prop where
  others : ∀ s idx other, other ≠ idx → word (release s idx) other = word s other
  dead : ∀ s idx, buried word (release s idx) idx = buried word s idx

/-- Visit queued nodes once each and in order: the live ones get their new index. -/
def relinked (remap : σ → Nat → σ × Option Nat) : σ → List QNode → σ × List QNode
  | s, [] => (s, [])
  | s, node :: rest =>
    match remap s node.idx with
    | (s, none) => relinked remap s rest
    | (s, some newIdx) =>
      let (s, kept) := relinked remap s rest
      (s, { node with idx := newIdx } :: kept)

namespace EvictionPolicy

/-- The states of a policy that queues no slot twice, over tables that change in any way in between. -/
inductive Reached (V : Type) : EvictionPolicy K → Prop
  | new (kind : PolicyKind) (hash : K → BitVec 64) (shardCap ghostSize : Int) :
      Reached V (newPolicy kind hash shardCap ghostSize)
  | add {policy policy' : EvictionPolicy K} (t : FlatHashMap K V) (node : QNode)
      (fresh : node.idx ∉ policy.queued.map QNode.idx) (ran : policy.add t node = .ok policy') :
      Reached V policy → Reached V policy'
  | evict {policy policy' : EvictionPolicy K} (t t' : FlatHashMap K V) (nowOff : Nat)
      (victim : Option Nat) (ran : policy.evict t nowOff = .ok (policy', t', victim)) :
      Reached V policy → Reached V policy'
  | sweep {policy policy' : EvictionPolicy K} {σ : Type} (word : σ → Nat → MetaWord)
      (release : σ → Nat → σ) (releases : Releases word release) (s s' : σ)
      (ran : policy.sweep (buried word) release s = .ok (policy', s')) :
      Reached V policy → Reached V policy'
  | rebuild {policy policy' : EvictionPolicy K} {σ : Type} (remap : σ → Nat → σ × Option Nat) (s s' : σ)
      (ran : policy.rebuild (fun s idx => .ok (remap s idx)) s = .ok (policy', s'))
      (distinct : (policy'.queued.map QNode.idx).Nodup) :
      Reached V policy → Reached V policy'

/-- What the cache relies on. -/
structure Honours (V : Type) (policy : EvictionPolicy K) : Prop where
  /-- The length is the number of queued nodes, each of a slot of its own. -/
  len : policy.len = policy.queued.length
  once : (policy.queued.map QNode.idx).Nodup
  /-- An eviction ends; it takes one node out and returns its index, unless there is none. -/
  evict : ∀ (t : FlatHashMap K V) (nowOff : Nat), ∃ policy' t' victim,
    policy.evict t nowOff = .ok (policy', t', victim) ∧ (victim = none ↔ policy.len = 0) ∧
    (victim = none → policy'.queued = policy.queued) ∧
    ∀ idx, victim = some idx → ∃ node : QNode, node.idx = idx ∧ policy.queued.Perm (node :: policy'.queued)
  /-- A sweep takes out the nodes of dead items and releases each, in order and with counters kept. -/
  sweep : ∀ {σ : Type} (word : σ → Nat → MetaWord) (release : σ → Nat → σ), Releases word release →
    ∀ s, ∃ (policy' : EvictionPolicy K) (s' : σ) (dropped : List QNode),
      policy.sweep (buried word) release s = .ok (policy', s') ∧
      policy'.queued = policy.queued.filter (fun node => !buried word s node.idx) ∧
      dropped.Perm (policy.queued.filter fun node => buried word s node.idx) ∧
      s' = dropped.foldl (fun s node => release s node.idx) s ∧
      ∀ node ∈ policy'.queued, word s' node.idx = word s node.idx
  /-- A rebuild visits every node once and keeps the order of those that are not dead. -/
  rebuild : ∀ {σ : Type} (remap : σ → Nat → σ × Option Nat) (s : σ), ∃ policy' : EvictionPolicy K,
    policy.rebuild (fun s idx => .ok (remap s idx)) s
      = .ok (policy', (relinked remap s policy.queued).1) ∧
    policy'.queued = (relinked remap s policy.queued).2

end EvictionPolicy

/-- Re-linking with a function that always answers is a visit of all nodes. -/
theorem relink_total (remap : σ → Nat → σ × Option Nat) (nodes : List QNode) : ∀ s,
    relink (fun s idx => .ok (remap s idx)) s nodes = .ok (relinked remap s nodes) := by
  induction nodes with
  | nil => exact fun _ => rfl
  | cons node rest ih =>
    intro s
    rw [relinked]
    cases moved : remap s node.idx with
    | mk s₁ target =>
      cases target with
      | none => exact relink_cons_none (by rw [moved]) (ih s₁)
      | some newIdx => exact relink_cons_some (by rw [moved]) (ih s₁)

/-- A release changes no slot's being dead. -/
theorem Releases.stable {word : σ → Nat → MetaWord} {release : σ → Nat → σ}
    (releases : Releases word release) (s : σ) (idx other : Nat) :
    buried word (release s idx) other = buried word s other := by
  by_cases same : other = idx
  · rw [same, releases.dead]
  · rw [buried, releases.others s idx other same]
    rfl

/-- Releasing nodes leaves the words of the other slots. -/
theorem Releases.foldl_word {word : σ → Nat → MetaWord} {release : σ → Nat → σ}
    (releases : Releases word release) {other : Nat} {dropped : List QNode} :
    (∀ node ∈ dropped, node.idx ≠ other) → ∀ s,
      word (dropped.foldl (fun s node => release s node.idx) s) other = word s other := by
  induction dropped with
  | nil => exact fun _ _ => rfl
  | cons node rest ih =>
    intro apart s
    rw [List.foldl_cons, ih (fun later member => apart later (List.mem_cons_of_mem _ member)),
      releases.others s node.idx other (apart node (List.mem_cons_self ..)).symm]

namespace EvictionPolicy

/-- A node that was queued leaves a policy that can still number its nodes. -/
theorem add_slack {policy policy' : EvictionPolicy K} (valid : policy.Valid) (slack : policy.Slack (2 ^ 31))
    {t : FlatHashMap K V} {node : QNode} (ran : policy.add t node = .ok policy') :
    policy.Room ∧ policy'.Slack (2 ^ 31) := by
  cases policy with
  | s3fifo p => cases ran; exact ⟨trivial, trivial⟩
  | clock p => cases ran; exact ⟨trivial, trivial⟩
  | wtinylfu p => cases ran; exact ⟨trivial, trivial⟩
  | sieve p =>
    obtain ⟨p', added, rfl⟩ := exists_of_map_eq_ok ran
    obtain ⟨live, spare, rep⟩ := valid
    have positions : p.count ≤ 2 ^ 31 := slack
    have cover := rep.cover
    have size := rep.size
    -- With all positions taken, the next one has no number and queueing the node would have panicked.
    have room : p.size < 2 ^ 31 := by
      by_contra full
      obtain rfl : spare = [] := List.eq_nil_of_length_eq_zero (by omega)
      rw [SievePolicy.add_panics rep (by omega) (by omega) node] at added
      cases added
    refine ⟨room, ?_⟩
    show p'.count ≤ 2 ^ 31
    by_cases last : p.count < 2 ^ 31
    · exact (SievePolicy.add_count_le added).trans last
    · have some : spare ≠ [] := fun none => by
        rw [none, List.length_nil] at cover
        omega
      obtain ⟨first, rest, rfl⟩ := List.exists_cons_of_ne_nil some
      have free : p.free ≠ noLink := by
        rw [rep.free]
        simp [Links.link, noLink]
      rw [SievePolicy.add_count_of_spare free added]
      exact positions

theorem slack_of_kind {policy : EvictionPolicy K} {n : Nat} (other : policy.kind ≠ .sieve) :
    policy.Slack n := by
  cases policy with
  | sieve p => exact absurd rfl other
  | s3fifo p => trivial
  | clock p => trivial
  | wtinylfu p => trivial

/-- A policy of the same kind whose slice is no longer, where it has one, has as much slack. -/
theorem Slack.same {policy policy' : EvictionPolicy K} {n : Nat} (slack : policy.Slack n)
    (kind : policy'.kind = policy.kind)
    (count : ∀ p p', policy = .sieve p → policy' = .sieve p' → p'.count = p.count) : policy'.Slack n := by
  by_cases sieve : policy'.kind = .sieve
  · cases policy' with
    | sieve p' =>
      cases policy with
      | sieve p => exact (count p p' rfl rfl).trans_le slack
      | s3fifo p => cases kind
      | clock p => cases kind
      | wtinylfu p => cases kind
    | s3fifo p => trivial
    | clock p => trivial
    | wtinylfu p => trivial
  · exact slack_of_kind sieve

/-- Choosing a victim leaves SIEVE's slice as long as it was. -/
theorem evict_slack {policy policy' : EvictionPolicy K} {n : Nat} (slack : policy.Slack n)
    {t t' : FlatHashMap K V} {nowOff : Nat} {victim : Option Nat}
    (ran : policy.evict t nowOff = .ok (policy', t', victim)) : policy'.Slack n := by
  refine slack.same (evict_kind ran) fun p p' here there => ?_
  subst here there
  obtain ⟨⟨p₁, t₁, victim₁⟩, ran', same⟩ := exists_of_map_eq_ok ran
  cases same
  exact SievePolicy.evict_count ran'

/-- Sweeping leaves SIEVE's slice as long as it was. -/
theorem sweep_slack {policy policy' : EvictionPolicy K} {n : Nat} (slack : policy.Slack n) {σ : Type}
    {buried : σ → Nat → Bool} {release : σ → Nat → σ} {s s' : σ}
    (ran : policy.sweep buried release s = .ok (policy', s')) : policy'.Slack n := by
  refine slack.same (sweep_kind ran) fun p p' here there => ?_
  subst here there
  obtain ⟨result, ran', same⟩ := exists_of_map_eq_ok ran
  cases same
  exact SievePolicy.sweep_count ran'

/-- Re-linking leaves SIEVE's slice as long as it was. -/
theorem rebuild_slack {policy policy' : EvictionPolicy K} {n : Nat} (slack : policy.Slack n) {σ : Type}
    {remap : σ → Nat → Except Fault (σ × Option Nat)} {s s' : σ}
    (ran : policy.rebuild remap s = .ok (policy', s')) : policy'.Slack n := by
  refine slack.same (rebuild_kind ran) fun p p' here there => ?_
  subst here there
  obtain ⟨⟨p₁, s₁⟩, ran', same⟩ := exists_of_map_eq_ok ran
  obtain ⟨same, _⟩ := Prod.mk.inj same
  cases same
  exact SievePolicy.rebuild_count ran'

theorem newPolicy_slack (kind : PolicyKind) (hash : K → BitVec 64) (shardCap ghostSize : Int) (n : Nat) :
    (newPolicy kind hash shardCap ghostSize).Slack n := by
  cases kind with
  | sieve => exact Nat.zero_le _
  | s3fifo => trivial
  | clock => trivial
  | wtinylfu => trivial

/-- Every state reached is well formed, can number its nodes and queues no slot twice. -/
theorem Reached.valid {policy : EvictionPolicy K} (reached : Reached V policy) :
    policy.Valid ∧ policy.Slack (2 ^ 31) ∧ (policy.queued.map QNode.idx).Nodup := by
  induction reached with
  | new kind hash shardCap ghostSize =>
    obtain ⟨valid, empty⟩ := newPolicy_spec kind hash shardCap ghostSize
    exact ⟨valid, newPolicy_slack kind hash shardCap ghostSize _, by rw [empty]; exact List.nodup_nil⟩
  | @add policy policy' t node fresh ran _ ih =>
    obtain ⟨valid, slack, once⟩ := ih
    obtain ⟨room, slack'⟩ := add_slack valid slack ran
    obtain ⟨p, same, valid', queued⟩ := add_spec valid room t node
    rw [ran] at same
    cases same
    refine ⟨valid', slack', (queued.map QNode.idx).nodup_iff.mpr ?_⟩
    exact List.nodup_cons.mpr ⟨fresh, once⟩
  | @evict policy policy' t t' nowOff victim ran _ ih =>
    obtain ⟨valid, slack, once⟩ := ih
    obtain ⟨p, t'', victim', same, valid', evicted⟩ := evict_spec valid t nowOff
    rw [ran] at same
    cases same
    refine ⟨valid', evict_slack slack ran, ?_⟩
    cases victim with
    | none =>
      rw [(evicted.empty rfl).2]
      exact List.nodup_nil
    | some idx =>
      obtain ⟨node, _, perm⟩ := evicted.took idx rfl
      exact (List.nodup_cons.mp ((perm.map QNode.idx).nodup_iff.mp once)).2
  | @sweep policy policy' σ word release releases s s' ran _ ih =>
    obtain ⟨valid, slack, once⟩ := ih
    obtain ⟨p, s'', dropped, same, valid', kept, _, _⟩ := sweep_spec releases.stable valid s
    rw [ran] at same
    cases same
    refine ⟨valid', sweep_slack slack ran, ?_⟩
    rw [kept]
    exact once.sublist (List.filter_sublist.map _)
  | @rebuild policy policy' σ remap s s' ran distinct _ ih =>
    obtain ⟨valid, slack, _⟩ := ih
    obtain ⟨p, same, valid', _⟩ := rebuild_spec valid (relink_total remap policy.queued s)
    rw [ran] at same
    cases same
    exact ⟨valid', rebuild_slack slack ran, distinct⟩

/-- Every built-in policy honours the contract in every state it can reach. -/
theorem Reached.honours {policy : EvictionPolicy K} (reached : Reached V policy) : Honours V policy := by
  obtain ⟨valid, _, once⟩ := reached.valid
  have length := length_queued valid
  refine ⟨length.symm, once, fun t nowOff => ?_, fun word release releases s => ?_, fun remap s => ?_⟩
  · obtain ⟨policy', t', victim, ran, _, evicted⟩ := evict_spec valid t nowOff
    refine ⟨policy', t', victim, ran, ⟨fun none => ?_, fun empty => ?_⟩, fun none => ?_, evicted.took⟩
    · rw [← length, (evicted.empty none).1, List.length_nil]
    · -- A node could only have come from a queue that has one.
      cases victim with
      | none => rfl
      | some idx =>
        obtain ⟨node, _, perm⟩ := evicted.took idx rfl
        have some := perm.length_eq
        rw [length, empty, List.length_cons] at some
        omega
    · rw [(evicted.empty none).1, (evicted.empty none).2]
  · obtain ⟨policy', s', dropped, ran, _, kept, perm, released⟩ := sweep_spec releases.stable valid s
    refine ⟨policy', s', dropped, ran, kept, perm, released, fun node member => ?_⟩
    rw [kept, List.mem_filter] at member
    rw [released]
    apply releases.foldl_word
    intro gone out same
    have dead := (List.mem_filter.mp (perm.mem_iff.mp out)).2
    rw [same] at dead
    simp [dead] at member
  · obtain ⟨policy', ran, _, queued, _⟩ := rebuild_spec valid (relink_total remap policy.queued s)
    exact ⟨policy', ran, queued⟩

/-- SIEVE honours the contract with one node queued. -/
theorem honours_one : ∃ policy : EvictionPolicy Nat,
    (newPolicy .sieve (fun _ => 0#64) 10 10).add (newFlatHashMap 64 : FlatHashMap Nat Unit) ⟨3, 1⟩
      = .ok policy ∧ Honours Unit policy := by
  obtain ⟨valid, empty⟩ := newPolicy_spec .sieve (fun _ : Nat => 0#64) 10 10
  obtain ⟨policy, ran, _⟩ := add_spec valid (by decide : (0 : Nat) < 2 ^ 31)
    (newFlatHashMap 64 : FlatHashMap Nat Unit) ⟨3, 1⟩
  have fresh : 3 ∉ (newPolicy .sieve (fun _ : Nat => 0#64) 10 10).queued.map QNode.idx := by
    rw [empty]
    exact List.not_mem_nil
  exact ⟨policy, ran, (Reached.add _ _ fresh ran (.new _ _ _ _)).honours⟩

end EvictionPolicy

end Memstash
