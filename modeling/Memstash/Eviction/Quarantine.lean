import Memstash.Eviction.Policy
import Memstash.Lib.Runs

/-! The weight of a quarantine is the weight of its nodes, so newcomers go first exactly when they weigh too much. -/

namespace Memstash

open Scan Turns Machine Runs

variable {K V σ : Type}

/-- The weight of some nodes. -/
def totalCost (nodes : List QNode) : Nat := (nodes.map QNode.cost).sum

@[simp] theorem totalCost_nil : totalCost [] = 0 := rfl

@[simp] theorem totalCost_cons (node : QNode) (nodes : List QNode) :
    totalCost (node :: nodes) = node.cost + totalCost nodes := by
  simp [totalCost]

@[simp] theorem totalCost_append (left right : List QNode) :
    totalCost (left ++ right) = totalCost left + totalCost right := by
  simp [totalCost]

theorem totalCost_filter (keep : QNode → Bool) (nodes : List QNode) :
    totalCost (nodes.filter keep) + totalCost (nodes.filter fun node => !keep node) = totalCost nodes := by
  induction nodes with
  | nil => rfl
  | cons node rest ih =>
    cases kept : keep node <;> simp [kept] <;> omega

/-- A counter holds the weight of some nodes, which an `int64` can hold. -/
structure Weighs (nodes : List QNode) (weight : Int) : Prop where
  exact : weight = totalCost nodes
  fits : totalCost nodes < 2 ^ 63

namespace Weighs

variable {nodes rest : List QNode} {node : QNode} {weight : Int}

theorem nonneg (weighs : Weighs nodes weight) : 0 ≤ weight := by
  rw [weighs.exact]
  exact Int.natCast_nonneg _

/-- A node that is queued adds its weight. -/
theorem push (weighs : Weighs nodes weight) (fits : totalCost nodes + node.cost < 2 ^ 63) :
    Weighs (nodes ++ [node]) (int64 (weight + node.cost)) := by
  have total : totalCost (nodes ++ [node]) = totalCost nodes + node.cost := by simp
  refine ⟨?_, by omega⟩
  rw [weighs.exact, int64_of_range (by omega) (by omega), total]
  push_cast
  rfl

theorem pop (weighs : Weighs (node :: rest) weight) : Weighs rest (int64 (weight - node.cost)) := by
  have total := totalCost_cons node rest
  have fits := weighs.fits
  refine ⟨?_, by omega⟩
  rw [weighs.exact, int64_of_range (by omega) (by omega), total]
  omega

end Weighs

/-- The counter after nodes have given their weight back one by one. -/
theorem foldl_refund (nodes : List QNode) {weight : Int} (enough : (totalCost nodes : Int) ≤ weight)
    (fits : weight < 2 ^ 63) :
    nodes.foldl (fun weight node => int64 (weight - node.cost)) weight = weight - totalCost nodes := by
  induction nodes generalizing weight with
  | nil => simp
  | cons node rest ih =>
    have total := totalCost_cons node rest
    have step : int64 (weight - node.cost) = weight - node.cost := int64_of_range (by omega) (by omega)
    rw [List.foldl_cons, step, ih (by omega) (by omega), total]
    omega

/-- The weight beside a sweep is the one the dropped nodes leave. -/
theorem foldl_beside_weight (release : σ → Nat → σ) (refund : Int → QNode → Int) (nodes : List QNode) :
    ∀ (weight : Int) (s : σ),
      (nodes.foldl (fun (state : Int × σ) n => (refund state.1 n, release state.2 n.idx)) (weight, s)).1
        = nodes.foldl refund weight := by
  induction nodes with
  | nil => exact fun _ _ => rfl
  | cons node rest ih => exact fun weight s => ih _ _

/-- A sweep leaves the weight of the nodes it keeps. -/
theorem Weighs.sweep {buried : σ → Nat → Bool} {release : σ → Nat → σ}
    (stable : ∀ s idx other, buried (release s idx) other = buried s other) {q : EvictQueue} (valid : q.Valid)
    {weight : Int} (weighs : Weighs q.toList weight) (s : σ) :
    let swept := sweepWeighed buried release (fun weight node => int64 (weight - node.cost)) q weight s
    Weighs swept.1.toList swept.2.1 := by
  obtain ⟨q', swept, _, list⟩ := @EvictQueue.sweepQueue_spec (Int × σ)
    (fun state node => buried state.2 node.idx)
    (fun state node => (int64 (state.1 - node.cost), release state.2 node.idx)) q valid (weight, s)
    (fun state node other => stable state.2 node.idx other.idx)
  simp only [sweepWeighed, swept, list]
  -- What is dropped and what is kept weigh what was queued.
  have parts := totalCost_filter (fun node => buried s node.idx) q.toList
  have fits := weighs.fits
  have exact := weighs.exact
  refine ⟨?_, by omega⟩
  rw [foldl_beside_weight release (fun weight node => int64 (weight - node.cost)),
    foldl_refund _ (by omega) (by omega)]
  omega

/-- A rebuild leaves the weight of the nodes it keeps. -/
theorem remapNodes_weight {remap : σ → Nat → Except Fault (σ × Option Nat)} (nodes : List QNode) :
    ∀ {weight weight' : Int} {s s' : σ} {kept : List QNode}, (totalCost nodes : Int) ≤ weight → weight < 2 ^ 63 →
      EvictQueue.remapNodes
        (fun (state : Int × σ) idx => (remap state.2 idx).map fun moved => ((state.1, moved.1), moved.2))
        (fun state node => (int64 (state.1 - node.cost), state.2)) (weight, s) nodes
          = .ok ((weight', s'), kept) →
      totalCost kept ≤ totalCost nodes ∧ weight' = weight - totalCost nodes + totalCost kept := by
  induction nodes with
  | nil =>
    intro weight weight' s s' kept _ _ ran
    cases ran
    simp
  | cons node rest ih =>
    intro weight weight' s s' kept enough fits ran
    have total := totalCost_cons node rest
    rw [EvictQueue.remapNodes] at ran
    obtain ⟨⟨⟨same, s₁⟩, moved⟩, visited, ran⟩ := exists_of_bind_eq_ok ran
    obtain ⟨⟨s₁, moved⟩, _, eq⟩ := exists_of_map_eq_ok visited
    cases eq
    cases moved with
    | some newIdx =>
      obtain ⟨⟨⟨weight', s'⟩, keptRest⟩, tail, eq⟩ := exists_of_bind_eq_ok ran
      cases eq
      obtain ⟨less, exact⟩ := ih (by omega) fits tail
      have moves := totalCost_cons { node with idx := newIdx } keptRest
      simp only at moves
      exact ⟨by omega, by omega⟩
    | none =>
      have step : int64 (weight - node.cost) = weight - node.cost := int64_of_range (by omega) (by omega)
      simp only [step] at ran
      obtain ⟨less, exact⟩ := ih (by omega) (by omega) ran
      exact ⟨by omega, by omega⟩

/-- Re-linking one queue leaves the weight of the nodes it keeps. -/
theorem Weighs.rebuild {remap : σ → Nat → Except Fault (σ × Option Nat)} {q q' : EvictQueue} (valid : q.Valid)
    {weight weight' : Int} (weighs : Weighs q.toList weight) {s s' s'' : σ} {kept : List QNode}
    (linked : relink remap s q.toList = .ok (s'', kept))
    (ran : rebuildWeighed remap (fun weight node => int64 (weight - node.cost)) q weight s = .ok (q', weight', s')) :
    Weighs q'.toList weight' := by
  obtain ⟨weight'', lifted⟩ := remapNodes_beside (fun weight node => int64 (weight - node.cost)) q.toList weight
    s s'' kept linked
  obtain ⟨_, rebuilt, _, list⟩ := EvictQueue.rebuildQueue_spec valid lifted
  rw [rebuildWeighed, rebuilt] at ran
  cases ran
  have exact := weighs.exact
  have fits := weighs.fits
  obtain ⟨less, left⟩ := remapNodes_weight q.toList (by omega) (by omega) lifted
  rw [list]
  exact ⟨by omega, by omega⟩

namespace TwoQueues

variable {queues : TwoQueues σ}
  {frontOnce mainOnce : σ → FlatHashMap K V → σ × FlatHashMap K V × Option Nat}

/-- How a turn goes on after a look. -/
def outcome (look : σ × FlatHashMap K V × Option Nat) :
    Except Fault ((σ × FlatHashMap K V) ⊕ (σ × FlatHashMap K V × Option Nat)) :=
  match look with
  | (p, t, some victim) => .ok (.inr (p, t, some victim))
  | (p, t, none) => .ok (.inl (p, t))

/-- The states an eviction goes through, turn by turn. -/
def Visits (turn : σ × FlatHashMap K V →
    Except Fault ((σ × FlatHashMap K V) ⊕ (σ × FlatHashMap K V × Option Nat))) :
    σ × FlatHashMap K V → σ × FlatHashMap K V → Prop :=
  Relation.ReflTransGen fun s s' => turn s = .ok (.inl s')

/-- A turn ends when nothing is queued, and else goes by its look. -/
theorem turn_outcome (p : σ) (t : FlatHashMap K V) : queues.turn frontOnce mainOnce (p, t)
    = if !(queues.heavy p && decide ((queues.front p).size > 0)) && (queues.main p).size == 0
        && (queues.front p).size == 0 then .ok (.inr (p, t, none))
      else outcome (if (queues.heavy p && decide ((queues.front p).size > 0)) || (queues.main p).size == 0
        then frontOnce p t else mainOnce p t) := rfl

/-- Where the counter of the front is exact, a turn looks at the front when it weighs more than its target or main is
empty, and else at main. -/
theorem turn_eq {p : σ} {weight target : Int} (valid : queues.Valid p)
    (weighs : Weighs (queues.front p).toList weight) (positive : 0 ≤ target)
    (heavy : queues.heavy p = decide (weight > target)) (some : queues.nodes p ≠ []) (t : FlatHashMap K V) :
    queues.turn frontOnce mainOnce (p, t)
      = outcome (if target < totalCost (queues.front p).toList ∨ (queues.main p).toList = [] then frontOnce p t
        else mainOnce p t) := by
  have frontSize := EvictQueue.length_toList valid.1
  have mainSize := EvictQueue.length_toList valid.2
  have mainEmpty : (queues.main p).toList = [] ↔ (queues.main p).size = 0 := by
    rw [← mainSize, List.length_eq_zero_iff]
  have queued : (queues.front p).size ≠ 0 ∨ (queues.main p).size ≠ 0 := by
    by_contra none
    rw [not_or, not_not, not_not] at none
    have front := List.eq_nil_of_length_eq_zero (frontSize.trans none.1)
    exact some (by rw [nodes, front, mainEmpty.mpr none.2]; rfl)
  -- What weighs more than the target is not nothing.
  have present : target < totalCost (queues.front p).toList → (queues.front p).size ≠ 0 := by
    intro over' none
    rw [List.eq_nil_of_length_eq_zero (frontSize.trans none)] at over'
    simp only [totalCost_nil] at over'
    omega
  rw [turn_outcome]
  simp only [heavy, weighs.exact, mainEmpty]
  by_cases over' : target < totalCost (queues.front p).toList
  · simp [over', Nat.pos_of_ne_zero (present over')]
  · rcases Nat.eq_zero_or_pos (queues.main p).size with none | some
    · have here : (queues.front p).size ≠ 0 := queued.resolve_right (not_not.mpr none)
      simp [over', none, here]
    · simp [over', Nat.pos_iff_ne_zero.mp some]

/-- What both looks keep, a turn keeps. -/
theorem turn_keeps {inv : σ → Prop} (front : ∀ p t, inv p → inv (frontOnce p t).1)
    (main : ∀ p t, inv p → inv (mainOnce p t).1) {p : σ} {t : FlatHashMap K V} (holds : inv p) :
    (∀ s, queues.turn frontOnce mainOnce (p, t) = .ok (.inl s) → inv s.1) ∧
      ∀ r, queues.turn frontOnce mainOnce (p, t) = .ok (.inr r) → inv r.1 := by
  have look : ∀ result : σ × FlatHashMap K V × Option Nat, inv result.1 →
      (∀ s, outcome result = .ok (.inl s) → inv s.1) ∧ ∀ r, outcome result = .ok (.inr r) → inv r.1 := by
    rintro ⟨p', t', victim⟩ kept
    cases victim with
    | none => exact ⟨fun s ran => by cases ran; exact kept, nofun⟩
    | some idx => exact ⟨nofun, fun r ran => by cases ran; exact kept⟩
  have kept : ∀ fromFront : Bool, inv (if fromFront then frontOnce p t else mainOnce p t).1 := by
    intro fromFront
    cases fromFront with
    | true => exact front p t holds
    | false => exact main p t holds
  unfold turn
  dsimp only
  split
  · exact ⟨nofun, fun r ran => by cases ran; exact holds⟩
  · exact look _ (kept _)

/-- What a turn keeps holds in every state an eviction goes through. -/
theorem Visits.keeps {turn : σ × FlatHashMap K V →
      Except Fault ((σ × FlatHashMap K V) ⊕ (σ × FlatHashMap K V × Option Nat))} (inv : σ → Prop)
    (kept : ∀ s s', inv s.1 → turn s = .ok (.inl s') → inv s'.1) {s s' : σ × FlatHashMap K V}
    (visits : Visits turn s s') (holds : inv s.1) : inv s'.1 := by
  induction visits with
  | refl => exact holds
  | tail _ turned ih => exact kept _ _ ih turned

end TwoQueues

namespace S3FIFOPolicy

/-- The quarantine is well formed, and its counter exact. -/
structure Weighed (p : S3FIFOPolicy K) : Prop where
  valid : p.Valid
  weighs : Weighs p.small.toList p.smallWeight
  target : 0 ≤ p.smallCap

variable {p : S3FIFOPolicy K}

theorem weighed_new (hash : K → BitVec 64) (shardCap ghostSize : Int) :
    (newS3FIFO hash shardCap ghostSize).Weighed :=
  ⟨⟨EvictQueue.valid_default, EvictQueue.valid_default⟩, ⟨rfl, show 0 < 2 ^ 63 by decide⟩,
    by simp [newS3FIFO]⟩

/-- A newcomer's weight is added when it goes to the quarantine. -/
theorem Weighed.add (weighed : p.Weighed) (t : FlatHashMap K V) {node : QNode}
    (fits : totalCost p.small.toList + node.cost < 2 ^ 63) : (p.add t node).Weighed := by
  refine ⟨(add_spec weighed.valid t node).1, ?_, ?_⟩
  · unfold S3FIFOPolicy.add
    split
    · exact weighed.weighs
    · have listed : (p.small.push node).toList = p.small.toList ++ [node] :=
        (EvictQueue.push_spec weighed.valid.1 node).2
      rw [listed]
      exact weighed.weighs.push fits
  · unfold S3FIFOPolicy.add
    split <;> exact weighed.target

theorem Weighed.sweep {buried : σ → Nat → Bool} {release : σ → Nat → σ}
    (stable : ∀ s idx other, buried (release s idx) other = buried s other) (weighed : p.Weighed) (s : σ) :
    (p.sweep buried release s).1.Weighed :=
  ⟨(sweep_spec stable weighed.valid s).1, weighed.weighs.sweep stable weighed.valid.1 s, weighed.target⟩

theorem Weighed.rebuild {remap : σ → Nat → Except Fault (σ × Option Nat)} (weighed : p.Weighed) {s s₁ s' : σ}
    {keptSmall keptMain : List QNode} (first : relink remap s p.small.toList = .ok (s₁, keptSmall))
    (second : relink remap s₁ p.main.toList = .ok (s', keptMain)) :
    ∃ p', p.rebuild remap s = .ok (p', s') ∧ p'.Weighed := by
  obtain ⟨p', ran, valid, _⟩ := rebuild_queues weighed.valid first second
  refine ⟨p', ran, valid, ?_, ?_⟩
  all_goals
    obtain ⟨⟨small, weight, s₁⟩, ranSmall, ran⟩ := exists_of_bind_eq_ok ran
    obtain ⟨⟨main, _, s₂⟩, _, same⟩ := exists_of_bind_eq_ok ran
    cases same
  · exact weighed.weighs.rebuild weighed.valid.1 first ranSmall
  · exact weighed.target

/-- The head of the quarantine leaves with its weight, wherever it goes. -/
theorem Weighed.evictSmallOnce (weighed : p.Weighed) (t : FlatHashMap K V) (nowOff : Nat) :
    (p.evictSmallOnce t nowOff).1.Weighed := by
  cases list : p.small.toList with
  | nil =>
    have popped := EvictQueue.pop_nil weighed.valid.1 list
    simp only [queues] at popped
    simpa only [S3FIFOPolicy.evictSmallOnce, popped] using weighed
  | cons node rest =>
    have valid := (evictSmallOnce_spec weighed.valid t nowOff (by simp [list])).1
    obtain ⟨small, popped, _, list'⟩ := EvictQueue.pop_cons weighed.valid.1 list
    have left : Weighs small.toList (int64 (p.smallWeight - node.cost)) := by
      rw [list']
      exact (list ▸ weighed.weighs).pop
    simp only [queues] at popped
    refine ⟨valid, ?_, ?_⟩
    all_goals
      simp only [S3FIFOPolicy.evictSmallOnce, popped]
      split
    · exact left
    · exact left
    · exact left
    all_goals exact weighed.target

/-- A step over main leaves the quarantine alone. -/
theorem Weighed.evictMainOnce (weighed : p.Weighed) (t : FlatHashMap K V) (nowOff : Nat) :
    (p.evictMainOnce t nowOff).1.Weighed := by
  cases list : p.main.toList with
  | nil =>
    have none := clockStep_nil weighed.valid.2 list t nowOff
    simp only [queues] at none
    simpa only [S3FIFOPolicy.evictMainOnce, none] using weighed
  | cons node rest =>
    have valid := (evictMainOnce_spec weighed.valid t nowOff (by simp [list])).1
    refine ⟨valid, ?_, ?_⟩
    all_goals
      unfold S3FIFOPolicy.evictMainOnce
      split
    · exact weighed.weighs
    · exact weighed.weighs
    · exact weighed.target
    · exact weighed.target

end S3FIFOPolicy

namespace WTinyLFUPolicy

/-- The window is well formed, and its counter exact. -/
structure Weighed (p : WTinyLFUPolicy K) : Prop where
  valid : p.Valid
  weighs : Weighs p.window.toList p.windowWeight
  target : 0 ≤ p.windowCap

variable {p : WTinyLFUPolicy K}

theorem weighed_new (hash : K → BitVec 64) (shardCap sketchKeys : Int) :
    (newWTinyLFU hash shardCap sketchKeys).Weighed :=
  ⟨⟨EvictQueue.valid_default, EvictQueue.valid_default⟩, ⟨rfl, show 0 < 2 ^ 63 by decide⟩,
    by simp [newWTinyLFU]⟩

/-- A newcomer's weight is added to the window's. -/
theorem Weighed.add (weighed : p.Weighed) (t : FlatHashMap K V) {node : QNode}
    (fits : totalCost p.window.toList + node.cost < 2 ^ 63) : (p.add t node).Weighed := by
  refine ⟨(add_spec weighed.valid t node).1, ?_, ?_⟩
  · have listed : (p.window.push node).toList = p.window.toList ++ [node] :=
      (EvictQueue.push_spec weighed.valid.1 node).2
    simp only [WTinyLFUPolicy.add, listed]
    exact weighed.weighs.push fits
  · exact weighed.target

theorem Weighed.sweep {buried : σ → Nat → Bool} {release : σ → Nat → σ}
    (stable : ∀ s idx other, buried (release s idx) other = buried s other) (weighed : p.Weighed) (s : σ) :
    (p.sweep buried release s).1.Weighed :=
  ⟨(sweep_spec stable weighed.valid s).1, weighed.weighs.sweep stable weighed.valid.1 s, weighed.target⟩

theorem Weighed.rebuild {remap : σ → Nat → Except Fault (σ × Option Nat)} (weighed : p.Weighed) {s s₁ s' : σ}
    {keptWindow keptMain : List QNode} (first : relink remap s p.window.toList = .ok (s₁, keptWindow))
    (second : relink remap s₁ p.main.toList = .ok (s', keptMain)) :
    ∃ p', p.rebuild remap s = .ok (p', s') ∧ p'.Weighed := by
  obtain ⟨p', ran, valid, _⟩ := rebuild_queues weighed.valid first second
  refine ⟨p', ran, valid, ?_, ?_⟩
  all_goals
    obtain ⟨⟨window, weight, s₁⟩, ranWindow, ran⟩ := exists_of_bind_eq_ok ran
    obtain ⟨⟨main, _, s₂⟩, _, same⟩ := exists_of_bind_eq_ok ran
    cases same
  · exact weighed.weighs.rebuild weighed.valid.1 first ranWindow
  · exact weighed.target

/-- The head of the window leaves with its weight, wherever it goes. -/
theorem Weighed.evictWindowOnce (weighed : p.Weighed) (t : FlatHashMap K V) (nowOff : Nat) :
    (p.evictWindowOnce t nowOff).1.Weighed := by
  cases list : p.window.toList with
  | nil =>
    have popped := EvictQueue.pop_nil weighed.valid.1 list
    simp only [queues] at popped
    simpa only [WTinyLFUPolicy.evictWindowOnce, popped] using weighed
  | cons node rest =>
    have valid := (evictWindowOnce_spec weighed.valid t nowOff (by simp [list])).1
    obtain ⟨window, popped, _, list'⟩ := EvictQueue.pop_cons weighed.valid.1 list
    have left : Weighs window.toList (int64 (p.windowWeight - node.cost)) := by
      rw [list']
      exact (list ▸ weighed.weighs).pop
    simp only [queues] at popped
    refine ⟨valid, ?_, ?_⟩
    all_goals
      simp only [WTinyLFUPolicy.evictWindowOnce, popped]
      split
    · exact left
    · exact left
    · split <;> exact left
    · exact weighed.target
    · exact weighed.target
    · split <;> exact weighed.target

/-- A step over main leaves the window alone. -/
theorem Weighed.evictMainOnce (weighed : p.Weighed) (t : FlatHashMap K V) (nowOff : Nat) :
    (p.evictMainOnce t nowOff).1.Weighed := by
  cases list : p.main.toList with
  | nil =>
    have none := clockStep_nil weighed.valid.2 list t nowOff
    simp only [queues] at none
    simpa only [WTinyLFUPolicy.evictMainOnce, none] using weighed
  | cons node rest =>
    have valid := (evictMainOnce_spec weighed.valid t nowOff (by simp [list])).1
    refine ⟨valid, ?_, ?_⟩
    all_goals
      unfold WTinyLFUPolicy.evictMainOnce
      split
    · exact weighed.weighs
    · exact weighed.weighs
    · exact weighed.target
    · exact weighed.target

end WTinyLFUPolicy

/-- What a shard does to its policy, over tables that change in any way in between. -/
inductive PolicyOp (K V : Type) where
  | add (t : FlatHashMap K V) (node : QNode)
  | evict (t : FlatHashMap K V) (nowOff : Nat)
  | sweep (t : FlatHashMap K V)
  /-- Which index each visited node gets, and which nodes are dead. -/
  | rebuild (remap : Nat → Nat → Option Nat)

namespace PolicyOp

/-- Do it. -/
def work [Inhabited K] [Inhabited V] (policy : EvictionPolicy K) : PolicyOp K V → Except Fault (EvictionPolicy K)
  | .add t node => policy.add t node
  | .evict t nowOff => (policy.evict t nowOff).map Prod.fst
  | .sweep t => (policy.sweep (fun t idx => (FlatHashMap.itemAt t idx).metaWord.isDead)
      (fun t idx => t.put idx (t.itemAt idx).makeFree) t).map Prod.fst
  | .rebuild remap => (policy.rebuild (fun visited idx => .ok (visited + 1, remap visited idx)) 0).map Prod.fst

end PolicyOp

namespace EvictionPolicy

/-- The nodes a policy holds back from its main queue. -/
def quarantine : EvictionPolicy K → List QNode
  | .s3fifo p => p.small.toList
  | .wtinylfu p => p.window.toList
  | .clock _ => []
  | .sieve _ => []

/-- The policy has a quarantine, and counts its weight exactly. -/
def Weighed : EvictionPolicy K → Prop
  | .s3fifo p => p.Weighed
  | .wtinylfu p => p.Weighed
  | .clock _ => False
  | .sieve _ => False

end EvictionPolicy

/-- A newcomer's weight still fits the counter beside those of the nodes already held back. -/
def PolicyOp.Fits (policy : EvictionPolicy K) : PolicyOp K V → Prop
  | .add _ node => totalCost policy.quarantine + node.cost < 2 ^ 63
  | .evict _ _ => True
  | .sweep _ => True
  | .rebuild _ => True

/-- A re-linking that answers for every node ends. -/
theorem exists_relink (remap : Nat → Nat → Option Nat) (nodes : List QNode) : ∀ visited, ∃ visited' kept,
    relink (fun visited idx => .ok (visited + 1, remap visited idx)) visited nodes = .ok (visited', kept) := by
  induction nodes with
  | nil => exact fun visited => ⟨visited, [], rfl⟩
  | cons node rest ih =>
    intro visited
    obtain ⟨visited', kept, linked⟩ := ih (visited + 1)
    cases moved : remap visited node.idx with
    | none => exact ⟨_, _, relink_cons_none (by simp only [moved]) linked⟩
    | some newIdx => exact ⟨_, { node with idx := newIdx } :: kept, relink_cons_some (by simp only [moved]) linked⟩

namespace S3FIFOPolicy

/-- One turn of an eviction. -/
abbrev turn (nowOff : Nat) : S3FIFOPolicy K × FlatHashMap K V →
    Except Fault ((S3FIFOPolicy K × FlatHashMap K V) ⊕ (S3FIFOPolicy K × FlatHashMap K V × Option Nat)) :=
  queues.turn (fun p t => p.evictSmallOnce t nowOff) fun p t => p.evictMainOnce t nowOff

/-- A turn of an eviction keeps the counter exact. -/
theorem Weighed.turn {p : S3FIFOPolicy K} (weighed : p.Weighed) (t : FlatHashMap K V) (nowOff : Nat) :
    (∀ s, S3FIFOPolicy.turn nowOff (p, t) = .ok (.inl s) → s.1.Weighed) ∧
      ∀ r, S3FIFOPolicy.turn nowOff (p, t) = .ok (.inr r) → r.1.Weighed :=
  TwoQueues.turn_keeps (fun _ t weighed => weighed.evictSmallOnce t nowOff)
    (fun _ t weighed => weighed.evictMainOnce t nowOff) weighed

end S3FIFOPolicy

namespace WTinyLFUPolicy

/-- One turn of an eviction. -/
abbrev turn (nowOff : Nat) : WTinyLFUPolicy K × FlatHashMap K V →
    Except Fault ((WTinyLFUPolicy K × FlatHashMap K V) ⊕ (WTinyLFUPolicy K × FlatHashMap K V × Option Nat)) :=
  queues.turn (fun p t => p.evictWindowOnce t nowOff) fun p t => p.evictMainOnce t nowOff

/-- A turn of an eviction keeps the counter exact. -/
theorem Weighed.turn {p : WTinyLFUPolicy K} (weighed : p.Weighed) (t : FlatHashMap K V) (nowOff : Nat) :
    (∀ s, WTinyLFUPolicy.turn nowOff (p, t) = .ok (.inl s) → s.1.Weighed) ∧
      ∀ r, WTinyLFUPolicy.turn nowOff (p, t) = .ok (.inr r) → r.1.Weighed :=
  TwoQueues.turn_keeps (fun _ t weighed => weighed.evictWindowOnce t nowOff)
    (fun _ t weighed => weighed.evictMainOnce t nowOff) weighed

end WTinyLFUPolicy

namespace PolicyOp

variable [Inhabited K] [Inhabited V]

/-- A step that fits returns, and keeps the counter exact. -/
theorem exists_work {policy : EvictionPolicy K} (weighed : policy.Weighed) {op : PolicyOp K V} (fits : op.Fits policy) :
    ∃ policy', op.work policy = .ok policy' ∧ policy'.Weighed ∧ policy'.kind = policy.kind := by
  cases policy with
  | clock p => exact weighed.elim
  | sieve p => exact weighed.elim
  | s3fifo p =>
    have weighed : p.Weighed := weighed
    cases op with
    | add t node => exact ⟨.s3fifo (p.add t node), rfl, weighed.add t fits, rfl⟩
    | evict t nowOff =>
      obtain ⟨p', t', victim, ran, _⟩ := S3FIFOPolicy.evict_spec weighed.valid t nowOff
      refine ⟨.s3fifo p', by simp only [work, EvictionPolicy.evict, ran]; rfl, ?_, rfl⟩
      exact turns_keeps (fun s => s.1.Weighed) (fun r => r.1.Weighed)
        (by
          rintro s (s' | r) weighed turned
          · exact (weighed.turn s.2 nowOff).1 s' turned
          · exact (weighed.turn s.2 nowOff).2 r turned) _ _ _ weighed ran
    | sweep t => exact ⟨.s3fifo _, rfl, weighed.sweep FlatHashMap.put_makeFree_isDead t, rfl⟩
    | rebuild remap =>
      obtain ⟨visited, _, first⟩ := exists_relink remap p.small.toList 0
      obtain ⟨_, _, second⟩ := exists_relink remap p.main.toList visited
      obtain ⟨p', ran, weighed'⟩ := weighed.rebuild first second
      exact ⟨.s3fifo p', by simp only [work, EvictionPolicy.rebuild, ran]; rfl, weighed', rfl⟩
  | wtinylfu p =>
    have weighed : p.Weighed := weighed
    cases op with
    | add t node => exact ⟨.wtinylfu (p.add t node), rfl, weighed.add t fits, rfl⟩
    | evict t nowOff =>
      obtain ⟨p', t', victim, ran, _⟩ := WTinyLFUPolicy.evict_spec weighed.valid t nowOff
      refine ⟨.wtinylfu p', by simp only [work, EvictionPolicy.evict, ran]; rfl, ?_, rfl⟩
      exact turns_keeps (fun s => s.1.Weighed) (fun r => r.1.Weighed)
        (by
          rintro s (s' | r) weighed turned
          · exact (weighed.turn s.2 nowOff).1 s' turned
          · exact (weighed.turn s.2 nowOff).2 r turned) _ _ _ weighed ran
    | sweep t => exact ⟨.wtinylfu _, rfl, weighed.sweep FlatHashMap.put_makeFree_isDead t, rfl⟩
    | rebuild remap =>
      obtain ⟨visited, _, first⟩ := exists_relink remap p.window.toList 0
      obtain ⟨_, _, second⟩ := exists_relink remap p.main.toList visited
      obtain ⟨p', ran, weighed'⟩ := weighed.rebuild first second
      exact ⟨.wtinylfu p', by simp only [work, EvictionPolicy.rebuild, ran]; rfl, weighed', rfl⟩

/-- A run whose steps fit returns at every point, with the counter exact. -/
theorem exists_run {policy : EvictionPolicy K} (weighed : policy.Weighed) {ops : List (PolicyOp K V)}
    (meets : Meets work (fun policy op => op.Fits policy) policy ops) :
    ∀ done, done <+: ops → ∃ policy', run work policy done = .ok policy' ∧ policy'.Weighed ∧
      policy'.kind = policy.kind := by
  refine exists_run_eq (fun _ mid => mid.Weighed ∧ mid.kind = policy.kind) ⟨weighed, rfl⟩ meets ?_
  intro done op mid _ ⟨holds, kind⟩ fits
  obtain ⟨mid', ran, weighed', kind'⟩ := exists_work holds fits
  exact ⟨mid', ran, weighed', kind'.trans kind⟩

/-- While the newcomers' weight fits an `int64`: in every state of a run and of an eviction, the weight S3-FIFO and
W-TinyLFU keep for their quarantine is that of its nodes, and an eviction looks at it exactly when it is over its
target or main is empty. -/
theorem quarantine_weight_exact (hash : K → BitVec 64) (shardCap ghostSize : Int) (ops : List (PolicyOp K V)) :
    (Meets work (fun policy op => op.Fits policy) (newPolicy .s3fifo hash shardCap ghostSize) ops →
      ∀ done, done <+: ops → ∃ p, run work (newPolicy .s3fifo hash shardCap ghostSize) done = .ok (.s3fifo p) ∧
        ∀ (t : FlatHashMap K V) nowOff p' t', TwoQueues.Visits (S3FIFOPolicy.turn nowOff) (p, t) (p', t') →
          p'.smallWeight = totalCost p'.small.toList ∧ 0 ≤ p'.smallWeight ∧
          (p'.nodes ≠ [] → S3FIFOPolicy.turn nowOff (p', t') = TwoQueues.outcome
            (if p'.smallCap < totalCost p'.small.toList ∨ p'.main.toList = [] then p'.evictSmallOnce t' nowOff
            else p'.evictMainOnce t' nowOff))) ∧
    (Meets work (fun policy op => op.Fits policy) (newPolicy .wtinylfu hash shardCap ghostSize) ops →
      ∀ done, done <+: ops → ∃ p, run work (newPolicy .wtinylfu hash shardCap ghostSize) done = .ok (.wtinylfu p) ∧
        ∀ (t : FlatHashMap K V) nowOff p' t', TwoQueues.Visits (WTinyLFUPolicy.turn nowOff) (p, t) (p', t') →
          p'.windowWeight = totalCost p'.window.toList ∧ 0 ≤ p'.windowWeight ∧
          (p'.nodes ≠ [] → WTinyLFUPolicy.turn nowOff (p', t') = TwoQueues.outcome
            (if p'.windowCap < totalCost p'.window.toList ∨ p'.main.toList = [] then p'.evictWindowOnce t' nowOff
            else p'.evictMainOnce t' nowOff))) := by
  refine ⟨fun meets done within => ?_, fun meets done within => ?_⟩
  · have start : (newPolicy .s3fifo hash shardCap ghostSize).Weighed :=
      S3FIFOPolicy.weighed_new hash shardCap ghostSize
    obtain ⟨policy, ran, weighed, kind⟩ := exists_run start meets done within
    cases policy with
    | s3fifo p =>
      refine ⟨p, ran, fun t nowOff p' t' visits => ?_⟩
      have weighed' : p'.Weighed := visits.keeps S3FIFOPolicy.Weighed
        (fun s s' weighed turned => (weighed.turn s.2 nowOff).1 s' turned) weighed
      exact ⟨weighed'.weighs.exact, weighed'.weighs.nonneg, fun some =>
        TwoQueues.turn_eq weighed'.valid weighed'.weighs weighed'.target rfl some t'⟩
    | clock p => exact weighed.elim
    | sieve p => exact weighed.elim
    | wtinylfu p => cases kind
  · have start : (newPolicy .wtinylfu hash shardCap ghostSize).Weighed :=
      WTinyLFUPolicy.weighed_new hash shardCap ghostSize
    obtain ⟨policy, ran, weighed, kind⟩ := exists_run start meets done within
    cases policy with
    | wtinylfu p =>
      refine ⟨p, ran, fun t nowOff p' t' visits => ?_⟩
      have weighed' : p'.Weighed := visits.keeps WTinyLFUPolicy.Weighed
        (fun s s' weighed turned => (weighed.turn s.2 nowOff).1 s' turned) weighed
      exact ⟨weighed'.weighs.exact, weighed'.weighs.nonneg, fun some =>
        TwoQueues.turn_eq weighed'.valid weighed'.weighs weighed'.target rfl some t'⟩
    | clock p => exact weighed.elim
    | sieve p => exact weighed.elim
    | s3fifo p => cases kind

/-- Newcomers of the largest weight. -/
def heavyAdds (n : Nat) : List (PolicyOp Nat Unit) :=
  (List.range n).map fun i => .add (newFlatHashMap 64) ⟨i, 2 ^ 32 - 1⟩

/-- One of them is in a quarantine that weighs what it does. -/
theorem quarantine_weight_exact_one : ∃ p : S3FIFOPolicy Nat,
    run work (newPolicy .s3fifo (fun _ => 0#64) 10 0) (heavyAdds 1) = .ok (.s3fifo p) ∧
      p.smallWeight = totalCost p.small.toList := by
  obtain ⟨p, ran, holds⟩ := (quarantine_weight_exact (fun _ => 0#64) 10 0 (heavyAdds 1)).1
    (meets_cons (show 0 + (2 ^ 32 - 1) < 2 ^ 63 by decide) fun _ _ => meets_nil _ _ _) (heavyAdds 1)
    List.prefix_rfl
  exact ⟨p, ran, (holds (newFlatHashMap 64) 0 p (newFlatHashMap 64) .refl).1⟩

omit [Inhabited K] [Inhabited V] in
theorem add_of_forgets {p : S3FIFOPolicy K} (forgets : p.ghost.slotCount = 0) (t : FlatHashMap K V) (node : QNode) :
    p.add t node = { p with small := p.small.push node, smallWeight := int64 (p.smallWeight + node.cost) } := by
  unfold S3FIFOPolicy.add GhostTable.hit
  rw [if_pos forgets]

/-- So many of the heaviest newcomers weigh exactly what the counter says. -/
theorem exists_heavy {n : Nat} (few : n ≤ 2 ^ 31) : ∃ p : S3FIFOPolicy Nat,
    run work (newPolicy .s3fifo (fun _ => 0#64) (2 ^ 62) 0) (heavyAdds n) = .ok (.s3fifo p) ∧
      p.Weighed ∧ totalCost p.small.toList = n * (2 ^ 32 - 1) ∧ p.ghost.slotCount = 0 := by
  induction n with
  | zero => exact ⟨_, rfl, S3FIFOPolicy.weighed_new (fun _ : Nat => 0#64) (2 ^ 62) 0, rfl, rfl⟩
  | succ n ih =>
    obtain ⟨p, ran, weighed, total, forgets⟩ := ih (by omega)
    have fits : totalCost p.small.toList + (⟨n, 2 ^ 32 - 1⟩ : QNode).cost < 2 ^ 63 := by
      rw [total]
      show n * (2 ^ 32 - 1) + (2 ^ 32 - 1) < 2 ^ 63
      omega
    have weighed' := weighed.add (newFlatHashMap 64 : FlatHashMap Nat Unit) fits
    rw [add_of_forgets forgets] at weighed'
    have listed : (p.small.push ⟨n, 2 ^ 32 - 1⟩).toList = p.small.toList ++ [⟨n, 2 ^ 32 - 1⟩] :=
      (EvictQueue.push_spec weighed.valid.1 _).2
    have split : heavyAdds (n + 1) = heavyAdds n ++ [.add (newFlatHashMap 64) ⟨n, 2 ^ 32 - 1⟩] := by
      simp [heavyAdds, List.range_succ]
    refine ⟨_, ?_, weighed', ?_, forgets⟩
    · rw [split, run_append ran, ← add_of_forgets forgets (newFlatHashMap 64 : FlatHashMap Nat Unit)]
      rfl
    · simp only [listed, totalCost_append, total, totalCost_cons, totalCost_nil]
      omega

/-- One newcomer more than the counter can hold makes it negative. -/
theorem wrapped_of_last {n : Nat} (last : n = 2 ^ 31) : ∃ p : S3FIFOPolicy Nat,
    run work (newPolicy .s3fifo (fun _ => 0#64) (2 ^ 62) 0) (heavyAdds (n + 1)) = .ok (.s3fifo p) ∧
      p.smallWeight < 0 := by
  obtain ⟨p, ran, weighed, total, forgets⟩ := exists_heavy last.le
  have split : heavyAdds (n + 1) = heavyAdds n ++ [.add (newFlatHashMap 64) ⟨n, 2 ^ 32 - 1⟩] := by
    simp [heavyAdds, List.range_succ]
  refine ⟨p.add (newFlatHashMap 64 : FlatHashMap Nat Unit) ⟨n, 2 ^ 32 - 1⟩, by rw [split, run_append ran]; rfl, ?_⟩
  rw [add_of_forgets forgets]
  show int64 (p.smallWeight + (2 ^ 32 - 1 : Nat)) < 0
  rw [weighed.weighs.exact, total, last]
  decide

/-- So many heavy newcomers leave a negative weight. -/
theorem quarantine_weight_wraps : ∃ p : S3FIFOPolicy Nat,
    run work (newPolicy .s3fifo (fun _ => 0#64) (2 ^ 62) 0) (heavyAdds (2 ^ 31 + 1)) = .ok (.s3fifo p) ∧
      p.smallWeight < 0 ∧ p.smallWeight ≠ totalCost p.small.toList := by
  obtain ⟨p, ran, negative⟩ := wrapped_of_last rfl
  exact ⟨p, ran, negative, by omega⟩

end PolicyOp

end Memstash
