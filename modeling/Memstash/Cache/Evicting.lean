import Memstash.Cache.ShardLaws

/-! An eviction pass removes items until the shard fits its capacity again. -/

namespace Memstash

open Probing Scan Turns MetaWord Machine

namespace Shard

variable {K V : Type} {cfg : ShardConfig K V} {sh : Shard K V} [Inhabited K] [Inhabited V]

/-- Why an item the policy gave up is gone: its lifetime had ended, or it made room. -/
def reclaimCause (nowOff off : Nat) : DeletionCause :=
  if lapsed off nowOff then .expiration else .eviction

/-- What giving up a node's item does and reports: nothing for one that died earlier. -/
inductive Reclaimed (cfg : ShardConfig K V) (nowOff : Nat) (sh sh' : Shard K V) :
    List (Deletion K V) → Prop
  | buried (removed : Removed cfg (fun _ => False) sh sh') : Reclaimed cfg nowOff sh sh' []
  | died {key : K} {value : V} {off : Nat} (served : sh.items.Serves key value off)
      (removed : Removed cfg (fun other => other = key) sh sh') :
      Reclaimed cfg nowOff sh sh'
        (if cfg.onDeletion then [⟨key, value, reclaimCause nowOff off⟩] else [])

/-- What an eviction pass does and reports: it gives up one item after the other. -/
inductive Evicted (cfg : ShardConfig K V) (nowOff : Nat) (sh : Shard K V) :
    Shard K V → List (Deletion K V) → Prop
  | start : Evicted cfg nowOff sh sh []
  | next {mid sh' : Shard K V} {before gone : List (Deletion K V)}
      (earlier : Evicted cfg nowOff sh mid before) (reclaimed : Reclaimed cfg nowOff mid sh' gone) :
      Evicted cfg nowOff sh sh' (before ++ gone)

omit [Inhabited K] [Inhabited V] in
theorem Reclaimed.removed {nowOff : Nat} {sh' : Shard K V} {gone : List (Deletion K V)}
    (reclaimed : Reclaimed cfg nowOff sh sh' gone) : ∃ lost, Removed cfg lost sh sh' := by
  cases reclaimed with
  | buried removed => exact ⟨_, removed⟩
  | died _ removed => exact ⟨_, removed⟩

omit [Inhabited K] [Inhabited V] in
/-- Giving up an item after a step that removes nothing is giving it up. -/
theorem Reclaimed.after {nowOff : Nat} {mid sh' : Shard K V} {gone : List (Deletion K V)}
    (still : Removed cfg (fun _ => False) sh mid) (reclaimed : Reclaimed cfg nowOff mid sh' gone) :
    Reclaimed cfg nowOff sh sh' gone := by
  cases reclaimed with
  | buried removed => exact .buried ((still.trans removed).congr fun _ _ _ _ => by simp)
  | died served removed =>
    exact .died ((still.serves _ _ _).mp served).2
      ((still.trans removed).congr fun _ _ _ _ => by simp)

omit [Inhabited K] [Inhabited V] in
/-- An eviction pass only removes items. -/
theorem Evicted.removed (inv : sh.Inv cfg) {nowOff : Nat} {sh' : Shard K V}
    {gone : List (Deletion K V)} (evicted : Evicted cfg nowOff sh sh' gone) :
    ∃ lost, Removed cfg lost sh sh' := by
  induction evicted with
  | start => exact ⟨_, .refl inv⟩
  | next _ reclaimed ih =>
    obtain ⟨_, earlier⟩ := ih
    obtain ⟨_, removed⟩ := reclaimed.removed
    exact ⟨_, earlier.trans removed⟩

omit [Inhabited K] [Inhabited V] in
theorem Inv.weight_of_empty (inv : sh.Inv cfg) (empty : sh.policy.queued = []) : sh.weight = 0 := by
  have total := inv.queues.sum_eq fun _ idle => Item.costOne_of_not_live cfg idle
  rw [inv.weight, ← total, empty]
  rfl

omit [Inhabited K] [Inhabited V] in
theorem kill_expireOff (item : Item K V) : item.kill.metaWord.expireOff = item.metaWord.expireOff := by
  rw [MetaWord.expireOff, Item.kill_and (by decide), MetaWord.expireOff]

/-- Giving up the item of a node the policy let go removes and reports it, if it was alive. -/
theorem Inv.reclaimed (inv : sh.Inv cfg) (nowOff : Nat) {policy : EvictionPolicy K} {node : QNode}
    (valid : policy.Valid) (same : policy.kind = sh.policy.kind)
    (took : sh.policy.queued.Perm (node :: policy.queued)) :
    Reclaimed cfg nowOff sh (Shard.reclaim cfg nowOff { sh with policy := policy } node.idx).1
      (Shard.reclaim cfg nowOff { sh with policy := policy } node.idx).2 := by
  have queues := inv.queues.perm took.symm
  obtain ⟨inside, bound⟩ := (queues.bound node.idx).mp (by simp)
  have wrapped := inv.table.sized.wrap_of_lt inside
  cases cell : sh.items.cells (sh.items.wrap node.idx) with
  | vacant =>
    rw [← wrapped, cell] at bound
    exact absurd bound (by simp)
  | released =>
    rw [← wrapped, cell] at bound
    exact absurd bound (by simp)
  | tomb key =>
    -- A tombstone was accounted for when it died, and only has to be handed back.
    have dead : (sh.items.itemAt node.idx).metaWord.isDead = true :=
      ((Item.cell_eq_tomb_iff _ _).mp cell).2.1
    have alike := FlatHashMap.alike_release inv.table cell
    simp only [Shard.reclaim, dead, if_true, Item.kill_of_isDead dead]
    exact .buried ⟨inv.alike alike valid (queues.release inv.table.sized dead) sh.deadCount, rfl, same,
      le_rfl, alike.slots, fun key value off => by simpa using alike.serves key value off⟩
  | live key =>
    -- A live item dies first, and the slot is handed back at once.
    obtain ⟨_, alive, rfl⟩ : (sh.items.itemAt node.idx).metaWord ≠ 0#64 ∧
        (sh.items.itemAt node.idx).metaWord.isDead = false ∧
        (sh.items.itemAt node.idx).entry.key = key := (Item.cell_eq_live_iff _ _).mp cell
    have removed := inv.killed_removed cell
    have here := killed_itemAt cfg sh node.idx
    have alike := FlatHashMap.alike_release removed.inv.table (inv.toStored.killed_tomb cell)
    -- Its node is still queued, as that of a tombstone.
    have queued := removed.inv.queues.perm took.symm
    have released := removed.inv.alike alike valid
      (queued.release removed.inv.table.sized (by rw [here]; exact Item.kill_isDead)) sh.deadCount
    rw [here] at released alike
    simp only [Shard.reclaim, alive, Bool.false_eq_true, if_false, MetaWord.expired, kill_expireOff]
    exact .died ⟨_, sh.items.wrap_lt node.idx, cell, rfl, rfl⟩
      ⟨released, rfl, same, removed.light, removed.slots.trans alike.slots, fun other value off =>
        (alike.serves other value off).trans (removed.serves other value off)⟩

omit [Inhabited K] [Inhabited V] in
theorem Stored.spend_queues (stored : sh.Stored cfg) {items : FlatHashMap K V}
    (only : sh.items.OnlyChances items) : items.Queues sh.policy.queued := by
  refine stored.queues.same (only.alike stored.table).slots.size fun i inside => ?_
  rw [(only.settled (stored.table.settled i inside)).2.1]

omit [Inhabited K] [Inhabited V] in
/-- Spending chances keeps the invariant. -/
theorem Inv.spend (inv : sh.Inv cfg) {items : FlatHashMap K V}
    (only : sh.items.OnlyChances items) :
    Removed cfg (fun _ => False) sh { sh with items := items } := by
  have alike := only.alike inv.table
  exact ⟨inv.alike alike inv.policy (inv.toStored.spend_queues only) sh.deadCount, rfl, rfl, le_rfl,
    alike.slots, fun key value off => by simpa using alike.serves key value off⟩

/-- A turn of an eviction pass dequeues a node, or finds that the shard fits. -/
theorem evictShardTurn_progress (nowOff : Nat) {start : Shard K V} (startInv : start.Inv cfg)
    (reported : List (Deletion K V)) (state : Shard K V × List (Deletion K V))
    (reached : ∃ gone, Evicted cfg nowOff start state.1 gone ∧ state.2 = reported ++ gone) :
    Progress (evictShardTurn cfg nowOff)
      (fun state => ∃ gone, Evicted cfg nowOff start state.1 gone ∧ state.2 = reported ++ gone)
      (fun state => state.1.policy.queued.length)
      (fun result => (∃ gone, Evicted cfg nowOff start result.1 gone ∧ result.2 = reported ++ gone) ∧
        result.1.weight ≤ result.1.cap)
      state := by
  obtain ⟨sh, deletions⟩ := state
  obtain ⟨gone, evicted, same⟩ := reached
  obtain rfl : deletions = reported ++ gone := same
  obtain ⟨_, removed⟩ := evicted.removed startInv
  have inv : sh.Inv cfg := removed.inv
  by_cases heavy : sh.weight > sh.cap
  · obtain ⟨policy, items, victim, ran, valid, chosen⟩ := EvictionPolicy.evict_spec inv.policy
      sh.items nowOff
    have spent := inv.spend chosen.only
    cases victim with
    | none =>
      -- An empty queue means no weight, which fits any capacity.
      have weightless := inv.weight_of_empty (chosen.empty rfl).1
      have capacity := inv.capacity
      omega
    | some idx =>
      obtain ⟨node, rfl, took⟩ := chosen.took idx rfl
      have reclaimed := spent.inv.reclaimed nowOff valid (EvictionPolicy.evict_kind ran) took
      refine .inl ⟨((Shard.reclaim cfg nowOff { sh with policy := policy, items := items } node.idx).1,
        reported ++ gone ++ (Shard.reclaim cfg nowOff
          { sh with policy := policy, items := items } node.idx).2), ?_,
        ⟨_, evicted.next (reclaimed.after spent), ?_⟩, ?_⟩
      · simp only [evictShardTurn, if_pos heavy, ran, Bind.bind, Except.bind, Pure.pure, Except.pure]
      · exact List.append_assoc _ _ _
      have shorter := took.length_eq
      have kept : (Shard.reclaim cfg nowOff
          { sh with policy := policy, items := items } node.idx).1.policy = policy := by
        simp only [Shard.reclaim]
        split <;> rfl
      simp only [kept]
      simp only [List.length_cons] at shorter
      omega
  · exact .inr ⟨(sh, _), by simp only [evictShardTurn, if_neg heavy], ⟨gone, evicted, rfl⟩,
      not_lt.mp heavy⟩

/-- An eviction pass ends, appends its reports, and leaves a shard that fits its capacity. -/
theorem Inv.evictShard_reports (inv : sh.Inv cfg) (nowOff : Nat) (deletions : List (Deletion K V)) :
    ∃ sh' gone, sh.evictShard cfg nowOff deletions = .ok (sh', deletions ++ gone) ∧
      Evicted cfg nowOff sh sh' gone ∧ sh'.weight ≤ sh'.cap := by
  obtain ⟨⟨sh', deletions'⟩, ran, ⟨gone, evicted, rfl⟩, fits⟩ :=
    exists_turns_eq (evictShardTurn_progress nowOff inv deletions) (sh.policy.len + 2) (sh, deletions)
      ⟨[], .start, by simp⟩ (by rw [EvictionPolicy.length_queued inv.policy]; omega)
  exact ⟨sh', gone, ran, evicted, fits⟩

/-- An eviction pass ends, and leaves a shard that fits its capacity. -/
theorem Inv.evictShard (inv : sh.Inv cfg) (nowOff : Nat) (deletions : List (Deletion K V)) :
    ∃ sh' deletions' gone, sh.evictShard cfg nowOff deletions = .ok (sh', deletions') ∧
      Removed cfg gone sh sh' ∧ sh'.weight ≤ sh'.cap := by
  obtain ⟨sh', _, ran, evicted, fits⟩ := inv.evictShard_reports nowOff deletions
  obtain ⟨gone, removed⟩ := evicted.removed inv
  exact ⟨sh', _, gone, ran, removed, fits⟩

end Shard

end Memstash
