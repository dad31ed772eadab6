import Memstash.Cache.EarlyExit
import Memstash.Cache.Prealloc

/-! Keys that are only ever added lie in their order, and one pushed all the way round the table is lost. -/

namespace Memstash

open Probing Scan Runs RangeSum MetaWord Machine

variable {K V : Type} {cfg : ShardConfig K V}

namespace FlatHashMap

/-- The layout of a table that keys were only ever added to. -/
def LaidOut [DecidableEq K] (cfg : ShardConfig K V) (keys : List K) (t : FlatHashMap K V) : Prop :=
  Laid t.len (fun key => t.home (cfg.keyHash key)) keys t.cells

section Copies

variable [DecidableEq K] {t t' : FlatHashMap K V}

/-- Filling the first vacancy on a key's path adds the key to the layout. -/
theorem LaidOut.snoc {keys : List K} {key : K} {d : Nat} {item : Item K V} {home : Nat}
    (laid : LaidOut cfg keys t) (sized : t.Sized) (small : d < t.len)
    (filled : ∀ e < d, t.cells ((t.home (cfg.keyHash key) + e) % t.len) ≠ .vacant)
    (vacant : t.cells ((t.home (cfg.keyHash key) + d) % t.len) = .vacant) (live : item.cell = .live key) :
    LaidOut cfg (keys ++ [key])
      ((t.put (t.home (cfg.keyHash key) + d) item).noteDisplaced home (t.home (cfg.keyHash key) + d)) := by
  have cells : ((t.put (t.home (cfg.keyHash key) + d) item).noteDisplaced home
      (t.home (cfg.keyHash key) + d)).cells
      = Function.update t.cells ((t.home (cfg.keyHash key) + d) % t.len) (.live key) := by
    funext i
    rw [noteDisplaced_cells, put_cells, sized.wrap_eq, live, Function.update_apply]
  unfold LaidOut
  rw [cells]
  simp only [noteDisplaced_len, put_len, noteDisplaced_home, put_home]
  exact Laid.snoc laid small filled vacant

/-- Copying a live item adds its key to the layout. -/
theorem LaidOut.insertFresh {keys : List K} {key : K} {item : Item K V} {idx : Nat}
    (laid : LaidOut cfg keys t) (sized : t.Sized) (live : item.cell = .live key)
    (ran : t.insertFresh (cfg.keyHash key) item = .ok (t', idx)) :
    LaidOut cfg (keys ++ [key]) t' ∧ t'.mask = t.mask := by
  obtain ⟨pos, scanned, same⟩ := exists_of_bind_eq_ok ran
  obtain ⟨d, small, before, decided⟩ := exists_of_scan_eq_ok scanned
  have visit : ∀ pos, (t.itemAt pos).metaWord = 0#64 ↔ t.cells (pos % t.len) = .vacant := by
    intro pos
    rw [itemAt, sized.wrap_eq, cells, Item.cell_eq_vacant_iff]
  cases same
  split at decided
  · rename_i empty
    obtain rfl := Except.ok.inj (Option.some.inj decided)
    refine ⟨laid.snoc sized small (fun e smaller vacant => ?_) ((visit _).mp empty) live, by simp⟩
    have := before e smaller
    simp [visit, vacant] at this
  · cases decided

/-- Copying queued live items one after the other adds their keys to the layout in that order. -/
theorem LaidOut.relink {old : FlatHashMap K V} :
    ∀ {nodes kept : List QNode} {done keys : List K} {fresh fresh' : FlatHashMap K V} {live live' : Int},
      LaidOut cfg done fresh → fresh.Sized →
      nodes.map (fun node => (old.itemAt node.idx).cell) = keys.map .live →
      Memstash.relink (Shard.moveItem cfg old) (fresh, live) nodes = .ok ((fresh', live'), kept) →
      LaidOut cfg (done ++ keys) fresh' := by
  intro nodes
  induction nodes with
  | nil =>
    intro kept done keys fresh fresh' live live' laid _ named linked
    cases linked
    obtain rfl : keys = [] := by simpa using named.symm
    simpa using laid
  | cons node rest ih =>
    intro kept done keys fresh fresh' live live' laid sized named linked
    cases keys with
    | nil => simp at named
    | cons key others =>
      simp only [List.map_cons, List.cons.injEq] at named
      obtain ⟨_, alive, keyed⟩ := (Item.cell_eq_live_iff _ _).mp named.1
      rcases relink_cons linked with ⟨⟨mid, count⟩, newIdx, keptRest, moved, tail, rfl⟩ |
        ⟨⟨mid, count⟩, moved, tail⟩
      · simp only [Shard.moveItem, alive, Bool.false_eq_true, if_false, keyed] at moved
        obtain ⟨⟨placed, idx⟩, inserted, same⟩ := exists_of_bind_eq_ok moved
        cases same
        obtain ⟨laid', mask⟩ := laid.insertFresh sized named.1 inserted
        have sized' : placed.Sized := by
          obtain ⟨b, lowB, highB, size⟩ := sized
          exact ⟨b, lowB, highB, by rw [← size, len, len, mask]⟩
        simpa using ih laid' sized' named.2 tail
      · simp only [Shard.moveItem, alive, Bool.false_eq_true, if_false, keyed] at moved
        obtain ⟨result, _, same⟩ := exists_of_bind_eq_ok moved
        cases same

omit [DecidableEq K] in
/-- Nodes that follow live items point at the same cells. -/
theorem Follows.named {old fresh : FlatHashMap K V} {nodes kept : List QNode} {keys : List K}
    (sized : fresh.Sized) (follows : Follows old fresh nodes kept)
    (named : nodes.map (fun node => (old.itemAt node.idx).cell) = keys.map .live) :
    kept.map (fun node => (fresh.itemAt node.idx).cell) = keys.map .live := by
  have all : nodes.filter (fun node => !(old.itemAt node.idx).metaWord.isDead) = nodes := by
    refine List.filter_eq_self.mpr fun node member => ?_
    have cell := List.mem_map_of_mem (f := fun node => (old.itemAt node.idx).cell) member
    rw [named] at cell
    obtain ⟨key, _, live⟩ := List.mem_map.mp cell
    simp [((Item.cell_eq_live_iff _ _).mp live.symm).2.1]
  unfold Follows at follows
  rw [all] at follows
  rw [← named]
  clear named all
  induction follows with
  | nil => rfl
  | @cons node node' _ _ head _ ih =>
    obtain ⟨_, inside, same⟩ := head
    have here : fresh.itemAt node'.idx = old.itemAt node.idx := by
      rw [itemAt, sized.wrap_of_lt inside, same]
    simp only [List.map_cons, ih, here]

end Copies

end FlatHashMap

/-- CLOCK queues a new node behind the others. -/
theorem EvictionPolicy.add_clock {policy policy' : EvictionPolicy K} (valid : policy.Valid)
    (clock : policy.kind = .clock) {t : FlatHashMap K V} {node : QNode} (added : policy.add t node = .ok policy') :
    policy'.queued = policy.queued ++ [node] := by
  cases policy with
  | clock p =>
    cases added
    exact (EvictQueue.push_spec valid node).2
  | s3fifo p => cases clock
  | wtinylfu p => cases clock
  | sieve p => cases clock

namespace Shard

variable [DecidableEq K] {sh sh' : Shard K V} {keys : List K}

/-- A CLOCK shard whose queue has the keys in their order, and whose table was laid out in it. -/
structure Packed (cfg : ShardConfig K V) (keys : List K) (sh : Shard K V) : Prop where
  clock : sh.policy.kind = .clock
  laid : sh.items.LaidOut cfg keys
  named : sh.policy.queued.map (fun node => (sh.items.itemAt node.idx).cell) = keys.map .live

variable [Inhabited K] [Inhabited V]

/-- Replacing the table of a packed shard lays its keys out again in the same order. -/
theorem Packed.rebuilt (packed : sh.Packed cfg keys) (rebuilt : Rebuilt cfg sh sh') : sh'.Packed cfg keys := by
  obtain ⟨_, _, relinked⟩ := rebuilt.queue
  obtain ⟨size, copied⟩ := rebuilt.copied
  have filled : ∀ node ∈ sh.policy.queued, (sh.items.itemAt node.idx).metaWord ≠ 0#64 := by
    intro node member empty
    have cell := List.mem_map_of_mem (f := fun node => (sh.items.itemAt node.idx).cell) member
    rw [packed.named, (Item.cell_eq_vacant_iff _).mpr empty] at cell
    simp at cell
  obtain ⟨extended, follows⟩ := FlatHashMap.relink_follows filled copied
  have sized := rebuilt.stored.table.sized
  have start : (newFlatHashMap size : FlatHashMap K V).Sized := by
    obtain ⟨b, low, high, count⟩ := sized
    exact ⟨b, low, high, extended.size.symm.trans count⟩
  have empty : FlatHashMap.LaidOut cfg [] (newFlatHashMap size : FlatHashMap K V) := by
    unfold FlatHashMap.LaidOut
    rw [show (newFlatHashMap size : FlatHashMap K V).cells = fun _ => .vacant from
      funext (FlatHashMap.newFlatHashMap_cells size)]
    exact .nil
  exact {
    clock := (EvictionPolicy.rebuild_kind relinked).trans packed.clock
    laid := empty.relink start packed.named copied
    named := FlatHashMap.Follows.named sized follows packed.named }

omit [DecidableEq K] [Inhabited K] [Inhabited V] in
/-- Publishing changes what one slot is to a probe. -/
theorem published_cell {key : K} {off : Nat} (small : off < 2 ^ 18) (t : FlatHashMap K V) (value : V)
    (pos idx : Nat) : ((published cfg t key value off pos).itemAt idx).cell
      = if t.wrap idx = t.wrap pos then .live key else (t.itemAt idx).cell := by
  show (published cfg t key value off pos).cells ((published cfg t key value off pos).wrap idx) = _
  simp only [published, FlatHashMap.noteDisplaced_cells, FlatHashMap.noteDisplaced_wrap, FlatHashMap.put_wrap,
    FlatHashMap.put_cells, Item.publish_cell _ _ small (tagOf_within _)]
  rfl

/-- A new key is added to the layout and to the end of the queue. -/
theorem Packed.stores (packed : sh.Packed cfg keys) (sound : sh.Sound cfg) {key : K} {value : V} {off : Nat}
    (small : off < 2 ^ 18) (stores : Stores cfg sh key value off sh') : sh'.Packed cfg (keys ++ [key]) := by
  obtain ⟨d, policy, near, passed, vacant, added, after⟩ := stores
  have sized := sound.table.sized
  have slot : sh.items.wrap (sh.items.home (cfg.keyHash key) + d)
      = (sh.items.home (cfg.keyHash key) + d) % sh.items.len := sized.wrap_eq _
  have alive : ((sh.items.itemAt (sh.items.home (cfg.keyHash key) + d)).publish ⟨key, value⟩
      (tagOf (cfg.keyHash key)) off).cell = .live key :=
    Item.publish_cell _ _ small (tagOf_within _)
  have full : (sh.inserted cfg key value off (sh.items.home (cfg.keyHash key) + d) none policy).Packed cfg
      (keys ++ [key]) := by
    refine ⟨(EvictionPolicy.add_kind added).trans packed.clock,
      packed.laid.snoc sized near passed.filled vacant alive, ?_⟩
    have listed : policy.queued
        = sh.policy.queued ++ [newNode cfg sh.items key value (sh.items.home (cfg.keyHash key) + d) none] :=
      EvictionPolicy.add_clock sound.policy packed.clock added
    simp only [Shard.inserted, listed, List.map_append, List.map_cons, List.map_nil, Option.getD_none]
    congr 1
    · -- The slot was vacant, so no older node points at it.
      rw [← packed.named]
      refine List.map_congr_left fun node member => ?_
      rw [published_cell small, if_neg]
      intro same
      have cell := List.mem_map_of_mem (f := fun node => (sh.items.itemAt node.idx).cell) member
      rw [packed.named, FlatHashMap.itemAt, same, slot] at cell
      obtain ⟨other, _, live⟩ := List.mem_map.mp cell
      exact absurd (live.trans vacant) (by simp)
    · rw [published_cell small, newNode, Option.getD_none, sized.wrap_of_lt (sh.items.wrap_lt _), if_pos rfl]
  rcases after with rfl | rebuilt
  · exact full
  · exact full.rebuilt rebuilt

end Shard

end Memstash
