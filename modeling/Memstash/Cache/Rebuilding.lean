import Memstash.Cache.ShardLaws

/-! A rebuild moves the live items to a table with room and keeps what the shard serves. -/

namespace Memstash

open Probing Scan RangeSum MetaWord

variable {K V : Type} {cfg : ShardConfig K V}

namespace FlatHashMap

section Fresh

variable [Inhabited K] [Inhabited V]

theorem newFlatHashMap_wraps : (newFlatHashMap (2 ^ 33) : FlatHashMap K V) = newFlatHashMap (2 ^ 32) := by
  simp [newFlatHashMap]

/-- A new table has the size asked for. -/
theorem newFlatHashMap_len {b : Nat} (high : b ≤ 32) :
    (newFlatHashMap (2 ^ b) : FlatHashMap K V).len = 2 ^ b := by
  have positive : 0 < 2 ^ b := Nat.two_pow_pos b
  have most : 2 ^ b ≤ 2 ^ 32 := Nat.pow_le_pow_right (by omega) high
  simp only [newFlatHashMap, len]
  rw [Nat.mod_eq_of_lt (by omega)]
  omega

theorem newFlatHashMap_cells (n i : Nat) : (newFlatHashMap n : FlatHashMap K V).cells i = .vacant :=
  (Item.cell_eq_vacant_iff _).mpr rfl

/-- A new table is well formed. -/
theorem newFlatHashMap_inv (hash : K → BitVec 64) {b : Nat} (low : 6 ≤ b) (high : b ≤ 32) :
    (newFlatHashMap (2 ^ b) : FlatHashMap K V).Inv hash := by
  have cells : (newFlatHashMap (2 ^ b) : FlatHashMap K V).cells = fun _ => .vacant :=
    funext (newFlatHashMap_cells _)
  refine ⟨⟨b, low, high, newFlatHashMap_len high⟩, fun i _ => settled_zero, fun i _ key named => ?_, ?_,
    fun g _ => ?_⟩
  · rw [cells] at named
    exact absurd named (by simp)
  · rw [cells]
    exact .empty fun key => home_lt _ _
  · rw [cells]
    simp [displaced, strays, count, newFlatHashMap]

theorem newFlatHashMap_tally (n : Nat) {f : Item K V → Int} (vacant : f default = 0) :
    (newFlatHashMap n : FlatHashMap K V).tally f = 0 :=
  Finset.sum_eq_zero fun _ _ => vacant

end Fresh

section Enliven

variable {t : FlatHashMap K V} {pos home : Nat} {item : Item K V} {key : K}

theorem tally_enliven (f : Item K V → Int) :
    ((t.put pos item).noteDisplaced home pos).tally f = t.tally f + (f item - f (t.itemAt pos)) := by
  rw [tally_noteDisplaced, tally_put]

/-- Filling a slot that served nothing adds the new item to what is served. -/
theorem serves_enliven (idle : ∀ other, t.cells (t.wrap pos) ≠ .live other)
    (alive : item.cell = .live key) (other : K) (value : V) (off : Nat) :
    ((t.put pos item).noteDisplaced home pos).Serves other value off ↔
      (other = key ∧ item.entry.value = value ∧ item.metaWord.expireOff = off) ∨
        t.Serves other value off := by
  rw [serves_congr (noteDisplaced_mask _ _ _) (noteDisplaced_slots _ _ _), serves_put,
    servesAway_of_not_live idle, alive, Cell.live.injEq, eq_comm]

/-- Filling an unbound slot takes one more node. -/
theorem Queues.enliven {nodes : List QNode} (queues : t.Queues nodes) (home : Nat)
    (free : (t.cells (t.wrap pos)).key? = none) (alive : item.cell = .live key) (node : QNode)
    (here : node.idx = t.wrap pos) :
    ((t.put pos item).noteDisplaced home pos).Queues (node :: nodes) := by
  refine queues.bind (by simp) (by rw [here]; exact t.wrap_lt pos) (by rw [here]; exact free) ?_ ?_
  · rw [noteDisplaced_cells, here, put_here, alive]
    rfl
  · intro i _ other
    rw [here] at other
    rw [noteDisplaced_cells, put_others i other]

end Enliven

/-- The second table holds the first one's items and the live items of some of an older table's nodes. -/
structure Moved (cfg : ShardConfig K V) (old : FlatHashMap K V) (nodes kept : List QNode)
    (fresh fresh' : FlatHashMap K V) : Prop where
  inv : fresh'.Inv cfg.keyHash
  size : fresh'.len = fresh.len
  queues : ∀ base, fresh.Queues base → fresh'.Queues (kept ++ base)
  sums : ∀ f : Item K V → Int, (∀ item : Item K V, (∀ key, item.cell ≠ .live key) → f item = 0) →
    fresh'.tally f = fresh.tally f + (nodes.map fun node => f (old.slots node.idx)).sum
  dead : fresh'.tally Item.deadOne = fresh.tally Item.deadOne
  serves : ∀ key value off, fresh'.Serves key value off ↔ fresh.Serves key value off ∨
    ∃ node ∈ nodes, old.cells node.idx = .live key ∧ (old.slots node.idx).entry.value = value ∧
      (old.slots node.idx).metaWord.expireOff = off

/-- Moving a node's live item into a vacant slot, before the other nodes are moved. -/
theorem Moved.step {old fresh fresh' : FlatHashMap K V} {node : QNode} {nodes kept : List QNode}
    {pos home : Nat} {key : K} (vacant : fresh.cells (fresh.wrap pos) = .vacant)
    (alive : old.cells node.idx = .live key)
    (rest : Moved cfg old nodes kept
      ((fresh.put pos (old.slots node.idx)).noteDisplaced home pos) fresh') :
    Moved cfg old (node :: nodes) ({ node with idx := fresh.wrap pos } :: kept) fresh fresh' := by
  have empty : ∀ f : Item K V → Int,
      (∀ item : Item K V, (∀ key, item.cell ≠ .live key) → f item = 0) → f (fresh.itemAt pos) = 0 :=
    fun f dead => dead _ fun key live => by
      have : (fresh.itemAt pos).cell = .vacant := vacant
      simp [this] at live
  have itemCell : (old.slots node.idx).cell = .live key := alive
  refine ⟨rest.inv, rest.size.trans (by simp), fun base queued => ?_, fun f dead => ?_, ?_,
    fun other value off => ?_⟩
  · -- The queue keeps the order of the nodes, and the invariant does not depend on it.
    have filled := queued.enliven home (by rw [vacant]; rfl) itemCell
      { node with idx := fresh.wrap pos } rfl
    exact (rest.queues _ filled).perm List.perm_middle.symm
  · rw [rest.sums f dead, tally_enliven, empty f dead, List.map_cons, List.sum_cons]
    ring
  · have none : (fresh.itemAt pos).cell = .vacant := vacant
    rw [rest.dead, tally_enliven]
    simp [Item.deadOne, itemCell, none]
  · rw [rest.serves, serves_enliven (by simp [vacant]) itemCell]
    simp only [List.mem_cons, exists_eq_or_imp, alive, Cell.live.injEq]
    constructor
    · rintro ((⟨rfl, held⟩ | before) | after)
      · exact .inr (.inl ⟨rfl, held⟩)
      · exact .inl before
      · exact .inr (.inr after)
    · rintro (before | ⟨rfl, held⟩ | after)
      · exact .inl (.inr before)
      · exact .inl (.inl ⟨rfl, held⟩)
      · exact .inr after

variable {t : FlatHashMap K V} [DecidableEq K]

/-- A copy into a table with a vacancy goes to the first vacant slot on its path, within one pass. -/
theorem insertFresh_ends (sized : t.Sized) (vacancy : occupied t.len t.cells < t.len) (keyHash : BitVec 64)
    (src : Item K V) :
    ∃ steps < t.len, (∀ e < steps, t.cells ((t.home keyHash + e) % t.len) ≠ .vacant) ∧
      t.cells (t.wrap (t.home keyHash + steps)) = .vacant ∧
      t.insertFresh keyHash src = .ok ((t.put (t.home keyHash + steps) src).noteDisplaced
        (t.home keyHash) (t.home keyHash + steps), t.wrap (t.home keyHash + steps)) := by
  obtain ⟨reach, reachIn, hole⟩ := exists_vacancy_ahead (t.home_lt keyHash) vacancy
  have visit : ∀ pos, (t.itemAt pos).metaWord = 0#64 ↔ t.cells (pos % t.len) = .vacant := by
    intro pos
    rw [itemAt, sized.wrap_eq, cells, Item.cell_eq_vacant_iff]
  -- The walk from the home stops at the first vacancy.
  obtain ⟨steps, short, result, before, decided, ran⟩ := @exists_scan_eq _
    (fun pos => if (t.itemAt pos).metaWord = 0#64 then some (Except.ok pos) else none) t.len
    (t.home keyHash) reach reachIn (by simp [visit, hole])
  have vacant : t.cells (t.wrap (t.home keyHash + steps)) = .vacant := by
    by_contra filled
    rw [sized.wrap_eq] at filled
    simp [visit, filled] at decided
  have stopped : result = .ok (t.home keyHash + steps) := by
    rw [sized.wrap_eq] at vacant
    simpa [visit, vacant] using decided.symm
  refine ⟨steps, by omega, fun e small vacant => ?_, vacant, ?_⟩
  · have := before e small
    simp [visit, vacant] at this
  · rw [insertFresh, ran, stopped]
    rfl

/-- Copying a live item into a table with a vacancy binds its key to a vacant slot on its path. -/
theorem insertFresh_spec {hash : K → BitVec 64} (inv : t.Inv hash)
    (vacancy : occupied t.len t.cells < t.len) {src : Item K V} {key : K}
    (settled : src.metaWord.Settled) (alive : src.cell = .live key)
    (tag : src.metaWord &&& tagMask = tagOf (hash key))
    (absent : ∀ i < t.len, (t.cells i).key? ≠ some key) :
    ∃ idx, t.insertFresh (hash key) src
        = .ok ((t.put idx src).noteDisplaced (t.home (hash key)) idx, t.wrap idx) ∧
      t.cells (t.wrap idx) = .vacant ∧
      ((t.put idx src).noteDisplaced (t.home (hash key)) idx).Inv hash := by
  obtain ⟨steps, short, filled, vacant, ran⟩ := insertFresh_ends inv.sized vacancy (hash key) src
  refine ⟨t.home (hash key) + steps, ran, vacant, inv.enliven settled alive tag (by simp [vacant]) ?_⟩
  refine inv.chained.place (fun j _ other => put_others j other) ?_
    (fun j inside _ => absent j inside) ⟨steps, short, (inv.sized.wrap_eq _).symm, filled⟩
  rw [put_here, alive]
  rfl

/-- The live items of an older table's nodes are not in the new table, and it has room for them. -/
structure Movable (cfg : ShardConfig K V) (old : FlatHashMap K V) (nodes : List QNode)
    (fresh : FlatHashMap K V) : Prop where
  inv : fresh.Inv cfg.keyHash
  once : (nodes.map QNode.idx).Nodup
  bound : ∀ node ∈ nodes, node.idx < old.len ∧ ((old.cells node.idx).key?).isSome = true
  apart : ∀ node ∈ nodes, ∀ key, old.cells node.idx = .live key →
    ∀ i < fresh.len, (fresh.cells i).key? ≠ some key
  room : occupied fresh.len fresh.cells + (nodes.map fun node => (old.slots node.idx).liveOne).sum
    ≤ fresh.len

/-- A tombstone stays behind. -/
theorem Movable.skip {old fresh : FlatHashMap K V} {node : QNode} {nodes : List QNode} {key : K}
    (movable : Movable cfg old (node :: nodes) fresh) (tomb : old.cells node.idx = .tomb key) :
    Movable cfg old nodes fresh := by
  have room := movable.room
  have weightless : (old.slots node.idx).liveOne = 0 := by
    have cell : (old.slots node.idx).cell = .tomb key := tomb
    simp [Item.liveOne, cell]
  rw [List.map_cons, List.sum_cons, weightless, zero_add] at room
  exact ⟨movable.inv, (List.nodup_cons.mp movable.once).2,
    fun other member => movable.bound other (List.mem_cons_of_mem _ member),
    fun other member => movable.apart other (List.mem_cons_of_mem _ member), room⟩

/-- A live item moves to a vacant slot of the new table. -/
theorem Movable.take {old fresh : FlatHashMap K V} (oldInv : old.Inv cfg.keyHash) {node : QNode}
    {nodes : List QNode} {key : K} (movable : Movable cfg old (node :: nodes) fresh)
    (alive : old.cells node.idx = .live key) :
    ∃ pos, fresh.cells (fresh.wrap pos) = .vacant ∧
      fresh.insertFresh (cfg.keyHash key) (old.slots node.idx)
        = .ok ((fresh.put pos (old.slots node.idx)).noteDisplaced
            (fresh.home (cfg.keyHash key)) pos, fresh.wrap pos) ∧
      Movable cfg old nodes ((fresh.put pos (old.slots node.idx)).noteDisplaced
        (fresh.home (cfg.keyHash key)) pos) := by
  obtain ⟨inside, _⟩ := movable.bound node (by simp)
  have itemCell : (old.slots node.idx).cell = .live key := alive
  have one : (old.slots node.idx).liveOne = 1 := by simp [Item.liveOne, itemCell]
  have room := movable.room
  rw [List.map_cons, List.sum_cons, one] at room
  have others : 0 ≤ (nodes.map fun node => (old.slots node.idx).liveOne).sum :=
    List.sum_nonneg fun value member => by
      obtain ⟨other, _, rfl⟩ := List.mem_map.mp member
      unfold Item.liveOne
      split <;> decide
  obtain ⟨pos, inserted, vacant, inv⟩ := insertFresh_spec movable.inv (by omega)
    (oldInv.settled _ inside) itemCell (oldInv.tagged _ inside key (by rw [alive]; rfl))
    (movable.apart node (by simp) key alive)
  refine ⟨pos, vacant, inserted, inv, (List.nodup_cons.mp movable.once).2,
    fun other member => movable.bound other (List.mem_cons_of_mem _ member), ?_, ?_⟩
  · intro other member named live i within
    rw [noteDisplaced_len, put_len] at within
    rw [noteDisplaced_cells, put_cells]
    split
    · -- The other node's slot is another slot of the older table, so its key is another key.
      rw [itemCell]
      intro same
      rw [Cell.key?_live, Option.some.injEq] at same
      have here := oldInv.chained.unique _ inside _
        (movable.bound other (List.mem_cons_of_mem _ member)).1 key (by rw [alive]; rfl)
        (by rw [live, same]; rfl)
      exact (List.nodup_cons.mp movable.once).1 (here ▸ List.mem_map_of_mem member)
    · exact movable.apart other (List.mem_cons_of_mem _ member) named live i within
  · have none : (fresh.itemAt pos).cell = .vacant := vacant
    rw [occupied_eq_tally, tally_enliven, tally_enliven]
    rw [occupied_eq_tally] at room
    simp only [noteDisplaced_len, put_len]
    simp only [Item.liveOne, Item.deadOne, itemCell, none] at room ⊢
    omega

/-- A table with room for them takes the live items of an older table's nodes. -/
theorem relink_moved {old : FlatHashMap K V} (oldInv : old.Inv cfg.keyHash) :
    ∀ (nodes : List QNode) (fresh : FlatHashMap K V) (live : Int), Movable cfg old nodes fresh →
      ∃ fresh' kept, relink (Shard.moveItem cfg old) (fresh, live) nodes
          = .ok ((fresh', live + (nodes.map fun node => (old.slots node.idx).liveOne).sum), kept) ∧
        Moved cfg old nodes kept fresh fresh' := by
  intro nodes
  induction nodes with
  | nil =>
    intro fresh live movable
    exact ⟨fresh, [], by simp [relink, EvictQueue.remapNodes],
      movable.inv, rfl, fun _ queued => queued, fun f _ => by simp, rfl, by simp⟩
  | cons node rest ih =>
    intro fresh live movable
    obtain ⟨inside, named⟩ := movable.bound node (by simp)
    have wrapped := oldInv.sized.wrap_of_lt inside
    cases cell : old.cells node.idx with
    | vacant => simp [cell] at named
    | released => simp [cell] at named
    | tomb key =>
      have itemCell : (old.slots node.idx).cell = .tomb key := cell
      have dead := ((Item.cell_eq_tomb_iff _ _).mp itemCell).2.1
      have zero : (old.slots node.idx).liveOne = 0 := by simp [Item.liveOne, itemCell]
      obtain ⟨fresh', kept, linked, moved⟩ := ih fresh live (movable.skip cell)
      refine ⟨fresh', kept, ?_, moved.inv, moved.size, moved.queues, fun f idle => ?_, moved.dead, ?_⟩
      · rw [List.map_cons, List.sum_cons, zero, zero_add]
        exact relink_cons_none (by simp [Shard.moveItem, itemAt, wrapped, dead]; rfl) linked
      · rw [moved.sums f idle, List.map_cons, List.sum_cons,
          idle (old.slots node.idx) (by simp [itemCell]), zero_add]
      · intro key value off
        rw [moved.serves]
        simp [cell]
    | live key =>
      have itemCell : (old.slots node.idx).cell = .live key := cell
      obtain ⟨_, alive, keyed⟩ := (Item.cell_eq_live_iff _ _).mp itemCell
      have one : (old.slots node.idx).liveOne = 1 := by simp [Item.liveOne, itemCell]
      obtain ⟨pos, vacant, inserted, movable'⟩ := movable.take oldInv cell
      obtain ⟨fresh', kept, linked, moved⟩ := ih _ (live + 1) movable'
      refine ⟨fresh', _, ?_, moved.step vacant cell⟩
      rw [List.map_cons, List.sum_cons, one, ← add_assoc]
      refine relink_cons_some ?_ linked
      simp [Shard.moveItem, itemAt, wrapped, alive, keyed, inserted, Bind.bind, Except.bind]
      rfl

omit [DecidableEq K] in
/-- An item that was copied went to a vacant slot, and every other slot is as it was. -/
theorem insertFresh_placed {keyHash : BitVec 64} {src : Item K V} {t' : FlatHashMap K V} {idx : Nat}
    (ran : t.insertFresh keyHash src = .ok (t', idx)) :
    idx < t.len ∧ (t.slots idx).metaWord = 0#64 ∧ t'.len = t.len ∧
      t'.slots = Function.update t.slots idx src := by
  obtain ⟨pos, scanned, same⟩ := exists_of_bind_eq_ok ran
  obtain ⟨_, _, _, visited⟩ := exists_of_scan_eq_ok scanned
  cases same
  split at visited
  · rename_i empty
    obtain rfl := Except.ok.inj (Option.some.inj visited)
    exact ⟨t.wrap_lt _, empty, by simp, by simp [put]⟩
  · simp at visited

/-- The second list holds the nodes of the first that were live, in their order and with their costs,
each pointing at the slot of the new table that holds the same item. -/
def Follows (old fresh : FlatHashMap K V) (nodes kept : List QNode) : Prop :=
  List.Forall₂ (fun node node' : QNode => node'.cost = node.cost ∧ node'.idx < fresh.len ∧
      fresh.slots node'.idx = old.itemAt node.idx)
    (nodes.filter fun node => !(old.itemAt node.idx).metaWord.isDead) kept

/-- What is filled in the first table is the same in the second. -/
structure Extends (fresh fresh' : FlatHashMap K V) : Prop where
  size : fresh'.len = fresh.len
  filled : ∀ i, (fresh.slots i).metaWord ≠ 0#64 → fresh'.slots i = fresh.slots i

omit [DecidableEq K] in
/-- Nodes that point at filled slots still point at the same items once more slots are filled. -/
theorem Follows.extend {old fresh fresh' : FlatHashMap K V} {nodes kept : List QNode}
    (follows : Follows old fresh nodes kept) (more : fresh.Extends fresh')
    (filled : ∀ node ∈ nodes, (old.itemAt node.idx).metaWord ≠ 0#64) :
    Follows old fresh' nodes kept := by
  unfold Follows at follows ⊢
  rw [List.forall₂_iff_get] at follows ⊢
  obtain ⟨same, each⟩ := follows
  refine ⟨same, fun i inside inside' => ?_⟩
  obtain ⟨cost, within, held⟩ := each i inside inside'
  have member := (List.mem_filter.mp (List.get_mem _ ⟨i, inside⟩)).1
  refine ⟨cost, by rw [more.size]; exact within, ?_⟩
  rw [more.filled _ (by rw [held]; exact filled _ member), held]

omit [DecidableEq K] in
/-- Moving a queue's items only fills slots, and the nodes kept follow their items. -/
theorem relink_follows {old : FlatHashMap K V} :
    ∀ {nodes kept : List QNode} {fresh fresh' : FlatHashMap K V} {live live' : Int},
      (∀ node ∈ nodes, (old.itemAt node.idx).metaWord ≠ 0#64) →
      relink (Shard.moveItem cfg old) (fresh, live) nodes = .ok ((fresh', live'), kept) →
      fresh.Extends fresh' ∧ Follows old fresh' nodes kept := by
  intro nodes
  induction nodes with
  | nil =>
    intro kept fresh fresh' live live' _ linked
    cases linked
    exact ⟨⟨rfl, fun _ _ => rfl⟩, .nil⟩
  | cons node rest ih =>
    intro kept fresh fresh' live live' filled linked
    have later : ∀ node ∈ rest, (old.itemAt node.idx).metaWord ≠ 0#64 := fun other member =>
      filled other (by simp [member])
    rcases relink_cons linked with ⟨⟨mid, count⟩, newIdx, keptRest, moved, tail, rfl⟩ |
      ⟨⟨mid, count⟩, moved, tail⟩
    · unfold Shard.moveItem at moved
      dsimp only at moved
      split at moved
      · cases moved
      · rename_i alive
        obtain ⟨⟨placed, idx⟩, inserted, same⟩ := exists_of_bind_eq_ok moved
        cases same
        obtain ⟨inside, vacant, size, slots⟩ := insertFresh_placed inserted
        obtain ⟨more, follows⟩ := ih later tail
        have here : placed.slots idx = old.itemAt node.idx := by rw [slots, Function.update_self]
        refine ⟨⟨more.size.trans size, fun i occupied => ?_⟩, ?_⟩
        · -- The slot that was filled was vacant, so it is another one.
          have other : i ≠ idx := by
            rintro rfl
            exact occupied vacant
          have kept : placed.slots i = fresh.slots i := by rw [slots, Function.update_of_ne other]
          rw [more.filled i (by rw [kept]; exact occupied), kept]
        · unfold Follows
          rw [List.filter_cons_of_pos (by simpa using alive)]
          refine .cons ⟨rfl, by rw [more.size, size]; exact inside, ?_⟩ follows
          rw [more.filled idx (by rw [here]; exact filled node (by simp)), here]
    · unfold Shard.moveItem at moved
      dsimp only at moved
      split at moved
      · rename_i dead
        cases moved
        obtain ⟨more, follows⟩ := ih later tail
        refine ⟨more, ?_⟩
        unfold Follows
        rw [List.filter_cons_of_neg (by simpa using dead)]
        exact follows
      · obtain ⟨result, _, same⟩ := exists_of_bind_eq_ok moved
        cases same

omit [DecidableEq K] in
/-- Moving the items of several queues leaves each queue's nodes following theirs. -/
theorem relinks_follow {old : FlatHashMap K V} {s s' : FlatHashMap K V × Int}
    {lanes lanes' : List (List QNode)} (linked : Relinks (Shard.moveItem cfg old) s lanes s' lanes')
    (filled : ∀ lane ∈ lanes, ∀ node ∈ lane, (old.itemAt node.idx).metaWord ≠ 0#64) :
    s.1.Extends s'.1 ∧ List.Forall₂ (Follows old s'.1) lanes lanes' := by
  induction linked with
  | nil s => exact ⟨⟨rfl, fun _ _ => rfl⟩, .nil⟩
  | @cons s s₁ s' lane kept lanes lanes' linked _ ih =>
    obtain ⟨first, follows⟩ := relink_follows (filled lane (by simp)) linked
    obtain ⟨more, others⟩ := ih fun lane member => filled lane (by simp [member])
    refine ⟨⟨more.size.trans first.size, fun i occupied => ?_⟩,
      .cons (follows.extend more (filled lane (by simp))) others⟩
    rw [more.filled i (by rw [first.filled i occupied]; exact occupied), first.filled i occupied]

end FlatHashMap

namespace Shard

variable {sh : Shard K V} [Inhabited K] [Inhabited V] [DecidableEq K]

omit [DecidableEq K] in
/-- A new shard has table, queue and counters in step, whatever its capacity. -/
theorem newShard_stored (kind : PolicyKind) (policyHash : K → BitVec 64) (ghostPerShard : Int) {b : Nat}
    (low : 6 ≤ b) (high : b ≤ 32) (cap : Int) :
    (newShard kind policyHash ghostPerShard (2 ^ b) cap : Shard K V).Stored cfg := by
  have vacant : (default : Item K V).cell = .vacant := (Item.cell_eq_vacant_iff _).mpr rfl
  obtain ⟨valid, empty⟩ := EvictionPolicy.newPolicy_spec kind policyHash cap ghostPerShard
  refine ⟨FlatHashMap.newFlatHashMap_inv _ low high, valid, ?_, ?_, ?_⟩
  · simp only [newShard, empty]
    exact ⟨List.nodup_nil, fun i => by simp [FlatHashMap.newFlatHashMap_cells]⟩
  · exact (FlatHashMap.newFlatHashMap_tally _ (by simp [Item.liveOne, vacant])).symm
  · exact (FlatHashMap.newFlatHashMap_tally _ (by simp [Item.deadOne, vacant])).symm

omit [DecidableEq K] in
/-- A new shard keeps the invariant and serves nothing. -/
theorem newShard_inv (kind : PolicyKind) (policyHash : K → BitVec 64) (ghostPerShard : Int) {b : Nat}
    (low : 6 ≤ b) (high : b ≤ 32) {cap : Int} (capacity : 0 ≤ cap) :
    (newShard kind policyHash ghostPerShard (2 ^ b) cap : Shard K V).Inv cfg ∧
      ∀ key value off, ¬ (newShard kind policyHash ghostPerShard (2 ^ b) cap :
        Shard K V).items.Serves key value off := by
  have vacant : (default : Item K V).cell = .vacant := (Item.cell_eq_vacant_iff _).mpr rfl
  refine ⟨⟨newShard_stored kind policyHash ghostPerShard low high cap, ?_, ?_, ?_, capacity⟩, ?_⟩
  · exact (FlatHashMap.newFlatHashMap_tally _ (by simp [Item.costOne, vacant])).symm
  · simp only [newShard]
    norm_num
  · simp only [newShard]
    omega
  · rintro key value off ⟨i, _, live, _⟩
    simp only [newShard, FlatHashMap.newFlatHashMap_cells] at live
    exact absurd live (by simp)

/-- The policy is as it was, or re-linked to another table. -/
def Relinked (V : Type) (policy policy' : EvictionPolicy K) : Prop :=
  policy' = policy ∨ ∃ (remap : FlatHashMap K V × Int → Nat →
      Except Fault ((FlatHashMap K V × Int) × Option Nat)) (s s' : FlatHashMap K V × Int),
    policy.rebuild remap s = .ok (policy', s')

/-- The shards serve and weigh the same, whatever their tables look like. -/
structure Rehoused (cfg : ShardConfig K V) (sh sh' : Shard K V) : Prop where
  stored : sh'.Stored cfg
  room : (sh'.live + sh'.dirty) * 4 ≤ sh'.items.len * 3
  live : sh'.live = sh.live
  cost : sh'.items.tally (Item.costOne cfg) = sh.items.tally (Item.costOne cfg)
  weight : sh'.weight = sh.weight
  cap : sh'.cap = sh.cap
  queue : Relinked V sh.policy sh'.policy
  serves : ∀ key value off, sh'.items.Serves key value off ↔ sh.items.Serves key value off

omit [Inhabited K] [Inhabited V] in
/-- Live slots are slots. -/
theorem Stored.live_le_len (stored : sh.Stored cfg) : sh.live ≤ sh.items.len := by
  have dead : 0 ≤ sh.items.tally Item.deadOne := Finset.sum_nonneg fun i _ => by
    unfold Item.deadOne
    split <;> decide
  have parts := FlatHashMap.occupied_eq_tally sh.items
  have all : occupied sh.items.len sh.items.cells ≤ sh.items.len := count_le
  have live := stored.live
  omega

/-- A table of the size a rebuild asks for is well formed, holds the live items, is less than three
quarters full unless the index space is exhausted, and is larger only for live items. -/
theorem Stored.newSize (stored : sh.Stored cfg) :
    let size := if sh.live * 2 ≥ sh.items.len then sh.items.len * 2 else sh.items.len
    let fresh : FlatHashMap K V := newFlatHashMap size
    fresh.Inv cfg.keyHash ∧ sh.live ≤ fresh.len ∧
      (sh.live * 4 < fresh.len * 3 ∨ fresh.len = 2 ^ 32) ∧
      (fresh.len : Int) ≤ max (sh.items.len : Int) (4 * sh.live) := by
  obtain ⟨b, low, high, size⟩ := stored.table.sized
  have most := stored.live_le_len
  dsimp only
  split
  · rename_i half
    rcases Nat.lt_or_ge b 32 with smaller | largest
    · have doubled : sh.items.len * 2 = 2 ^ (b + 1) := by rw [size, pow_succ]
      rw [doubled]
      refine ⟨FlatHashMap.newFlatHashMap_inv _ (by omega) (by omega), ?_⟩
      rw [FlatHashMap.newFlatHashMap_len (by omega), ← doubled]
      push_cast
      have positive := sh.items.wrap_lt 0
      refine ⟨by omega, .inl (by omega), by omega⟩
    · -- The index space is exhausted, and the table stays at its largest size.
      have exact : b = 32 := by omega
      subst exact
      have doubled : sh.items.len * 2 = 2 ^ 33 := by rw [size]; norm_num
      rw [doubled, FlatHashMap.newFlatHashMap_wraps]
      refine ⟨FlatHashMap.newFlatHashMap_inv _ (by omega) (by omega), ?_⟩
      rw [FlatHashMap.newFlatHashMap_len (by omega)]
      rw [size] at most ⊢
      exact ⟨most, .inr rfl, le_max_left _ _⟩
  · rename_i half
    rw [size]
    refine ⟨FlatHashMap.newFlatHashMap_inv _ low high, ?_⟩
    rw [FlatHashMap.newFlatHashMap_len high, ← size]
    exact ⟨most, .inl (by omega), le_max_left _ _⟩

/-- What replacing the table leaves: the same items in their queues, and no tombstone. -/
structure Rebuilt (cfg : ShardConfig K V) (sh sh' : Shard K V) : Prop where
  stored : sh'.Stored cfg
  live : sh'.live = sh.live
  dirty : sh'.dirty = 0
  deadCount : sh'.deadCount = 0
  fits : sh.live * 4 < sh'.items.len * 3 ∨ sh'.items.len = 2 ^ 32
  small : (sh'.items.len : Int) ≤ max (sh.items.len : Int) (4 * sh.live)
  cost : sh'.items.tally (Item.costOne cfg) = sh.items.tally (Item.costOne cfg)
  weight : sh'.weight = sh.weight
  cap : sh'.cap = sh.cap
  queue : ∃ (s s' : FlatHashMap K V × Int),
    sh.policy.rebuild (Shard.moveItem cfg sh.items) s = .ok (sh'.policy, s')
  /-- The queued items were copied into an empty table, one after the other. -/
  copied : ∃ size, relink (Shard.moveItem cfg sh.items) (newFlatHashMap size, 0) sh.policy.queued
    = .ok ((sh'.items, sh'.live), sh'.policy.queued)
  lanes : List.Forall₂ (FlatHashMap.Follows sh.items sh'.items) sh.policy.lanes sh'.policy.lanes
  serves : ∀ key value off, sh'.items.Serves key value off ↔ sh.items.Serves key value off

/-- Past three quarters the table is replaced, whatever the policy and the number of items. -/
theorem Stored.rebuild (stored : sh.Stored cfg)
    (full : ¬ (sh.live + sh.dirty) * 4 < sh.items.len * 3) :
    ∃ sh', sh.maybeRebuild cfg = .ok sh' ∧ Rebuilt cfg sh sh' := by
  unfold Shard.maybeRebuild
  rw [if_neg full]
  obtain ⟨freshInv, most, fits, small⟩ := stored.newSize
  revert freshInv most fits small
  generalize (if sh.live * 2 ≥ sh.items.len then sh.items.len * 2 else sh.items.len) = size
  intro freshInv most fits small
  -- The sums over the queue are the totals over the old table.
  have liveSum := stored.queues.sum_eq fun _ idle => Item.liveOne_of_not_live idle
  have costSum := stored.queues.sum_eq fun _ idle => Item.costOne_of_not_live cfg idle
  have vacant : (default : Item K V).cell = .vacant := (Item.cell_eq_vacant_iff _).mpr rfl
  have noneLive := FlatHashMap.newFlatHashMap_tally (K := K) (V := V) size
    (f := Item.liveOne) (by simp [Item.liveOne, vacant])
  have noneDead := FlatHashMap.newFlatHashMap_tally (K := K) (V := V) size
    (f := Item.deadOne) (by simp [Item.deadOne, vacant])
  have noCost := FlatHashMap.newFlatHashMap_tally (K := K) (V := V) size
    (f := Item.costOne cfg) (by simp [Item.costOne, vacant])
  have movable : FlatHashMap.Movable cfg sh.items sh.policy.queued (newFlatHashMap size) := by
    refine ⟨freshInv, stored.queues.once, fun node member => ?_, fun _ _ _ _ i _ named => ?_, ?_⟩
    · exact (stored.queues.bound node.idx).mp (List.mem_map_of_mem member)
    · rw [FlatHashMap.newFlatHashMap_cells] at named
      exact absurd named (by simp)
    · rw [FlatHashMap.occupied_eq_tally, noneLive, noneDead, liveSum, ← stored.live]
      omega
  obtain ⟨fresh, kept, linked, moved⟩ := FlatHashMap.relink_moved stored.table _ _ 0 movable
  obtain ⟨policy, rebuilt, valid, queued, lanes⟩ := EvictionPolicy.rebuild_spec stored.policy linked
  have liveTotal := moved.sums _ fun _ idle => Item.liveOne_of_not_live idle
  have costTotal := moved.sums _ fun _ idle => Item.costOne_of_not_live cfg idle
  rw [liveSum, noneLive, zero_add] at liveTotal
  rw [costSum, noCost, zero_add] at costTotal
  have deadTotal := moved.dead.trans noneDead
  have empty : (newFlatHashMap size : FlatHashMap K V).Queues [] := by
    refine ⟨List.nodup_nil, fun i => ?_⟩
    simp [FlatHashMap.newFlatHashMap_cells]
  obtain ⟨_, follows⟩ := FlatHashMap.relinks_follow lanes fun lane inLanes node inLane =>
    stored.occupied_of_queued (by
      rw [← sh.policy.lanes_flatten]
      exact List.mem_flatten.mpr ⟨lane, inLanes, inLane⟩)
  refine ⟨{ sh with policy := policy, items := fresh, live := sh.live, dirty := 0, deadCount := 0 },
    ?_, ⟨moved.inv, valid, ?_, ?_, deadTotal.symm⟩, rfl, rfl, rfl, ?_, ?_, costTotal, rfl, rfl,
    ⟨_, _, rebuilt⟩, ⟨size, ?_⟩, follows, ?_⟩
  · rw [liveSum, ← stored.live, zero_add] at rebuilt
    simp only [rebuilt, Bind.bind, Except.bind, Pure.pure, Except.pure]
  · rw [queued]
    simpa using moved.queues [] empty
  · exact stored.live.trans liveTotal.symm
  · simpa only [moved.size] using fits
  · simpa only [moved.size] using small
  · rw [linked, queued, liveSum, zero_add, stored.live]
  · intro key value off
    rw [moved.serves]
    constructor
    · rintro (⟨i, _, live, _⟩ | ⟨node, member, held⟩)
      · rw [FlatHashMap.newFlatHashMap_cells] at live
        exact absurd live (by simp)
      · exact ⟨node.idx, (movable.bound node member).1, held⟩
    · -- Every live slot is queued.
      rintro ⟨i, inside, live, held⟩
      obtain ⟨node, member, rfl⟩ := List.mem_map.mp
        ((stored.queues.bound i).mpr ⟨inside, by rw [live]; rfl⟩)
      exact .inr ⟨node, member, live, held⟩

/-- A check that returned found room, or replaced the table. -/
theorem Stored.maybeRebuild_cases (stored : sh.Stored cfg) {sh' : Shard K V}
    (ran : sh.maybeRebuild cfg = .ok sh') :
    ((sh.live + sh.dirty) * 4 < sh.items.len * 3 ∧ sh' = sh) ∨
      (¬ (sh.live + sh.dirty) * 4 < sh.items.len * 3 ∧ Rebuilt cfg sh sh') := by
  by_cases spacious : (sh.live + sh.dirty) * 4 < sh.items.len * 3
  · rw [Shard.maybeRebuild, if_pos spacious] at ran
    cases ran
    exact .inl ⟨spacious, rfl⟩
  · obtain ⟨sh'', ran', rebuilt⟩ := stored.rebuild spacious
    rw [ran] at ran'
    cases ran'
    exact .inr ⟨spacious, rebuilt⟩

/-- A rebuild, or the decision not to rebuild, leaves room and keeps what is served. -/
theorem Stored.maybeRebuild (stored : sh.Stored cfg) (few : sh.live ≤ 3 * 2 ^ 30) :
    ∃ sh', sh.maybeRebuild cfg = .ok sh' ∧ Rehoused cfg sh sh' := by
  by_cases spacious : (sh.live + sh.dirty) * 4 < sh.items.len * 3
  · exact ⟨sh, if_pos spacious, stored, le_of_lt spacious, rfl, rfl, rfl, rfl, .inl rfl,
      fun _ _ _ => Iff.rfl⟩
  · obtain ⟨sh', ran, rebuilt⟩ := stored.rebuild spacious
    obtain ⟨s, s', relinked⟩ := rebuilt.queue
    refine ⟨sh', ran, rebuilt.stored, ?_, rebuilt.live, rebuilt.cost, rebuilt.weight, rebuilt.cap,
      .inr ⟨_, s, s', relinked⟩, rebuilt.serves⟩
    rw [rebuilt.live, rebuilt.dirty, add_zero]
    rcases rebuilt.fits with less | largest
    · exact le_of_lt less
    · rw [largest]
      omega

end Shard

end Memstash
