import Memstash.Cache.MapModel

/-! A shard behaves like a finite map, until a filling exhausts SIEVE's 32-bit node indices. -/

namespace Memstash

open Scan Probing FiniteMap

namespace ShardOp

variable {K V : Type} [Inhabited K] [Inhabited V] [DecidableEq K] (keys : Nat → K) (value : V)

/-- Writes of the first distinct keys, one after the other, all with one value. -/
def fill (keys : Nat → K) (value : V) (n : Nat) : List (ShardOp K V) :=
  (List.range n).map fun i => .set (keys i) value

omit [Inhabited K] [Inhabited V] [DecidableEq K] in
theorem fill_succ (n : Nat) : fill keys value (n + 1) = fill keys value n ++ [.set (keys n) value] := by
  simp [fill, List.range_succ]

omit [Inhabited K] [Inhabited V] [DecidableEq K] in
/-- The beginnings of a filling are shorter fillings. -/
theorem prefix_fill {keys : Nat → K} {value : V} {n : Nat} {done : List (ShardOp K V)} (within : done <+: fill keys value n) :
    ∃ m ≤ n, done = fill keys value m := by
  refine ⟨done.length, ?_, ?_⟩
  · simpa [fill] using within.length_le
  · have short : done.length ≤ n := by simpa [fill] using within.length_le
    rw [List.prefix_iff_eq_take.mp within, fill, ← List.map_take, List.take_range, fill]
    simp [short]

omit [Inhabited K] [Inhabited V] in
/-- A filling holds the keys written so far. -/
theorem lookup_fill (n : Nat) (key : K) :
    (replayAll (fill keys value n)).lookup key = some value ∧ (∃ i < n, keys i = key) ∨
      (replayAll (fill keys value n)).lookup key = none ∧ ∀ i < n, keys i ≠ key := by
  induction n with
  | zero => exact .inr ⟨by simp [fill, replayAll], by simp⟩
  | succ n ih =>
    rw [fill_succ, replayAll_append, replay]
    by_cases same : key = keys n
    · subst same
      exact .inl ⟨Finmap.lookup_insert _, n, Nat.lt_succ_self n, rfl⟩
    · rw [Finmap.lookup_insert_of_ne _ same]
      rcases ih with ⟨held, i, small, named⟩ | ⟨absent, others⟩
      · exact .inl ⟨held, i, by omega, named⟩
      · refine .inr ⟨absent, fun i small named => ?_⟩
        rcases Nat.lt_succ_iff_lt_or_eq.mp small with earlier | rfl
        · exact others i earlier named
        · exact same named.symm

omit [Inhabited K] [Inhabited V] in
/-- A filling with distinct keys weighs as much as its writes. -/
theorem total_fill {keys : Nat → K} (distinct : Function.Injective keys) {weigh : K → V → Int} {w : Int}
    (each : ∀ i, weigh (keys i) value = w) (n : Nat) :
    total weigh (replayAll (fill keys value n)) = n * w := by
  induction n with
  | zero => simp [fill, replayAll, total_empty]
  | succ n ih =>
    have absent : (replayAll (fill keys value n)).lookup (keys n) = none := by
      rcases lookup_fill keys value n (keys n) with ⟨_, i, small, same⟩ | ⟨absent, _⟩
      · exact absurd (distinct same) (by omega)
      · exact absent
    rw [fill_succ, replayAll_append, replay, total_insert, ih, absent, each]
    push_cast
    simp only [Option.elim_none]
    ring

omit [Inhabited K] [Inhabited V] in
/-- A filling with distinct keys has as many entries as writes. -/
theorem card_fill {keys : Nat → K} (distinct : Function.Injective keys) (n : Nat) :
    (replayAll (fill keys value n)).keys.card = n := by
  have counted : total (fun _ _ => 1) (replayAll (fill keys value n)) = n * 1 :=
    total_fill value distinct (fun _ => rfl) n
  rw [← card_keys] at counted
  omega

end ShardOp

namespace EvictionPolicy

variable {K V : Type}

/-- A slice of fewer than 2^31 positions has room for one more. -/
theorem Slack.room {n : Nat} {policy : EvictionPolicy K} (slack : policy.Slack n)
    (valid : policy.Valid) (small : n < 2 ^ 31) : policy.Room := by
  cases policy with
  | sieve p =>
    obtain ⟨live, spare, rep⟩ := valid
    have cover := rep.cover
    have size := rep.size
    have bound : p.count ≤ n := slack
    show p.size < 2 ^ 31
    omega
  | s3fifo p => trivial
  | clock p => trivial
  | wtinylfu p => trivial

/-- A write adds at most one position. -/
theorem Slack.requeued {n : Nat} {policy policy' : EvictionPolicy K} (slack : policy.Slack n)
    (queue : Shard.Requeued V policy policy') : policy'.Slack (n + 1) := by
  have added : ∀ {t : FlatHashMap K V} {node : QNode} {grown : EvictionPolicy K},
      policy.add t node = .ok grown → grown.Slack (n + 1) := by
    intro t node grown ran
    cases policy with
    | sieve p =>
      obtain ⟨p', ran', rfl⟩ := exists_of_map_eq_ok ran
      exact (SievePolicy.add_count_le ran').trans (Nat.succ_le_succ slack)
    | s3fifo p => cases ran; trivial
    | clock p => cases ran; trivial
    | wtinylfu p => cases ran; trivial
  rcases queue with rfl | ⟨t, node, grown, ran, rfl | ⟨remap, s, s', relinked⟩⟩
  · cases policy' with
    | sieve p => exact Nat.le_succ_of_le slack
    | s3fifo p => trivial
    | clock p => trivial
    | wtinylfu p => trivial
  · exact added ran
  · -- A rebuild re-links the positions there are.
    have before := added ran
    cases grown with
    | sieve p =>
      obtain ⟨result, ran', same⟩ := exists_of_map_eq_ok relinked
      obtain ⟨rfl, _⟩ := Prod.mk.inj same
      exact (SievePolicy.rebuild_count ran').trans_le before
    | s3fifo p => obtain ⟨result, _, same⟩ := exists_of_map_eq_ok relinked; cases same; trivial
    | clock p => obtain ⟨result, _, same⟩ := exists_of_map_eq_ok relinked; cases same; trivial
    | wtinylfu p => obtain ⟨result, _, same⟩ := exists_of_map_eq_ok relinked; cases same; trivial

end EvictionPolicy

namespace Shard

variable {K V : Type} [Inhabited K] [Inhabited V] [DecidableEq K] {cfg : ShardConfig K V}
  {sh : Shard K V} {m : Finmap fun _ : K => V} {n : Nat}

omit [Inhabited K] [Inhabited V] [DecidableEq K] in
theorem liveOne_le_one (item : Item K V) : item.liveOne ≤ 1 := by
  unfold Item.liveOne
  split <;> decide

omit [Inhabited K] [Inhabited V] in
/-- A SIEVE slice as long as the map is large has no spare position, and no slot is a tombstone. -/
theorem Refines.sieve_full (refines : Refines cfg sh m) (kind : sh.policy.kind = .sieve)
    (slack : sh.policy.Slack n) (full : m.keys.card = n) :
    (∃ p live, sh.policy = .sieve p ∧ SievePolicy.Rep p live [] ∧ p.size = n) ∧
      ∀ i < sh.items.len, ∀ key, sh.items.cells i ≠ .tomb key := by
  have sum := refines.inv.queues.sum_eq fun _ idle => Item.liveOne_of_not_live idle
  rw [← refines.inv.live, refines.live, full] at sum
  have length := EvictionPolicy.length_queued refines.inv.policy
  have ones : (sh.policy.queued.map fun _ => (1 : Int)).sum = sh.policy.queued.length := by simp
  -- Each queued node counts for at most one live item, and every live item is counted.
  have enough : n ≤ sh.policy.queued.length := by
    have atMost := List.sum_le_sum (l := sh.policy.queued)
      (f := fun node => (sh.items.slots node.idx).liveOne) (g := fun _ => (1 : Int))
      fun node _ => liveOne_le_one _
    omega
  cases policy : sh.policy with
  | sieve p =>
    have valid := refines.inv.policy
    rw [policy] at slack valid length enough
    obtain ⟨live, spare, rep⟩ := valid
    have bound : p.count ≤ n := slack
    have cover := rep.cover
    have size := rep.size
    have len : (EvictionPolicy.sieve p : EvictionPolicy K).len = p.size := rfl
    have none : spare = [] := List.eq_nil_of_length_eq_zero (by omega)
    subst none
    refine ⟨⟨p, live, rfl, rep, by omega⟩, fun i inside key tomb => ?_⟩
    -- A tombstone would be a queued node that counts for nothing.
    obtain ⟨node, member, rfl⟩ := List.mem_map.mp
      ((refines.inv.queues.bound i).mpr ⟨inside, by rw [tomb]; rfl⟩)
    have cell : (sh.items.slots node.idx).cell = .tomb key := tomb
    have fewer := List.sum_lt_sum (l := sh.policy.queued)
      (f := fun node => (sh.items.slots node.idx).liveOne) (g := fun _ => (1 : Int))
      (fun node _ => liveOne_le_one _) ⟨node, member, by simp [Item.liveOne, cell]⟩
    rw [policy] at fewer ones sum
    omega
  | s3fifo p => rw [policy] at kind; cases kind
  | clock p => rw [policy] at kind; cases kind
  | wtinylfu p => rw [policy] at kind; cases kind

/-- A write of a new key panics when 2^31 nodes or more are queued in SIEVE and none is spare. -/
theorem Refines.set_panics (refines : Refines cfg sh m) (kind : sh.policy.kind = .sieve)
    (slack : sh.policy.Slack n) (full : m.keys.card = n) (low : 2 ^ 31 ≤ n) (high : n < 2 ^ 32)
    {key : K} {value : V} (light : cfg.rawCost key value ≤ sh.cap) (absent : m.lookup key = none)
    (nowOff off : Nat) : sh.setMemory cfg nowOff key value off = .error .panic := by
  obtain ⟨⟨p, live, policy, rep, size⟩, noTomb⟩ := refines.sieve_full kind slack full
  have quarter := refines.inv.housed.occupied_le
  obtain ⟨large, _, _⟩ := refines.inv.table.sized.bounds
  obtain ⟨target, probed, finds⟩ := FlatHashMap.setProbe_spec refines.inv.table (by omega) key
  have heavy : ¬ cfg.rawCost key value > sh.cap := not_lt.mpr light
  unfold Shard.setMemory
  simp only [if_neg heavy, probed, Bind.bind, Except.bind]
  cases finds with
  | fresh _ _ _ _ =>
    have full : ∀ (t : FlatHashMap K V) node, sh.policy.add t node = .error .panic := by
      intro t node
      rw [policy, EvictionPolicy.add, SievePolicy.add_panics rep (by omega) (by omega)]
      rfl
    simp only [Shard.insertNew, full, Bind.bind, Except.bind]
  | @buried pos tomb => exact absurd tomb (noTomb _ (sh.items.wrap_lt pos) key)
  | live alive =>
    have held := ((refines.serves key _ _).mp (serves_of_live alive)).2
    rw [absent] at held
    cases held

end Shard

namespace ShardOp

variable {K V : Type} [Inhabited K] [Inhabited V] [DecidableEq K] {cfg : ShardConfig K V}

/-- A filling that fits runs to its end under every policy, under SIEVE up to 2^31 keys. -/
theorem fill_runs (kind : PolicyKind) (policyHash : K → BitVec 64) (ghostPerShard : Int) {b : Nat}
    (low : 6 ≤ b) (high : b ≤ 32) {cap w : Int} (eternal : cfg.ttlOff = 0) (positive : 0 ≤ cap)
    (word : cap < 2 ^ 63) {keys : Nat → K} (distinct : Function.Injective keys) (value : V)
    (each : ∀ i, cfg.rawCost (keys i) value = w) (nowOff : Nat) :
    ∀ n : Nat, n * w ≤ cap → n ≤ 3 * 2 ^ 30 → (kind = .sieve → n ≤ 2 ^ 31) →
      ∃ mid, runAll cfg nowOff (newShard kind policyHash ghostPerShard (2 ^ b) cap)
          (fill keys value n) = .ok mid ∧
        mid.Refines cfg (replayAll (fill keys value n)) ∧ mid.cap = cap ∧ mid.policy.kind = kind ∧
        mid.policy.Slack n := by
  intro n
  induction n with
  | zero =>
    intro _ _ _
    obtain ⟨inv, empty⟩ := @Shard.newShard_inv K V cfg _ _ kind policyHash ghostPerShard b low high cap
      positive
    refine ⟨_, rfl, ⟨inv, fun key value off => ?_⟩, rfl,
      EvictionPolicy.newPolicy_kind kind policyHash cap ghostPerShard, ?_⟩
    · simp [empty, fill, replayAll]
    · cases kind with
      | sieve => exact le_rfl
      | s3fifo => trivial
      | clock => trivial
      | wtinylfu => trivial
  | succ n ih =>
    intro fits few sieve
    have weightPos : 0 < w := by rw [← each 0]; exact Item.rawCost_pos cfg _ _
    push_cast at fits
    rw [add_mul] at fits
    obtain ⟨mid, ran, refines, cap', kind', slack⟩ := ih (by omega) (by omega) fun same => by
      have := sieve same
      omega
    have room : mid.policy.Room := by
      by_cases same : kind = .sieve
      · have := sieve same
        exact slack.room refines.inv.policy (by omega)
      · exact EvictionPolicy.room_of_kind (by rw [kind']; exact same)
    have grown : total cfg.rawCost ((replayAll (fill keys value n)).insert (keys n) value) ≤ mid.cap := by
      have whole := total_fill value distinct each (n + 1)
      rw [fill_succ, replayAll_append, replay] at whole
      rw [whole, cap']
      push_cast
      linarith
    obtain ⟨sh', deletions, wrote, refines', cap'', queue⟩ := refines.set eternal nowOff
      (by rw [cap']; exact word) grown (by rw [card_fill value distinct]; omega) (.inr room)
    refine ⟨sh', ?_, ?_, cap''.trans cap', queue.kind.trans kind', slack.requeued queue⟩
    · rw [fill_succ, runAll_append ran, run, wrote]
      rfl
    · rw [fill_succ, replayAll_append]
      exact refines'

/-- The write of key 2^31 + 1 into a SIEVE shard panics, whatever the keys hash to. -/
theorem fill_panics (policyHash : K → BitVec 64) (ghostPerShard : Int) {b : Nat}
    (low : 6 ≤ b) (high : b ≤ 32) {cap w : Int} (eternal : cfg.ttlOff = 0) (word : cap < 2 ^ 63)
    {keys : Nat → K} (distinct : Function.Injective keys) (value : V)
    (each : ∀ i, cfg.rawCost (keys i) value = w) (fits : (2 ^ 31 + 1) * w ≤ cap) (nowOff : Nat) :
    runAll cfg nowOff (newShard .sieve policyHash ghostPerShard (2 ^ b) cap)
      (fill keys value (2 ^ 31 + 1)) = .error .panic := by
  have weightPos : 0 < w := by rw [← each 0]; exact Item.rawCost_pos cfg _ _
  obtain ⟨mid, ran, refines, cap', kind, slack⟩ := fill_runs .sieve policyHash ghostPerShard low high
    eternal (by nlinarith) word distinct value each nowOff (2 ^ 31) (by push_cast; nlinarith)
    (by norm_num) fun _ => le_rfl
  have absent : (replayAll (fill keys value (2 ^ 31))).lookup (keys (2 ^ 31)) = none := by
    rcases lookup_fill keys value (2 ^ 31) (keys (2 ^ 31)) with ⟨_, i, small, same⟩ | ⟨absent, _⟩
    · exact absurd (distinct same) (by omega)
    · exact absent
  rw [fill_succ, runAll_append ran, run, refines.set_panics kind slack (card_fill value distinct _)
    le_rfl (by norm_num) (by rw [each, cap']; nlinarith) absent]
  rfl

omit [Inhabited K] [Inhabited V] in
/-- Fillings that fit are runs of the kind the map model is about. -/
theorem roomy_fill {cap w : Int} (eternal : cfg.ttlOff = 0) (still : cfg.refreshOnGet = false)
    (word : cap < 2 ^ 63) {keys : Nat → K} (distinct : Function.Injective keys) (value : V)
    (each : ∀ i, cfg.rawCost (keys i) value = w) {n : Nat} (fits : n * w ≤ cap)
    (few : n < 3 * 2 ^ 30) : Roomy cfg cap (fill keys value n) := by
  have weightPos : 0 < w := by rw [← each 0]; exact Item.rawCost_pos cfg _ _
  refine ⟨eternal, still, by nlinarith, word, fun done within => ?_, fun done within => ?_⟩
  · obtain ⟨m, short, rfl⟩ := prefix_fill within
    rw [total_fill value distinct each]
    have : (m : Int) ≤ n := by exact_mod_cast short
    nlinarith
  · obtain ⟨m, short, rfl⟩ := prefix_fill within
    rw [card_fill value distinct]
    omega

/-- A shard behaves like the finite map replayed from the operations on it, for every policy; under
SIEVE as long as no key needs a node while 2^31 nodes are queued. -/
theorem shard_acts_as_map (kind : PolicyKind) (policyHash : K → BitVec 64) (ghostPerShard : Int)
    {b : Nat} (low : 6 ≤ b) (high : b ≤ 32) {cap : Int} {nowOff : Nat} (ops : List (ShardOp K V))
    (roomy : Roomy cfg cap ops)
    (queueable : kind = .sieve →
      Queueable cfg nowOff (newShard kind policyHash ghostPerShard (2 ^ b) cap) ops) :
    ∀ done, done <+: ops →
      ∃ sh, runAll cfg nowOff (newShard kind policyHash ghostPerShard (2 ^ b) cap) done = .ok sh ∧
        sh.ActsAs cfg nowOff (replayAll done) := by
  intro done within
  obtain ⟨inv, empty⟩ := @Shard.newShard_inv K V cfg _ _ kind policyHash ghostPerShard b low high cap
    roomy.positive
  obtain ⟨sh, ran, refines, _⟩ := runAll_refines inv empty roomy (fun sieve => queueable (by
    rw [← sieve]
    exact (EvictionPolicy.newPolicy_kind kind policyHash cap ghostPerShard).symm)) done within
  exact ⟨sh, ran, refines.actsAs roomy.still nowOff⟩

/-- A cache that counts items, over numbers. -/
def countingConfig : ShardConfig Nat Unit :=
  { keyHash := fun n => BitVec.ofNat 64 n
    costFunc := none
    onDeletion := false
    wordSized := true
    ttlOff := 0
    expireUnit := 0
    refreshOnGet := false }

/-- Two keys written to an S3-FIFO shard are found again. -/
theorem shard_acts_as_map_two : ∃ sh,
    runAll countingConfig 0 (newShard .s3fifo (fun _ => 0#64) 1 (2 ^ 6) 100) (fill id () 2) = .ok sh ∧
      sh.ActsAs countingConfig 0 (replayAll (fill id () 2)) :=
  shard_acts_as_map .s3fifo (fun _ => 0#64) 1 (by decide) (by decide) (fill id () 2)
    (roomy_fill rfl rfl (by norm_num) Function.injective_id () (fun _ => rfl) (by norm_num)
      (by norm_num)) (fun sieve => by cases sieve) _ (List.prefix_refl _)

/-- A SIEVE shard of the largest capacity panics long before it is full. -/
theorem sieve_shard_panics :
    Roomy countingConfig (3 * 2 ^ 30) (fill id () (2 ^ 31 + 1)) ∧
      runAll countingConfig 0 (newShard .sieve (fun _ => 0#64) 1 (2 ^ 6) (3 * 2 ^ 30))
        (fill id () (2 ^ 31 + 1)) = .error .panic :=
  ⟨roomy_fill rfl rfl (by norm_num) Function.injective_id () (fun _ => rfl) (by norm_num)
    (by norm_num),
    fill_panics (fun _ => 0#64) 1 (by decide) (by decide) rfl (by norm_num) Function.injective_id ()
      (fun _ => rfl) (by norm_num) 0⟩

end ShardOp

end Memstash
