import Memstash.Cache.Accounting
import Memstash.Snapshot.FormatLaws

/-! Loading what was saved stores every item once, and a stream cut short is never taken for whole. -/

namespace Memstash

open Streams ByteNumbers Scan Machine

variable {K V σ ε : Type}

/-- A codec writes a value in few enough bytes, and reads it back. -/
def Codec.Carries {α : Type} (codec : Codec α ε) (a : α) : Prop :=
  ∃ bytes, codec.marshal a = .ok bytes ∧ bytes.length ≤ maxSnapshotChunk ∧ codec.unmarshal bytes = .ok a

/-- Writes to the second level never fail. -/
def SecondLevel.Accepts (level : SecondLevel K V σ ε) : Prop :=
  level.policy = .writeThrough → ∀ l2 key value ttl, (level.set l2 key value ttl).2 = none

/-- The writes of a snapshot that gives every item a new lifetime. -/
def freshWrites (cfg : ShardConfig K V) (moments : Nat → Moment) (walk : List (K × V × Int)) :
    List (MemoryWrite K V) :=
  walk.mapIdx fun i (key, value, _) =>
    ⟨(moments i).nowOff, key, value, cfg.expireOffset (moments i).nowOff⟩

/-- A record is what an item is written as, and decodes to it. -/
structure Encodes (keys : Codec K ε) (values : Codec V ε) (item : K × V × Int) (raw : RawRecord) :
    Prop where
  written : writeRecord keys values item = .ok raw.bytes
  decoded : raw.decode keys values = .ok (item.1, item.2.1)
  life : raw.lifeSeconds = lifeSeconds item.2.2
  bounded : raw.Bounded

/-- Items that both codecs carry have a record. -/
theorem exists_encodes {keys : Codec K ε} {values : Codec V ε} {item : K × V × Int}
    (key : keys.Carries item.1) (value : values.Carries item.2.1) :
    ∃ raw, Encodes keys values item raw := by
  obtain ⟨keyBytes, keyWritten, keySmall, keyRead⟩ := key
  obtain ⟨valueBytes, valueWritten, valueSmall, valueRead⟩ := value
  refine ⟨⟨keyBytes, valueBytes, lifeSeconds item.2.2⟩, ?_, ?_, rfl, keySmall, valueSmall, ?_⟩
  · simp only [writeRecord, keyWritten, valueWritten]
    rfl
  · simp only [RawRecord.decode, keyRead, valueRead]
    rfl
  · -- The lifetime is stored in a 64-bit word.
    show lifeSeconds item.2.2 < 2 ^ 64
    unfold lifeSeconds
    split <;> omega

/-- The records of a whole walk. -/
theorem exists_records {keys : Codec K ε} {values : Codec V ε} {walk : List (K × V × Int)}
    (carried : ∀ item ∈ walk, keys.Carries item.1 ∧ values.Carries item.2.1) :
    ∃ raws, List.Forall₂ (Encodes keys values) walk raws ∧
      walk.mapM (writeRecord keys values) = .ok (raws.map RawRecord.bytes) := by
  induction walk with
  | nil => exact ⟨[], .nil, rfl⟩
  | cons item rest ih =>
    obtain ⟨key, value⟩ := carried item (List.mem_cons_self ..)
    obtain ⟨raw, encodes⟩ := exists_encodes key value
    obtain ⟨raws, all, written⟩ := ih fun other member => carried other (List.mem_cons_of_mem _ member)
    refine ⟨raw :: raws, .cons encodes all, ?_⟩
    rw [List.mapM_cons, encodes.written, written]
    rfl

namespace LoadPlan

variable [Inhabited K] [Inhabited V] [DecidableEq K] {plan : LoadPlan K V σ ε}

/-- Store decoded items one after the other. -/
def loadAll (plan : LoadPlan K V σ ε) : Nat → List (K × V × Int) → Loaded K V σ ε →
    Except Fault (Loaded K V σ ε)
  | _, [], state => .ok state
  | i, (key, value, life) :: rest, state => do
    let state ← plan.loadItem i key value (lifeSeconds life) state
    loadAll plan (i + 1) rest state

/-- No write to the second level fails while loading. -/
def Accepts (plan : LoadPlan K V σ ε) : Prop :=
  ∀ l2 key value life, (plan.forward l2 key value life).2 = none

/-- Storing an item raises no error when the second level accepts. -/
theorem loadItem_ok (accepts : plan.Accepts) {i : Nat} {key : K} {value : V} {life : Nat}
    {state state' : Loaded K V σ ε} (clean : state.error = none)
    (ran : plan.loadItem i key value life state = .ok state') : state'.error = none := by
  unfold loadItem at ran
  split at ran
  · cases ran
    exact clean
  · rename_i expireOff left _
    cases stored : state.memory.setMemory (plan.moments i).nowOff key value expireOff with
    | error fault => simp [stored, Bind.bind, Except.bind] at ran
    | ok result =>
      simp only [stored, Bind.bind, Except.bind, Pure.pure, Except.pure, Except.ok.injEq] at ran
      rw [← ran, accepts]
      rfl

/-- One record in front of a stream is stored, and loading goes on behind it. -/
theorem loadRecords_cons (accepts : plan.Accepts) {fuel i : Nat} {item : K × V × Int} {raw : RawRecord}
    (encodes : Encodes plan.keys plan.values item raw) (rest : List UInt8) {state : Loaded K V σ ε}
    (clean : state.error = none) :
    plan.loadRecords (fuel + 1) i (raw.bytes ++ rest) state = (do
      let state ← plan.loadItem i item.1 item.2.1 (lifeSeconds item.2.2) state
      plan.loadRecords fuel (i + 1) rest state) := by
  rw [loadRecords, (reads_record encodes.bounded).whole rest]
  simp only [encodes.decoded, encodes.life]
  cases ran : plan.loadItem i item.1 item.2.1 (lifeSeconds item.2.2) state with
  | error fault => rfl
  | ok state' =>
    have clean' := loadItem_ok accepts clean ran
    simp only [Bind.bind, Except.bind, clean', Option.isSome_none, Bool.false_eq_true, if_false]

/-- Records in front of a stream are stored one after the other, and loading goes on behind them. -/
theorem loadRecords_append (accepts : plan.Accepts) {walk : List (K × V × Int)} {raws : List RawRecord}
    (encodes : List.Forall₂ (Encodes plan.keys plan.values) walk raws) (rest : List UInt8) (fuel : Nat) :
    ∀ i (state : Loaded K V σ ε), state.error = none →
      plan.loadRecords (walk.length + fuel) i (raws.flatMap RawRecord.bytes ++ rest) state = (do
        let state ← plan.loadAll i walk state
        plan.loadRecords fuel (i + walk.length) rest state) := by
  induction encodes with
  | nil =>
    intro i state clean
    rw [List.length_nil, Nat.zero_add]
    rfl
  | @cons item raw walk raws first _ ih =>
    intro i state clean
    have more : (item :: walk).length + fuel = walk.length + fuel + 1 := by
      rw [List.length_cons]
      omega
    rw [more, List.flatMap_cons, List.append_assoc, loadRecords_cons accepts first _ clean, loadAll]
    cases ran : plan.loadItem i item.1 item.2.1 (lifeSeconds item.2.2) state with
    | error fault => rfl
    | ok mid =>
      have later := ih (i + 1) mid (loadItem_ok accepts clean ran)
      rw [Nat.add_assoc, Nat.add_comm 1] at later
      exact later

/-- The writes loading performs, without the items that would have expired. -/
def writes (plan : LoadPlan K V σ ε) (cfg : ShardConfig K V) :
    Nat → List (K × V × Int) → List (MemoryWrite K V)
  | _, [] => []
  | i, (key, value, life) :: rest =>
    match plan.schedule cfg i (lifeSeconds life) with
    | none => writes plan cfg (i + 1) rest
    | some (off, _) => ⟨(plan.moments i).nowOff, key, value, off⟩ :: writes plan cfg (i + 1) rest

/-- The second level after loading. -/
def forwarded (plan : LoadPlan K V σ ε) (cfg : ShardConfig K V) : Nat → List (K × V × Int) → σ → σ
  | _, [], l2 => l2
  | i, (key, value, life) :: rest, l2 =>
    match plan.schedule cfg i (lifeSeconds life) with
    | none => forwarded plan cfg (i + 1) rest l2
    | some (_, left) => forwarded plan cfg (i + 1) rest (plan.forward l2 key value left).1

omit [Inhabited K] [Inhabited V] [DecidableEq K] in
/-- Loading that gives every item a new lifetime writes all of them. -/
theorem writes_fresh (fresh : plan.keepTTL = false) (cfg : ShardConfig K V) (walk : List (K × V × Int)) :
    plan.writes cfg 0 walk = freshWrites cfg plan.moments walk := by
  have general : ∀ (walk : List (K × V × Int)) (i : Nat), plan.writes cfg i walk
      = walk.mapIdx fun j (key, value, _) =>
        ⟨(plan.moments (i + j)).nowOff, key, value, cfg.expireOffset (plan.moments (i + j)).nowOff⟩ := by
    intro walk
    induction walk with
    | nil => exact fun _ => rfl
    | cons item rest ih =>
      intro i
      have unscheduled : plan.schedule cfg i (lifeSeconds item.2.2)
          = some (cfg.expireOffset (plan.moments i).nowOff, none) := by
        simp [schedule, fresh]
      rw [writes, unscheduled, List.mapIdx_cons]
      simp only [ih (i + 1), Nat.add_zero, Nat.add_assoc, Nat.add_comm 1]
  have all := general walk 0
  simp only [Nat.zero_add] at all
  exact all

/-- A write keeps the settings. -/
theorem setMemory_cfg {c c' : MemoryLevel K V} {nowOff : Nat} {key : K} {value : V} {off : Nat}
    {deletions : List (Deletion K V)} (ran : c.setMemory nowOff key value off = .ok (c', deletions)) :
    c'.cfg = c.cfg := by
  unfold MemoryLevel.setMemory MemoryLevel.onShard at ran
  cases step : (c.shards (c.keyShard key)).setMemory c.cfg nowOff key value off with
  | error fault => simp [step, Bind.bind, Except.bind] at ran
  | ok result =>
    simp only [step, Bind.bind, Except.bind, Pure.pure, Except.pure, Except.ok.injEq, Prod.mk.injEq] at ran
    rw [← ran.1]
    rfl

/-- Loading performs exactly its writes, in order. -/
theorem loadAll_eq (accepts : plan.Accepts) {walk : List (K × V × Int)} :
    ∀ {i : Nat} {state : Loaded K V σ ε}, state.error = none → plan.loadAll i walk state
      = (state.memory.storeAll (plan.writes state.memory.cfg i walk)).map fun (memory, deletions) =>
        ⟨memory, plan.forwarded state.memory.cfg i walk state.l2, state.deletions ++ deletions, none⟩ := by
  induction walk with
  | nil =>
    intro i state clean
    obtain ⟨memory, l2, deletions, error⟩ := state
    obtain rfl : error = none := clean
    simp [loadAll, writes, forwarded, MemoryLevel.storeAll, Except.map]
  | cons item rest ih =>
    intro i state clean
    rw [loadAll, writes, forwarded, loadItem]
    -- An item that would have expired is passed over on both sides.
    cases planned : plan.schedule state.memory.cfg i (lifeSeconds item.2.2) with
    | none => exact ih clean
    | some place =>
      obtain ⟨off, left⟩ := place
      dsimp only
      rw [MemoryLevel.storeAll]
      cases ran : state.memory.setMemory (plan.moments i).nowOff item.1 item.2.1 off with
      | error fault => rfl
      | ok result =>
        obtain ⟨memory, deletions⟩ := result
        have later := @ih (i + 1) ⟨memory, (plan.forward state.l2 item.1 item.2.1 left).1,
          state.deletions ++ deletions, none⟩ rfl
        simp only [setMemory_cfg ran] at later
        have accepted := accepts state.l2 item.1 item.2.1 left
        simp only [Bind.bind, Except.bind, Pure.pure, Except.pure]
        rw [accepted, Option.map_none, later]
        cases memory.storeAll (plan.writes state.memory.cfg (i + 1) rest) with
        | error fault => rfl
        | ok result => simp [Except.map, List.append_assoc]

end LoadPlan

theorem RawRecord.bytes_pos (raw : RawRecord) : 0 < raw.bytes.length := by
  have nonempty := List.length_pos_of_ne_nil (putUvarint_ne_nil (raw.keyBytes.length + 1))
  simp only [RawRecord.bytes, writeChunk, List.length_append]
  omega

theorem length_le_bytes (raws : List RawRecord) : raws.length ≤ (raws.flatMap RawRecord.bytes).length := by
  induction raws with
  | nil => exact le_rfl
  | cons raw raws ih =>
    have one := raw.bytes_pos
    rw [List.flatMap_cons, List.length_append, List.length_cons]
    omega

/-- A stream of records cut short has some of them whole, and then bytes that are no record. -/
theorem cut_records {keys : Codec K ε} {values : Codec V ε} {walk : List (K × V × Int)}
    {raws : List RawRecord} (encodes : List.Forall₂ (Encodes keys values) walk raws) :
    ∀ {part : List UInt8}, part <+: raws.flatMap RawRecord.bytes ++ writeChunk 0 [] →
      part ≠ raws.flatMap RawRecord.bytes ++ writeChunk 0 [] →
      ∃ m more why, m ≤ raws.length ∧ part = (raws.take m).flatMap RawRecord.bytes ++ more ∧
        readRecord more = .error (SnapshotError.badSnapshot (ε := ε) why) ∧
        ∀ j < raws.length, j < m ↔ ((raws.take (j + 1)).flatMap RawRecord.bytes).length ≤ part.length := by
  induction encodes with
  | nil =>
    intro part within strict
    obtain ⟨e, ⟨why, rfl⟩, failed⟩ := (reads_end (ε := ε)).cut part within strict
    exact ⟨0, part, why, le_rfl, rfl, failed, fun j inside => absurd inside (Nat.not_lt_zero j)⟩
  | @cons item raw walk raws first _ ih =>
    intro part within strict
    rw [List.flatMap_cons, List.append_assoc] at within strict
    rcases part_append within with ⟨inFirst, cutFirst⟩ | ⟨more, rfl, inRest⟩
    · -- The first record is cut, so not one is whole.
      obtain ⟨e, ⟨why, rfl⟩, failed⟩ :=
        (reads_record (ε := ε) first.bounded).cut part inFirst cutFirst
      refine ⟨0, part, why, Nat.zero_le _, rfl, failed, fun j _ => ?_⟩
      have shorter : part.length < raw.bytes.length :=
        lt_of_le_of_ne inFirst.length_le fun same => cutFirst (inFirst.eq_of_length same)
      rw [List.take_succ_cons, List.flatMap_cons, List.length_append]
      omega
    · have cutRest : more ≠ raws.flatMap RawRecord.bytes ++ writeChunk 0 [] :=
        fun same => strict (by rw [same])
      obtain ⟨m, left, why, some, rfl, failed, ends⟩ := ih inRest cutRest
      refine ⟨m + 1, left, why, Nat.succ_le_succ some, ?_, failed, fun j inside => ?_⟩
      · rw [List.take_succ_cons, List.flatMap_cons, List.append_assoc]
      · rw [List.take_succ_cons, List.flatMap_cons, List.length_append, List.length_append]
        cases j with
        | zero => simp
        | succ j =>
          have end' := ends j (Nat.lt_of_succ_lt_succ inside)
          omega

/-- The stream of items that both codecs carry is the header, their records and the end marker. -/
theorem saveTo_eq {keys : Codec K ε} {values : Codec V ε} {walk : List (K × V × Int)}
    (carried : ∀ item ∈ walk, keys.Carries item.1 ∧ values.Carries item.2.1) (savedAt : Int) :
    ∃ raws, List.Forall₂ (Encodes keys values) walk raws ∧
      walk.mapM (writeRecord keys values) = .ok (raws.map RawRecord.bytes) ∧
      saveTo (some keys) (some values) savedAt walk = .ok (snapshotHeader savedAt
        ++ (raws.flatMap RawRecord.bytes ++ writeChunk 0 [])) := by
  obtain ⟨raws, encodes, written⟩ := exists_records carried
  refine ⟨raws, encodes, written, ?_⟩
  simp only [saveTo, written, Bind.bind, Except.bind, Pure.pure, Except.pure, List.append_assoc]
  rfl

variable {second : Option (SecondLevel K V σ ε)} {keys : Codec K ε} {values : Codec V ε}
  {opts : List LoadOption} (moments : Nat → Moment)

/-- A second level that accepts does so for the items loaded. -/
theorem loadPlan_accepts
    (accepts : LoadOption.loadToL2 ∈ opts → ∀ level ∈ second, level.Accepts) (savedAt : Int) :
    (loadPlan second keys values opts moments savedAt).Accepts := by
  intro l2 key value life
  unfold LoadPlan.forward
  split
  · rfl
  · rename_i level chosen
    by_cases asked : LoadOption.loadToL2 ∈ opts
    · simp only [loadPlan, if_pos asked] at chosen
      unfold SecondLevel.writeLoadedToL2
      split
      · rename_i through
        exact accepts asked level chosen through _ _ _ _
      · rfl
      · rfl
    · simp only [loadPlan, if_neg asked] at chosen
      cases chosen

variable [Inhabited K] [Inhabited V] [DecidableEq K]

/-- Behind the header, loading goes from record to record. -/
theorem MemoryLevel.loadFrom_eq (fresh : LoadOption.loadWithTTL ∉ opts ∨ LoadOption.loadWithCurrentTTL ∉ opts)
    (c : MemoryLevel K V) (l2 : σ) (savedAt : Int) (rest : List UInt8) :
    c.loadFrom second l2 (some keys) (some values) opts moments (snapshotHeader savedAt ++ rest)
      = (loadPlan second keys values opts moments (int64 savedAt)).loadRecords
          ((snapshotHeader savedAt ++ rest).length + 1) 0 rest ⟨c, l2, [], none⟩ := by
  have agree : ¬ (LoadOption.loadWithTTL ∈ opts ∧ LoadOption.loadWithCurrentTTL ∈ opts) := by tauto
  simp only [loadFrom, if_neg agree, (reads_header (ε := ε) savedAt).whole rest]

variable {walk : List (K × V × Int)}

/-- Records behind a header are stored as planned, and loading goes on behind them. -/
theorem loadFrom_records {raws : List RawRecord} (encodes : List.Forall₂ (Encodes keys values) walk raws)
    (agree : LoadOption.loadWithTTL ∉ opts ∨ LoadOption.loadWithCurrentTTL ∉ opts)
    (accepts : LoadOption.loadToL2 ∈ opts → ∀ level ∈ second, level.Accepts)
    (c : MemoryLevel K V) (l2 : σ) (savedAt : Int) (rest : List UInt8) :
    ∃ fuel, c.loadFrom second l2 (some keys) (some values) opts moments
        (snapshotHeader savedAt ++ (raws.flatMap RawRecord.bytes ++ rest)) = (do
      let plan := loadPlan second keys values opts moments (int64 savedAt)
      let (memory, deletions) ← c.storeAll (plan.writes c.cfg 0 walk)
      plan.loadRecords (fuel + 1) walk.length rest
        ⟨memory, plan.forwarded c.cfg 0 walk l2, deletions, none⟩) := by
  have ready : (loadPlan second keys values opts moments (int64 savedAt)).Accepts :=
    loadPlan_accepts moments accepts _
  -- There is fuel for every record, and for what follows them.
  obtain ⟨fuel, enough⟩ : ∃ fuel, (snapshotHeader savedAt ++ (raws.flatMap RawRecord.bytes
      ++ rest)).length + 1 = walk.length + (fuel + 1) := by
    have each := length_le_bytes raws
    rw [← encodes.length_eq] at each
    refine ⟨(snapshotHeader savedAt ++ (raws.flatMap RawRecord.bytes ++ rest)).length - walk.length, ?_⟩
    simp only [List.length_append] at each ⊢
    omega
  refine ⟨fuel, ?_⟩
  rw [MemoryLevel.loadFrom_eq moments agree, enough,
    LoadPlan.loadRecords_append ready encodes _ _ 0 ⟨c, l2, [], none⟩ rfl, LoadPlan.loadAll_eq ready rfl]
  dsimp only
  cases c.storeAll ((loadPlan second keys values opts moments (int64 savedAt)).writes c.cfg 0 walk) with
  | error fault => rfl
  | ok result => simp only [Except.map, Bind.bind, Except.bind, List.nil_append, Nat.zero_add]

/-- Loading a saved stream performs the planned writes, whatever follows the stream. -/
theorem loadFrom_saved (carried : ∀ item ∈ walk, keys.Carries item.1 ∧ values.Carries item.2.1)
    (agree : LoadOption.loadWithTTL ∉ opts ∨ LoadOption.loadWithCurrentTTL ∉ opts)
    (accepts : LoadOption.loadToL2 ∈ opts → ∀ level ∈ second, level.Accepts)
    {savedAt : Int} {stream : List UInt8}
    (saved : saveTo (some keys) (some values) savedAt walk = .ok stream)
    (c : MemoryLevel K V) (l2 : σ) (trailing : List UInt8) :
    c.loadFrom second l2 (some keys) (some values) opts moments (stream ++ trailing)
      = (c.storeAll ((loadPlan second keys values opts moments (int64 savedAt)).writes c.cfg 0 walk)).map
        fun (memory, deletions) => ⟨memory,
          (loadPlan second keys values opts moments (int64 savedAt)).forwarded c.cfg 0 walk l2,
          deletions, none⟩ := by
  obtain ⟨raws, encodes, _, written⟩ := saveTo_eq carried savedAt
  obtain rfl : stream = _ := Except.ok.inj (saved.symm.trans written)
  obtain ⟨fuel, loads⟩ := loadFrom_records moments encodes agree accepts c l2 savedAt
    (writeChunk 0 [] ++ trailing)
  rw [List.append_assoc, List.append_assoc, loads]
  dsimp only
  cases c.storeAll ((loadPlan second keys values opts moments (int64 savedAt)).writes c.cfg 0 walk) with
  | error fault => rfl
  | ok result =>
    -- What is left of the stream is the end marker, and bytes nobody looks at.
    simp only [Except.map, Bind.bind, Except.bind, LoadPlan.loadRecords, reads_end.whole trailing]

variable (second opts)

/-- Numbers as single bytes. -/
def byteCodec : Codec Nat Unit :=
  { marshal := fun n => .ok [UInt8.ofNat n]
    unmarshal := fun
      | [byte] => .ok byte.toNat
      | _ => .error () }

/-- Nothing as no bytes at all. -/
def emptyCodec : Codec Unit Unit :=
  { marshal := fun _ => .ok []
    unmarshal := fun _ => .ok () }

theorem carries_seven : ∀ item ∈ [((7 : Nat), (), (0 : Int))],
    byteCodec.Carries item.1 ∧ emptyCodec.Carries item.2.1 := by
  intro item member
  rw [List.mem_singleton.mp member]
  exact ⟨⟨[7], rfl, by decide, rfl⟩, ⟨[], rfl, by decide, rfl⟩⟩

/-- A clock that stands still. -/
def noon : Nat → Moment := fun _ => ⟨0, 0⟩

theorem hundredItems_room : (hundredItems.build plainSurroundings).HasRoomFor
    (freshWrites (hundredItems.build plainSurroundings).cfg noon [(7, (), 0)]) :=
  ⟨hasRoom_build (by decide) (by decide) (by decide) (by decide) (by decide), fun _ _ _ => trivial⟩

/-- Loading a snapshot stores every item once and in order, with its own key and value. Where there is
room for all of them, the level ends up with its old contents overridden by the snapshot's. -/
theorem load_after_save (carried : ∀ item ∈ walk, keys.Carries item.1 ∧ values.Carries item.2.1)
    (fresh : LoadOption.loadWithTTL ∉ opts)
    (accepts : LoadOption.loadToL2 ∈ opts → ∀ level ∈ second, level.Accepts)
    (savedAt : Int) (c : MemoryLevel K V) (l2 : σ) :
    ∃ stream, saveTo (some keys) (some values) savedAt walk = .ok stream ∧ ∃ l2', ∀ trailing,
      c.loadFrom second l2 (some keys) (some values) opts moments (stream ++ trailing)
        = ((c.storeAll (freshWrites c.cfg moments walk)).map fun (memory, deletions) =>
          ⟨memory, l2', deletions, none⟩) ∧
      (c.Inv → c.HasRoomFor (freshWrites c.cfg moments walk) → ∃ loaded,
        c.loadFrom second l2 (some keys) (some values) opts moments (stream ++ trailing) = .ok loaded ∧
        loaded.error = none ∧ ∀ key, loaded.memory.held key
          = (latest (freshWrites c.cfg moments walk) key).or (c.held key)) := by
  obtain ⟨_, _, _, saved⟩ := saveTo_eq carried savedAt
  have all : (loadPlan second keys values opts moments (int64 savedAt)).writes c.cfg 0 walk
      = freshWrites c.cfg moments walk := LoadPlan.writes_fresh (by simp [loadPlan, fresh]) _ _
  refine ⟨_, saved, (loadPlan second keys values opts moments (int64 savedAt)).forwarded c.cfg 0 walk l2,
    fun trailing => ?_⟩
  have loads := loadFrom_saved moments carried (.inl fresh) accepts saved c l2 trailing
  rw [all] at loads
  refine ⟨loads, fun inv room => ?_⟩
  obtain ⟨c', deletions, stored, _, _, held⟩ := inv.storeAll_latest room
  rw [stored] at loads
  exact ⟨_, loads, rfl, held⟩

/-- An item with an empty value comes back, whatever follows the snapshot. -/
theorem load_after_save_seven : ∃ stream,
    saveTo (some byteCodec) (some emptyCodec) 0 [(7, (), 0)] = .ok stream ∧ ∃ loaded,
      (hundredItems.build plainSurroundings).loadFrom (none : Option (SecondLevel Nat Unit Unit Unit)) ()
        (some byteCodec) (some emptyCodec) [] noon (stream ++ [42]) = .ok loaded ∧
      loaded.error = none ∧ loaded.memory.held 7 = some () := by
  obtain ⟨stream, saved, _, loads⟩ := load_after_save
    (none : Option (SecondLevel Nat Unit Unit Unit)) [] noon carries_seven nofun nofun 0
    (hundredItems.build plainSurroundings) ()
  obtain ⟨loaded, ran, fine, held⟩ := (loads [42]).2
    (MemoryLevel.inv_build (by decide) plainSurroundings) hundredItems_room
  exact ⟨stream, saved, loaded, ran, fine, (held 7).trans rfl⟩

/-- A strict part of a snapshot is refused, and what was stored before are the items whose records
lie inside the part. -/
theorem load_of_part (carried : ∀ item ∈ walk, keys.Carries item.1 ∧ values.Carries item.2.1)
    (fresh : LoadOption.loadWithTTL ∉ opts)
    (accepts : LoadOption.loadToL2 ∈ opts → ∀ level ∈ second, level.Accepts)
    {savedAt : Int} {stream part : List UInt8}
    (saved : saveTo (some keys) (some values) savedAt walk = .ok stream)
    (within : part <+: stream) (strict : part ≠ stream) (c : MemoryLevel K V) (l2 : σ) :
    ∃ records m why l2', walk.mapM (writeRecord keys values) = .ok records ∧
      c.loadFrom second l2 (some keys) (some values) opts moments part
        = ((c.storeAll (freshWrites c.cfg moments (walk.take m))).map fun (memory, deletions) =>
          ⟨memory, l2', deletions, some (.badSnapshot why)⟩) ∧
      ∀ j < walk.length, j < m ↔
        snapshotHeaderSize + ((records.take (j + 1)).flatten).length ≤ part.length := by
  obtain ⟨raws, encodes, written, streamed⟩ := saveTo_eq carried savedAt
  obtain rfl : stream = _ := Except.ok.inj (saved.symm.trans streamed)
  have size : (snapshotHeader savedAt).length = snapshotHeaderSize := by
    simp [snapshotHeaderSize, snapshotHeader]
  have agree : ¬ (LoadOption.loadWithTTL ∈ opts ∧ LoadOption.loadWithCurrentTTL ∈ opts) :=
    fun both => fresh both.1
  rcases part_append within with ⟨inHeader, cutHeader⟩ | ⟨more, rfl, inRecords⟩
  · -- The header itself is cut, so nothing is stored.
    obtain ⟨e, ⟨why, rfl⟩, failed⟩ := (reads_header (ε := ε) savedAt).cut part inHeader cutHeader
    refine ⟨raws.map RawRecord.bytes, 0, why, l2, written, ?_, fun j _ => ?_⟩
    · simp only [MemoryLevel.loadFrom, if_neg agree, failed]
      rfl
    · have shorter : part.length < snapshotHeaderSize :=
        size ▸ lt_of_le_of_ne inHeader.length_le fun same => cutHeader (inHeader.eq_of_length same)
      omega
  · -- The cut falls among the records: some are whole, and the next one is not.
    have cutRecords : more ≠ raws.flatMap RawRecord.bytes ++ writeChunk 0 [] :=
      fun same => strict (by rw [same])
    obtain ⟨m, left, why, some, rfl, failed, ends⟩ := cut_records encodes inRecords cutRecords
    have all : (loadPlan second keys values opts moments (int64 savedAt)).writes c.cfg 0 (walk.take m)
        = freshWrites c.cfg moments (walk.take m) := LoadPlan.writes_fresh (by simp [loadPlan, fresh]) _ _
    obtain ⟨fuel, loads⟩ := loadFrom_records moments (List.forall₂_take m encodes) (.inl fresh) accepts
      c l2 savedAt left
    refine ⟨raws.map RawRecord.bytes, m, why,
      (loadPlan second keys values opts moments (int64 savedAt)).forwarded c.cfg 0 (walk.take m) l2,
      written, ?_, fun j inside => ?_⟩
    · rw [loads]
      dsimp only
      rw [all]
      cases c.storeAll (freshWrites c.cfg moments (walk.take m)) with
      | error fault => rfl
      | ok result => simp only [Except.map, Bind.bind, Except.bind, LoadPlan.loadRecords, failed]
    · rw [encodes.length_eq] at inside
      have ended := ends j inside
      rw [← List.map_take, ← List.flatMap_def]
      simp only [List.length_append, size] at ended ⊢
      omega

/-- A snapshot that ends after the length of its first key is refused, and nothing is stored. -/
theorem load_of_part_seven : ∃ why,
    (hundredItems.build plainSurroundings).loadFrom (none : Option (SecondLevel Nat Unit Unit Unit)) ()
      (some byteCodec) (some emptyCodec) [] noon (snapshotHeader 0 ++ [2])
      = .ok ⟨hundredItems.build plainSurroundings, (), [], some (.badSnapshot why)⟩ := by
  have saved : saveTo (some byteCodec) (some emptyCodec) 0 [(7, (), 0)]
      = .ok (snapshotHeader 0 ++ [2, 7, 0, 0, 0]) := rfl
  have within : snapshotHeader 0 ++ [2] <+: snapshotHeader 0 ++ [2, 7, 0, 0, 0] := by decide
  obtain ⟨records, m, why, l2', written, loads, ends⟩ := load_of_part
    (none : Option (SecondLevel Nat Unit Unit Unit)) [] noon carries_seven nofun nofun saved
    within (by decide) (hundredItems.build plainSurroundings) ()
  obtain rfl : [[2, 7, 0, 0]] = records := Except.ok.inj written
  -- Not even the first record is whole.
  obtain rfl : m = 0 := by
    have first := ends 0 (by decide)
    by_contra some
    exact absurd (first.mp (Nat.pos_of_ne_zero some)) (by decide)
  exact ⟨why, loads⟩

end Memstash
