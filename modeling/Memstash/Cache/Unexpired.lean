import Memstash.Cache.Batch
import Memstash.Cache.Clocked
import Memstash.Cache.Lookups

/-! Lookups while nothing expires: they find what is held, and leave all of it. -/

namespace Memstash

open Scan

variable {K V : Type}

namespace Shard

/-- A lookup that finds what its key is served with, and loses nothing. -/
structure Consulted (cfg : ShardConfig K V) (key : K) (sh sh' : Shard K V) (found : Option V) : Prop where
  inv : sh'.Inv cfg
  narrows : sh.items.Narrows sh'.items
  found : ∀ value, found = some value ↔ ∃ off, sh.items.Serves key value off
  alike : ∀ other value, (∃ off, sh'.items.Serves other value off) ↔ ∃ off, sh.items.Serves other value off

variable {cfg : ShardConfig K V} {sh sh' : Shard K V} {key : K}

theorem Inv.consulted_none (inv : sh.Inv cfg) (absent : ∀ value off, ¬ sh.items.Serves key value off) :
    Consulted cfg key sh sh none :=
  ⟨inv, .refl _, fun value => ⟨nofun, fun ⟨off, served⟩ => absurd served (absent value off)⟩,
    fun _ _ => Iff.rfl⟩

/-- A hit, which may extend the item's lifetime. -/
theorem Inv.consulted_hit (inv : sh.Inv cfg) {value : V} {off life : Nat}
    (served : sh.items.Serves key value off) (inv' : sh'.Inv cfg) (narrows : sh.items.Narrows sh'.items)
    (overwrites : Overwrites key value life sh.items sh'.items) :
    Consulted cfg key sh sh' (some value) := by
  refine ⟨inv', narrows, fun held => ?_, fun other held => ?_⟩
  · constructor
    · rintro ⟨⟩
      exact ⟨off, served⟩
    · rintro ⟨off', served'⟩
      rw [(inv.serves_unique served served').1]
  · simp only [overwrites other held]
    by_cases same : other = key
    · subst same
      constructor
      · rintro ⟨_, ⟨_, rfl, _⟩ | ⟨apart, _⟩⟩
        · exact ⟨off, served⟩
        · exact absurd rfl apart
      · rintro ⟨off', served'⟩
        exact ⟨life, .inl ⟨rfl, (inv.serves_unique served' served).1, rfl⟩⟩
    · simp [same]

variable [Inhabited K] [Inhabited V] [DecidableEq K] {nowOff : Nat}

/-- A lookup of a key whose item has not lapsed. -/
theorem Inv.getMemory_consulted (inv : sh.Inv cfg)
    (fresh : ∀ value off, sh.items.Serves key value off → MetaWord.lapsed off nowOff = false) :
    ∃ sh' found deletions, sh.getMemory cfg nowOff key = .ok (sh', found, deletions) ∧
      Consulted cfg key sh sh' found := by
  obtain ⟨sh', found, deletions, ran, read, _⟩ := inv.getMemory nowOff key
  refine ⟨sh', found, deletions, ran, ?_⟩
  cases read with
  | missed absent same => exact same ▸ inv.consulted_none absent
  | dropped served late _ =>
    rw [fresh _ _ served] at late
    cases late
  | hit served _ inv' _ _ _ slots _ overwrites => exact inv.consulted_hit served inv' slots overwrites

/-- Validating a candidate with a word that has not lapsed either. -/
theorem Inv.validate_consulted (inv : sh.Inv cfg)
    (fresh : ∀ value off, sh.items.Serves key value off → MetaWord.lapsed off nowOff = false)
    {before : FlatHashMap K V} (table : before.Inv cfg.keyHash) (narrow : before.Narrows sh.items)
    {seen : Candidate} (noted : before.Noted (cfg.keyHash key) seen)
    (inTime : seen.word.expired nowOff = false) :
    ∃ sh' found deletions, sh.validate cfg nowOff key (some seen) = .ok (sh', found, deletions) ∧
      Consulted cfg key sh sh' found := by
  unfold Shard.validate
  dsimp only
  split
  · exact inv.getMemory_consulted fresh
  · rename_i usable
    simp only [not_or, not_not, Bool.not_eq_false] at usable
    obtain ⟨valid, named⟩ := usable
    obtain ⟨live, _⟩ := inv.candidate_live table narrow noted valid
    rw [named] at live
    rw [if_neg (by simp [inTime])]
    obtain ⟨kept, entry, _⟩ := touch_spec cfg nowOff (sh.items.itemAt seen.pos) seen.word
    obtain ⟨touched, slots, overwrites⟩ := inv.touched live kept entry
    exact ⟨_, _, _, rfl, inv.consulted_hit (serves_of_live live) touched slots overwrites⟩

end Shard

namespace MemoryLevel

variable {c : MemoryLevel K V}

/-- What a level serves for a key has not lapsed. -/
def Fresh (key : K) (nowOff : Nat) (c : MemoryLevel K V) : Prop :=
  ∀ value off, c.Serves key value off → MetaWord.lapsed off nowOff = false

/-- A level after a lookup that lost nothing. -/
structure Consults (c c' : MemoryLevel K V) : Prop where
  inv : c'.Inv
  cfg : c'.cfg = c.cfg
  mask : c'.shardMask = c.shardMask
  narrows : ∀ i, (c.shards i).items.Narrows (c'.shards i).items
  held : c'.held = c.held

/-- A lookup in the shard of a key is a lookup in the level. -/
theorem Inv.put_consulted (inv : c.Inv) {key : K} {sh : Shard K V} {found : Option V}
    (consulted : Shard.Consulted c.cfg key (c.shards (c.keyShard key)) sh found) :
    c.Consults (c.put (c.keyShard key) sh) ∧ found = c.held key := by
  -- Nothing is served that was not, so the keys are still in their shards.
  have inv' : (c.put (c.keyShard key) sh).Inv := by
    refine ⟨fun i bound => ?_, fun i bound other value off served => ?_⟩
    · by_cases here : i = c.keyShard key
      · subst here
        rw [put_here]
        exact consulted.inv
      · rw [put_others c sh here]
        exact inv.shards i bound
    · show c.keyShard other = i
      by_cases here : i = c.keyShard key
      · subst here
        rw [put_here] at served
        obtain ⟨off', before⟩ := (consulted.alike other value).mp ⟨off, served⟩
        exact inv.home _ bound other value off' before
      · rw [put_others c sh here] at served
        exact inv.home i bound other value off served
  refine ⟨⟨inv', rfl, rfl, fun i => ?_, ?_⟩, ?_⟩
  · by_cases here : i = c.keyShard key
    · subst here
      rw [put_here]
      exact consulted.narrows
    · rw [put_others c sh here]
      exact .refl _
  · funext other
    refine Option.ext fun value => ?_
    rw [inv'.held_eq_some, inv.held_eq_some]
    simp only [put_serves]
    split
    · rename_i here
      rw [consulted.alike other value, ← here]
      rfl
    · exact Iff.rfl
  · refine Option.ext fun value => ?_
    rw [inv.held_eq_some, consulted.found value]
    rfl

/-- What a walk noted for a key, in the key's shard as it was then. -/
def Walked (c : MemoryLevel K V) (key : K) (seen : Candidate) : Prop :=
  ∃ before : FlatHashMap K V, before.Inv c.cfg.keyHash ∧
    before.Narrows (c.shards (c.keyShard key)).items ∧ before.Noted (c.cfg.keyHash key) seen

/-- A note stays good after lookups that lose nothing. -/
theorem Walked.consults {c' : MemoryLevel K V} {key : K} {seen : Candidate} (walked : c.Walked key seen)
    (consults : c.Consults c') : c'.Walked key seen := by
  obtain ⟨before, table, narrow, noted⟩ := walked
  have here : c'.keyShard key = c.keyShard key := by
    simp only [keyShard, shardOf, consults.cfg, consults.mask]
  refine ⟨before, ?_, ?_, ?_⟩
  · rw [consults.cfg]
    exact table
  · rw [here]
    exact narrow.trans (consults.narrows _)
  · rw [consults.cfg]
    exact noted

variable [DecidableEq K]

/-- A walk returns; without a candidate the key is not held. -/
theorem Inv.candidate_walked (inv : c.Inv) (key : K) :
    ∃ found, (c.shards (c.keyShard key)).items.candidate (c.cfg.keyHash key) = .ok found ∧
      (found = none → c.held key = none) ∧ ∀ seen, found = some seen → c.Walked key seen := by
  have shard := inv.shard key
  have quarter := shard.housed.occupied_le
  obtain ⟨large, _, _⟩ := shard.table.sized.bounds
  obtain ⟨found, ran, noted⟩ := FlatHashMap.candidate_spec shard.table (by omega) key
  refine ⟨found, ran, ?_, fun seen same => ⟨_, shard.table, .refl _, noted seen same⟩⟩
  rintro rfl
  have nowhere := FlatHashMap.probe_of_candidate_none shard.table (by omega) ran
  refine Option.eq_none_iff_forall_ne_some.mpr fun value held => ?_
  obtain ⟨off, served⟩ := inv.held_eq_some.mp held
  rcases shard.housed.probe true key with ⟨pos, probed, _⟩ | ⟨_, absent⟩
  · rw [nowhere] at probed
    cases probed
  · exact absent value off served

end MemoryLevel

namespace ClockedLevel

variable [DecidableEq K] [Inhabited K] [Inhabited V]

omit [DecidableEq K] [Inhabited K] [Inhabited V] in
/-- Walk to the first slot under a key's tag, which reads no clock. -/
def candidate (m : ClockedLevel K V) (key : K) : Option (Option Candidate × ClockedLevel K V) :=
  match (m.level.shards (m.level.keyShard key)).items.candidate (m.level.cfg.keyHash key) with
  | .ok seen => some (seen, m)
  | .error _ => none

/-- Resolve a key against the slot its walk noted. -/
def validate (clock : Nat → Nat) (m : ClockedLevel K V) (key : K) (seen : Candidate) :
    Option (Option (Option V) × ClockedLevel K V) :=
  m.finish ((m.level.onShard key fun sh => sh.validate m.level.cfg (clock m.ticks) key (some seen)).map
    fun (level, found, _) => (level, found))

variable {m : ClockedLevel K V} {clock : Nat → Nat} {key : K}

omit [Inhabited K] [Inhabited V] in
/-- A walk changes nothing. -/
theorem candidate_walked (inv : m.level.Inv) (key : K) :
    ∃ found, m.candidate key = some (found, m) ∧ (found = none → m.level.held key = none) ∧
      ∀ seen, found = some seen → m.level.Walked key seen := by
  obtain ⟨found, ran, absent, walked⟩ := inv.candidate_walked key
  exact ⟨found, by rw [candidate, ran], absent, walked⟩

/-- A lookup of a key whose item has not lapsed finds what is held. -/
theorem getMemory_consults (inv : m.level.Inv) (fresh : m.level.Fresh key (clock m.ticks)) :
    ∃ m', m.getMemory clock key = some (some (m.level.held key), m') ∧ m.level.Consults m'.level := by
  obtain ⟨sh, found, deletions, ran, consulted⟩ := (inv.shard key).getMemory_consulted fresh
  obtain ⟨consults, rfl⟩ := inv.put_consulted consulted
  have looked : m.level.getMemory (clock m.ticks) key = _ := MemoryLevel.onShard_eq ran
  exact ⟨{ m.tick with level := _ }, by rw [getMemory, looked]; rfl, consults⟩

/-- Validating a note that has not lapsed finds what is held. -/
theorem validate_consults (inv : m.level.Inv) (fresh : m.level.Fresh key (clock m.ticks)) {seen : Candidate}
    (walked : m.level.Walked key seen) (inTime : seen.word.expired (clock m.ticks) = false) :
    ∃ m', m.validate clock key seen = some (some (m.level.held key), m') ∧ m.level.Consults m'.level := by
  obtain ⟨before, table, narrow, noted⟩ := walked
  obtain ⟨sh, found, deletions, ran, consulted⟩ :=
    (inv.shard key).validate_consulted fresh table narrow noted inTime
  obtain ⟨consults, rfl⟩ := inv.put_consulted consulted
  exact ⟨{ m.tick with level := _ }, by rw [validate, MemoryLevel.onShard_eq ran]; rfl, consults⟩

end ClockedLevel

end Memstash
