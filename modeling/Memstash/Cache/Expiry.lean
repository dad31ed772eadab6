import Memstash.Cache.Accounting
import Memstash.Cache.Batch

/-! Expired items stay expired, as long as the clock has not run half its scale past them. -/

namespace Memstash

open Scan Runs MetaWord Machine

/-- The clock value a cache stores for a number of elapsed units. -/
def wrapClock (ticks : Nat) : Nat := ticks % 2 ^ 18

namespace MetaWord

/-- The distance to an offset is a distance on the wrapping scale. -/
theorem offsetDiff_wrapClock (deadline ticks : Nat) :
    offsetDiff (wrapClock deadline) (wrapClock ticks)
      = (deadline + (2 ^ 18 - ticks % 2 ^ 18)) % 2 ^ 18 := by
  have mask : expireWrapMask = 2 ^ 18 - 1 := rfl
  unfold offsetDiff wrapClock
  rw [mask, Nat.and_two_pow_sub_one_eq_mod]
  omega

/-- A deadline that has passed reads as passed for half the scale, and as ahead for the other half. -/
theorem lapsed_wrapClock {deadline ticks : Nat} (timed : wrapClock deadline ≠ 0)
    (reached : deadline ≤ ticks) :
    lapsed (wrapClock deadline) (wrapClock ticks) = true ↔ (ticks - deadline) % 2 ^ 18 ≤ 2 ^ 17 := by
  have half : expireMax = 2 ^ 17 - 1 := rfl
  unfold lapsed
  rw [if_neg timed, offsetDiff_wrapClock]
  simp only [Bool.or_eq_true, beq_iff_eq, decide_eq_true_eq, half]
  omega

end MetaWord

/-- A first level together with the units its clock has counted. -/
structure Timed (K V : Type) where
  ticks : Nat
  level : MemoryLevel K V

/-- What can happen to the first level of a running cache. -/
inductive CacheOp (K V : Type) where
  /-- The clock advances by some units. -/
  | tick (units : Nat)
  | set (key : K) (value : V) (expireOff : Fin (2 ^ 18))
  | delete (key : K) (cause : DeletionCause)
  | dropExpired (key : K) (idx : Nat)
  | evict (key : K)
  | get (key : K)
  | batchGet (keys : List K)
  | iterate
  | save

variable {K V : Type} [Inhabited K] [Inhabited V] [DecidableEq K]

namespace CacheOp

/-- What an operation does, and the pairs it serves. -/
def apply (s : Timed K V) : CacheOp K V → Except Fault (Timed K V × List (K × V))
  | tick units => .ok ({ s with ticks := s.ticks + units }, [])
  | set key value off =>
    (s.level.setMemory (wrapClock s.ticks) key value off).map fun result =>
      ({ s with level := result.1 }, [])
  | delete key cause =>
    (s.level.deleteLocked key cause).map fun result => ({ s with level := result.1 }, [])
  | dropExpired key idx =>
    (s.level.dropExpired (wrapClock s.ticks) key idx).map fun result =>
      ({ s with level := result.1 }, [])
  | evict key =>
    (s.level.evictShard (wrapClock s.ticks) key).map fun result => ({ s with level := result.1 }, [])
  | get key =>
    (s.level.getMemory (wrapClock s.ticks) key).map fun result =>
      ({ s with level := result.1 }, MemoryLevel.hits [(key, result.2.1)])
  | batchGet keys =>
    (s.level.batchGetMemory (wrapClock s.ticks) keys).map fun result =>
      ({ s with level := result.1 }, MemoryLevel.hits result.2.1)
  | iterate =>
    .ok (s, (s.level.iterateWithLife (wrapClock s.ticks)).map fun (key, value, _) => (key, value))
  | save =>
    .ok (s, (s.level.savedRecords (wrapClock s.ticks)).map fun (key, value, _) => (key, value))

/-- The state an operation leaves. -/
def step (s : Timed K V) (op : CacheOp K V) : Except Fault (Timed K V) := (apply s op).map Prod.fst

/-- A write that can fit finds the index space, the queue node and the 64 bits it needs. -/
def Roomy (s : Timed K V) : CacheOp K V → Prop
  | set key value _ =>
    s.level.cfg.rawCost key value ≤ (s.level.shards (s.level.keyShard key)).cap →
      (s.level.shards (s.level.keyShard key)).Writable s.level.cfg key value
  | _ => True

/-- Whether the operation looks at the item of a key. -/
def Reads (key : K) : CacheOp K V → Prop
  | get read => read = key
  | batchGet keys => key ∈ keys
  | iterate | save => True
  | _ => False

/-- Whether the operation rewrites the item of a key. -/
def Rewrites (key : K) : CacheOp K V → Prop
  | set written _ _ => written = key
  | _ => False

omit [Inhabited K] [Inhabited V] [DecidableEq K] in
/-- What was not found is not among the hits. -/
theorem hits_away {faded : Set K} {answers : List (K × Option V)}
    (missed : ∀ answer ∈ answers, answer.1 ∈ faded → answer.2 = none) :
    ∀ pair ∈ MemoryLevel.hits answers, pair.1 ∉ faded := by
  intro pair member fading
  obtain ⟨⟨read, found⟩, listed, hit⟩ := List.mem_filterMap.mp member
  cases found with
  | none => cases hit
  | some value =>
    cases hit
    cases missed _ listed fading

/-- Every operation returns and lets keys fade it does not rewrite, provided they are stale when the
operation looks at them; and it does not serve them then. -/
theorem apply_fades {s : Timed K V} (inv : s.level.Inv) {faded : Set K} {op : CacheOp K V}
    (roomy : Roomy s op) (other : ∀ key ∈ faded, ¬ Rewrites key op)
    (stale : ∀ key ∈ faded, Reads key op → s.level.Stale key (wrapClock s.ticks)) :
    ∃ s' served, apply s op = .ok (s', served) ∧ s.ticks ≤ s'.ticks ∧
      MemoryLevel.Fades faded s.level s'.level ∧ ∀ pair ∈ served, pair.1 ∉ faded := by
  -- Operations under a shard mutex that only remove let every key fade.
  have removing : ∀ {touched : K} {gone : K → Prop} {sh : Shard K V},
      Shard.Removed s.level.cfg gone (s.level.shards (s.level.keyShard touched)) sh →
      MemoryLevel.Fades faded s.level (s.level.put (s.level.keyShard touched) sh) :=
    fun removed => inv.put_fades removed.inv (fun _ _ _ served => .inr (removed.before served))
      fun _ _ _ served => removed.before served
  -- A walk yields nothing under a stale key.
  have unyielded : ∀ key value life, (key, value, life) ∈ s.level.iterateWithLife (wrapClock s.ticks) →
      (key ∈ faded → s.level.Stale key (wrapClock s.ticks)) → key ∉ faded :=
    fun key value life yielded late fading =>
      inv.iterateWithLife_stale (late fading) value life yielded
  cases op with
  | tick units => exact ⟨_, [], rfl, Nat.le_add_right _ _, .refl inv faded, by simp⟩
  | set written value off =>
    obtain ⟨sh, deletions, ran, wrote⟩ := (inv.shard written).setMemory (wrapClock s.ticks) written
      value off.isLt roomy
    have inv' : sh.Inv s.level.cfg := by
      cases wrote with
      | oversized _ removed => exact removed.inv
      | stored _ _ _ _ _ _ _ _ evicted _ _ => exact evicted.inv
    refine ⟨{ s with level := s.level.put (s.level.keyShard written) sh }, [], by
      rw [apply, MemoryLevel.setMemory, MemoryLevel.onShard_eq ran]
      rfl, le_rfl,
      inv.put_fades inv' (fun _ _ _ => wrote.within) ?_, by simp⟩
    exact fun fading => absurd rfl (other written fading)
  | delete deleted cause =>
    obtain ⟨sh, deletions, ran, removed, _⟩ := (inv.shard deleted).deleteLocked deleted cause
    exact ⟨{ s with level := s.level.put (s.level.keyShard deleted) sh }, [], by
      rw [apply, MemoryLevel.deleteLocked, MemoryLevel.onShard_eq ran]
      rfl, le_rfl,
      removing removed, by simp⟩
  | dropExpired dropped idx =>
    obtain ⟨sh, deletions, ran, removed, _⟩ :=
      (inv.shard dropped).dropExpired (wrapClock s.ticks) dropped idx
    exact ⟨{ s with level := s.level.put (s.level.keyShard dropped) sh }, [], by
      rw [apply, MemoryLevel.dropExpired, MemoryLevel.onShard_eq ran]
      rfl, le_rfl,
      removing removed, by simp⟩
  | evict near =>
    obtain ⟨sh, deletions, gone, ran, removed, _⟩ := (inv.shard near).evictShard (wrapClock s.ticks) []
    exact ⟨{ s with level := s.level.put (s.level.keyShard near) sh }, [], by
      rw [apply, MemoryLevel.evictShard, MemoryLevel.onShard_eq ran]
      rfl, le_rfl,
      removing removed, by simp⟩
  | get read =>
    obtain ⟨c, found, deletions, ran, fades, _, missed⟩ :=
      inv.getMemory_fades (wrapClock s.ticks) fun fading => stale read fading rfl
    refine ⟨{ s with level := c }, _, by rw [apply, ran]; rfl, le_rfl, fades, hits_away fun answer member fading => ?_⟩
    obtain rfl := List.mem_singleton.mp member
    exact missed fading
  | batchGet keys =>
    obtain ⟨c, answers, deletions, ran, fades, _, missed⟩ :=
      inv.batchGetMemory_fades (wrapClock s.ticks) fun key member fading => stale key fading member
    exact ⟨{ s with level := c }, _, by rw [apply, ran]; rfl, le_rfl, fades, hits_away missed⟩
  | iterate =>
    refine ⟨_, _, rfl, le_rfl, .refl inv faded, fun pair member => ?_⟩
    obtain ⟨⟨read, value, life⟩, yielded, rfl⟩ := List.mem_map.mp member
    exact unyielded read value life yielded fun fading => stale read fading trivial
  | save =>
    refine ⟨_, _, rfl, le_rfl, .refl inv faded, fun pair member => ?_⟩
    obtain ⟨⟨read, value, seconds⟩, saved, rfl⟩ := List.mem_map.mp member
    obtain ⟨⟨walked, held, life⟩, yielded, same⟩ := List.mem_map.mp saved
    cases same
    exact unyielded read value life yielded fun fading => stale read fading trivial

/-- The condition of a run after an item's deadline: no step rewrites the item, and the steps that
look at it come within half the scale after the deadline, as the wrapped clock tells it. -/
structure Timely (key : K) (deadline : Nat) (s : Timed K V) (op : CacheOp K V) : Prop where
  roomy : Roomy s op
  other : ¬ Rewrites key op
  inWindow : Reads key op → (s.ticks - deadline) % 2 ^ 18 ≤ 2 ^ 17

/-- Every run of a built cache returns and keeps the first level well formed. -/
theorem run_inv {cfg : Config K V} (capacity : 0 ≤ cfg.memoryCapacity) (around : Surroundings K V)
    {ops : List (CacheOp K V)} (roomy : Meets step Roomy ⟨0, cfg.build around⟩ ops) :
    ∃ s, run step ⟨0, cfg.build around⟩ ops = .ok s ∧ s.level.Inv := by
  refine exists_run_eq (fun _ s => s.level.Inv) (MemoryLevel.inv_build capacity around) roomy ?_ ops
    (List.prefix_refl ops)
  intro _ next s _ inv allowed
  -- Nothing is asked of any key here.
  have noneFaded : ∀ key ∈ (∅ : Set K), ¬ Rewrites key next := fun _ member => absurd member id
  obtain ⟨s', served, ran, _, fades, _⟩ := apply_fades inv allowed noneFaded
    fun _ member => absurd member id
  exact ⟨s', by rw [step, ran]; rfl, fades.inv⟩

/-- Once the clock has reached an item's deadline, no lookup, batch, walk or snapshot serves the item
again until it is rewritten, in every run whose looks at it fall within half the scale. -/
theorem expired_stays_expired {cfg resolved : Config K V} {around : Surroundings K V}
    (resolves : cfg.resolve around = .ok resolved) {before after : List (CacheOp K V)} {s : Timed K V}
    (roomy : Meets step Roomy ⟨0, resolved.build around⟩ before)
    (reached : run step ⟨0, resolved.build around⟩ before = .ok s) {key : K} {value : V}
    {deadline : Nat} (held : s.level.Serves key value (wrapClock deadline))
    (timed : wrapClock deadline ≠ 0) (passed : deadline ≤ s.ticks)
    (timely : Meets step (Timely key deadline) s after) :
    ∀ done next, done ++ [next] <+: after → ∃ mid mid' served, run step s done = .ok mid ∧
      apply mid next = .ok (mid', served) ∧ ∀ pair ∈ served, pair.1 ≠ key := by
  obtain ⟨s₀, ran₀, inv⟩ := run_inv (Config.resolve_capacity resolves).le around roomy
  obtain rfl : s₀ = s := by rw [reached] at ran₀; cases ran₀; rfl
  -- From here on the key is served with this one deadline or not at all.
  have stepped : ∀ mid op, s₀.ticks ≤ mid.ticks → MemoryLevel.Fades {key} s₀.level mid.level →
      Timely key deadline mid op → ∃ mid' served, apply mid op = .ok (mid', served) ∧
        s₀.ticks ≤ mid'.ticks ∧ MemoryLevel.Fades {key} s₀.level mid'.level ∧
        ∀ pair ∈ served, pair.1 ≠ key := by
    intro mid op later fades allowed
    have other : ∀ touched ∈ ({key} : Set K), ¬ Rewrites touched op := fun touched member => by
      rw [Set.mem_singleton_iff.mp member]
      exact allowed.other
    have late : ∀ touched ∈ ({key} : Set K), Reads touched op →
        mid.level.Stale touched (wrapClock mid.ticks) := by
      intro touched member looks held' off served
      rw [Set.mem_singleton_iff.mp member] at looks served
      have same := (inv.shard key).serves_unique held (fades.serves key rfl held' off served)
      rw [← same.2]
      exact (lapsed_wrapClock timed (passed.trans later)).mpr (allowed.inWindow looks)
    obtain ⟨mid', served, ran, later', fades', away⟩ := apply_fades fades.inv allowed.roomy other late
    exact ⟨mid', served, ran, later.trans later', fades.trans fades', away⟩
  intro done next within
  obtain ⟨mid, ran, later, fades⟩ := exists_run_eq
    (fun _ mid => s₀.ticks ≤ mid.ticks ∧ MemoryLevel.Fades {key} s₀.level mid.level)
    ⟨le_rfl, .refl inv _⟩ timely (by
      rintro _ op mid _ ⟨later, fades⟩ allowed
      obtain ⟨mid', served, ran, later', fades', _⟩ := stepped mid op later fades allowed
      exact ⟨mid', by rw [step, ran]; rfl, later', fades'⟩) done
    ((List.prefix_append done [next]).trans within)
  obtain ⟨mid', served, took, _, _, away⟩ := stepped mid next later fades (timely done next within mid ran)
  exact ⟨mid, mid', served, ran, took, away⟩

section TenSeconds

/-- A cache for a hundred numbers that live ten seconds. -/
def tenSeconds : Config Nat Unit :=
  { hundredItems with
    ttl := 10 * 10 ^ 9
    ttlWord := by norm_num [IsInt64] }

/-- The cache with an item that was written right away and expires at the clock's eleventh unit. -/
theorem tenSeconds_written :
    Meets step Roomy ⟨0, tenSeconds.build plainSurroundings⟩ [.set 7 () 11, .tick 11] ∧
    ∃ c, run step ⟨0, tenSeconds.build plainSurroundings⟩ [.set 7 () 11, .tick 11] = .ok ⟨11, c⟩ ∧
      c.Inv ∧ c.Serves 7 () (wrapClock 11) := by
  have balanced := @MemoryLevel.balanced_build Nat Unit _ _ tenSeconds plainSurroundings (by decide)
  have shard := balanced.shards ((tenSeconds.build plainSurroundings).keyShard 7)
    ((tenSeconds.build plainSurroundings).keyShard_lt 7)
  have writable := shard.writable (by decide) (by decide) 7 ()
  have inv := @MemoryLevel.inv_build Nat Unit _ _ tenSeconds (by decide) plainSurroundings
  have empty := (tenSeconds.shard_spec (by decide) plainSurroundings
    (tenSeconds.forShards plainSurroundings)
    ((tenSeconds.build plainSurroundings).keyShard 7)).2.1
  refine ⟨meets_cons (fun _ => writable) fun _ _ => meets_cons trivial fun _ _ => meets_nil _ _ _, ?_⟩
  obtain ⟨sh, deletions, ran, wrote⟩ := shard.inv.setMemory 0 7 () (by decide : 11 < 2 ^ 18)
    fun _ => writable
  cases wrote with
  | oversized heavy _ => exact absurd heavy (by decide)
  | @stored mid life gone cost _ share midInv cap weight _ lifetime overwrites _ _ still =>
    -- Nothing was there, so one item is all the shard holds.
    obtain rfl : cost = 0 := by
      rcases share with ⟨held, life, served, _⟩ | ⟨_, none⟩
      · exact absurd served (empty 7 held life)
      · exact none
    obtain rfl := still (by rw [weight, cap]; decide)
    obtain rfl : life = 11 := by
      rcases lifetime with same | ⟨zero, _⟩
      · exact same
      · exact absurd zero (by decide)
    refine ⟨(tenSeconds.build plainSurroundings).put
      ((tenSeconds.build plainSurroundings).keyShard 7) sh, ?_, ?_, ?_⟩
    · have set : step ⟨0, tenSeconds.build plainSurroundings⟩ (.set 7 () 11)
          = .ok ⟨0, (tenSeconds.build plainSurroundings).put
            ((tenSeconds.build plainSurroundings).keyShard 7) sh⟩ := by
        rw [step, apply, MemoryLevel.setMemory, MemoryLevel.onShard_eq ran]
        rfl
      simp only [run, List.foldlM_cons, set]
      rfl
    · have fades : MemoryLevel.Fades ∅ (tenSeconds.build plainSurroundings) _ :=
        inv.put_fades midInv (fun other held life served => by
          rcases (overwrites other held life).mp served with ⟨same, _⟩ | ⟨_, before⟩
          · exact .inl same
          · exact .inr before) fun member => absurd member id
      exact fades.inv
    · show (((tenSeconds.build plainSurroundings).put _ sh).shards
        ((tenSeconds.build plainSurroundings).keyShard 7)).items.Serves 7 () (wrapClock 11)
      rw [MemoryLevel.put_here]
      exact (overwrites 7 () 11).mpr (.inl ⟨rfl, rfl, rfl⟩)

/-- At its deadline the item is not served. -/
theorem expired_stays_expired_ten : ∃ s, run step ⟨0, tenSeconds.build plainSurroundings⟩
      [.set 7 () 11, .tick 11] = .ok s ∧
    ∃ s' served, apply s (.get 7) = .ok (s', served) ∧ ∀ pair ∈ served, pair.1 ≠ 7 := by
  obtain ⟨roomy, c, ran, _, held⟩ := tenSeconds_written
  have resolves : tenSeconds.resolve plainSurroundings = .ok tenSeconds := rfl
  have timely : Meets step (Timely 7 11) (⟨11, c⟩ : Timed Nat Unit) [.get 7] :=
    meets_cons ⟨trivial, id, fun _ => Nat.zero_le _⟩ fun _ _ => meets_nil _ _ _
  refine ⟨_, ran, ?_⟩
  obtain ⟨mid, mid', served, stayed, took, away⟩ := expired_stays_expired resolves roomy ran held
    (by decide) le_rfl timely [] (.get 7) (List.prefix_refl _)
  cases stayed
  exact ⟨mid', served, took, away⟩

/-- A whole scale later the item nobody looked at is served again. -/
theorem expired_item_returns : ∃ s, run step ⟨0, tenSeconds.build plainSurroundings⟩
      [.set 7 () 11, .tick 11] = .ok s ∧ (tenSeconds.forShards plainSurroundings).expireOffset 0 = 11 ∧
    s.level.Serves 7 () (wrapClock 11) ∧ 11 ≤ s.ticks ∧
    ∃ s' s'', run step s [.tick (2 ^ 18 - 11)] = .ok s' ∧ apply s' (.get 7) = .ok (s'', [(7, ())]) := by
  obtain ⟨_, c, ran, inv, held⟩ := tenSeconds_written
  refine ⟨_, ran, rfl, held, le_rfl, ⟨11 + (2 ^ 18 - 11), c⟩, ?_⟩
  obtain ⟨sh, found, deletions, took, read, _⟩ :=
    (inv.shard 7).getMemory (wrapClock (11 + (2 ^ 18 - 11))) 7
  cases read with
  | missed absent _ => exact absurd held (absent () _)
  | dropped served late _ =>
    rw [((inv.shard 7).serves_unique served held).2] at late
    have inWindow := (lapsed_wrapClock (by decide) (Nat.le_add_right _ _)).mp late
    exact absurd inWindow (by norm_num)
  | hit served _ _ _ _ _ _ _ _ =>
    refine ⟨⟨11 + (2 ^ 18 - 11), c.put (c.keyShard 7) sh⟩, rfl, ?_⟩
    rw [apply, MemoryLevel.getMemory, MemoryLevel.onShard_eq took]
    rfl

end TenSeconds

end CacheOp

end Memstash
