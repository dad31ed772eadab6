import Memstash.Cache.Accounting
import Memstash.WriteBack.System

/-! The first level behaves as the memory of the two levels: it stores, removes, forgets and looks up. -/

namespace Memstash

open Scan Runs

variable {K V : Type} [Inhabited K] [Inhabited V] [DecidableEq K]

namespace MemoryLevel

variable {c : MemoryLevel K V}

/-- Storing an item. -/
theorem Inv.setMemory_stores (inv : c.Inv) (nowOff : Nat) (key : K) (value : V) {off : Nat}
    (small : off < 2 ^ 18)
    (writable : c.cfg.rawCost key value ≤ (c.shards (c.keyShard key)).cap →
      (c.shards (c.keyShard key)).Writable c.cfg key value) :
    ∃ c' deletions, c.setMemory nowOff key value off = .ok (c', deletions) ∧ c'.Inv ∧
      Stores key value c.held c'.held := by
  obtain ⟨sh, deletions, ran, wrote⟩ := (inv.shard key).setMemory nowOff key value small writable
  have shard : sh.Inv c.cfg := by
    cases wrote with
    | oversized _ removed => exact removed.inv
    | stored _ _ _ _ _ _ _ _ evicted _ _ => exact evicted.inv
  obtain ⟨inv', others⟩ := inv.put_held key shard fun _ _ _ => wrote.within
  refine ⟨c.put (c.keyShard key) sh, deletions, MemoryLevel.onShard_eq ran, inv', ?_, others⟩
  cases found : (c.put (c.keyShard key) sh).held key with
  | none => exact .inr rfl
  | some held =>
    -- Whatever is served for the key after the write is what was written.
    obtain ⟨life, served⟩ := (held_put inv').mp found
    cases wrote with
    | oversized _ removed => exact absurd rfl ((removed.serves key held life).mp served).1
    | stored _ _ _ _ _ _ _ overwrites evicted _ _ =>
      rcases (overwrites key held life).mp ((evicted.serves key held life).mp served).2 with
        ⟨_, same, _⟩ | ⟨apart, _⟩
      · rw [same]
        exact .inl rfl
      · exact absurd rfl apart

omit [Inhabited K] [Inhabited V] in
/-- Removing an item leaves the other keys alone. -/
theorem Inv.held_without (inv : c.Inv) {key : K} {sh : Shard K V}
    (removed : Shard.Removed c.cfg (fun other => other = key) (c.shards (c.keyShard key)) sh) :
    (c.put (c.keyShard key) sh).Inv ∧
      (c.put (c.keyShard key) sh).held = Function.update c.held key none := by
  obtain ⟨inv', serves⟩ := inv.put_without removed
  refine ⟨inv', funext fun other => Option.ext fun value => ?_⟩
  rw [inv'.held_eq_some]
  simp only [serves]
  by_cases same : other = key
  · simp [same]
  · simp only [Function.update_of_ne same, inv.held_eq_some, ne_eq, same, not_false_eq_true, true_and]

omit [Inhabited K] [Inhabited V] [DecidableEq K] in
/-- Removing items of one shard. -/
theorem Inv.put_forgets (inv : c.Inv) {key : K} {gone : K → Prop} {sh : Shard K V}
    (removed : Shard.Removed c.cfg gone (c.shards (c.keyShard key)) sh) :
    (c.put (c.keyShard key) sh).Inv ∧ Forgets c.held (c.put (c.keyShard key) sh).held := by
  have fades : Fades Set.univ c (c.put (c.keyShard key) sh) :=
    inv.put_fades removed.inv (fun _ _ _ served => .inr (removed.before served))
      fun _ _ _ served => removed.before served
  exact ⟨fades.inv, fun other => inv.held_of_serves fades.inv fun value off served =>
    ⟨off, fades.serves other trivial value off served⟩⟩

/-- Looking a key up answers what is held, or nothing after an expired item was dropped. -/
theorem Inv.getMemory_forgets (inv : c.Inv) (nowOff : Nat) (key : K) :
    ∃ c' found deletions, c.getMemory nowOff key = .ok (c', found, deletions) ∧ c'.Inv ∧
      Forgets c.held c'.held ∧ found = c'.held key := by
  obtain ⟨c', found, deletions, ran, inv', _, was, held⟩ := inv.getMemory_held nowOff key
  have here : c'.held key = found := by rw [held, Function.update_self]
  refine ⟨c', found, deletions, ran, inv', fun other => ?_, here.symm⟩
  by_cases same : other = key
  · subst same
    cases answer : found with
    | none => exact .inr (here.trans answer)
    | some value => exact .inl (here.trans (answer.trans (was value answer).symm))
  · rw [held, Function.update_of_ne same]
    exact .inl rfl

end MemoryLevel

/-- What a step of the first level does to the memory of the two levels. -/
def MemoryStep.Enacts (memory memory' : K → Option V) : MemoryStep K V → Prop
  | setMemory key value _ => Stores key value memory memory'
  | deleteLocked key _ => memory' = Function.update memory key none
  | dropExpired _ _ | evictShard _ | getMemory _ => Forgets memory memory'

open MemoryLevel in
/-- Every step of a well-formed level returns, and does to what the level holds what the two levels
let it do to their memory. -/
theorem MemoryStep.apply_enacts {c : MemoryLevel K V} (inv : c.Inv) {next : Nat × MemoryStep K V}
    (allowed : Allowed c next) :
    ∃ c', apply c next = .ok c' ∧ c'.Inv ∧ next.2.Enacts c.held c'.held := by
  obtain ⟨nowOff, step⟩ := next
  cases step with
  | setMemory key value off =>
    obtain ⟨c', gone, ran, inv', stores⟩ := inv.setMemory_stores nowOff key value off.isLt allowed
    exact ⟨c', by rw [apply, ran]; rfl, inv', stores⟩
  | deleteLocked key cause =>
    obtain ⟨sh, gone, ran, removed, _⟩ := (inv.shard key).deleteLocked key cause
    obtain ⟨inv', held⟩ := inv.held_without removed
    exact ⟨_, by rw [apply, MemoryLevel.deleteLocked, onShard_eq ran]; rfl, inv', held⟩
  | dropExpired key idx =>
    obtain ⟨sh, gone, ran, removed, _⟩ := (inv.shard key).dropExpired nowOff key idx
    obtain ⟨inv', others⟩ := inv.put_forgets removed
    exact ⟨_, by rw [apply, MemoryLevel.dropExpired, onShard_eq ran]; rfl, inv', others⟩
  | evictShard key =>
    obtain ⟨sh, gone, _, ran, removed, _⟩ := (inv.shard key).evictShard nowOff []
    obtain ⟨inv', others⟩ := inv.put_forgets removed
    exact ⟨_, by rw [apply, MemoryLevel.evictShard, onShard_eq ran]; rfl, inv', others⟩
  | getMemory key =>
    obtain ⟨c', found, gone, ran, inv', forgets, _⟩ := inv.getMemory_forgets nowOff key
    exact ⟨c', by rw [apply, ran]; rfl, inv', forgets⟩

/-- Along every run of a built cache the level stays well formed and balanced. -/
theorem MemoryLevel.exists_reached {cfg resolved : Config K V} {around : Surroundings K V}
    (resolves : cfg.resolve around = .ok resolved) {steps : List (Nat × MemoryStep K V)}
    (allowed : Meets MemoryStep.apply MemoryStep.Allowed (resolved.build around) steps) {done}
    (within : done <+: steps) : ∃ c, run MemoryStep.apply (resolved.build around) done = .ok c ∧
      c.Inv ∧ c.Balanced resolved around := by
  have capacity := (Config.resolve_capacity resolves).le
  refine exists_run_eq (fun _ c => c.Inv ∧ c.Balanced resolved around)
    ⟨inv_build capacity around, balanced_build capacity⟩ allowed (fun _ next _ _ kept roomy => ?_)
    done within
  obtain ⟨c', ran, inv', _⟩ := MemoryStep.apply_enacts kept.1 roomy
  obtain ⟨c'', ran', balanced'⟩ := kept.2.step next roomy
  rw [ran] at ran'
  cases ran'
  exact ⟨c', ran, inv', balanced'⟩

/-- Every run of a built cache whose writes find the room they need is a run of the memory the two
levels are proved about: it starts with nothing, and every step does to what the level holds what
that memory allows. -/
theorem first_level_simulates_memory {cfg resolved : Config K V} {around : Surroundings K V}
    (resolves : cfg.resolve around = .ok resolved) {steps : List (Nat × MemoryStep K V)}
    (allowed : Meets MemoryStep.apply MemoryStep.Allowed (resolved.build around) steps) :
    (∀ key, (resolved.build around).held key = none) ∧
    ∀ done next, done ++ [next] <+: steps → ∃ c c',
      run MemoryStep.apply (resolved.build around) done = .ok c ∧
      MemoryStep.apply c next = .ok c' ∧ next.2.Enacts c.held c'.held := by
  have capacity := (Config.resolve_capacity resolves).le
  refine ⟨fun key => Option.eq_none_iff_forall_not_mem.mpr fun value held => ?_,
    fun done next within => ?_⟩
  · obtain ⟨off, served⟩ := (MemoryLevel.inv_build capacity around).held_eq_some.mp held
    exact MemoryLevel.not_serves_build capacity around key value off served
  · obtain ⟨c, ran, inv, _⟩ := MemoryLevel.exists_reached resolves allowed
      ((List.prefix_append done [next]).trans within)
    obtain ⟨c', stepped, _, enacts⟩ := MemoryStep.apply_enacts inv (allowed done next within c ran)
    exact ⟨c, c', ran, stepped, enacts⟩

/-- A deletion after a write takes the key out of the memory. -/
theorem first_level_simulates_memory_seven : ∃ c c',
    run MemoryStep.apply (hundredItems.build plainSurroundings) [(0, .setMemory 7 () noExpiry)] = .ok c ∧
    MemoryStep.apply c (1, .deleteLocked 7 .invalidation) = .ok c' ∧
    c'.held = Function.update c.held 7 none := by
  have resolves : hundredItems.resolve plainSurroundings = .ok hundredItems := rfl
  have roomy : Meets MemoryStep.apply MemoryStep.Allowed (hundredItems.build plainSurroundings)
      [(0, .setMemory 7 () noExpiry), (1, .deleteLocked 7 .invalidation)] :=
    MemoryLevel.meets_of_moderate (by decide) (by decide) (by decide) _
  exact (first_level_simulates_memory resolves roomy).2 _ _ List.prefix_rfl

end Memstash
