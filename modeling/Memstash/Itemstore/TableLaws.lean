import Memstash.Itemstore.FlatHashMap

/-! Each single-slot write of a table preserves its invariant, overflow counts included. -/

namespace Memstash

open Probing Scan RangeSum

namespace FlatHashMap

variable {K V : Type} {t : FlatHashMap K V} {hash : K → BitVec 64}

section Frame

variable (t) (idx home pos : Nat) (item : Item K V)

@[simp] theorem put_mask : (t.put idx item).mask = t.mask := rfl
@[simp] theorem put_len : (t.put idx item).len = t.len := rfl
@[simp] theorem put_wrap : (t.put idx item).wrap pos = t.wrap pos := rfl
@[simp] theorem put_home (h : BitVec 64) : (t.put idx item).home h = t.home h := rfl
@[simp] theorem put_group : (t.put idx item).group pos = t.group pos := rfl
@[simp] theorem put_overflows : (t.put idx item).overflows = t.overflows := rfl
@[simp] theorem addOverflow_len (d : Nat) : (t.addOverflow home d).len = t.len := rfl
@[simp] theorem addOverflow_home (d : Nat) (h : BitVec 64) :
    (t.addOverflow home d).home h = t.home h := rfl
@[simp] theorem addOverflow_slots (d : Nat) : (t.addOverflow home d).slots = t.slots := rfl
@[simp] theorem addOverflow_cells (d : Nat) : (t.addOverflow home d).cells = t.cells := rfl

@[simp] theorem noteDisplaced_mask : (t.noteDisplaced home pos).mask = t.mask := by
  unfold noteDisplaced; split <;> rfl

@[simp] theorem noteDisplaced_slots : (t.noteDisplaced home pos).slots = t.slots := by
  unfold noteDisplaced; split <;> rfl

@[simp] theorem forgetDisplaced_mask : (t.forgetDisplaced home pos).mask = t.mask := by
  unfold forgetDisplaced; split <;> rfl

@[simp] theorem forgetDisplaced_slots : (t.forgetDisplaced home pos).slots = t.slots := by
  unfold forgetDisplaced; split <;> rfl

@[simp] theorem noteDisplaced_wrap (i : Nat) : (t.noteDisplaced home pos).wrap i = t.wrap i := by
  simp [wrap]
@[simp] theorem noteDisplaced_home (h : BitVec 64) : (t.noteDisplaced home pos).home h = t.home h := by
  simp [FlatHashMap.home]
@[simp] theorem noteDisplaced_len : (t.noteDisplaced home pos).len = t.len := by simp [len]
@[simp] theorem forgetDisplaced_len : (t.forgetDisplaced home pos).len = t.len := by simp [len]
@[simp] theorem noteDisplaced_cells : (t.noteDisplaced home pos).cells = t.cells := by
  funext i; simp [cells]
@[simp] theorem forgetDisplaced_cells : (t.forgetDisplaced home pos).cells = t.cells := by
  funext i; simp [cells]

theorem put_slots (j : Nat) :
    (t.put idx item).slots j = if j = t.wrap idx then item else t.slots j := by
  simp [put, Function.update_apply]

theorem put_cells (j : Nat) :
    (t.put idx item).cells j = if j = t.wrap idx then item.cell else t.cells j := by
  simp only [cells, put_slots]
  split <;> rfl

end Frame

theorem cells_congr {t t' : FlatHashMap K V} (slots : t'.slots = t.slots) : t'.cells = t.cells := by
  funext i
  simp only [cells, slots]

theorem displaced_lt {n : Nat} (home : K → Nat) (cells : Nat → Cell K) {g : Nat}
    (within : g < n / 8) :
    displaced n home 8 cells g < n := by
  refine count_lt_of_not (i := g * 8) (by omega) ?_
  cases cells (g * 8) <;> simp [strays]

/-- Changing one slot moves a group's count by what the slot contributes to it. -/
theorem displaced_put {n i : Nat} {home : K → Nat} {cells cells' : Nat → Cell K} (within : i < n)
    (others : ∀ j < n, j ≠ i → cells' j = cells j) (g : Nat) :
    displaced n home 8 cells' g = displaced n home 8 cells g
      + ((if strays home 8 g i (cells' i) = true then 1 else 0)
        - (if strays home 8 g i (cells i) = true then 1 else 0)) :=
  count_change within fun j inside other => by rw [others j inside other]

section Counts

variable {home pos : Nat} {counts counts' : Nat → Int}

/-- Adding to an overflow count changes the count of the home's own group. -/
theorem addOverflow_overflows (sized : t.Sized) (homeIn : home < t.len) (delta g : Nat) :
    (t.addOverflow home delta).overflows g
      = if g = home / 8 then (t.overflows (home / 8) + delta) % 2 ^ 32 else t.overflows g := by
  have own : t.group home = home / 8 := by rw [group_eq, sized.wrap_of_lt homeIn]
  simp only [addOverflow, Function.update_apply, own]

/-- Noting a displacement keeps exact counts exact. -/
theorem noteDisplaced_counted (sized : t.Sized) (homeIn : home < t.len)
    (exact : ∀ g < t.len / 8, (t.overflows g : Int) = counts g)
    (bound : ∀ g < t.len / 8, counts' g < 2 ^ 32)
    (step : ∀ g, counts' g = counts g + if home / 8 = g ∧ t.wrap pos / 8 ≠ g then 1 else 0) :
    ∀ g < t.len / 8, ((t.noteDisplaced home pos).overflows g : Int) = counts' g := by
  intro g inside
  have own : t.group home = home / 8 := by rw [group_eq, sized.wrap_of_lt homeIn]
  have now := exact g inside
  have after := bound g inside
  rw [step g] at after ⊢
  unfold noteDisplaced
  rw [own, group_eq]
  split
  · rename_i apart
    rw [addOverflow_overflows sized homeIn]
    by_cases same : g = home / 8
    · have counted : home / 8 = g ∧ t.wrap pos / 8 ≠ g := ⟨same.symm, by rw [same]; exact apart.symm⟩
      rw [if_pos counted] at after
      rw [if_pos same, if_pos counted, ← same]
      omega
    · rw [if_neg same, if_neg (by omega)]
      omega
  · rename_i together
    rw [if_neg (by omega)]
    omega

/-- Forgetting a displacement keeps exact counts exact. -/
theorem forgetDisplaced_counted (sized : t.Sized) (homeIn : home < t.len)
    (exact : ∀ g < t.len / 8, (t.overflows g : Int) = counts g)
    (bound : ∀ g < t.len / 8, counts g < 2 ^ 32) (nonneg : ∀ g, 0 ≤ counts' g)
    (step : ∀ g, counts' g = counts g - if home / 8 = g ∧ t.wrap pos / 8 ≠ g then 1 else 0) :
    ∀ g < t.len / 8, ((t.forgetDisplaced home pos).overflows g : Int) = counts' g := by
  intro g inside
  have own : t.group home = home / 8 := by rw [group_eq, sized.wrap_of_lt homeIn]
  have now := exact g inside
  have before := bound g inside
  have after := nonneg g
  rw [step g] at after ⊢
  unfold forgetDisplaced
  rw [own, group_eq]
  split
  · rename_i apart
    rw [addOverflow_overflows sized homeIn]
    by_cases same : g = home / 8
    · -- Adding the largest `uint32` to a positive count takes one off it.
      have counted : home / 8 = g ∧ t.wrap pos / 8 ≠ g := ⟨same.symm, by rw [same]; exact apart.symm⟩
      rw [if_pos counted] at after
      rw [if_pos same, if_pos counted, ← same]
      omega
    · rw [if_neg same, if_neg (by omega)]
      omega
  · rename_i together
    rw [if_neg (by omega)]
    omega

end Counts

section Writes

variable {pos : Nat} {item : Item K V} {key : K}

/-- The parts of the invariant that a write of one settled, correctly tagged slot keeps. -/
theorem Inv.put_frame (inv : t.Inv hash) (pos : Nat) (settled : item.metaWord.Settled)
    (tagged : ∀ key, item.cell.key? = some key →
      item.metaWord &&& MetaWord.tagMask = MetaWord.tagOf (hash key)) :
    (∀ i < t.len, ((t.put pos item).slots i).metaWord.Settled) ∧
      (∀ i < t.len, ∀ key, ((t.put pos item).cells i).key? = some key →
        ((t.put pos item).slots i).metaWord &&& MetaWord.tagMask = MetaWord.tagOf (hash key)) := by
  refine ⟨fun i inside => ?_, fun i inside key named => ?_⟩
  · rw [put_slots]
    split
    · exact settled
    · exact inv.settled i inside
  · rw [put_cells] at named
    rw [put_slots]
    split
    · rename_i same
      rw [if_pos same] at named
      exact tagged key named
    · rename_i other
      rw [if_neg other] at named
      exact inv.tagged i inside key named

theorem put_others (j : Nat) (other : j ≠ t.wrap pos) : (t.put pos item).cells j = t.cells j := by
  rw [put_cells, if_neg other]

theorem put_here : (t.put pos item).cells (t.wrap pos) = item.cell := by
  rw [put_cells, if_pos rfl]

/-- A table that differs in its overflow counts alone keeps the other parts of the invariant. -/
theorem Inv.of_counts (t' : FlatHashMap K V) {t'' : FlatHashMap K V} (mask : t''.mask = t'.mask)
    (slots : t''.slots = t'.slots) (sized : t'.Sized)
    (settled : ∀ i < t'.len, (t'.slots i).metaWord.Settled)
    (tagged : ∀ i < t'.len, ∀ key, (t'.cells i).key? = some key →
      (t'.slots i).metaWord &&& MetaWord.tagMask = MetaWord.tagOf (hash key))
    (chained : Chained t'.len (fun key => t'.home (hash key)) t'.cells)
    (counted : ∀ g < t'.len / 8, (t''.overflows g : Int)
      = displaced t'.len (fun key => t'.home (hash key)) 8 t'.cells g) : t''.Inv hash := by
  have len : t''.len = t'.len := by simp only [FlatHashMap.len, mask]
  have home : ∀ h, t''.home h = t'.home h := fun h => by simp only [FlatHashMap.home, mask]
  have cells : t''.cells = t'.cells := cells_congr slots
  refine ⟨?_, ?_, ?_, ?_, ?_⟩
  · simpa only [Sized, len] using sized
  · simpa only [len, slots] using settled
  · simpa only [len, slots, cells] using tagged
  · simpa only [len, home, cells] using chained
  · simpa only [len, home, cells] using counted

/-- A table whose slots are the same to every probe keeps the invariant. -/
theorem Inv.of_cells {t' : FlatHashMap K V} (inv : t.Inv hash) (mask : t'.mask = t.mask)
    (overflows : t'.overflows = t.overflows)
    (slots : ∀ i < t.len, (t'.slots i).metaWord.Settled ∧ t'.cells i = t.cells i ∧
      (t'.slots i).metaWord &&& MetaWord.tagMask = (t.slots i).metaWord &&& MetaWord.tagMask) :
    t'.Inv hash := by
  have len : t'.len = t.len := by simp only [FlatHashMap.len, mask]
  have home : ∀ h, t'.home h = t.home h := fun h => by simp only [FlatHashMap.home, mask]
  refine ⟨?_, ?_, ?_, ?_, ?_⟩
  · simpa only [Sized, len] using inv.sized
  · rw [len]
    exact fun i inside => (slots i inside).1
  · rw [len]
    intro i inside key named
    rw [(slots i inside).2.1] at named
    rw [(slots i inside).2.2]
    exact inv.tagged i inside key named
  · simp only [len, home]
    exact inv.chained.congr fun j inside => (slots j inside).2.1
  · simp only [len, home, overflows]
    intro g inside
    rw [inv.counted g inside]
    exact count_congr fun j within => by rw [(slots j within).2.1]

/-- Making a slot live and counting its displacement keeps the invariant. -/
theorem Inv.enliven (inv : t.Inv hash) (settled : item.metaWord.Settled)
    (alive : item.cell = .live key)
    (tag : item.metaWord &&& MetaWord.tagMask = MetaWord.tagOf (hash key))
    (before : ∀ other, t.cells (t.wrap pos) ≠ .live other)
    (chained : Chained t.len (fun key => t.home (hash key)) (t.put pos item).cells) :
    ((t.put pos item).noteDisplaced (t.home (hash key)) pos).Inv hash := by
  have tagged : ∀ other, item.cell.key? = some other →
      item.metaWord &&& MetaWord.tagMask = MetaWord.tagOf (hash other) := by
    intro other named
    simp only [alive, Cell.key?_live, Option.some.injEq] at named
    rw [← named, tag]
  obtain ⟨allSettled, allTagged⟩ := inv.put_frame pos settled tagged
  obtain ⟨_, _, atMost⟩ := inv.sized.bounds
  refine Inv.of_counts (t.put pos item) (noteDisplaced_mask _ _ _) (noteDisplaced_slots _ _ _)
    inv.sized allSettled allTagged chained ?_
  refine noteDisplaced_counted (t := t.put pos item) inv.sized (t.home_lt _) inv.counted ?_ ?_
  · intro g inside
    have := displaced_lt (fun key => t.home (hash key)) (t.put pos item).cells inside
    simp only [put_len, put_home] at this ⊢
    omega
  · -- The slot contributes to its home group exactly when it lies outside it.
    intro g
    have was : strays (fun key => t.home (hash key)) 8 g (t.wrap pos) (t.cells (t.wrap pos)) = false := by
      cases cell : t.cells (t.wrap pos) <;> simp_all [strays]
    simp only [put_len, put_home, put_wrap]
    rw [displaced_put (t.wrap_lt pos) (fun j _ other => put_others j other) g, put_here, alive, was]
    by_cases out : t.home (hash key) / 8 = g ∧ t.wrap pos / 8 ≠ g <;> simp [strays, out]

/-- Turning a live slot into a tombstone and forgetting its displacement keeps the invariant. -/
theorem Inv.bury (inv : t.Inv hash) (settled : item.metaWord.Settled)
    (alive : t.cells (t.wrap pos) = .live key) (buried : item.cell = .tomb key)
    (tag : item.metaWord &&& MetaWord.tagMask = MetaWord.tagOf (hash key)) :
    ((t.put pos item).forgetDisplaced (t.home (hash key)) pos).Inv hash := by
  have tagged : ∀ other, item.cell.key? = some other →
      item.metaWord &&& MetaWord.tagMask = MetaWord.tagOf (hash other) := by
    intro other named
    simp only [buried, Cell.key?_tomb, Option.some.injEq] at named
    rw [← named, tag]
  obtain ⟨allSettled, allTagged⟩ := inv.put_frame pos settled tagged
  obtain ⟨_, _, atMost⟩ := inv.sized.bounds
  have chained : Chained t.len (fun key => t.home (hash key)) (t.put pos item).cells := by
    refine inv.chained.rebind (fun j _ other => put_others j other) ?_ ?_
    · rw [put_here, buried]; simp
    · intro other named
      rw [put_here, buried] at named
      rw [alive]
      exact named
  refine Inv.of_counts (t.put pos item) (forgetDisplaced_mask _ _ _)
    (forgetDisplaced_slots _ _ _) inv.sized allSettled allTagged chained ?_
  refine forgetDisplaced_counted (t := t.put pos item) inv.sized (t.home_lt _) inv.counted ?_ ?_ ?_
  · intro g inside
    have := displaced_lt (fun key => t.home (hash key)) t.cells inside
    simp only [put_len] at this ⊢
    omega
  · exact fun g => count_nonneg
  · intro g
    simp only [put_len, put_home, put_wrap]
    rw [displaced_put (t.wrap_lt pos) (fun j _ other => put_others j other) g, put_here, alive, buried]
    by_cases out : t.home (hash key) / 8 = g ∧ t.wrap pos / 8 ≠ g
    · simp [strays, out]
      ring
    · simp [strays, out]

/-- A write that leaves the slot the same to a probe keeps the invariant. -/
theorem Inv.rewrite (inv : t.Inv hash) (settled : item.metaWord.Settled)
    (same : item.cell = t.cells (t.wrap pos))
    (tag : item.metaWord &&& MetaWord.tagMask
      = (t.slots (t.wrap pos)).metaWord &&& MetaWord.tagMask) : (t.put pos item).Inv hash := by
  refine inv.of_cells rfl rfl fun i inside => ?_
  rw [put_slots, put_cells]
  split
  · rename_i here
    rw [here]
    exact ⟨settled, same, tag⟩
  · exact ⟨inv.settled i inside, rfl, rfl⟩

/-- Handing a tombstone back keeps the invariant. -/
theorem Inv.release (inv : t.Inv hash) (settled : item.metaWord.Settled)
    (buried : t.cells (t.wrap pos) = .tomb key) (released : item.cell = .released) :
    (t.put pos item).Inv hash := by
  obtain ⟨allSettled, allTagged⟩ := inv.put_frame pos settled (by simp [released])
  refine ⟨inv.sized, allSettled, allTagged, ?_, ?_⟩
  · refine inv.chained.rebind (fun j _ other => put_others j other) ?_ ?_
    · rw [put_here, released]; simp
    · intro other named
      rw [put_here, released] at named
      simp at named
  · intro g inside
    rw [put_overflows, inv.counted g inside]
    simp only [put_len, put_home]
    rw [displaced_put (t.wrap_lt pos) (fun j _ other => put_others j other) g, put_here, buried, released]
    simp [strays]

end Writes

/-- Handing a slot back leaves every slot as dead as it was. -/
theorem put_makeFree_isDead [Inhabited K] [Inhabited V] (t : FlatHashMap K V) (idx other : Nat) :
    ((t.put idx (t.itemAt idx).makeFree).itemAt other).metaWord.isDead = (t.itemAt other).metaWord.isDead := by
  simp only [itemAt, put_wrap, put_slots]
  split
  · rename_i here
    rw [Item.makeFree_isDead, here]
  · rfl

end FlatHashMap

end Memstash
