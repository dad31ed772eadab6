import Memstash.Cache.Shard

/-! Lookups and writes find a key exactly where the table holds it. -/

namespace Memstash

open Probing Scan RangeSum MetaWord

variable {K V : Type} {hash : K → BitVec 64} {t : FlatHashMap K V}

/-- With no write in progress, a copy validates against the word it was taken under. -/
theorem Item.snapshotInto_self {item : Item K V} (settled : item.metaWord.Settled) :
    item.snapshotInto item.metaWord = true := by
  -- The low bit marks a write in progress, and a settled word has it clear.
  have low := (and_one_eq_zero_iff item.metaWord).mpr settled.even
  simp [snapshotInto, low]

namespace FlatHashMap

/-- A tombstone's word never matches a tag. -/
theorem dead_ne_tag {word : MetaWord} (buried : word.isDead = true) (tag : BitVec 64) :
    word &&& deadOrTag ≠ tagOf tag := by
  intro same
  -- The top bit survives the mask, and no tag has it.
  have top : (word &&& deadOrTag).getLsbD 63 = true := by
    rw [BitVec.getLsbD_and, ← isDead_eq, buried]
    decide
  have clear : (tagOf tag).getLsbD 63 = false := by
    rw [← tagOf_within tag, BitVec.getLsbD_and, show tagMask.getLsbD 63 = false by decide,
      Bool.and_false]
  rw [same, clear] at top
  exact Bool.false_ne_true top

theorem live_and_tag {word : MetaWord} (alive : word.isDead = false) :
    word &&& deadOrTag = word &&& tagMask := by
  have clear : word &&& dead = 0#64 := (isDead_eq_false_iff _).mp alive
  rw [deadOrTag, BitVec.and_or_distrib_left, clear, BitVec.zero_or]

/-- The overflow flag says whether a live key homed in the group lives outside it. -/
theorem overflowed_iff (inv : t.Inv hash) (key : K) :
    t.overflowed (t.home (hash key)) = true ↔
      displaced t.len (fun key => t.home (hash key)) 8 t.cells (t.home (hash key) / 8) ≠ 0 := by
  have homeIn := t.home_lt (hash key)
  obtain ⟨large, groups, _⟩ := inv.sized.bounds
  have group : t.home (hash key) / 8 < t.len / 8 := by omega
  rw [← inv.counted _ group, overflowed, group_eq, inv.sized.wrap_of_lt homeIn]
  simp

variable [DecidableEq K]

/-- One step of a lookup that goes on past the edge of its home group. -/
def fullVisit (snapshot : Bool) (t : FlatHashMap K V) (hash : BitVec 64) (key : K) (pos : Nat) :
    Option (Except Fault (Option Nat)) :=
  let item := t.itemAt pos
  if item.metaWord = 0#64 then some (.ok none)
  else if item.metaWord &&& deadOrTag ≠ tagOf hash then none
  else if snapshot && !item.snapshotInto item.metaWord then some (.error .hang)
  else if item.entry.key = key then some (.ok (some pos))
  else none

/-- One step of a full walk is the step of the probing model that never stops at an edge. -/
theorem fullVisit_eq (inv : t.Inv hash) (snapshot : Bool) (key : K) (edge pos : Nat) :
    t.fullVisit snapshot (hash key) key pos = lookupVisit t.len edge true key t.cells pos := by
  have inside : pos % t.len < t.len := Nat.mod_lt _ (Nat.succ_pos _)
  have settled := inv.settled _ inside
  have copied := Item.snapshotInto_self settled
  unfold fullVisit lookupVisit
  simp only [itemAt, inv.sized.wrap_eq, Bool.true_eq_false, and_false, if_false]
  cases cell : t.cells (pos % t.len) with
  | vacant =>
    have empty := (Item.cell_eq_vacant_iff _).mp cell
    simp [empty]
  | live other =>
    obtain ⟨occupied, alive, named⟩ := (Item.cell_eq_live_iff _ other).mp cell
    have tag := inv.tagged _ inside other (by rw [cell]; rfl)
    simp only [if_neg occupied, live_and_tag alive, tag, copied, named, Bool.not_true,
      Bool.and_false, Bool.false_eq_true, if_false]
    by_cases same : other = key
    · simp [same]
    · -- A foreign key is skipped by its tag, or by the comparison behind it.
      simp [same]
  | tomb other =>
    obtain ⟨occupied, buried, _⟩ := (Item.cell_eq_tomb_iff _ other).mp cell
    simp [occupied, dead_ne_tag buried]
  | released =>
    obtain ⟨occupied, buried, _⟩ := (Item.cell_eq_released_iff _).mp cell
    simp [occupied, dead_ne_tag buried]

/-- One step of a lookup is the step of the probing model. -/
theorem probeVisit_eq (inv : t.Inv hash) (snapshot : Bool) (key : K) (pos : Nat) :
    t.probeVisit snapshot (hash key) key pos
      = lookupVisit t.len ((t.home (hash key) / 8 + 1) * 8) (t.overflowed (t.home (hash key))) key
          t.cells pos := by
  have further := fullVisit_eq inv snapshot key ((t.home (hash key) / 8 + 1) * 8) pos
  unfold fullVisit lookupVisit at further
  simp only [Bool.true_eq_false, and_false, if_false] at further
  unfold probeVisit lookupVisit
  rw [groupEnd_eq]
  split
  · rfl
  · exact further

/-- With a group's worth of slots vacant, a lookup finds the key's live slot or rules it out. -/
theorem probe_spec (inv : t.Inv hash) (room : occupied t.len t.cells + 8 ≤ t.len) (snapshot : Bool)
    (key : K) :
    (∃ pos, t.probe snapshot (hash key) key = .ok (some pos) ∧
      t.cells (t.wrap pos) = .live key) ∨
      (t.probe snapshot (hash key) key = .ok none ∧ ∀ i < t.len, t.cells i ≠ .live key) := by
  have step : t.probeVisit snapshot (hash key) key
      = lookupVisit t.len ((t.home (hash key) / 8 + 1) * 8) (t.overflowed (t.home (hash key))) key
          t.cells := funext (probeVisit_eq inv snapshot key)
  simp only [probe, step, inv.sized.wrap_eq]
  exact lookup_decides inv.chained (by omega) (by exact_mod_cast room) key (overflowed_iff inv key)

/-- What a lookup returns is the key's live slot, however full the table is. -/
theorem probe_sound (inv : t.Inv hash) {snapshot : Bool} {key : K} {pos : Nat}
    (ran : t.probe snapshot (hash key) key = .ok (some pos)) : t.cells (t.wrap pos) = .live key := by
  obtain ⟨_, _, _, visited⟩ := exists_of_scan_eq_ok ran
  rw [probeVisit_eq inv] at visited
  unfold lookupVisit at visited
  split at visited
  · simp at visited
  · split at visited
    · simp at visited
    · rename_i other cell
      split at visited
      · rename_i same
        obtain rfl := Option.some.inj (Except.ok.inj (Option.some.inj visited))
        rw [inv.sized.wrap_eq, cell, same]
      · simp at visited
    · simp at visited

/-- The slots a write's probe has passed: none vacant, none bound to the key. -/
structure Passed (t : FlatHashMap K V) (home : Nat) (key : K) (d : Nat) (reuse : Option Nat) :
    Prop where
  filled : ∀ e < d, t.cells ((home + e) % t.len) ≠ .vacant
  other : ∀ e < d, (t.cells ((home + e) % t.len)).key? ≠ some key
  reusable : ∀ r, reuse = some r → ∃ e < d, r = home + e ∧ t.cells ((home + e) % t.len) = .released

/-- What a write finds: a vacancy on the key's path, the key's tombstone, or its live slot. -/
inductive Finds (hash : K → BitVec 64) (t : FlatHashMap K V) (key : K) : Target → Prop
  | fresh {d : Nat} {reuse : Option Nat} (small : d < t.len)
      (passed : Passed t (t.home (hash key)) key d reuse)
      (vacant : t.cells ((t.home (hash key) + d) % t.len) = .vacant)
      (absent : ∀ i < t.len, (t.cells i).key? ≠ some key) :
      Finds hash t key (.fresh (t.home (hash key) + d) reuse)
  | buried {pos : Nat} (tomb : t.cells (t.wrap pos) = .tomb key) : Finds hash t key (.buried pos)
  | live {pos : Nat} (alive : t.cells (t.wrap pos) = .live key) : Finds hash t key (.live pos)

omit [DecidableEq K] in
/-- Reaching a vacancy without meeting the key rules the key out. -/
theorem Passed.absent (inv : t.Inv hash) {key : K} {d : Nat} {reuse : Option Nat} (small : d < t.len)
    (passed : Passed t (t.home (hash key)) key d reuse)
    (vacant : t.cells ((t.home (hash key) + d) % t.len) = .vacant) :
    ∀ i < t.len, (t.cells i).key? ≠ some key := by
  intro i inside named
  obtain ⟨e, smallE, arrives, filled⟩ := inv.chained.reach i inside key named
  rcases Nat.lt_trichotomy e d with before | rfl | after
  · exact passed.other e before (by rw [arrives]; exact named)
  · rw [arrives] at vacant
    rw [vacant] at named
    simp at named
  · exact filled d after vacant

/-- With a vacant slot in the table, a write's probe ends, and finds what the table holds. -/
theorem setProbe_spec (inv : t.Inv hash) (room : occupied t.len t.cells < t.len) (key : K) :
    ∃ target, t.setProbe (hash key) key t.len (t.home (hash key)) none = .ok target ∧
      Finds hash t key target := by
  obtain ⟨reach, reachIn, arrives⟩ := exists_vacancy_ahead (t.home_lt (hash key)) room
  -- The walk is at distance `d`, and the vacancy ahead bounds how far it can go.
  have loop : ∀ left d reuse, left + d = t.len → d ≤ reach →
      Passed t (t.home (hash key)) key d reuse →
      ∃ target, t.setProbe (hash key) key left (t.home (hash key) + d) reuse = .ok target ∧
        Finds hash t key target := by
    intro left
    induction left with
    | zero => intro d reuse sum ahead _; omega
    | succ left ih =>
      intro d reuse sum ahead passed
      have inside : (t.home (hash key) + d) % t.len < t.len := Nat.mod_lt _ (Nat.succ_pos _)
      have at_d : t.itemAt (t.home (hash key) + d) = t.slots ((t.home (hash key) + d) % t.len) := by
        rw [itemAt, inv.sized.wrap_eq]
      -- A slot that ends nothing is passed, and the walk is still short of the vacancy.
      have goOn : ∀ reuse', t.cells ((t.home (hash key) + d) % t.len) ≠ .vacant →
          (t.cells ((t.home (hash key) + d) % t.len)).key? ≠ some key →
          (∀ r, reuse' = some r → reuse = some r ∨ (r = t.home (hash key) + d ∧
            t.cells ((t.home (hash key) + d) % t.len) = .released)) →
          ∃ target, t.setProbe (hash key) key left (t.home (hash key) + d + 1) reuse' = .ok target ∧
            Finds hash t key target := by
        intro reuse' filled other reusable
        have further : d ≠ reach := by
          rintro rfl
          exact filled arrives
        refine ih (d + 1) reuse' (by omega) (by omega) ⟨?_, ?_, ?_⟩
        · intro e small
          rcases Nat.lt_succ_iff_lt_or_eq.mp small with before | rfl
          · exact passed.filled e before
          · exact filled
        · intro e small
          rcases Nat.lt_succ_iff_lt_or_eq.mp small with before | rfl
          · exact passed.other e before
          · exact other
        · intro r chosen
          rcases reusable r chosen with earlier | ⟨here, released⟩
          · obtain ⟨e, before, at_e, released⟩ := passed.reusable r earlier
            exact ⟨e, by omega, at_e, released⟩
          · exact ⟨d, by omega, here, released⟩
      unfold setProbe
      simp only [at_d]
      cases cell : t.cells ((t.home (hash key) + d) % t.len) with
      | vacant =>
        have empty := (Item.cell_eq_vacant_iff _).mp cell
        rw [if_pos empty]
        exact ⟨_, rfl, .fresh (by omega) passed cell (passed.absent inv (by omega) cell)⟩
      | live other =>
        obtain ⟨occupied, alive, named⟩ := (Item.cell_eq_live_iff _ other).mp cell
        have tag := inv.tagged _ inside other (by rw [cell]; rfl)
        rw [if_neg occupied, if_neg (by simp [alive])]
        by_cases same : other = key
        · rw [if_pos ⟨by rw [tag, same, tagOf_within], named.trans same⟩]
          exact ⟨_, rfl, .live (by rw [inv.sized.wrap_eq, cell, same])⟩
        · rw [if_neg (fun found => same (named.symm.trans found.2))]
          exact goOn reuse (by rw [cell]; simp) (by rw [cell]; simpa using same)
            fun r chosen => .inl chosen
      | tomb other =>
        obtain ⟨occupied, buried, held, named⟩ := (Item.cell_eq_tomb_iff _ other).mp cell
        have tag := inv.tagged _ inside other (by rw [cell]; rfl)
        rw [if_neg occupied, if_pos buried]
        by_cases same : other = key
        · rw [if_pos ⟨by simp [held], by rw [tag, same, tagOf_within], named.trans same⟩]
          exact ⟨_, rfl, .buried (by rw [inv.sized.wrap_eq, cell, same])⟩
        · rw [if_neg (fun found => same (named.symm.trans found.2.2)), if_neg (by simp [held])]
          exact goOn reuse (by rw [cell]; simp) (by rw [cell]; simpa using same)
            fun r chosen => .inl chosen
      | released =>
        obtain ⟨occupied, buried, reusable⟩ := (Item.cell_eq_released_iff _).mp cell
        rw [if_neg occupied, if_pos buried, if_neg (by simp [reusable])]
        refine goOn _ (by rw [cell]; simp) (by rw [cell]; simp) fun r chosen => ?_
        split at chosen
        · exact .inr ⟨(Option.some.inj chosen).symm, cell⟩
        · exact .inl chosen
  simpa using loop t.len 0 none rfl (Nat.zero_le _) ⟨by simp, by simp, by simp⟩

/-- A write's probe that returned saw a vacancy, the key's tombstone or its live slot. -/
theorem setProbe_saw {keyHash : BitVec 64} {key : K} :
    ∀ {fuel pos : Nat} {reuse : Option Nat} {target : Target},
      t.setProbe keyHash key fuel pos reuse = .ok target →
      match target with
      | .fresh there _ => t.cells (t.wrap there) = .vacant
      | .buried there => t.cells (t.wrap there) = .tomb key
      | .live there => t.cells (t.wrap there) = .live key := by
  intro fuel
  induction fuel with
  | zero => intro pos reuse target ran; cases ran
  | succ fuel ih =>
    intro pos reuse target ran
    rw [setProbe] at ran
    split at ran
    · rename_i empty
      cases ran
      exact (Item.cell_eq_vacant_iff _).mpr empty
    · rename_i occupied
      split at ran
      · rename_i buried
        split at ran
        · rename_i own
          cases ran
          exact (Item.cell_eq_tomb_iff _ _).mpr ⟨occupied, buried, Bool.eq_false_iff.mpr own.1, own.2.2⟩
        · exact ih ran
      · rename_i alive
        split at ran
        · rename_i own
          cases ran
          exact (Item.cell_eq_live_iff _ _).mpr ⟨occupied, Bool.eq_false_iff.mpr alive, own.2⟩
        · exact ih ran

/-- A write's probe that returned found what the table holds, however full the table is. -/
theorem setProbe_finds (inv : t.Inv hash) {key : K} {target : Target}
    (ran : t.setProbe (hash key) key t.len (t.home (hash key)) none = .ok target) :
    Finds hash t key target := by
  have saw := setProbe_saw ran
  cases target with
  | buried pos => exact .buried saw
  | live pos => exact .live saw
  | fresh pos reuse =>
    -- The vacancy it stopped at is the room the full statement asks for.
    have room : occupied t.len t.cells < t.len :=
      count_lt_of_not (t.wrap_lt pos) (by simpa using saw)
    obtain ⟨target, ran', finds⟩ := setProbe_spec inv room key
    rw [ran] at ran'
    cases ran'
    exact finds

end FlatHashMap

end Memstash
