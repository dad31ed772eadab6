import Memstash.Itemstore.EvictQueue
import Memstash.Itemstore.TableLaws
import Memstash.Lib.Turns

/-! Eviction scans change reference counters alone, and each step they do not end on spends one. -/

namespace Memstash

open Probing MetaWord Scan

variable {K V : Type}

namespace MetaWord

/-- How many bits of the reference counter are set. -/
def chances (word : MetaWord) : Nat :=
  (if word &&& secondChance = 0#64 then 0 else 1) + (if word &&& thirdChance = 0#64 then 0 else 1)

theorem chances_le_two (word : MetaWord) : word.chances ≤ 2 := by
  unfold chances
  split <;> split <;> omega

/-- A word with no counter bit set reads as zero under the mask. -/
theorem chances_eq_zero_iff (word : MetaWord) : word.chances = 0 ↔ word &&& chanceMask = 0#64 := by
  have parts : word &&& chanceMask = word &&& secondChance ||| word &&& thirdChance := by
    rw [chanceMask, BitVec.and_or_distrib_left]
  unfold chances
  rw [parts]
  constructor
  · intro none
    have second : word &&& secondChance = 0#64 := by
      by_contra set
      simp [set] at none
    have third : word &&& thirdChance = 0#64 := by
      by_contra set
      simp [set] at none
    rw [second, third, BitVec.or_zero]
  · intro none
    have second : word &&& secondChance = 0#64 := by
      have := congrArg (fun b => b &&& secondChance) none
      simp only [BitVec.and_or_distrib_right, BitVec.and_assoc] at this
      simpa [show thirdChance &&& secondChance = 0#64 by decide] using this
    have third : word &&& thirdChance = 0#64 := by
      have := congrArg (fun b => b &&& thirdChance) none
      simp only [BitVec.and_or_distrib_right, BitVec.and_assoc] at this
      simpa [show secondChance &&& thirdChance = 0#64 by decide] using this
    simp [second, third]

end MetaWord

namespace Item

/-- Revoking a chance of a touched item spends one counter bit. -/
theorem revokeChance_chances {item : Item K V} (touched : item.metaWord &&& chanceMask ≠ 0#64) :
    (item.revokeChance item.metaWord).metaWord.chances + 1 = item.metaWord.chances := by
  have positive : item.metaWord.chances ≠ 0 := fun zero => touched ((chances_eq_zero_iff _).mp zero)
  unfold revokeChance
  split
  · -- The third chance goes first.
    rename_i third
    have cleared : item.metaWord &&& ~~~thirdChance &&& thirdChance = 0#64 := by
      ext i bound
      simp
    have kept : item.metaWord &&& ~~~thirdChance &&& secondChance = item.metaWord &&& secondChance :=
      andNot_and_of_disjoint (by decide)
    simp only [chances, cleared, kept, if_true, if_neg third]
  · rename_i third
    rw [not_not] at third
    have cleared : item.metaWord &&& ~~~secondChance &&& secondChance = 0#64 := by
      ext i bound
      simp
    have kept : item.metaWord &&& ~~~secondChance &&& thirdChance = item.metaWord &&& thirdChance :=
      andNot_and_of_disjoint (by decide)
    simp only [chances, cleared, kept, third, if_true] at positive ⊢
    split at positive
    · exact absurd rfl positive
    · rename_i second
      rw [if_neg second]

theorem resetChances_chances (item : Item K V) : item.resetChances.metaWord.chances = 0 := by
  rw [chances_eq_zero_iff]
  ext i bound
  simp [resetChances]

end Item

namespace FlatHashMap

/-- The tables agree up to reference counters. -/
structure OnlyChances (t t' : FlatHashMap K V) : Prop where
  mask : t'.mask = t.mask
  overflows : t'.overflows = t.overflows
  entry : ∀ i, (t'.slots i).entry = (t.slots i).entry
  word : ∀ i, (t'.slots i).metaWord &&& Item.steady = (t.slots i).metaWord &&& Item.steady
  spent : ∀ i, (t'.slots i).metaWord.chances ≤ (t.slots i).metaWord.chances

theorem OnlyChances.refl (t : FlatHashMap K V) : OnlyChances t t :=
  ⟨rfl, rfl, fun _ => rfl, fun _ => rfl, fun _ => le_rfl⟩

/-- Agreement up to reference counters is transitive. -/
theorem OnlyChances.trans {t t' t'' : FlatHashMap K V} (first : OnlyChances t t')
    (second : OnlyChances t' t'') : OnlyChances t t'' :=
  ⟨second.mask.trans first.mask, second.overflows.trans first.overflows,
    fun i => (second.entry i).trans (first.entry i), fun i => (second.word i).trans (first.word i),
    fun i => (second.spent i).trans (first.spent i)⟩

/-- Lowering one item's counter changes reference counters alone. -/
theorem OnlyChances.put {t : FlatHashMap K V} {idx : Nat} {item : Item K V}
    (word : item.metaWord &&& Item.steady = (t.itemAt idx).metaWord &&& Item.steady)
    (entry : item.entry = (t.itemAt idx).entry)
    (spent : item.metaWord.chances ≤ (t.itemAt idx).metaWord.chances) :
    OnlyChances t (t.put idx item) := by
  refine ⟨rfl, rfl, fun i => ?_, fun i => ?_, fun i => ?_⟩
  · rw [put_slots]
    split
    · rename_i here; rw [here]; exact entry
    · rfl
  · rw [put_slots]
    split
    · rename_i here; rw [here]; exact word
    · rfl
  · rw [put_slots]
    split
    · rename_i here; rw [here]; exact spent
    · exact le_rfl

/-- The counter bits set over a list of nodes. -/
def chanceSum (t : FlatHashMap K V) (nodes : List QNode) : Nat :=
  (nodes.map fun node => (t.itemAt node.idx).metaWord.chances).sum

@[simp] theorem chanceSum_nil (t : FlatHashMap K V) : t.chanceSum [] = 0 := rfl

@[simp] theorem chanceSum_cons (t : FlatHashMap K V) (node : QNode) (nodes : List QNode) :
    t.chanceSum (node :: nodes) = (t.itemAt node.idx).metaWord.chances + t.chanceSum nodes := by
  simp [chanceSum]

@[simp] theorem chanceSum_append (t : FlatHashMap K V) (left right : List QNode) :
    t.chanceSum (left ++ right) = t.chanceSum left + t.chanceSum right := by
  simp [chanceSum]

theorem chanceSum_perm (t : FlatHashMap K V) {nodes nodes' : List QNode} (perm : nodes.Perm nodes') :
    t.chanceSum nodes = t.chanceSum nodes' :=
  (perm.map _).sum_eq

theorem chanceSum_le (t : FlatHashMap K V) (nodes : List QNode) :
    t.chanceSum nodes ≤ 2 * nodes.length := by
  induction nodes with
  | nil => simp
  | cons node rest ih =>
    have := chances_le_two (t.itemAt node.idx).metaWord
    rw [chanceSum_cons, List.length_cons]
    omega

/-- Spending chances never raises the sum over a list. -/
theorem OnlyChances.chanceSum_le {t t' : FlatHashMap K V} (only : OnlyChances t t')
    (nodes : List QNode) : t'.chanceSum nodes ≤ t.chanceSum nodes := by
  have here : ∀ idx, (t'.itemAt idx).metaWord.chances ≤ (t.itemAt idx).metaWord.chances := by
    intro idx
    simp only [itemAt, wrap, only.mask]
    exact only.spent _
  induction nodes with
  | nil => simp
  | cons node rest ih =>
    have := here node.idx
    rw [chanceSum_cons, chanceSum_cons]
    omega

/-- An item that agrees up to its counter is the same to a probe. -/
theorem OnlyChances.settled {t t' : FlatHashMap K V} (only : OnlyChances t t') {i : Nat}
    (settled : (t.slots i).metaWord.Settled) :
    (t'.slots i).metaWord.Settled ∧ t'.cells i = t.cells i ∧
      (t'.slots i).metaWord &&& tagMask = (t.slots i).metaWord &&& tagMask := by
  have tag : (t'.slots i).metaWord &&& tagMask = (t.slots i).metaWord &&& tagMask :=
    and_eq_of_and_eq (only.word i) (by decide)
  by_cases occupied : (t.slots i).metaWord = 0#64
  · -- A vacant slot has no counter bit to lose, and none of its other bits changed.
    have untouched : (t'.slots i).metaWord &&& chanceMask = 0#64 := by
      rw [← chances_eq_zero_iff]
      have := only.spent i
      rw [occupied] at this
      exact Nat.le_zero.mp this
    have rest : (t'.slots i).metaWord &&& Item.steady = 0#64 := by
      rw [only.word i, occupied, BitVec.zero_and]
    have vacant : (t'.slots i).metaWord = 0#64 := by
      have parts : Item.steady ||| chanceMask = BitVec.allOnes 64 := by decide
      rw [← BitVec.and_allOnes (x := (t'.slots i).metaWord), ← parts,
        BitVec.and_or_distrib_left, rest, untouched, BitVec.or_zero]
    have same : t'.slots i = t.slots i := by
      cases left : t'.slots i
      cases right : t.slots i
      have entry := only.entry i
      simp_all
    exact ⟨same ▸ settled, by simp only [cells, same], tag⟩
  · obtain ⟨settled', occupied', marks⟩ := Item.settled_of_identity settled occupied
      (and_eq_of_and_eq (only.word i) (by decide))
    exact ⟨settled', Item.cell_eq_of_marks occupied' occupied marks (by rw [only.entry]), tag⟩

/-- Spending a chance of one queued item lowers the sum over every list that queues it. -/
theorem chanceSum_put_lt {t : FlatHashMap K V} {node : QNode} {item : Item K V}
    (only : OnlyChances t (t.put node.idx item))
    (spent : item.metaWord.chances < (t.itemAt node.idx).metaWord.chances) (rest : List QNode) :
    (t.put node.idx item).chanceSum (rest ++ [node]) < t.chanceSum (node :: rest) := by
  have others := only.chanceSum_le rest
  have here : ((t.put node.idx item).itemAt node.idx).metaWord.chances = item.metaWord.chances := by
    simp [itemAt, put_slots]
  simp only [chanceSum_append, chanceSum_cons, chanceSum_nil, here]
  omega

end FlatHashMap

/-- What an eviction scan decides about the item it looks at. -/
inductive Verdict where
  | reclaim
  | touched
  | idle
  deriving DecidableEq, Repr

/-- Dead and expired items are reclaimed, then the reference counter is asked. -/
def judge (word : MetaWord) (nowOff : Nat) : Verdict :=
  if word.isDead || word.expired nowOff then .reclaim
  else if word &&& chanceMask ≠ 0#64 then .touched
  else .idle

theorem judge_touched {word : MetaWord} {nowOff : Nat} (touched : judge word nowOff = .touched) :
    word &&& chanceMask ≠ 0#64 := by
  unfold judge at touched
  split at touched
  · exact absurd touched (by decide)
  · split at touched
    · assumption
    · exact absurd touched (by decide)

/-- An idle item has no counter bit set. -/
theorem judge_idle {word : MetaWord} {nowOff : Nat} (idle : judge word nowOff = .idle) :
    word.chances = 0 := by
  unfold judge at idle
  split at idle
  · exact absurd idle (by decide)
  · split at idle
    · exact absurd idle (by decide)
    · rename_i untouched
      exact (chances_eq_zero_iff _).mpr (not_not.mp untouched)

/-- The scan has moved nodes about and spent chances, and nothing else. -/
structure Scanned (before after : List QNode) (t t' : FlatHashMap K V) : Prop where
  only : t.OnlyChances t'
  perm : before.Perm after

/-- An eviction takes one node out of the queue and leaves the table alone but for counters. -/
structure Evicted (before after : List QNode) (t t' : FlatHashMap K V) (victim : Option Nat) :
    Prop where
  only : t.OnlyChances t'
  empty : victim = none → before = [] ∧ after = []
  took : ∀ idx, victim = some idx → ∃ node : QNode, node.idx = idx ∧ before.Perm (node :: after)

theorem Scanned.nothing {before : List QNode} {t t' : FlatHashMap K V}
    (scanned : Scanned before [] t t') : Evicted before [] t t' none :=
  ⟨scanned.only, fun _ => ⟨scanned.perm.eq_nil, rfl⟩, by simp⟩

/-- A scan that hands out one of the nodes it still has is an eviction. -/
theorem Scanned.take {before queued after : List QNode} {node : QNode} {t t' : FlatHashMap K V}
    (scanned : Scanned before queued t t') (perm : queued.Perm (node :: after)) :
    Evicted before after t t' (some node.idx) :=
  ⟨scanned.only, by simp, fun _ named => ⟨node, by simpa using named, scanned.perm.trans perm⟩⟩

theorem Scanned.spend {before queued after : List QNode} {t t' t'' : FlatHashMap K V}
    (scanned : Scanned before queued t t') (only : t'.OnlyChances t'') (perm : queued.Perm after) :
    Scanned before after t t'' :=
  ⟨scanned.only.trans only, scanned.perm.trans perm⟩

/-- One look at a queue: it hands a node out, or goes on with the same nodes and less left. -/
structure Looked (before after : List QNode) (left left' : Nat) (t t' : FlatHashMap K V)
    (victim : Option Nat) : Prop where
  only : t.OnlyChances t'
  again : victim = none → before.Perm after ∧ left' < left
  took : ∀ idx, victim = some idx → ∃ node : QNode, node.idx = idx ∧ before.Perm (node :: after)

/-- A look that hands a node out ends the scan. -/
theorem Scanned.finish {before queued after : List QNode} {left left' idx : Nat}
    {t t' t'' : FlatHashMap K V} (scanned : Scanned before queued t t')
    (looked : Looked queued after left left' t' t'' (some idx)) :
    Evicted before after t t'' (some idx) := by
  obtain ⟨node, rfl, perm⟩ := looked.took idx rfl
  exact (scanned.spend looked.only (.refl _)).take perm

/-- What a GCLOCK step did: the node it looked at, and whether that node left the queue. -/
structure ClockStep (K V : Type) where
  candidate : QNode
  q : EvictQueue
  t : FlatHashMap K V
  reclaimed : Bool

/-- One GCLOCK step: the head is given up, or spends a chance and moves to the tail. -/
def clockStep (q : EvictQueue) (t : FlatHashMap K V) (nowOff : Nat) : Option (ClockStep K V) :=
  match q.pop with
  | (none, _) => none
  | (some candidate, q) =>
    let item := t.itemAt candidate.idx
    match judge item.metaWord nowOff with
    | .reclaim => some ⟨candidate, q, t, true⟩
    | .touched =>
      some ⟨candidate, q.push candidate, t.put candidate.idx (item.revokeChance item.metaWord), false⟩
    | .idle => some ⟨candidate, q, t, true⟩

theorem clockStep_nil {q : EvictQueue} (valid : q.Valid) (empty : q.toList = [])
    (t : FlatHashMap K V) (nowOff : Nat) : clockStep q t nowOff = none := by
  simp [clockStep, EvictQueue.pop_nil valid empty]

/-- A step that gives the head up changes nothing else, and one that keeps it spends a chance. -/
structure ClockStep.Spec (node : QNode) (rest : List QNode) (t : FlatHashMap K V)
    (step : ClockStep K V) : Prop where
  head : step.candidate = node
  valid : step.q.Valid
  only : t.OnlyChances step.t
  gone : step.reclaimed = true → step.q.toList = rest
  kept : step.reclaimed = false → step.q.toList = rest ++ [node] ∧
    step.t.chanceSum (rest ++ [node]) < t.chanceSum (node :: rest)

/-- The step over a queue looks at its head. -/
theorem clockStep_cons {q : EvictQueue} {node : QNode} {rest : List QNode} (valid : q.Valid)
    (list : q.toList = node :: rest) (t : FlatHashMap K V) (nowOff : Nat) :
    ∃ step, clockStep q t nowOff = some step ∧ step.Spec node rest t := by
  obtain ⟨q', popped, valid', list'⟩ := EvictQueue.pop_cons valid list
  have ends : ClockStep.Spec node rest t ⟨node, q', t, true⟩ :=
    ⟨rfl, valid', .refl t, fun _ => list', by simp⟩
  cases verdict : judge (t.itemAt node.idx).metaWord nowOff with
  | reclaim => exact ⟨⟨node, q', t, true⟩, by simp [clockStep, popped, verdict], ends⟩
  | idle => exact ⟨⟨node, q', t, true⟩, by simp [clockStep, popped, verdict], ends⟩
  | touched =>
    have spent := (Item.revokeChance_chances (judge_touched verdict)).le
    obtain ⟨word, entry⟩ := Item.revokeChance_steady (t.itemAt node.idx) (t.itemAt node.idx).metaWord
    have only := FlatHashMap.OnlyChances.put word entry (Nat.le_of_succ_le spent)
    obtain ⟨pushed, listed⟩ := EvictQueue.push_spec valid' node
    rw [list'] at listed
    refine ⟨⟨node, q'.push node, t.put node.idx
      ((t.itemAt node.idx).revokeChance (t.itemAt node.idx).metaWord), false⟩, ?_, ?_⟩
    · simp [clockStep, popped, verdict]
    · exact ⟨rfl, pushed, only, by simp,
        fun _ => ⟨listed, FlatHashMap.chanceSum_put_lt only spent rest⟩⟩

section Rotation

variable {σ : Type}

/-- A sweep drops exactly the nodes of dead items and releases each of them, in queue order. -/
structure Swept (buried : σ → Nat → Bool) (release : σ → Nat → σ) (before after : List QNode)
    (s s' : σ) : Prop where
  kept : after = before.filter fun node => !buried s node.idx
  released : s' = (before.filter fun node => buried s node.idx).foldl (fun s n => release s n.idx) s

/-- Sweeping one queue, with the weight its dead nodes give back beside the caller's state. -/
def sweepWeighed (buried : σ → Nat → Bool) (release : σ → Nat → σ) (refund : Int → QNode → Int)
    (q : EvictQueue) (weight : Int) (s : σ) : EvictQueue × Int × σ :=
  EvictQueue.sweepQueue (fun state node => buried state.2 node.idx)
    (fun state node => (refund state.1 node, release state.2 node.idx)) q (weight, s)

/-- The weight is carried beside the state and never decides anything. -/
theorem foldl_beside (release : σ → Nat → σ) (refund : Int → QNode → Int) (nodes : List QNode) :
    ∀ (weight : Int) (s : σ),
      (nodes.foldl (fun (state : Int × σ) n => (refund state.1 n, release state.2 n.idx))
        (weight, s)).2 = nodes.foldl (fun s n => release s n.idx) s := by
  induction nodes with
  | nil => intro weight s; rfl
  | cons node rest ih => intro weight s; exact ih _ _

/-- Sweeping one queue sweeps its list. -/
theorem sweepWeighed_spec {buried : σ → Nat → Bool} {release : σ → Nat → σ}
    (stable : ∀ s idx other, buried (release s idx) other = buried s other)
    (refund : Int → QNode → Int) {q : EvictQueue} (valid : q.Valid) (weight : Int) (s : σ) :
    (sweepWeighed buried release refund q weight s).1.Valid ∧
      Swept buried release q.toList (sweepWeighed buried release refund q weight s).1.toList s
        (sweepWeighed buried release refund q weight s).2.2 := by
  obtain ⟨q', swept, valid', list⟩ := @EvictQueue.sweepQueue_spec (Int × σ)
    (fun state node => buried state.2 node.idx)
    (fun state node => (refund state.1 node, release state.2 node.idx)) q valid (weight, s)
    (fun state node other => stable state.2 node.idx other.idx)
  simp only [sweepWeighed, swept]
  exact ⟨valid', list, foldl_beside release refund _ weight s⟩

/-- A release changes no verdict, so neither does a run of them. -/
theorem foldl_release_buried {buried : σ → Nat → Bool} {release : σ → Nat → σ}
    (stable : ∀ s idx other, buried (release s idx) other = buried s other) (nodes : List QNode) :
    ∀ s, buried (nodes.foldl (fun s n => release s n.idx) s) = buried s := by
  induction nodes with
  | nil => intro s; rfl
  | cons node rest ih =>
    intro s
    exact (ih (release s node.idx)).trans (funext (stable s node.idx))

/-- Sweeping two queues one after the other sweeps their lists as one. -/
theorem Swept.append {buried : σ → Nat → Bool} {release : σ → Nat → σ}
    (stable : ∀ s idx other, buried (release s idx) other = buried s other)
    {left left' right right' : List QNode} {s s' s'' : σ}
    (first : Swept buried release left left' s s')
    (second : Swept buried release right right' s' s'') :
    Swept buried release (left ++ right) (left' ++ right') s s'' := by
  have same : buried s' = buried s := by
    rw [first.released]
    exact foldl_release_buried stable _ s
  constructor
  · rw [List.filter_append, first.kept, second.kept, same]
  · rw [List.filter_append, List.foldl_append, ← first.released, second.released, same]

/-- The nodes a rebuild keeps, in order, with the state it ends in. -/
def relink (remap : σ → Nat → Except Fault (σ × Option Nat)) (s : σ) (nodes : List QNode) :
    Except Fault (σ × List QNode) :=
  EvictQueue.remapNodes remap (fun s _ => s) s nodes

/-- A re-linking moves its first node or drops it, and goes on with the rest. -/
theorem relink_cons {remap : σ → Nat → Except Fault (σ × Option Nat)} {s s' : σ} {node : QNode}
    {nodes kept : List QNode} (linked : relink remap s (node :: nodes) = .ok (s', kept)) :
    (∃ s₁ newIdx keptRest, remap s node.idx = .ok (s₁, some newIdx) ∧
      relink remap s₁ nodes = .ok (s', keptRest) ∧ kept = { node with idx := newIdx } :: keptRest) ∨
    ∃ s₁, remap s node.idx = .ok (s₁, none) ∧ relink remap s₁ nodes = .ok (s', kept) := by
  simp only [relink, EvictQueue.remapNodes, Bind.bind, Except.bind] at linked ⊢
  cases moved : remap s node.idx with
  | error fault => simp [moved] at linked
  | ok result =>
    obtain ⟨s₁, target⟩ := result
    simp only [moved] at linked
    cases target with
    | none => exact .inr ⟨s₁, rfl, linked⟩
    | some newIdx =>
      simp only at linked
      cases tail : EvictQueue.remapNodes remap (fun s _ => s) s₁ nodes with
      | error fault => simp [tail] at linked
      | ok result =>
        obtain ⟨s₂, keptRest⟩ := result
        simp only [tail, Pure.pure, Except.pure, Except.ok.injEq, Prod.mk.injEq] at linked
        obtain ⟨rfl, rfl⟩ := linked
        exact .inl ⟨s₁, newIdx, keptRest, rfl, tail, rfl⟩

/-- A moved node is kept at its new index, ahead of what the rest keeps. -/
theorem relink_cons_some {remap : σ → Nat → Except Fault (σ × Option Nat)} {s s₁ s' : σ} {node : QNode}
    {nodes kept : List QNode} {newIdx : Nat} (moved : remap s node.idx = .ok (s₁, some newIdx))
    (rest : relink remap s₁ nodes = .ok (s', kept)) :
    relink remap s (node :: nodes) = .ok (s', { node with idx := newIdx } :: kept) := by
  simp only [relink] at rest ⊢
  simp [EvictQueue.remapNodes, moved, rest, Bind.bind, Except.bind, Pure.pure, Except.pure]

/-- A dropped node leaves what the rest keeps. -/
theorem relink_cons_none {remap : σ → Nat → Except Fault (σ × Option Nat)} {s s₁ s' : σ} {node : QNode}
    {nodes kept : List QNode} (dropped : remap s node.idx = .ok (s₁, none))
    (rest : relink remap s₁ nodes = .ok (s', kept)) :
    relink remap s (node :: nodes) = .ok (s', kept) := by
  simp only [relink] at rest ⊢
  simp [EvictQueue.remapNodes, dropped, rest, Bind.bind, Except.bind]

/-- Re-linking one queue, with the weight its dead nodes give back beside the caller's state. -/
def rebuildWeighed (remap : σ → Nat → Except Fault (σ × Option Nat)) (refund : Int → QNode → Int)
    (q : EvictQueue) (weight : Int) (s : σ) : Except Fault (EvictQueue × Int × σ) :=
  EvictQueue.rebuildQueue
    (fun (state : Int × σ) idx => (remap state.2 idx).map fun moved => ((state.1, moved.1), moved.2))
    (fun state node => (refund state.1 node, state.2)) q (weight, s)

/-- The weight is carried beside the re-linking and never decides anything. -/
theorem remapNodes_beside {remap : σ → Nat → Except Fault (σ × Option Nat)}
    (refund : Int → QNode → Int) (nodes : List QNode) :
    ∀ (weight : Int) (s s' : σ) (kept : List QNode), relink remap s nodes = .ok (s', kept) →
      ∃ weight', EvictQueue.remapNodes
        (fun (state : Int × σ) idx => (remap state.2 idx).map fun moved => ((state.1, moved.1), moved.2))
        (fun state node => (refund state.1 node, state.2)) (weight, s) nodes
          = .ok ((weight', s'), kept) := by
  induction nodes with
  | nil =>
    intro weight s s' kept linked
    simp only [relink, EvictQueue.remapNodes, Except.ok.injEq, Prod.mk.injEq] at linked
    obtain ⟨rfl, rfl⟩ := linked
    exact ⟨weight, rfl⟩
  | cons node rest ih =>
    intro weight s s' kept linked
    have mapped : ∀ result : σ × Option Nat, Except.map (fun moved : σ × Option Nat =>
        ((weight, moved.1), moved.2)) (.ok result : Except Fault _)
        = .ok ((weight, result.1), result.2) := fun _ => rfl
    rcases relink_cons linked with ⟨s₁, newIdx, keptRest, moved, tail, rfl⟩ | ⟨s₁, moved, tail⟩
    · obtain ⟨weight', lifted⟩ := ih weight s₁ s' keptRest tail
      refine ⟨weight', ?_⟩
      rw [EvictQueue.remapNodes]
      simp only [moved, mapped, lifted, Bind.bind, Except.bind, Pure.pure, Except.pure]
    · obtain ⟨weight', lifted⟩ := ih (refund weight node) s₁ s' kept tail
      refine ⟨weight', ?_⟩
      rw [EvictQueue.remapNodes]
      simp only [moved, mapped, lifted, Bind.bind, Except.bind]

/-- Re-linking one queue re-links its list. -/
theorem rebuildWeighed_spec {remap : σ → Nat → Except Fault (σ × Option Nat)}
    (refund : Int → QNode → Int) {q : EvictQueue} (valid : q.Valid) (weight : Int) {s s' : σ}
    {kept : List QNode} (linked : relink remap s q.toList = .ok (s', kept)) :
    ∃ q' weight', rebuildWeighed remap refund q weight s = .ok (q', weight', s') ∧ q'.Valid ∧
      q'.toList = kept := by
  obtain ⟨weight', lifted⟩ := remapNodes_beside refund q.toList weight s s' kept linked
  obtain ⟨q', rebuilt, valid', list⟩ := EvictQueue.rebuildQueue_spec valid lifted
  exact ⟨q', weight', rebuilt, valid', list⟩

/-- A re-linking of two lists as one re-links the first and then the second. -/
theorem relink_append {remap : σ → Nat → Except Fault (σ × Option Nat)} {right : List QNode} :
    ∀ {left : List QNode} {s s'' : σ} {kept : List QNode},
      relink remap s (left ++ right) = .ok (s'', kept) →
      ∃ s' keptLeft keptRight, relink remap s left = .ok (s', keptLeft) ∧
        relink remap s' right = .ok (s'', keptRight) ∧ kept = keptLeft ++ keptRight := by
  intro left
  induction left with
  | nil => intro s s'' kept linked; exact ⟨s, [], kept, rfl, linked, rfl⟩
  | cons node rest ih =>
    intro s s'' kept linked
    rcases relink_cons linked with ⟨s₁, newIdx, keptRest, moved, tail, rfl⟩ | ⟨s₁, moved, tail⟩
    · obtain ⟨s', keptLeft, keptRight, first, second, rfl⟩ := ih tail
      exact ⟨s', { node with idx := newIdx } :: keptLeft, keptRight, relink_cons_some moved first,
        second, rfl⟩
    · obtain ⟨s', keptLeft, keptRight, first, second, rfl⟩ := ih tail
      exact ⟨s', keptLeft, keptRight, relink_cons_none moved first, second, rfl⟩

/-- Re-linking queues one after the other. -/
inductive Relinks (remap : σ → Nat → Except Fault (σ × Option Nat)) :
    σ → List (List QNode) → σ → List (List QNode) → Prop
  | nil (s : σ) : Relinks remap s [] s []
  | cons {s s₁ s' : σ} {lane kept : List QNode} {lanes lanes' : List (List QNode)}
      (linked : relink remap s lane = .ok (s₁, kept)) (rest : Relinks remap s₁ lanes s' lanes') :
      Relinks remap s (lane :: lanes) s' (kept :: lanes')

end Rotation

end Memstash
