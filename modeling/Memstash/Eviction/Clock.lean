import Memstash.Eviction.Chances

/-! GCLOCK: one queue, where a touched item spends a chance and moves to the tail. -/

namespace Memstash

open Scan Turns

variable {K V : Type}

/-- The GCLOCK policy. -/
structure ClockPolicy where
  q : EvictQueue

namespace ClockPolicy

/-- Queue a new item. -/
def add (p : ClockPolicy) (node : QNode) : ClockPolicy := { q := p.q.push node }

/-- How many nodes are queued. -/
def len (p : ClockPolicy) : Nat := p.q.size

/-- Drop the nodes of dead items, releasing each. -/
def sweep {σ : Type} (buried : σ → Nat → Bool) (release : σ → Nat → σ) (p : ClockPolicy) (s : σ) :
    ClockPolicy × σ :=
  let (q, _, s) := sweepWeighed buried release (fun weight _ => weight) p.q 0 s
  ({ q := q }, s)

/-- Re-link the queue after a table swap. -/
def rebuild {σ : Type} (remap : σ → Nat → Except Fault (σ × Option Nat)) (p : ClockPolicy) (s : σ) :
    Except Fault (ClockPolicy × σ) := do
  let (q, _, s) ← rebuildWeighed remap (fun weight _ => weight) p.q 0 s
  return ({ q := q }, s)

/-- One turn of an eviction, a GCLOCK step over the queue. -/
def evictTurn (nowOff : Nat) (state : EvictQueue × FlatHashMap K V) :
    Except Fault ((EvictQueue × FlatHashMap K V) ⊕ (EvictQueue × FlatHashMap K V × Option Nat)) :=
  match clockStep state.1 state.2 nowOff with
  | none => .ok (.inr (state.1, state.2, none))
  | some step =>
    if step.reclaimed then .ok (.inr (step.q, step.t, some step.candidate.idx))
    else .ok (.inl (step.q, step.t))

/-- Choose an item to give up. -/
def evict (p : ClockPolicy) (t : FlatHashMap K V) (nowOff : Nat) :
    Except Fault (ClockPolicy × FlatHashMap K V × Option Nat) := do
  -- Two chances for each node and the turn that ends the loop.
  let (q, t, victim) ← turns (evictTurn nowOff) (2 * p.len + 1) (p.q, t)
  return ({ q := q }, t, victim)

/-- Every turn hands out the head or spends one of its chances. -/
theorem evictTurn_progress (before : List QNode) (t : FlatHashMap K V) (nowOff : Nat)
    (state : EvictQueue × FlatHashMap K V)
    (holds : state.1.Valid ∧ Scanned before state.1.toList t state.2) :
    Progress (evictTurn nowOff) (fun s => s.1.Valid ∧ Scanned before s.1.toList t s.2)
      (fun s => s.2.chanceSum s.1.toList)
      (fun r => r.1.Valid ∧ Evicted before r.1.toList t r.2.1 r.2.2) state := by
  obtain ⟨q, t'⟩ := state
  obtain ⟨valid, scanned⟩ := holds
  simp only at valid scanned
  cases list : q.toList with
  | nil =>
    rw [list] at scanned
    refine .inr ⟨(q, t', none), by simp [evictTurn, clockStep_nil valid list], valid, ?_⟩
    simpa only [list] using scanned.nothing
  | cons node rest =>
    obtain ⟨step, stepped, spec⟩ := clockStep_cons valid list t' nowOff
    rw [list] at scanned
    cases outcome : step.reclaimed with
    | true =>
      refine .inr ⟨(step.q, step.t, some step.candidate.idx), by simp [evictTurn, stepped, outcome],
        spec.valid, ?_⟩
      rw [spec.head]
      exact (scanned.spend spec.only (.refl _)).take (by rw [spec.gone outcome])
    | false =>
      obtain ⟨listed, less⟩ := spec.kept outcome
      refine .inl ⟨(step.q, step.t), by simp [evictTurn, stepped, outcome], ⟨spec.valid, ?_⟩, ?_⟩
      · simp only [listed]
        exact scanned.spend spec.only (List.perm_append_singleton node rest).symm
      · simpa only [listed, list] using less

/-- An eviction always ends, and takes one queued node unless there is none. -/
theorem evict_spec {p : ClockPolicy} (valid : p.q.Valid) (t : FlatHashMap K V) (nowOff : Nat) :
    ∃ p' t' victim, p.evict t nowOff = .ok (p', t', victim) ∧ p'.q.Valid ∧
      Evicted p.q.toList p'.q.toList t t' victim := by
  have bound := t.chanceSum_le p.q.toList
  rw [EvictQueue.length_toList valid] at bound
  obtain ⟨⟨q', t', victim⟩, ran, valid', evicted⟩ :=
    exists_turns_eq (evictTurn_progress p.q.toList t nowOff) (2 * p.len + 1) (p.q, t)
      ⟨valid, .refl t, .refl _⟩ (by simp only [len]; omega)
  exact ⟨⟨q'⟩, t', victim, by simp [evict, ran, bind, Except.bind, pure, Except.pure], valid', evicted⟩

/-- A sweep of the policy sweeps its queue. -/
theorem sweep_spec {σ : Type} {buried : σ → Nat → Bool} {release : σ → Nat → σ}
    (stable : ∀ s idx other, buried (release s idx) other = buried s other) {p : ClockPolicy}
    (valid : p.q.Valid) (s : σ) :
    (p.sweep buried release s).1.q.Valid ∧ Swept buried release p.q.toList
      (p.sweep buried release s).1.q.toList s (p.sweep buried release s).2 :=
  sweepWeighed_spec stable (fun weight _ => weight) valid 0 s

/-- A rebuild of the policy re-links its queue. -/
theorem rebuild_spec {σ : Type} {remap : σ → Nat → Except Fault (σ × Option Nat)} {p : ClockPolicy}
    (valid : p.q.Valid) {s s' : σ} {kept : List QNode}
    (linked : relink remap s p.q.toList = .ok (s', kept)) :
    ∃ p', p.rebuild remap s = .ok (p', s') ∧ p'.q.Valid ∧ p'.q.toList = kept := by
  obtain ⟨q', weight, rebuilt, valid', list⟩ :=
    rebuildWeighed_spec (fun weight _ => weight) valid 0 linked
  exact ⟨⟨q'⟩, by simp [rebuild, rebuilt, bind, Except.bind, pure, Except.pure], valid', list⟩

end ClockPolicy

end Memstash
