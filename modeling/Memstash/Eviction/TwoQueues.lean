import Memstash.Eviction.Chances

/-! Eviction over two queues: newcomers in front while they weigh too much, else the main queue. -/

namespace Memstash

open Scan Turns

variable {K V σ : Type}

/-- A policy that keeps newcomers apart from a main queue. -/
structure TwoQueues (σ : Type) where
  front : σ → EvictQueue
  main : σ → EvictQueue
  heavy : σ → Bool

namespace TwoQueues

/-- Both queues are well formed. -/
def Valid (queues : TwoQueues σ) (p : σ) : Prop := (queues.front p).Valid ∧ (queues.main p).Valid

/-- The queued nodes, newcomers first. -/
def nodes (queues : TwoQueues σ) (p : σ) : List QNode :=
  (queues.front p).toList ++ (queues.main p).toList

/-- Turns left: one for each newcomer and one for each chance in main. -/
def left (queues : TwoQueues σ) (state : σ × FlatHashMap K V) : Nat :=
  (queues.front state.1).toList.length + state.2.chanceSum (queues.main state.1).toList

/-- One turn of an eviction: the front while it is too heavy or main is empty, else main. -/
def turn (queues : TwoQueues σ)
    (frontOnce mainOnce : σ → FlatHashMap K V → σ × FlatHashMap K V × Option Nat)
    (state : σ × FlatHashMap K V) :
    Except Fault ((σ × FlatHashMap K V) ⊕ (σ × FlatHashMap K V × Option Nat)) :=
  let (p, t) := state
  let fromFront := queues.heavy p && decide ((queues.front p).size > 0)
  if !fromFront && (queues.main p).size == 0 && (queues.front p).size == 0 then
    .ok (.inr (p, t, none))
  else
    match if fromFront || (queues.main p).size == 0 then frontOnce p t else mainOnce p t with
    | (p, t, some victim) => .ok (.inr (p, t, some victim))
    | (p, t, none) => .ok (.inl (p, t))

/-- What one look at the queues leaves behind. -/
def LookSpec (queues : TwoQueues σ) (p : σ) (t : FlatHashMap K V)
    (result : σ × FlatHashMap K V × Option Nat) : Prop :=
  queues.Valid result.1 ∧ Looked (queues.nodes p) (queues.nodes result.1) (queues.left (p, t))
    (queues.left (result.1, result.2.1)) t result.2.1 result.2.2

section Looks

variable {queues : TwoQueues σ} {p p' : σ} {t t' : FlatHashMap K V} {node : QNode}
  {rest : List QNode}

/-- The head of the front is handed out. -/
theorem LookSpec.giveUp (valid : queues.Valid p') (front : (queues.front p).toList = node :: rest)
    (front' : (queues.front p').toList = rest)
    (main' : (queues.main p').toList = (queues.main p).toList) :
    queues.LookSpec p t (p', t, some node.idx) :=
  ⟨valid, .refl t, by simp, fun idx named =>
    ⟨node, by simpa using named, by simp [nodes, front, front', main']⟩⟩

/-- The head of the front moves to main, where it has no chance left to spend. -/
theorem LookSpec.promote (valid : queues.Valid p') (only : t.OnlyChances t')
    (clean : (t'.itemAt node.idx).metaWord.chances = 0)
    (front : (queues.front p).toList = node :: rest) (front' : (queues.front p').toList = rest)
    (main' : (queues.main p').toList = (queues.main p).toList ++ [node]) :
    queues.LookSpec p t (p', t', none) := by
  refine ⟨valid, only, fun _ => ⟨?_, ?_⟩, by simp⟩
  · simp only [nodes, front, front', main', List.cons_append]
    have behind : (node :: (queues.main p).toList).Perm ((queues.main p).toList ++ [node]) :=
      (List.perm_append_singleton node _).symm
    exact List.perm_middle.symm.trans (behind.append_left rest)
  · have main := only.chanceSum_le (queues.main p).toList
    simp only [left, front, front', main', FlatHashMap.chanceSum_append,
      FlatHashMap.chanceSum_cons, FlatHashMap.chanceSum_nil, clean, List.length_cons]
    omega

/-- A GCLOCK step over main hands its head out or spends one of its chances. -/
theorem LookSpec.clock {step : ClockStep K V} (valid : queues.Valid p')
    (spec : step.Spec node rest t) (main : (queues.main p).toList = node :: rest)
    (front' : (queues.front p').toList = (queues.front p).toList)
    (main' : (queues.main p').toList = step.q.toList) :
    queues.LookSpec p t
      (p', step.t, if step.reclaimed then some step.candidate.idx else none) := by
  refine ⟨valid, spec.only, ?_, ?_⟩
  · intro kept
    have outcome : step.reclaimed = false := by
      cases flag : step.reclaimed <;> simp_all
    obtain ⟨listed, less⟩ := spec.kept outcome
    refine ⟨?_, by simp only [left, front', main', listed, main]; omega⟩
    simp only [nodes, front', main', listed, main]
    exact (List.perm_append_singleton node rest).symm.append_left _
  · intro idx named
    have outcome : step.reclaimed = true := by
      cases flag : step.reclaimed <;> simp_all
    refine ⟨node, by simpa [outcome, spec.head] using named, ?_⟩
    simp only [nodes, front', main', spec.gone outcome, main]
    exact List.perm_middle

end Looks

section Progress

variable {queues : TwoQueues σ}
  {frontOnce mainOnce : σ → FlatHashMap K V → σ × FlatHashMap K V × Option Nat}

/-- Every turn hands a node out or goes on with less left. -/
theorem turn_progress
    (frontSpec : ∀ p t, queues.Valid p → (queues.front p).toList ≠ [] →
      queues.LookSpec p t (frontOnce p t))
    (mainSpec : ∀ p t, queues.Valid p → (queues.main p).toList ≠ [] →
      queues.LookSpec p t (mainOnce p t))
    (before : List QNode) (t : FlatHashMap K V) (state : σ × FlatHashMap K V)
    (holds : queues.Valid state.1 ∧ Scanned before (queues.nodes state.1) t state.2) :
    Progress (queues.turn frontOnce mainOnce)
      (fun s => queues.Valid s.1 ∧ Scanned before (queues.nodes s.1) t s.2) queues.left
      (fun r => queues.Valid r.1 ∧ Evicted before (queues.nodes r.1) t r.2.1 r.2.2) state := by
  obtain ⟨p, t'⟩ := state
  obtain ⟨valid, scanned⟩ := holds
  simp only at valid scanned
  have frontSize := EvictQueue.length_toList valid.1
  have mainSize := EvictQueue.length_toList valid.2
  -- Whichever queue the turn looks at, its outcome is read off the same way.
  have look : ∀ result : σ × FlatHashMap K V × Option Nat, queues.LookSpec p t' result →
      queues.turn frontOnce mainOnce (p, t') = (match result with
        | (p, t, some victim) => .ok (.inr (p, t, some victim))
        | (p, t, none) => .ok (.inl (p, t))) →
      Progress (queues.turn frontOnce mainOnce)
        (fun s => queues.Valid s.1 ∧ Scanned before (queues.nodes s.1) t s.2) queues.left
        (fun r => queues.Valid r.1 ∧ Evicted before (queues.nodes r.1) t r.2.1 r.2.2) (p, t') := by
    rintro ⟨p', t'', victim⟩ ⟨valid', looked⟩ turned
    cases victim with
    | some idx => exact .inr ⟨(p', t'', some idx), turned, valid', scanned.finish looked⟩
    | none =>
      obtain ⟨perm, less⟩ := looked.again rfl
      exact .inl ⟨(p', t''), turned, ⟨valid', scanned.spend looked.only perm⟩, less⟩
  by_cases none : (queues.front p).size = 0 ∧ (queues.main p).size = 0
  · have nothing : queues.nodes p = [] := by
      simp [nodes, List.eq_nil_of_length_eq_zero (frontSize.trans none.1),
        List.eq_nil_of_length_eq_zero (mainSize.trans none.2)]
    rw [nothing] at scanned
    refine .inr ⟨(p, t', .none), by simp [turn, none.1, none.2], valid, ?_⟩
    simpa only [nothing] using scanned.nothing
  · by_cases fromFront :
      (queues.heavy p = true ∧ (queues.front p).size > 0) ∨ (queues.main p).size = 0
    · have some_front : (queues.front p).toList ≠ [] := by
        intro empty
        rw [empty, List.length_nil] at frontSize
        omega
      refine look _ (frontSpec p t' valid some_front) ?_
      rcases fromFront with heavy | empty
      · simp [turn, heavy.1, heavy.2]
      · have : (queues.front p).size ≠ 0 := fun zero => none ⟨zero, empty⟩
        simp [turn, empty, this]
    · have some_main : (queues.main p).toList ≠ [] := by
        intro empty
        rw [empty, List.length_nil] at mainSize
        omega
      refine look _ (mainSpec p t' valid some_main) ?_
      rw [not_or] at fromFront
      have light : (queues.heavy p && decide ((queues.front p).size > 0)) = false := by
        simpa using fromFront.1
      simp only [turn, light]
      simp [fromFront.2]

/-- With two turns for each node the loop ends, and takes one queued node unless there is none. -/
theorem turns_spec
    (frontSpec : ∀ p t, queues.Valid p → (queues.front p).toList ≠ [] →
      queues.LookSpec p t (frontOnce p t))
    (mainSpec : ∀ p t, queues.Valid p → (queues.main p).toList ≠ [] →
      queues.LookSpec p t (mainOnce p t)) {p : σ} (valid : queues.Valid p) (t : FlatHashMap K V) :
    ∃ p' t' victim, turns (queues.turn frontOnce mainOnce)
        (2 * ((queues.front p).size + (queues.main p).size) + 1) (p, t) = .ok (p', t', victim) ∧
      queues.Valid p' ∧ Evicted (queues.nodes p) (queues.nodes p') t t' victim := by
  have main := t.chanceSum_le (queues.main p).toList
  have frontSize := EvictQueue.length_toList valid.1
  rw [EvictQueue.length_toList valid.2] at main
  obtain ⟨⟨p', t', victim⟩, ran, valid', evicted⟩ :=
    exists_turns_eq (turn_progress frontSpec mainSpec (queues.nodes p) t)
      (2 * ((queues.front p).size + (queues.main p).size) + 1) (p, t)
      ⟨valid, .refl t, .refl _⟩ (by simp only [left]; omega)
  exact ⟨p', t', victim, ran, valid', evicted⟩

end Progress

end TwoQueues

end Memstash
