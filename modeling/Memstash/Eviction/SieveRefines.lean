import Memstash.Eviction.Contract
import Memstash.Eviction.Quarantine
import Memstash.Lib.Traces

/-! The SIEVE slice behaves as the abstract list with a hand, over every run of a policy's operations. -/

namespace Memstash

open Scan Turns Links Runs Traces Sieving

variable {K V : Type}

namespace SievePolicy

section Steps

variable {p : SievePolicy} {c : Sieve Nat} {spare : List Nat}

/-- A new item's position is listed first, and the hand stays. -/
theorem Listed.add (listed : Listed p c spare) (room : p.size < 2 ^ 31) (node : QNode) :
    ∃ p' c' spare', p.add node = .ok p' ∧ Listed p' c' spare' ∧ c'.map p'.itemOf = (c.map p.itemOf).add node := by
  obtain ⟨p', cur, spare', added, rep', here, others, handSame⟩ := add_spec listed.rep room node
  obtain ⟨newer, older⟩ := c
  have here : p'.itemOf cur = node := here
  have same : ∀ i ∈ newer ++ older, p'.itemOf i = p.itemOf i := others
  have newerSame : newer.map p'.itemOf = newer.map p.itemOf :=
    List.map_congr_left fun i member => same i (by simp [member])
  have olderSame : older.map p'.itemOf = older.map p.itemOf :=
    List.map_congr_left fun i member => same i (by simp [member])
  cases newer with
  | nil =>
    refine ⟨p', ⟨[], cur :: older⟩, spare', added, ⟨rep', handSame.trans listed.hand⟩, ?_⟩
    simp only [Sieve.map, Sieve.add, List.map_nil, List.isEmpty_nil, if_true, List.map_cons, here, olderSame]
  | cons first rest =>
    refine ⟨p', ⟨cur :: first :: rest, older⟩, spare', added, ⟨rep', ?_⟩, ?_⟩
    · rw [handSame, listed.hand, Sieve.hand, Sieve.hand, List.getLast?_cons_cons]
    · rw [Sieve.add, if_neg (by simp [Sieve.map])]
      simp only [Sieve.map]
      rw [List.map_cons, here, newerSame, olderSame]

/-- An eviction that returned took the item the abstract hand takes. -/
theorem Listed.evict_of_turns (nowOff : Nat) : ∀ (fuel : Nat) {p : SievePolicy} {t : FlatHashMap K V} {c : Sieve Nat}
    {spare : List Nat} {result : SievePolicy × FlatHashMap K V × Option Nat}, Listed p c spare →
    turns (SievePolicy.evictTurn nowOff) fuel (p, t) = .ok result →
    ∃ c' spare' taken, Listed result.1 c' spare' ∧ result.2.2 = taken.map QNode.idx ∧
      Sieve.Evicts (passedOver nowOff) cleared (c.map p.itemOf) t (c'.map result.1.itemOf) result.2.1 taken := by
  intro fuel
  induction fuel with
  | zero => intro p t c spare result _ ran; cases ran
  | succ fuel ih =>
    intro p t c spare result listed ran
    rw [turns] at ran
    rcases listed.evictTurn t nowOff with ⟨rfl, turned⟩ | ⟨newer, i, older, wrapped, _, step⟩
    · rw [turned] at ran
      cases ran
      exact ⟨.empty, spare, none, listed, rfl, .nothing⟩
    · have here : (c.map p.itemOf).wrap = ⟨newer.map p.itemOf ++ [p.itemOf i], older.map p.itemOf⟩ := by
        rw [Sieve.wrap_map, wrapped]
        simp [Sieve.map]
      rcases step with ⟨used, p', turned, listed', same⟩ | ⟨idle, p', turned, listed', same⟩
      · rw [turned] at ran
        obtain ⟨c', spare', taken, listed'', victim, later⟩ := ih listed' ran
        refine ⟨c', spare', taken, listed'', victim, .passes here used ?_⟩
        rwa [Sieve.map_congr same] at later
      · rw [turned] at ran
        cases ran
        have left : Sieve.map p'.itemOf ⟨newer, older⟩ = Sieve.map p.itemOf ⟨newer, older⟩ := Sieve.map_congr same
        exact ⟨⟨newer, older⟩, i :: spare, some (p.itemOf i), listed', rfl, left ▸ .takes here idle⟩

/-- An eviction always ends, with the item the abstract hand takes. -/
theorem Listed.evict (listed : Listed p c spare) (t : FlatHashMap K V) (nowOff : Nat) :
    ∃ p' t' c' spare' taken, p.evict t nowOff = .ok (p', t', Option.map QNode.idx taken) ∧ Listed p' c' spare' ∧
      Sieve.Evicts (passedOver nowOff) cleared (c.map p.itemOf) t (c'.map p'.itemOf) t' taken := by
  obtain ⟨p', t', victim, ran, _⟩ := evict_spec ⟨_, _, listed.rep⟩ t nowOff
  obtain ⟨c', spare', taken, listed', rfl, evicts⟩ := Listed.evict_of_turns nowOff _ listed ran
  exact ⟨p', t', c', spare', taken, ran, listed', evicts⟩

variable {σ : Type}

/-- A sweep filters the abstract list. -/
theorem Listed.sweeps {buried : σ → Nat → Bool} {release : σ → Nat → σ} (listed : Listed p c spare)
    (stable : ∀ s idx other, buried (release s idx) other = buried s other) (s : σ) :
    ∃ p' s' c' spare', p.sweep buried release s = .ok (p', s') ∧ Listed p' c' spare' ∧
      c'.map p'.itemOf = (c.map p.itemOf).filter fun node => !buried s node.idx := by
  obtain ⟨p', s', spare', ran, listed', items, _⟩ := listed.sweep stable s
  refine ⟨p', s', _, spare', ran, listed', ?_⟩
  rw [Sieve.filter_map]
  refine Sieve.map_congr fun j member => ?_
  rw [Sieve.items_filter, List.mem_filter] at member
  exact items j member.1 (by simpa using member.2)

/-- What a rebuild does with one item. -/
def relinkOne (remap : σ → Nat → σ × Option Nat) (s : σ) (node : QNode) : σ × Option QNode :=
  ((remap s node.idx).1, (remap s node.idx).2.map fun idx => { node with idx := idx })

/-- Visiting items this way re-links them. -/
theorem visit_relinkOne (remap : σ → Nat → σ × Option Nat) (nodes : List QNode) : ∀ s,
    Sieve.visit (relinkOne remap) s nodes = relinked remap s nodes := by
  induction nodes with
  | nil => exact fun _ => rfl
  | cons node rest ih =>
    intro s
    rcases moved : remap s node.idx with ⟨s₁, _ | newIdx⟩
    · simp [Sieve.visit, relinked, relinkOne, moved, ih]
    · simp [Sieve.visit, relinked, relinkOne, moved, ih]

/-- A rebuild visits the abstract list from the oldest item on. -/
theorem Listed.rebuilds (listed : Listed p c spare) (remap : σ → Nat → σ × Option Nat) (s : σ) :
    ∃ p' s' c' spare', p.rebuild (fun s idx => .ok (remap s idx)) s = .ok (p', s') ∧ Listed p' c' spare' ∧
      c'.map p'.itemOf = (c.map p.itemOf).rebuild (relinkOne remap) s := by
  obtain ⟨p', stays, spare', ran, listed', visits⟩ := listed.rebuild (relink_total remap _ s)
  refine ⟨p', _, _, spare', ran, listed', ?_⟩
  -- The older part is visited first, and the newer part from there on.
  rw [Sieve.items, List.reverse_append, visits_append] at visits
  obtain ⟨s₁, older, newer⟩ := visits
  have older := (relink_total remap _ s).symm.trans older.relink
  have newer := (relink_total remap _ s₁).symm.trans newer.relink
  rw [Except.ok.injEq] at older newer
  simp only [Sieve.rebuild, Sieve.map, Sieve.filter, visit_relinkOne, ← List.map_reverse, older, newer,
    List.filter_reverse, List.reverse_reverse]

end Steps

/-- Following a chain of spare slots lists it. -/
theorem SpareChain.follow {next : Nat → Int} {spare : List Nat} (chain : SpareChain next spare) :
    ∀ n, spare.length ≤ n → follow next n (link spare.head?) = spare := by
  induction spare with
  | nil => intro n _; simp
  | cons i rest ih =>
    intro n enough
    obtain ⟨n, rfl⟩ : ∃ m, n = m + 1 := ⟨n - 1, by simp only [List.length_cons] at enough; omega⟩
    simp only [List.length_cons, Nat.add_le_add_iff_right] at enough
    rw [List.head?_cons, link_some, follow_some, chain.1, ih chain.2 n enough]

/-- The listed and the spare slots are those of the slice, each once. -/
theorem Rep.perm_range {p : SievePolicy} {live spare : List Nat} (rep : Rep p live spare) :
    (live ++ spare).Perm (List.range p.count) := by
  have within : live ++ spare ⊆ List.range p.count := fun i member => List.mem_range.mpr (rep.inside i member)
  refine (rep.distinct.subperm within).perm_of_length_le ?_
  rw [List.length_range, List.length_append, rep.cover]

/-- The slice is a picture of the abstract list: both walks list its items, the freelist has all other slots, and the
hand is on the node the abstract hand is on. -/
structure Pictures (p : SievePolicy) (s : Sieve QNode) (listed spare : List Nat) : Prop where
  length : listed.length = p.size
  items : listed.map p.itemOf = s.items
  walkNext : ∀ n, p.size ≤ n → follow (fun i => (p.nodes i).next) n p.head = listed
  walkPrev : ∀ n, p.size ≤ n → follow (fun i => (p.nodes i).prev) n p.tail = listed.reverse
  walkFree : ∀ n, p.count - p.size ≤ n → follow (fun i => (p.nodes i).next) n p.free = spare
  slots : (listed ++ spare).Perm (List.range p.count)
  hand : p.hand = link (listed.take s.newer.length).getLast?

/-- A slice whose positions are listed so is a picture of the list of their items. -/
theorem Listed.pictures {p : SievePolicy} {c : Sieve Nat} {spare : List Nat} (listed : Listed p c spare) :
    Pictures p (c.map p.itemOf) c.items spare := by
  have rep := listed.rep
  refine ⟨rep.size.symm, Sieve.items_map.symm, ?_, ?_, ?_, rep.perm_range, ?_⟩
  · rw [rep.head, rep.size]
    exact rep.chain.follow_next
  · rw [rep.tail, rep.size]
    exact rep.chain.follow_prev
  · intro n enough
    have cover := rep.cover
    rw [rep.free]
    exact rep.spareChain.follow n (by rw [rep.size] at enough; omega)
  · simp [listed.hand, Sieve.hand, Sieve.items, Sieve.map]

/-- The hand is not set, or it is on the listed node of the item under the abstract hand. -/
theorem Pictures.hand_cases {p : SievePolicy} {s : Sieve QNode} {listed spare : List Nat}
    (pictures : Pictures p s listed spare) : (p.hand = noLink ∧ s.hand = none) ∨
      ∃ i ∈ listed, p.hand = (i : Int) ∧ s.hand = some (p.itemOf i) := by
  have newer : (listed.take s.newer.length).map p.itemOf = s.newer := by
    rw [List.map_take, pictures.items, Sieve.items, List.take_left]
  have under : s.hand = (listed.take s.newer.length).getLast?.map p.itemOf := by
    rw [Sieve.hand, ← List.getLast?_map, newer]
  rw [pictures.hand, under]
  cases last : (listed.take s.newer.length).getLast? with
  | none => exact .inl ⟨rfl, rfl⟩
  | some i => exact .inr ⟨i, List.mem_of_mem_take (List.mem_of_getLast? last), rfl, rfl⟩

end SievePolicy

namespace PolicyOp

variable [Inhabited K] [Inhabited V]

/-- Fewer than `2 ^ 31` nodes are queued when another one is added. -/
def Few (policy : EvictionPolicy K) : PolicyOp K V → Prop
  | .add _ _ => policy.queued.length < 2 ^ 31
  | .evict _ _ => True
  | .sweep _ => True
  | .rebuild _ => True

/-- What each operation does to the abstract list. -/
inductive Sieves : Sieve QNode → PolicyOp K V → Sieve QNode → Prop
  | add {s : Sieve QNode} (t : FlatHashMap K V) (node : QNode) : Sieves s (.add t node) (s.add node)
  | evict {s s' : Sieve QNode} {t t' : FlatHashMap K V} {nowOff : Nat} {taken : Option QNode}
      (evicts : s.Evicts (SievePolicy.passedOver nowOff) SievePolicy.cleared t s' t' taken) :
      Sieves s (.evict t nowOff) s'
  | sweep {s : Sieve QNode} (t : FlatHashMap K V) :
      Sieves s (.sweep t) (s.filter fun node => !(t.itemAt node.idx).metaWord.isDead)
  | rebuild {s : Sieve QNode} (remap : Nat → Nat → Option Nat) : Sieves s (.rebuild remap)
      (s.rebuild (SievePolicy.relinkOne fun visited idx => (visited + 1, remap visited idx)) 0)

/-- Every operation on a slice is one on the abstract list. -/
theorem exists_sieves {p : SievePolicy} {c : Sieve Nat} {spare : List Nat} (listed : p.Listed c spare)
    {op : PolicyOp K V} (few : op.Few (.sieve p)) :
    ∃ p' c' spare', op.work (.sieve p) = .ok (.sieve p') ∧ p'.Listed c' spare' ∧
      op.Sieves (c.map p.itemOf) (c'.map p'.itemOf) := by
  cases op with
  | add t node =>
    have room : p.size < 2 ^ 31 := by
      have few : p.queued.length < 2 ^ 31 := few
      rwa [listed.rep.queued, List.length_map, List.length_reverse, ← listed.rep.size] at few
    obtain ⟨p', c', spare', added, listed', items⟩ := listed.add room node
    refine ⟨p', c', spare', by simp only [work, EvictionPolicy.add, added]; rfl, listed', ?_⟩
    rw [items]
    exact .add t node
  | evict t nowOff =>
    obtain ⟨p', t', c', spare', taken, ran, listed', evicts⟩ := listed.evict t nowOff
    exact ⟨p', c', spare', by simp only [work, EvictionPolicy.evict, ran]; rfl, listed', .evict evicts⟩
  | sweep t =>
    obtain ⟨p', t', c', spare', ran, listed', items⟩ := @SievePolicy.Listed.sweeps p c spare _
      (fun t idx => (FlatHashMap.itemAt t idx).metaWord.isDead) (fun t idx => t.put idx (t.itemAt idx).makeFree)
      listed FlatHashMap.put_makeFree_isDead t
    refine ⟨p', c', spare', by simp only [work, EvictionPolicy.sweep, ran]; rfl, listed', ?_⟩
    rw [items]
    exact .sweep t
  | rebuild remap =>
    obtain ⟨p', n, c', spare', ran, listed', items⟩ :=
      listed.rebuilds (fun visited idx => (visited + 1, remap visited idx)) 0
    refine ⟨p', c', spare', by simp only [work, EvictionPolicy.rebuild, ran]; rfl, listed', ?_⟩
    rw [items]
    exact .rebuild remap

/-- While fewer than `2 ^ 31` nodes are queued at once: in every state of a run the SIEVE slice is a picture of the
abstract list its operations make, and its next eviction takes the item the abstract hand takes. -/
theorem sieve_refines_list (hash : K → BitVec 64) (shardCap ghostSize : Int) (ops : List (PolicyOp K V))
    (few : Meets work Few (newPolicy .sieve hash shardCap ghostSize) ops) :
    ∀ done, done <+: ops → ∃ p s listed spare,
      run work (newPolicy .sieve hash shardCap ghostSize) done = .ok (.sieve p) ∧ Trace Sieves .empty done s ∧
      p.Pictures s listed spare ∧
      ((p.hand = noLink ∧ s.hand = none) ∨ ∃ i ∈ listed, p.hand = (i : Int) ∧ s.hand = some (p.itemOf i)) ∧
      ∀ (t : FlatHashMap K V) nowOff, ∃ p' t' s' taken, p.evict t nowOff = .ok (p', t', Option.map QNode.idx taken) ∧
        s.Evicts (SievePolicy.passedOver nowOff) SievePolicy.cleared t s' t' taken := by
  intro done within
  obtain ⟨policy, ran, p, c, spare, rfl, listed, trace⟩ := exists_run_eq
    (fun done policy => ∃ p c spare, policy = .sieve p ∧ SievePolicy.Listed p c spare ∧
      Trace Sieves .empty done (c.map p.itemOf))
    ⟨newSieve, .empty, [], rfl, SievePolicy.listed_newSieve, .nil⟩ few
    (by
      rintro done op policy _ ⟨p, c, spare, rfl, listed, trace⟩ fewer
      obtain ⟨p', c', spare', worked, listed', stepped⟩ := exists_sieves listed fewer
      exact ⟨.sieve p', worked, p', c', spare', rfl, listed', trace.snoc stepped⟩) done within
  refine ⟨p, c.map p.itemOf, c.items, spare, ran, trace, listed.pictures, listed.pictures.hand_cases, ?_⟩
  intro t nowOff
  obtain ⟨p', t', c', _, taken, evicted, _, evicts⟩ := listed.evict t nowOff
  exact ⟨p', t', c'.map p'.itemOf, taken, evicted, evicts⟩

/-- Two items are listed as the abstract list has them. -/
theorem sieve_refines_list_two : ∃ (p : SievePolicy) (s : Sieve QNode),
    run work (newPolicy .sieve (fun _ : Nat => 0#64) 10 0)
        [.add (newFlatHashMap 64 : FlatHashMap Nat Unit) ⟨3, 1⟩, .add (newFlatHashMap 64) ⟨5, 1⟩] = .ok (.sieve p) ∧
      Trace Sieves .empty [.add (newFlatHashMap 64 : FlatHashMap Nat Unit) ⟨3, 1⟩, .add (newFlatHashMap 64) ⟨5, 1⟩] s ∧
      (follow (fun i => (p.nodes i).next) p.size p.head).map p.itemOf = s.items := by
  obtain ⟨p, s, listed, spare, ran, trace, pictures, _⟩ := sieve_refines_list (fun _ : Nat => 0#64) 10 0
    [.add (newFlatHashMap 64 : FlatHashMap Nat Unit) ⟨3, 1⟩, .add (newFlatHashMap 64) ⟨5, 1⟩]
    (meets_cons (show 0 < 2 ^ 31 by decide) fun _ first => meets_cons (by
      cases first
      show (SievePolicy.queued _).length < 2 ^ 31
      decide) fun _ _ => meets_nil _ _ _) _ List.prefix_rfl
  exact ⟨p, s, ran, trace, by rw [pictures.walkNext p.size le_rfl, pictures.items]⟩

end PolicyOp

end Memstash
