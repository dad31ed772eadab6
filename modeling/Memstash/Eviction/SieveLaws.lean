import Memstash.Eviction.Sieve
import Memstash.Lib.Sieving

/-! The SIEVE slice holds a list from newest to oldest and the slots that are spare. -/

namespace Memstash

open Scan Turns Machine Links Sieving

variable {K V : Type}

namespace SievePolicy

/-- Spare slots are linked one way, through `next`. -/
def SpareChain (next : Nat → Int) : List Nat → Prop
  | [] => True
  | i :: rest => next i = link rest.head? ∧ SpareChain next rest

/-- A spare chain depends on the links of its own slots alone. -/
theorem SpareChain.congr {next next' : Nat → Int} {spare : List Nat}
    (same : ∀ i ∈ spare, next' i = next i) (chain : SpareChain next spare) :
    SpareChain next' spare := by
  induction spare with
  | nil => trivial
  | cons i rest ih =>
    exact ⟨(same i (by simp)).trans chain.1, ih (fun j member => same j (by simp [member])) chain.2⟩

/-- The slice holds the listed items from newest to oldest, and the other slots are spare. -/
structure Rep (p : SievePolicy) (live spare : List Nat) : Prop where
  distinct : (live ++ spare).Nodup
  inside : ∀ i ∈ live ++ spare, i < p.count
  cover : live.length + spare.length = p.count
  chain : Chain (fun i => (p.nodes i).prev) (fun i => (p.nodes i).next) none live none
  spareChain : SpareChain (fun i => (p.nodes i).next) spare
  head : p.head = link live.head?
  tail : p.tail = link live.getLast?
  free : p.free = link spare.head?
  hand : p.hand = noLink ∨ ∃ i ∈ live, p.hand = (i : Int)
  size : p.size = live.length

theorem rep_newSieve : Rep newSieve [] [] :=
  ⟨by simp, by simp, rfl, trivial, trivial, rfl, rfl, rfl, .inl rfl, rfl⟩

theorem nodeAt_eq {p : SievePolicy} {i : Nat} (inside : i < p.count) :
    p.nodeAt i = .ok (p.nodes i) := by
  have : (0 : Int) ≤ i ∧ (i : Int) < p.count := ⟨by omega, by omega⟩
  simp [nodeAt, this]

theorem modifyAt_eq {p : SievePolicy} {i : Nat} (inside : i < p.count)
    (f : SieveNode → SieveNode) :
    p.modifyAt i f = .ok { p with nodes := Function.update p.nodes i (f (p.nodes i)) } := by
  have : (0 : Int) ≤ i ∧ (i : Int) < p.count := ⟨by omega, by omega⟩
  simp [modifyAt, this]

/-- Joining the newer neighbor writes its way on, or the head. -/
theorem joinNewer_eq {p : SievePolicy} {newer : Option Nat} (target : Int)
    (inside : ∀ j, newer = some j → j < p.count) :
    p.joinNewer (link newer) target = .ok { p with
      nodes := fun j => if newer = some j then { p.nodes j with next := target } else p.nodes j
      head := if newer = none then target else p.head } := by
  cases newer with
  | none => simp [joinNewer, noLink]
  | some a =>
    have some_link : (a : Int) ≠ noLink := by simp only [noLink]; omega
    simp only [joinNewer, link_some, if_pos some_link, modifyAt_eq (inside a rfl), reduceCtorEq,
      if_false, Option.some.injEq]
    congr 2
    funext j
    by_cases here : j = a
    · simp [here]
    · simp [here, Ne.symm here]

/-- Joining the older neighbor writes its way back, or the tail. -/
theorem joinOlder_eq {p : SievePolicy} {older : Option Nat} (target : Int)
    (inside : ∀ j, older = some j → j < p.count) :
    p.joinOlder (link older) target = .ok { p with
      nodes := fun j => if older = some j then { p.nodes j with prev := target } else p.nodes j
      tail := if older = none then target else p.tail } := by
  cases older with
  | none => simp [joinOlder, noLink]
  | some b =>
    have some_link : (b : Int) ≠ noLink := by simp only [noLink]; omega
    simp only [joinOlder, link_some, if_pos some_link, modifyAt_eq (inside b rfl), reduceCtorEq,
      if_false, Option.some.injEq]
    congr 2
    funext j
    by_cases here : j = b
    · simp [here]
    · simp [here, Ne.symm here]

/-- The policy once a position has been taken out between two neighbors. -/
def unlinked (p : SievePolicy) (newer older : Option Nat) (i : Nat) : SievePolicy :=
  { p with
    nodes := fun j =>
      if j = i then { item := default, prev := link newer, next := p.free }
      else if older = some j then { p.nodes j with prev := link newer }
      else if newer = some j then { p.nodes j with next := link older }
      else p.nodes j
    head := if newer = none then link older else p.head
    tail := if older = none then link newer else p.tail
    free := i
    size := p.size - 1 }

/-- Taking a position out writes its two neighbors and itself. -/
theorem unlink_eq {p : SievePolicy} {newer older : Option Nat} {i : Nat} (inside : i < p.count)
    (back : (p.nodes i).prev = link newer) (forth : (p.nodes i).next = link older)
    (newerIn : ∀ j, newer = some j → j < p.count ∧ j ≠ i)
    (olderIn : ∀ j, older = some j → j < p.count ∧ j ≠ i)
    (apart : ∀ j, newer = some j → older ≠ some j) :
    p.unlink i = .ok (p.unlinked newer older i) := by
  have newerAway : newer ≠ some i := fun same => (newerIn i same).2 rfl
  have olderAway : older ≠ some i := fun same => (olderIn i same).2 rfl
  simp only [unlink, nodeAt_eq inside, back, forth, bind, Except.bind,
    joinNewer_eq (link older) fun j same => (newerIn j same).1]
  rw [joinOlder_eq]
  swap
  · exact fun j same => (olderIn j same).1
  simp only
  rw [modifyAt_eq]
  swap
  · exact inside
  simp only [unlinked, pure, Except.pure, Except.ok.injEq, SievePolicy.mk.injEq, and_true]
  funext j
  by_cases here : j = i
  · subst here
    simp [newerAway, olderAway, back]
  · simp only [Function.update_apply, if_neg here]
    by_cases atOlder : older = some j
    · have notNewer : newer ≠ some j := fun same => apart j same atOlder
      simp only [if_pos atOlder, if_neg notNewer]
    · simp only [if_neg atOlder]

/-- Taking a position out joins its neighbors and makes its slot the first spare one. -/
theorem unlink_spec {p : SievePolicy} {l r spare : List Nat} {i : Nat}
    (rep : Rep p (l ++ i :: r) spare) (away : p.hand ≠ (i : Int)) :
    ∃ p', p.unlink i = .ok p' ∧ Rep p' (l ++ r) (i :: spare) ∧ p'.hand = p.hand ∧
      ∀ j ∈ l ++ r, (p'.nodes j).item = (p.nodes j).item := by
  obtain ⟨distinctLive, distinctSpare, apartSpare⟩ := List.nodup_append.mp rep.distinct
  obtain ⟨distinctLeft, distinctRest, apartSides⟩ := List.nodup_append.mp distinctLive
  obtain ⟨freshRight, distinctRight⟩ := List.nodup_cons.mp distinctRest
  have freshLeft : i ∉ l := fun member => apartSides i member i (by simp) rfl
  have newerMem : ∀ j, l.getLast? = some j → j ∈ l := fun _ last => List.mem_of_getLast? last
  have olderMem : ∀ j, r.head? = some j → j ∈ r := fun _ first => List.mem_of_mem_head? first
  have insideAll : ∀ j, j ∈ l ∨ j = i ∨ j ∈ r → j < p.count := fun j member =>
    rep.inside j (by simp only [List.mem_append, List.mem_cons]; tauto)
  have other : ∀ j ∈ l ++ r, j ≠ i := by
    rintro j member rfl
    simp only [List.mem_append] at member
    tauto
  have spareOther : ∀ j ∈ spare, j ≠ i ∧ j ∉ l ∧ j ∉ r := fun j member =>
    ⟨fun same => apartSpare i (by simp) j member same.symm,
      fun inLeft => apartSpare j (by simp [inLeft]) j member rfl,
      fun inRight => apartSpare j (by simp [inRight]) j member rfl⟩
  -- The links of the position itself name its two neighbors.
  obtain ⟨_, back, forth, _⟩ := chain_append.mp rep.chain
  simp only [Option.or_none] at back forth
  have eq := unlink_eq (insideAll i (by simp)) back forth
    (fun j last => ⟨insideAll j (.inl (newerMem j last)), fun same => freshLeft (same ▸ newerMem j last)⟩)
    (fun j first =>
      ⟨insideAll j (.inr (.inr (olderMem j first))), fun same => freshRight (same ▸ olderMem j first)⟩)
    (fun j last first => apartSides j (newerMem j last) j (by simp [olderMem j first]) rfl)
  refine ⟨_, eq, ?_, rfl, ?_⟩
  · refine ⟨?_, ?_, ?_, ?_, ?_, ?_, ?_, rfl, ?_, ?_⟩
    · -- The slot moves from the live list to the spare one.
      have moved : (l ++ i :: r ++ spare).Perm (l ++ r ++ i :: spare) := by
        simp only [List.append_assoc, List.cons_append]
        exact List.Perm.append_left l (by simpa using List.perm_middle.symm)
      exact moved.nodup_iff.mp rep.distinct
    · intro j member
      refine rep.inside j ?_
      simp only [List.mem_append, List.mem_cons] at member ⊢
      tauto
    · have := rep.cover
      simp only [List.length_append, List.length_cons] at this ⊢
      simp only [unlinked]
      omega
    · refine rep.chain.unlink distinctLive ?_ ?_ ?_ ?_
      · intro j last
        have apart : r.head? ≠ some j := fun first =>
          apartSides j (newerMem j last) j (by simp [olderMem j first]) rfl
        simp [unlinked, other j (by simp [newerMem j last]), last, apart, forth]
      · intro j first
        simp [unlinked, other j (by simp [olderMem j first]), first, back]
      · intro j member last
        simp only [unlinked, if_neg (other j member), if_neg last]
        split <;> rfl
      · intro j member first
        simp only [unlinked, if_neg (other j member), if_neg first]
        split <;> rfl
    · refine ⟨by simp [unlinked, rep.free], rep.spareChain.congr fun j member => ?_⟩
      obtain ⟨ne, notLeft, notRight⟩ := spareOther j member
      have notNewer : l.getLast? ≠ some j := fun last => notLeft (newerMem j last)
      have notOlder : r.head? ≠ some j := fun first => notRight (olderMem j first)
      simp [unlinked, ne, notNewer, notOlder]
    · cases l with
      | nil => simp [unlinked]
      | cons a more => simp [unlinked, rep.head]
    · simp only [unlinked, rep.tail]
      cases r with
      | nil => simp
      | cons b more => simp [List.getLast?_append, List.getLast?_cons]
    · rcases rep.hand with none | ⟨j, member, here⟩
      · exact .inl none
      · refine .inr ⟨j, ?_, here⟩
        have : j ≠ i := fun same => away (by rw [here, same])
        simp only [List.mem_append, List.mem_cons] at member ⊢
        tauto
    · have := rep.size
      simp only [unlinked, List.length_append, List.length_cons] at this ⊢
      omega
  · intro j member
    simp only [unlinked, if_neg (other j member)]
    split
    · rfl
    · split <;> rfl

/-- A slot handed out for a new item, with the other slots as they were. -/
structure Allocated (p p' : SievePolicy) (live spare : List Nat) (cur : Nat) : Prop where
  distinct : (cur :: live ++ spare).Nodup
  inside : ∀ i ∈ cur :: live ++ spare, i < p'.count
  cover : live.length + 1 + spare.length = p'.count
  spareChain : SpareChain (fun i => (p'.nodes i).next) spare
  free : p'.free = link spare.head?
  same : ∀ i ∈ live, p'.nodes i = p.nodes i
  ends : p'.head = p.head ∧ p'.tail = p.tail ∧ p'.hand = p.hand ∧ p'.size = p.size

/-- While fewer than `2 ^ 31` items are listed, a slot is handed out. -/
theorem alloc_spec {p : SievePolicy} {live spare : List Nat} (rep : Rep p live spare)
    (room : p.size < 2 ^ 31) :
    ∃ (p' : SievePolicy) (cur : Nat) (spare' : List Nat), p.alloc = .ok (p', (cur : Int)) ∧
      Allocated p p' live spare' cur := by
  cases spare with
  | nil =>
    -- Nothing is spare, so the slice is as long as the list and its next index fits 32 bits.
    have count : p.count = p.size := by
      have := rep.cover
      rw [rep.size]
      simpa using this.symm
    have fits : int32 ((p.count + 1 : Nat) - 1 : Int) = (p.count : Int) := by
      rw [int32_of_range] <;> omega
    have insideLive : ∀ i ∈ live, i < p.count := fun i member => rep.inside i (by simp [member])
    refine ⟨{ p with nodes := Function.update p.nodes p.count default, count := p.count + 1 },
      p.count, [], ?_, ?_⟩
    · simp only [alloc, rep.free, List.head?_nil, link_none, noLink, ne_eq, not_true_eq_false,
        if_false]
      rw [fits]
    · refine ⟨?_, ?_, ?_, trivial, rep.free, ?_, rfl, rfl, rfl, rfl⟩
      · simp only [List.append_nil, List.nodup_cons]
        exact ⟨fun member => Nat.lt_irrefl _ (insideLive _ member), by simpa using rep.distinct⟩
      · intro i member
        simp only [List.append_nil, List.mem_cons] at member
        rcases member with rfl | member
        · exact Nat.lt_succ_self _
        · exact Nat.lt_succ_of_lt (insideLive i member)
      · have := rep.cover
        simp only [List.length_nil] at this ⊢
        omega
      · intro i member
        simp [(insideLive i member).ne]
  | cons cur rest =>
    have insideCur : cur < p.count := rep.inside cur (by simp)
    have some_link : (cur : Int) ≠ noLink := by simp only [noLink]; omega
    have moved : (live ++ cur :: rest).Perm (cur :: live ++ rest) := List.perm_middle
    refine ⟨{ p with free := (p.nodes cur).next }, cur, rest, ?_, ?_⟩
    · simp [alloc, rep.free, some_link, nodeAt_eq insideCur, bind, Except.bind, pure, Except.pure]
    · refine ⟨moved.nodup_iff.mp rep.distinct, fun i member => rep.inside i (moved.mem_iff.mpr member),
        ?_, rep.spareChain.2, rep.spareChain.1, fun _ _ => rfl, rfl, rfl, rfl, rfl⟩
      have := rep.cover
      simp only [List.length_cons] at this ⊢
      omega

/-- A new item becomes the newest of the list. -/
theorem add_spec {p : SievePolicy} {live spare : List Nat} (rep : Rep p live spare)
    (room : p.size < 2 ^ 31) (node : QNode) :
    ∃ p' cur spare', p.add node = .ok p' ∧ Rep p' (cur :: live) spare' ∧
      (p'.nodes cur).item = node ∧ (∀ i ∈ live, (p'.nodes i).item = (p.nodes i).item) ∧ p'.hand = p.hand := by
  obtain ⟨p₁, cur, spare', allocated, slot⟩ := alloc_spec rep room
  obtain ⟨headSame, tailSame, handSame, sizeSame⟩ := slot.ends
  have distinct := slot.distinct
  simp only [List.cons_append, List.nodup_cons, List.mem_append, not_or] at distinct
  obtain ⟨⟨freshLive, freshSpare⟩, distinctRest⟩ := distinct
  obtain ⟨distinctLive, _, apart⟩ := List.nodup_append.mp distinctRest
  have insideCur : cur < p₁.count := slot.inside cur (by simp)
  have older : ∀ i, live.head? = some i → i ∈ live := fun _ first => List.mem_of_mem_head? first
  have other : ∀ i ∈ live, i ≠ cur := fun i member same => freshLive (same ▸ member)
  refine ⟨{ p₁ with
      nodes := fun j =>
        if live.head? = some j then { p₁.nodes j with prev := cur }
        else if j = cur then { item := node, prev := noLink, next := p₁.head } else p₁.nodes j
      head := cur
      tail := if live.head? = none then cur else p₁.tail
      size := p₁.size + 1 }, cur, spare', ?_, ?_, ?_, ?_, handSame⟩
  · have headLink : p₁.head = link live.head? := headSame.trans rep.head
    simp only [add, allocated, bind, Except.bind, modifyAt_eq insideCur, headLink]
    rw [joinOlder_eq]
    swap
    · exact fun i first => slot.inside i (by simp [older i first])
    simp only [pure, Except.pure, Except.ok.injEq, SievePolicy.mk.injEq, and_true]
    funext j
    by_cases first : live.head? = some j
    · simp [first, other j (older j first)]
    · simp [first, Function.update_apply]
  · refine ⟨slot.distinct, slot.inside, ?_, ?_, ?_, rfl, ?_, slot.free, ?_, ?_⟩
    · have := slot.cover
      simp only [List.length_cons]
      omega
    · -- The new node points on to the old newest, which points back at it.
      have notHead : live.head? ≠ some cur := fun first => freshLive (older cur first)
      refine ⟨by simp [notHead, noLink], by simp [notHead, headSame, rep.head], ?_⟩
      refine Chain.restart (some cur) distinctLive
        (rep.chain.congr (fun _ _ => rfl) fun i member => ?_) (fun i first => by simp [first]) ?_
      · simp only [if_neg (other i member), slot.same i member]
        split <;> rfl
      · intro i member first
        simp [first, other i member, slot.same i member]
    · refine slot.spareChain.congr fun i member => ?_
      have notLive : live.head? ≠ some i := fun first => apart i (older i first) i member rfl
      have notCur : i ≠ cur := fun same => freshSpare (same ▸ member)
      simp [notLive, notCur]
    · cases live with
      | nil => simp
      | cons i rest => simp [tailSame, rep.tail, List.getLast?_cons]
    · rcases rep.hand with unset | ⟨i, member, here⟩
      · exact .inl (handSame.trans unset)
      · exact .inr ⟨i, by simp [member], handSame.trans here⟩
    · simp [sizeSame, rep.size]
  · have notHead : live.head? ≠ some cur := fun first => freshLive (older cur first)
    simp [notHead]
  · intro i member
    simp only [if_neg (other i member), slot.same i member]
    split <;> rfl

/-- With `2 ^ 31` items listed and no slot spare, the next index does not fit and adding panics. -/
theorem add_panics {p : SievePolicy} {live : List Nat} (rep : Rep p live [])
    (full : 2 ^ 31 ≤ p.size) (below : p.size < 2 ^ 32) (node : QNode) :
    p.add node = .error .panic := by
  have count : p.count = p.size := by
    have := rep.cover
    rw [rep.size]
    simpa using this.symm
  have negative : int32 ((p.count + 1 : Nat) - 1 : Int) < 0 := by
    unfold int32
    rw [Int.bmod_def]
    split <;> omega
  simp only [add, alloc, rep.free, List.head?_nil, link_none, noLink, ne_eq, not_true_eq_false,
    if_false, bind, Except.bind, modifyAt]
  rw [if_neg (by omega)]

/-- Walking a segment back from its last position lists its items from there. -/
theorem walk_eq {p : SievePolicy} (l : List Nat) : ∀ after : Option Nat,
    Chain (fun i => (p.nodes i).prev) (fun i => (p.nodes i).next) none l after →
      p.walk l.length (link l.getLast?) = l.reverse.map fun i => (p.nodes i).item := by
  induction l using List.reverseRecOn with
  | nil => intro after _; rfl
  | append_singleton rest i ih =>
    intro after chain
    obtain ⟨front, back, _⟩ := chain_append.mp chain
    have some_link : (i : Int) ≠ noLink := by simp only [noLink]; omega
    simp only [Option.or_none] at back
    simp only [List.length_append, List.length_singleton, List.getLast?_append,
      List.getLast?_singleton, Option.some_or, link_some, walk, if_neg some_link,
      Int.toNat_natCast, back, ih _ front, List.reverse_append, List.reverse_singleton,
      List.singleton_append, List.map_cons]

theorem Rep.queued {p : SievePolicy} {live spare : List Nat} (rep : Rep p live spare) :
    p.queued = live.reverse.map fun i => (p.nodes i).item := by
  rw [SievePolicy.queued, rep.size, rep.tail]
  exact walk_eq live none rep.chain

/-- The hand may be set to any listed position, or unset. -/
theorem Rep.setHand {p : SievePolicy} {live spare : List Nat} (rep : Rep p live spare) {hand : Int}
    (set : hand = noLink ∨ ∃ i ∈ live, hand = (i : Int)) : Rep { p with hand := hand } live spare :=
  ⟨rep.distinct, rep.inside, rep.cover, rep.chain, rep.spareChain, rep.head, rep.tail, rep.free, set,
    rep.size⟩

/-- The way back from a listed position is a listed position other than it, or none. -/
theorem Rep.prev_listed {p : SievePolicy} {l r spare : List Nat} {i : Nat}
    (rep : Rep p (l ++ i :: r) spare) :
    (p.nodes i).prev = noLink ∨ ∃ j ∈ l, (p.nodes i).prev = (j : Int) := by
  obtain ⟨_, back, _⟩ := chain_append.mp rep.chain
  simp only [Option.or_none] at back
  cases last : l.getLast? with
  | none => exact .inl (by simpa [last, noLink] using back)
  | some j => exact .inr ⟨j, List.mem_of_getLast? last, by simpa [last] using back⟩

/-- Taking out the position under the hand moves the hand on toward the newest end. -/
theorem removeAt_spec {p : SievePolicy} {l r spare : List Nat} {i : Nat}
    (rep : Rep p (l ++ i :: r) spare) :
    ∃ p', p.removeAt i = .ok (p', (p.nodes i).item.idx) ∧ Rep p' (l ++ r) (i :: spare) ∧
      p'.hand = (p.nodes i).prev ∧ ∀ j ∈ l ++ r, (p'.nodes j).item = (p.nodes j).item := by
  have inside : i < p.count := rep.inside i (by simp)
  have distinct := (List.nodup_append.mp rep.distinct).1
  have fresh : i ∉ l := fun member =>
    (List.nodup_append.mp distinct).2.2 i member i (by simp) rfl
  have listed := rep.prev_listed
  have moved : Rep { p with hand := (p.nodes i).prev } (l ++ i :: r) spare :=
    rep.setHand (listed.imp_right fun ⟨j, member, here⟩ => ⟨j, by simp [member], here⟩)
  have away : (p.nodes i).prev ≠ (i : Int) := by
    rcases listed with unset | ⟨j, member, here⟩
    · rw [unset]; simp only [noLink]; omega
    · rw [here]
      intro same
      exact fresh (Int.ofNat.inj same ▸ member)
  obtain ⟨p', unlinked, rep', handSame, items⟩ := unlink_spec moved away
  exact ⟨p', by simp [removeAt, nodeAt_eq inside, unlinked, bind, Except.bind, pure, Except.pure],
    rep', handSame, items⟩

/-- The slice holds some list. -/
def Valid (p : SievePolicy) : Prop := ∃ live spare, Rep p live spare

/-- The neighbors of a listed position. -/
theorem Rep.neighbors {p : SievePolicy} {l r spare : List Nat} {i : Nat} (rep : Rep p (l ++ i :: r) spare) :
    (p.nodes i).prev = link l.getLast? ∧ (p.nodes i).next = link r.head? := by
  obtain ⟨_, back, forth, _⟩ := chain_append.mp rep.chain
  simp only [Option.or_none] at back forth
  exact ⟨back, forth⟩

/-- The item at a position of the slice. -/
def itemOf (p : SievePolicy) (i : Nat) : QNode := (p.nodes i).item

/-- The slice lists these positions, and its hand is on the one the abstract hand is on. -/
structure Listed (p : SievePolicy) (c : Sieve Nat) (spare : List Nat) : Prop where
  rep : Rep p c.items spare
  hand : p.hand = link c.hand

theorem listed_newSieve : Listed newSieve .empty [] := ⟨rep_newSieve, rfl⟩

/-- A list the slice holds is cut behind the position under the hand. -/
theorem Rep.exists_listed {p : SievePolicy} {live spare : List Nat} (rep : Rep p live spare) :
    ∃ c : Sieve Nat, c.items = live ∧ Listed p c spare := by
  rcases rep.hand with unset | ⟨i, member, here⟩
  · exact ⟨⟨[], live⟩, rfl, rep, unset⟩
  · obtain ⟨l, r, rfl⟩ := List.append_of_mem member
    have whole : Sieve.items ⟨l ++ [i], r⟩ = l ++ i :: r := by simp [Sieve.items]
    exact ⟨⟨l ++ [i], r⟩, whole, whole ▸ rep, by simp [here, Sieve.hand]⟩

section Listed

variable {p p' : SievePolicy} {c : Sieve Nat} {spare : List Nat}

theorem Listed.nodup (listed : Listed p c spare) : c.items.Nodup :=
  (List.nodup_append.mp listed.rep.distinct).1

theorem Listed.queued (listed : Listed p c spare) : p.queued = c.items.reverse.map p.itemOf :=
  listed.rep.queued

/-- The scan looks at the position the abstract hand wraps to. -/
theorem Listed.current (listed : Listed p c spare) (some_item : p.size ≠ 0) :
    ∃ newer i older, c.wrap = ⟨newer ++ [i], older⟩ ∧ c.items = newer ++ i :: older ∧
      (if p.hand = noLink then p.tail else p.hand) = (i : Int) := by
  have nonempty : c.items ≠ [] := by
    intro none
    exact some_item (by rw [listed.rep.size, none]; rfl)
  obtain ⟨newer, i, older, wrapped, whole, here⟩ := Sieve.exists_wrap nonempty
  refine ⟨newer, i, older, wrapped, whole, ?_⟩
  rw [listed.hand, listed.rep.tail]
  cases first : c.newer with
  | nil =>
    rw [if_pos first] at here
    simp [Sieve.hand, Sieve.items, first, noLink, here]
  | cons j rest =>
    rw [if_neg (by simp [first])] at here
    have some_link : (i : Int) ≠ noLink := by simp only [noLink]; omega
    simp [here, some_link]

/-- The hand passes over this item: it was used and its time is not up. -/
def passedOver (nowOff : Nat) (t : FlatHashMap K V) (node : QNode) : Bool :=
  decide (judge (t.itemAt node.idx).metaWord nowOff = .touched)

/-- The item's counter is cleared. -/
def cleared (t : FlatHashMap K V) (node : QNode) : FlatHashMap K V :=
  t.put node.idx (t.itemAt node.idx).resetChances

/-- One turn of an eviction does what the abstract hand does. -/
theorem Listed.evictTurn (listed : Listed p c spare) (t : FlatHashMap K V) (nowOff : Nat) :
    (c = .empty ∧ evictTurn nowOff (p, t) = .ok (.inr (p, t, none))) ∨
    ∃ newer i older, c.wrap = ⟨newer ++ [i], older⟩ ∧ c.items = newer ++ i :: older ∧
      ((passedOver nowOff t (p.itemOf i) = true ∧ ∃ p', SievePolicy.evictTurn nowOff (p, t)
          = .ok (.inl (p', cleared t (p.itemOf i))) ∧ Listed p' ⟨newer, i :: older⟩ spare ∧
            ∀ j ∈ newer ++ i :: older, p'.itemOf j = p.itemOf j) ∨
        (passedOver nowOff t (p.itemOf i) = false ∧ ∃ p', SievePolicy.evictTurn nowOff (p, t)
          = .ok (.inr (p', t, some (p.itemOf i).idx)) ∧ Listed p' ⟨newer, older⟩ (i :: spare) ∧
            ∀ j ∈ newer ++ older, p'.itemOf j = p.itemOf j)) := by
  by_cases none : p.size = 0
  · have nothing : c.newer ++ c.older = [] := List.eq_nil_of_length_eq_zero (listed.rep.size.symm.trans none)
    obtain ⟨noNewer, noOlder⟩ := List.append_eq_nil_iff.mp nothing
    refine .inl ⟨?_, by simp [SievePolicy.evictTurn, none]⟩
    obtain ⟨newer, older⟩ := c
    simp only at noNewer noOlder
    rw [noNewer, noOlder, Sieve.empty]
  · obtain ⟨newer, i, older, wrapped, whole, here⟩ := listed.current none
    have rep : Rep p (newer ++ i :: older) spare := whole ▸ listed.rep
    have inside : i < p.count := rep.inside i (by simp)
    refine .inr ⟨newer, i, older, wrapped, whole, ?_⟩
    by_cases touched : judge (t.itemAt (p.nodes i).item.idx).metaWord nowOff = .touched
    · -- The item survives in place and the hand moves toward the newest end.
      have set : (p.nodes i).prev = noLink ∨ ∃ j ∈ newer ++ i :: older, (p.nodes i).prev = (j : Int) := by
        refine rep.prev_listed.imp_right fun listed => ?_
        obtain ⟨j, member, at_j⟩ := listed
        exact ⟨j, by simp [member], at_j⟩
      refine .inl ⟨decide_eq_true touched, { p with hand := (p.nodes i).prev }, ?_, ⟨rep.setHand set, ?_⟩,
        fun _ _ => rfl⟩
      · simp [SievePolicy.evictTurn, none, here, nodeAt_eq inside, touched, bind, Except.bind, pure, Except.pure,
          cleared, itemOf]
      · exact rep.neighbors.1
    · obtain ⟨p', removed, rep', moved, items⟩ := removeAt_spec rep
      refine .inr ⟨decide_eq_false touched, p', ?_, ⟨rep', by rw [moved, rep.neighbors.1]; rfl⟩, items⟩
      cases verdict : judge (t.itemAt (p.nodes i).item.idx).metaWord nowOff with
      | touched => exact absurd verdict touched
      | reclaim =>
        simp [SievePolicy.evictTurn, none, here, nodeAt_eq inside, verdict, removed, bind, Except.bind, pure,
          Except.pure, itemOf]
      | idle =>
        simp [SievePolicy.evictTurn, none, here, nodeAt_eq inside, verdict, removed, bind, Except.bind, pure,
          Except.pure, itemOf]

end Listed

/-- Every turn hands out the item under the hand or clears its counter. -/
theorem evictTurn_progress (before : List QNode) (t : FlatHashMap K V) (nowOff : Nat)
    (state : SievePolicy × FlatHashMap K V)
    (holds : state.1.Valid ∧ Scanned before state.1.queued t state.2) :
    Progress (evictTurn nowOff) (fun s => s.1.Valid ∧ Scanned before s.1.queued t s.2)
      (fun s => s.2.chanceSum s.1.queued)
      (fun r => r.1.Valid ∧ Evicted before r.1.queued t r.2.1 r.2.2) state := by
  obtain ⟨p, t'⟩ := state
  obtain ⟨⟨live, spare, rep⟩, scanned⟩ := holds
  simp only at scanned
  obtain ⟨c, rfl, listed⟩ := rep.exists_listed
  have queued := listed.queued
  rcases listed.evictTurn t' nowOff with ⟨rfl, turned⟩ | ⟨newer, i, older, _, whole, step⟩
  · rw [queued] at scanned
    exact .inr ⟨_, turned, ⟨_, _, rep⟩, queued ▸ scanned.nothing⟩
  · have split : p.queued.Perm (p.itemOf i :: (newer ++ older).reverse.map p.itemOf) := by
      rw [queued, whole]
      simp only [List.reverse_append, List.reverse_cons, List.append_assoc, List.singleton_append, List.map_append,
        List.map_cons]
      exact List.perm_middle
    rcases step with ⟨used, p', turned, listed', same⟩ | ⟨_, p', turned, listed', same⟩
    · have touched := of_decide_eq_true used
      have stays : p'.queued = p.queued := by
        rw [queued, whole, listed'.queued]
        exact List.map_congr_left fun j member => same j (List.mem_reverse.mp member)
      have clean := Item.resetChances_chances (t'.itemAt (p.itemOf i).idx)
      have some_chance : (t'.itemAt (p.itemOf i).idx).metaWord.chances ≠ 0 := fun zero =>
        judge_touched touched ((MetaWord.chances_eq_zero_iff _).mp zero)
      obtain ⟨word, entry⟩ := Item.resetChances_steady (t'.itemAt (p.itemOf i).idx)
      have only : t'.OnlyChances (cleared t' (p.itemOf i)) := FlatHashMap.OnlyChances.put word entry (by omega)
      refine .inl ⟨_, turned, ⟨⟨_, _, listed'.rep⟩, stays ▸ scanned.spend only (.refl _)⟩, ?_⟩
      show FlatHashMap.chanceSum _ p'.queued < t'.chanceSum p.queued
      rw [stays, FlatHashMap.chanceSum_perm _ split, FlatHashMap.chanceSum_perm _ split,
        ← FlatHashMap.chanceSum_perm _ (List.perm_append_singleton (p.itemOf i) _)]
      exact FlatHashMap.chanceSum_put_lt only (by omega) _
    · -- Whatever else is listed stays listed, so giving the item up takes one node.
      have rest : p'.queued = (newer ++ older).reverse.map p.itemOf := by
        rw [listed'.queued]
        exact List.map_congr_left fun j member => same j (List.mem_reverse.mp member)
      exact .inr ⟨_, turned, ⟨_, _, listed'.rep⟩, scanned.take (rest ▸ split)⟩

/-- An eviction always ends, and takes one queued node unless there is none. -/
theorem evict_spec {p : SievePolicy} (valid : p.Valid) (t : FlatHashMap K V) (nowOff : Nat) :
    ∃ p' t' victim, p.evict t nowOff = .ok (p', t', victim) ∧ p'.Valid ∧
      Evicted p.queued p'.queued t t' victim := by
  have bound := t.chanceSum_le p.queued
  have size : p.queued.length = p.size := by
    obtain ⟨live, spare, rep⟩ := valid
    rw [rep.queued, List.length_map, List.length_reverse, rep.size]
  obtain ⟨⟨p', t', victim⟩, ran, valid', evicted⟩ :=
    exists_turns_eq (evictTurn_progress p.queued t nowOff) (2 * p.len + 1) (p, t)
      ⟨valid, .refl t, .refl _⟩ (by simp only [len]; omega)
  exact ⟨p', t', victim, ran, valid', evicted⟩

section Rotation

variable {σ : Type}

/-- One position left the list for the spare slots, and a hand that was on it moved toward the newest end. -/
structure Dropped (p p' : SievePolicy) (l : List Nat) (i : Nat) (r spare : List Nat) : Prop where
  rep : Rep p' (l ++ r) (i :: spare)
  hand : p'.hand = if p.hand = (i : Int) then link l.getLast? else p.hand
  items : ∀ j ∈ l ++ r, p'.itemOf j = p.itemOf j

/-- The hand moves off a position toward the newest end before that position is taken out. -/
theorem Rep.unlink_under {p : SievePolicy} {l r spare : List Nat} {i : Nat}
    (rep : Rep p (l ++ i :: r) spare) :
    ∃ p', SievePolicy.unlink (if p.hand = (i : Int) then { p with hand := (p.nodes i).prev } else p) i
        = .ok p' ∧ Dropped p p' l i r spare := by
  by_cases under : p.hand = (i : Int)
  · have inside : i < p.count := rep.inside i (by simp)
    obtain ⟨p', removed, rep', moved, items⟩ := removeAt_spec rep
    refine ⟨p', ?_, rep', by rw [if_pos under, moved, rep.neighbors.1], items⟩
    rw [if_pos under]
    simp only [removeAt, nodeAt_eq inside, bind, Except.bind, pure, Except.pure] at removed
    split at removed
    · exact absurd removed (by simp)
    · rename_i result unlinked
      rw [unlinked]
      simpa using removed
  · rw [if_neg under]
    obtain ⟨p', unlinked, rep', handSame, items⟩ := unlink_spec rep under
    exact ⟨p', unlinked, rep', by rw [if_neg under, handSame], items⟩

/-- The position leaves the abstract list, and a hand that was on it is on the next newer one. -/
theorem Listed.drop {p p' : SievePolicy} {c : Sieve Nat} {l r spare : List Nat} {i : Nat}
    (listed : Listed p c spare) (whole : c.items = l ++ i :: r) (dropped : Dropped p p' l i r spare) :
    Listed p' (c.filter (· != i)) (i :: spare) := by
  have distinct := whole ▸ listed.nodup
  have fresh : i ∉ l := fun member => (List.nodup_append.mp distinct).2.2 i member i (by simp) rfl
  constructor
  · rw [Sieve.items_filter, whole, ← distinct.erase_eq_filter, List.erase_append_right _ fresh, List.erase_cons_head]
    exact dropped.rep
  · rw [dropped.hand, listed.hand, Sieve.hand, Sieve.hand]
    rcases List.eq_nil_or_concat c.newer with none | ⟨newer, j, some⟩
    · have unset : (-1 : Int) ≠ i := by omega
      simp [none, Sieve.filter, unset]
    · rw [List.concat_eq_append] at some
      have here : newer ++ j :: c.older = l ++ i :: r := by rw [← whole, Sieve.items, some]; simp
      have freshNewer : j ∉ newer := by
        rw [← here] at distinct
        exact fun member => (List.nodup_append.mp distinct).2.2 j member j (by simp) rfl
      by_cases same : j = i
      · subst same
        obtain rfl : newer = l := by
          have older : j ∉ c.older := by
            rw [← here] at distinct
            exact (List.nodup_cons.mp (List.nodup_append.mp distinct).2.1).1
          exact ((List.append_cons_inj_of_notMem freshNewer older).mp here).1
        have gone : (c.filter (· != j)).newer = newer := by
          have others : newer.filter (· != j) = newer := List.filter_eq_self.mpr fun k member =>
            bne_iff_ne.mpr fun at_k => freshNewer (at_k ▸ member)
          simp [Sieve.filter, some, others]
        rw [gone, some]
        simp
      · simp [Sieve.filter, some, same]

/-- A sweep drops a dead item and goes on to the next older one. -/
theorem Rep.sweepTurn_dead {p : SievePolicy} {l r spare : List Nat} {i : Nat} (rep : Rep p (l ++ i :: r) spare)
    {buried : σ → Nat → Bool} {s : σ} (dead : buried s (p.itemOf i).idx = true) (release : σ → Nat → σ) :
    ∃ p', sweepTurn buried release ((i : Int), p, s)
        = .ok (.inl (link r.head?, p', release s (p.itemOf i).idx)) ∧ Dropped p p' l i r spare := by
  obtain ⟨p', unlinked, dropped⟩ := rep.unlink_under
  have some_link : (i : Int) ≠ noLink := by simp only [noLink]; omega
  rw [itemOf] at dead
  refine ⟨p', ?_, dropped⟩
  simp only [sweepTurn, if_neg some_link, nodeAt_eq (rep.inside i (by simp)), bind, Except.bind, dead, if_true,
    unlinked, rep.neighbors.2, pure, Except.pure, itemOf]

/-- A sweep leaves an item that is not dead and goes on to the next older one. -/
theorem Rep.sweepTurn_alive {p : SievePolicy} {l r spare : List Nat} {i : Nat} (rep : Rep p (l ++ i :: r) spare)
    {buried : σ → Nat → Bool} {s : σ} (alive : ¬ buried s (p.itemOf i).idx = true) (release : σ → Nat → σ) :
    sweepTurn buried release ((i : Int), p, s) = .ok (.inl (link r.head?, p, s)) := by
  have some_link : (i : Int) ≠ noLink := by simp only [noLink]; omega
  rw [itemOf] at alive
  simp only [sweepTurn, if_neg some_link, nodeAt_eq (rep.inside i (by simp)), bind, Except.bind, if_neg alive,
    rep.neighbors.2, pure, Except.pure]

/-- Partway through a sweep, the dead among the seen positions are gone and released. -/
structure SweepState (dead : Nat → Bool) (release : σ → Nat → σ) (p₀ : SievePolicy) (s₀ : σ) (c : Sieve Nat)
    (seen todo : List Nat) (state : Int × SievePolicy × σ) : Prop where
  next : state.1 = link todo.head?
  listed : ∃ spare, Listed state.2.1 (c.filter fun j => decide (j ∈ todo) || !dead j) spare
  items : ∀ j ∈ c.items, j ∈ todo ∨ dead j = false → state.2.1.itemOf j = p₀.itemOf j
  released : state.2.2 = ((seen.filter dead).map p₀.itemOf).foldl (fun s n => release s n.idx) s₀

/-- One step of a sweep sees one more position. -/
theorem sweepTurn_spec {buried : σ → Nat → Bool} {release : σ → Nat → σ}
    (stable : ∀ s idx other, buried (release s idx) other = buried s other) {p₀ : SievePolicy} {s₀ : σ}
    {c : Sieve Nat} {seen rest : List Nat} {i : Nat} (whole : c.items = seen ++ i :: rest) (distinct : c.items.Nodup)
    {state : Int × SievePolicy × σ}
    (holds : SweepState (fun j => buried s₀ (p₀.itemOf j).idx) release p₀ s₀ c seen (i :: rest) state) :
    ∃ state', sweepTurn buried release state = .ok (.inl state') ∧
      SweepState (fun j => buried s₀ (p₀.itemOf j).idx) release p₀ s₀ c (seen ++ [i]) rest state' := by
  obtain ⟨cur, p, s⟩ := state
  obtain ⟨next, ⟨spare, listed⟩, items, released⟩ := holds
  simp only [List.head?_cons, link_some] at next listed items released
  subst next
  rw [whole] at distinct
  obtain ⟨_, distinctRest, apart⟩ := List.nodup_append.mp distinct
  have fresh : i ∉ rest := (List.nodup_cons.mp distinctRest).1
  -- What is listed now: the living among the seen ones, and all that are to come.
  have shape : (c.filter fun j => decide (j ∈ i :: rest) || !buried s₀ (p₀.itemOf j).idx).items
      = seen.filter (fun j => decide (j ∈ i :: rest) || !buried s₀ (p₀.itemOf j).idx) ++ i :: rest := by
    have all : (i :: rest).filter (fun j => decide (j ∈ i :: rest) || !buried s₀ (p₀.itemOf j).idx) = i :: rest :=
      List.filter_eq_self.mpr fun j member => by simp [List.mem_cons.mp member]
    rw [Sieve.items_filter, whole, List.filter_append, all]
  have left := shape ▸ listed.rep
  have same : p.itemOf i = p₀.itemOf i := items i (by simp [whole]) (.inl (by simp))
  have verdict : buried s = buried s₀ := by
    rw [released]
    exact foldl_release_buried stable _ s₀
  by_cases dead : buried s₀ (p₀.itemOf i).idx = true
  · have here : buried s (p.itemOf i).idx = true := by rw [verdict, same, dead]
    obtain ⟨p', turned, dropped⟩ := left.sweepTurn_dead here release
    refine ⟨_, turned, rfl, ⟨i :: spare, ?_⟩, fun j member stays => ?_, ?_⟩
    · have gone := listed.drop shape dropped
      rw [Sieve.filter_filter] at gone
      refine Sieve.filter_congr (fun j _ => ?_) ▸ gone
      by_cases here : j = i
      · simp [here, fresh, dead]
      · simp [here]
    · have other : j ≠ i := by
        rintro rfl
        simp [fresh, dead] at stays
      refine (dropped.items j ?_).trans (items j member (stays.imp_left (List.mem_cons_of_mem i)))
      rw [whole] at member
      simp only [List.mem_append, List.mem_cons, List.mem_filter, other, false_or] at member ⊢
      rcases member with before | after
      · exact (em (j ∈ rest)).symm.imp (fun away => ⟨before, by simpa [other, away] using stays⟩) id
      · exact .inr after
    · simp [List.filter_append, dead, released, same]
  · refine ⟨_, left.sweepTurn_alive (by rw [verdict, same]; exact dead) release, rfl, ⟨spare, ?_⟩,
      fun j member stays => items j member (stays.imp_left (List.mem_cons_of_mem i)), ?_⟩
    · refine Sieve.filter_congr (fun j _ => ?_) ▸ listed
      by_cases here : j = i
      · simp [here, dead]
      · simp [here]
    · simpa [List.filter_append, dead] using released

/-- A sweep drops exactly the positions of dead items, newest first. -/
theorem Listed.sweep {buried : σ → Nat → Bool} {release : σ → Nat → σ}
    (stable : ∀ s idx other, buried (release s idx) other = buried s other) {p : SievePolicy} {c : Sieve Nat}
    {spare : List Nat} (listed : Listed p c spare) (s : σ) :
    ∃ p' s' spare', p.sweep buried release s = .ok (p', s') ∧
      Listed p' (c.filter fun j => !buried s (p.itemOf j).idx) spare' ∧
      (∀ j ∈ c.items, buried s (p.itemOf j).idx = false → p'.itemOf j = p.itemOf j) ∧
      s' = ((c.items.filter fun j => buried s (p.itemOf j).idx).map p.itemOf).foldl (fun s n => release s n.idx) s := by
  have distinct := listed.nodup
  -- The rank is how many positions the walk has before it.
  have progress : ∀ n state, (∃ seen todo, c.items = seen ++ todo ∧ todo.length = n ∧
      SweepState (fun j => buried s (p.itemOf j).idx) release p s c seen todo state) →
      (∃ state', sweepTurn buried release state = .ok (.inl state') ∧ ∃ m < n, ∃ seen todo,
        c.items = seen ++ todo ∧ todo.length = m ∧
          SweepState (fun j => buried s (p.itemOf j).idx) release p s c seen todo state') ∨
      ∃ result, sweepTurn buried release state = .ok (.inr result) ∧
        SweepState (fun j => buried s (p.itemOf j).idx) release p s c c.items [] (noLink, result) := by
    rintro n state ⟨seen, todo, whole, rfl, holds⟩
    cases todo with
    | nil =>
      obtain ⟨cur, p', s'⟩ := state
      have ended : cur = noLink := holds.next
      rw [List.append_nil] at whole
      exact .inr ⟨(p', s'), by simp [sweepTurn, ended], rfl, holds.listed, holds.items, whole ▸ holds.released⟩
    | cons i rest =>
      obtain ⟨state', stepped, holds'⟩ := sweepTurn_spec stable whole distinct holds
      exact .inl ⟨state', stepped, rest.length, by simp, seen ++ [i], rest, by simp [whole], rfl, holds'⟩
  have start : SweepState (fun j => buried s (p.itemOf j).idx) release p s c [] c.items (p.head, p, s) := by
    refine ⟨listed.rep.head, ⟨spare, ?_⟩, fun _ _ _ => rfl, rfl⟩
    have all : c.filter (fun j => decide (j ∈ c.items) || !buried s (p.itemOf j).idx) = c.filter fun _ => true :=
      Sieve.filter_congr fun j member => by simp [member]
    rw [all]
    simpa [Sieve.filter] using listed
  obtain ⟨⟨p', s'⟩, ran, _, ⟨spare', listed'⟩, items, released⟩ :=
    exists_turns_of_rank progress (p.len + 1) c.items.length (p.head, p, s)
      ⟨[], c.items, rfl, rfl, start⟩ (by simp only [len, listed.rep.size]; omega)
  exact ⟨p', s', spare', ran, by simpa using listed', fun j member alive => items j member (.inr alive), released⟩

/-- A sweep drops exactly the nodes of dead items, newest first, and keeps the order of the rest. -/
theorem sweep_spec {buried : σ → Nat → Bool} {release : σ → Nat → σ}
    (stable : ∀ s idx other, buried (release s idx) other = buried s other) {p : SievePolicy}
    (valid : p.Valid) (s : σ) :
    ∃ p' s', p.sweep buried release s = .ok (p', s') ∧ p'.Valid ∧
      p'.queued = p.queued.filter (fun node => !buried s node.idx) ∧
      s' = (p.queued.filter fun node => buried s node.idx).reverse.foldl
        (fun s n => release s n.idx) s := by
  obtain ⟨live, spare, rep⟩ := valid
  obtain ⟨c, rfl, listed⟩ := rep.exists_listed
  obtain ⟨p', s', spare', ran, listed', items, released⟩ := listed.sweep stable s
  refine ⟨p', s', ran, ⟨_, _, listed'.rep⟩, ?_, ?_⟩
  · rw [listed'.queued, listed.queued, List.filter_map, List.filter_reverse, Sieve.items_filter]
    refine List.map_congr_left fun j member => ?_
    obtain ⟨member, alive⟩ := List.mem_filter.mp (List.mem_reverse.mp member)
    exact items j member (by simpa using alive)
  · rw [released, listed.queued, List.filter_map, List.filter_reverse, ← List.map_reverse, List.reverse_reverse]
    rfl

/-- Giving a node another item leaves the list as it is. -/
theorem Rep.retarget {p : SievePolicy} {live spare : List Nat} (rep : Rep p live spare) (i : Nat)
    (item : QNode) :
    Rep { p with nodes := Function.update p.nodes i { p.nodes i with item := item } } live spare := by
  have links : ∀ j, (Function.update p.nodes i { p.nodes i with item := item } j).prev
      = (p.nodes j).prev ∧ (Function.update p.nodes i { p.nodes i with item := item } j).next
      = (p.nodes j).next := by
    intro j
    by_cases here : j = i
    · subst here; simp
    · simp [here]
  exact ⟨rep.distinct, rep.inside, rep.cover,
    rep.chain.congr (fun j _ => (links j).1) fun j _ => (links j).2,
    rep.spareChain.congr fun j _ => (links j).2, rep.head, rep.tail, rep.free, rep.hand, rep.size⟩

section Visits

variable {remap : σ → Nat → Except Fault (σ × Option Nat)} {old new : Nat → QNode} {stays : Nat → Bool}

/-- Positions are visited in turn, and those that stay have their items at new indices. -/
def Visits (remap : σ → Nat → Except Fault (σ × Option Nat)) (old new : Nat → QNode) (stays : Nat → Bool) :
    σ → List Nat → σ → Prop
  | s, [], s' => s' = s
  | s, i :: rest, s' => ∃ s₁ target, remap s (old i).idx = .ok (s₁, target) ∧ stays i = target.isSome ∧
      (∀ idx, target = some idx → new i = { old i with idx := idx }) ∧ Visits remap old new stays s₁ rest s'

/-- Visiting more positions goes on from where the first ones led. -/
theorem visits_append {front back : List Nat} : ∀ {s s' : σ}, Visits remap old new stays s (front ++ back) s' ↔
    ∃ s₁, Visits remap old new stays s front s₁ ∧ Visits remap old new stays s₁ back s' := by
  induction front with
  | nil => simp [Visits]
  | cons i rest ih =>
    intro s s'
    simp only [List.cons_append, Visits, ih]
    constructor
    · rintro ⟨s₁, target, moved, kept, item, s₂, first, second⟩
      exact ⟨s₂, ⟨s₁, target, moved, kept, item, first⟩, second⟩
    · rintro ⟨s₂, ⟨s₁, target, moved, kept, item, first⟩, second⟩
      exact ⟨s₁, target, moved, kept, item, s₂, first, second⟩

/-- Only the visited positions matter, and of those that leave not even the items. -/
theorem Visits.congr {new' : Nat → QNode} {stays' : Nat → Bool} {visited : List Nat}
    (same : ∀ j ∈ visited, stays' j = stays j ∧ (stays j = true → new' j = new j)) : ∀ {s s' : σ},
    Visits remap old new stays s visited s' → Visits remap old new' stays' s visited s' := by
  induction visited with
  | nil => exact fun visits => visits
  | cons i rest ih =>
    rintro s s' ⟨s₁, target, moved, kept, item, later⟩
    obtain ⟨agree, items⟩ := same i (by simp)
    refine ⟨s₁, target, moved, agree.trans kept, fun idx named => ?_,
      ih (fun j member => same j (by simp [member])) later⟩
    rw [items (by rw [kept, named]; rfl), item idx named]

/-- A visit re-links the items of the visited positions. -/
theorem Visits.relink {visited : List Nat} : ∀ {s s' : σ}, Visits remap old new stays s visited s' →
    relink remap s (visited.map old) = .ok (s', (visited.filter stays).map new) := by
  induction visited with
  | nil => rintro s _ rfl; rfl
  | cons i rest ih =>
    rintro s s' ⟨s₁, target, moved, kept, item, later⟩
    cases target with
    | none =>
      rw [List.map_cons, List.filter_cons_of_neg (by simp [kept])]
      exact relink_cons_none moved (ih later)
    | some idx =>
      rw [List.map_cons, List.filter_cons_of_pos (by simp [kept]), List.map_cons, item idx rfl]
      exact relink_cons_some moved (ih later)

end Visits

/-- A rebuild gives an item its new index and goes on to the next newer one. -/
theorem Rep.rebuildTurn_kept {p : SievePolicy} {l r spare : List Nat} {i newIdx : Nat} {s s' : σ}
    (rep : Rep p (l ++ i :: r) spare) {remap : σ → Nat → Except Fault (σ × Option Nat)}
    (moved : remap s (p.itemOf i).idx = .ok (s', some newIdx)) :
    rebuildTurn remap ((i : Int), p, s) = .ok (.inl (link l.getLast?,
      { p with nodes := Function.update p.nodes i { p.nodes i with item := { (p.nodes i).item with idx := newIdx } } },
      s')) := by
  have inside : i < p.count := rep.inside i (by simp)
  have some_link : (i : Int) ≠ noLink := by simp only [noLink]; omega
  rw [itemOf] at moved
  simp only [rebuildTurn, if_neg some_link, nodeAt_eq inside, bind, Except.bind, moved, modifyAt_eq inside,
    rep.neighbors.1, pure, Except.pure]

/-- A rebuild drops an item that was not moved and goes on to the next newer one. -/
theorem Rep.rebuildTurn_dropped {p : SievePolicy} {l r spare : List Nat} {i : Nat} {s s' : σ}
    (rep : Rep p (l ++ i :: r) spare) {remap : σ → Nat → Except Fault (σ × Option Nat)}
    (moved : remap s (p.itemOf i).idx = .ok (s', none)) :
    ∃ p', rebuildTurn remap ((i : Int), p, s) = .ok (.inl (link l.getLast?, p', s')) ∧
      Dropped p p' l i r spare := by
  obtain ⟨p', unlinked, dropped⟩ := rep.unlink_under
  have some_link : (i : Int) ≠ noLink := by simp only [noLink]; omega
  rw [itemOf] at moved
  refine ⟨p', ?_, dropped⟩
  simp only [rebuildTurn, if_neg some_link, nodeAt_eq (rep.inside i (by simp)), bind, Except.bind, moved, unlinked,
    pure, Except.pure]
  rw [rep.neighbors.1]

/-- Partway through a rebuild, the visited positions are re-linked or gone and the newer ones are to come. -/
structure RebuildState (remap : σ → Nat → Except Fault (σ × Option Nat)) (p₀ : SievePolicy) (s₀ final : σ)
    (c : Sieve Nat) (todo visited : List Nat) (state : Int × SievePolicy × σ) : Prop where
  next : state.1 = link todo.getLast?
  rest : ∃ kept, relink remap state.2.2 (todo.reverse.map p₀.itemOf) = .ok (final, kept)
  items : ∀ j ∈ todo, state.2.1.itemOf j = p₀.itemOf j
  listed : ∃ stays spare, Listed state.2.1 (c.filter fun j => decide (j ∈ todo) || stays j) spare ∧
    Visits remap p₀.itemOf state.2.1.itemOf stays s₀ visited.reverse state.2.2

/-- One step of a rebuild re-links or drops the oldest position to come. -/
theorem rebuildTurn_spec {remap : σ → Nat → Except Fault (σ × Option Nat)} {p₀ : SievePolicy} {s₀ final : σ}
    {c : Sieve Nat} {todo visited : List Nat} {i : Nat} (whole : c.items = todo ++ i :: visited)
    (distinct : c.items.Nodup) {state : Int × SievePolicy × σ}
    (holds : RebuildState remap p₀ s₀ final c (todo ++ [i]) visited state) :
    ∃ state', rebuildTurn remap state = .ok (.inl state') ∧
      RebuildState remap p₀ s₀ final c todo (i :: visited) state' := by
  obtain ⟨cur, p, s⟩ := state
  obtain ⟨next, ⟨kept, linked⟩, items, stays, spare, listed, visits⟩ := holds
  simp only [List.getLast?_append, List.getLast?_singleton, Option.some_or, link_some, List.reverse_append,
    List.reverse_singleton, List.singleton_append, List.map_cons] at next linked items listed visits
  subst next
  rw [whole] at distinct
  obtain ⟨_, distinctRest, apart⟩ := List.nodup_append.mp distinct
  have freshTodo : i ∉ todo := fun member => apart i member i (by simp) rfl
  have other : ∀ j ∈ visited, j ≠ i := fun j member same => (List.nodup_cons.mp distinctRest).1 (same ▸ member)
  have same : p.itemOf i = p₀.itemOf i := items i (by simp)
  -- What is listed now: all that are to come, and those of the visited ones that stay.
  have shape : (c.filter fun j => decide (j ∈ todo ++ [i]) || stays j).items
      = todo ++ i :: visited.filter fun j => decide (j ∈ todo ++ [i]) || stays j := by
    rw [Sieve.items_filter, whole, List.filter_append, List.filter_eq_self.mpr fun j member => by simp [member],
      List.filter_cons_of_pos (by simp)]
  have left := shape ▸ listed.rep
  rw [← same] at linked
  rcases relink_cons linked with ⟨s₁, newIdx, keptMore, moved, tail, rfl⟩ | ⟨s₁, moved, tail⟩
  · have still : Listed p (c.filter fun j => decide (j ∈ todo) || Function.update stays i true j) spare := by
      refine Sieve.filter_congr (fun j _ => ?_) ▸ listed
      by_cases here : j = i
      · simp [here]
      · simp [here]
    refine ⟨_, left.rebuildTurn_kept moved, rfl, ⟨keptMore, tail⟩, fun j member => ?_,
      Function.update stays i true, spare, ⟨still.rep.retarget i _, still.hand⟩, ?_⟩
    · have away : j ≠ i := fun at_j => freshTodo (at_j ▸ member)
      simpa [itemOf, away] using items j (by simp [member])
    · rw [List.reverse_cons, visits_append]
      refine ⟨s, visits.congr fun j member => ?_, s₁, some newIdx, same ▸ moved, by simp, ?_, rfl⟩
      · have away := other j (List.mem_reverse.mp member)
        simp [itemOf, away]
      · rintro idx ⟨⟩
        rw [← same]
        simp [itemOf]
  · obtain ⟨p', turned, dropped⟩ := left.rebuildTurn_dropped moved
    refine ⟨_, turned, rfl, ⟨kept, tail⟩, fun j member => ?_, Function.update stays i false, i :: spare, ?_, ?_⟩
    · exact (dropped.items j (by simp [member])).trans (items j (by simp [member]))
    · have gone := listed.drop shape dropped
      rw [Sieve.filter_filter] at gone
      refine Sieve.filter_congr (fun j _ => ?_) ▸ gone
      by_cases here : j = i
      · simp [here, freshTodo]
      · simp [here]
    · rw [List.reverse_cons, visits_append]
      refine ⟨s, visits.congr fun j member => ?_, s₁, none, same ▸ moved, by simp, by simp, rfl⟩
      have member := List.mem_reverse.mp member
      refine ⟨by simp [other j member], fun stay => dropped.items j ?_⟩
      exact List.mem_append_right _ (List.mem_filter.mpr ⟨member, by simp [stay]⟩)

/-- A rebuild visits the listed positions from the oldest on. -/
theorem Listed.rebuild {remap : σ → Nat → Except Fault (σ × Option Nat)} {p : SievePolicy} {c : Sieve Nat}
    {spare : List Nat} (listed : Listed p c spare) {s final : σ} {kept : List QNode}
    (linked : relink remap s (c.items.reverse.map p.itemOf) = .ok (final, kept)) :
    ∃ p' stays spare', p.rebuild remap s = .ok (p', final) ∧ Listed p' (c.filter stays) spare' ∧
      Visits remap p.itemOf p'.itemOf stays s c.items.reverse final := by
  have distinct := listed.nodup
  have progress : ∀ n state, (∃ todo visited, c.items = todo ++ visited ∧ todo.length = n ∧
      RebuildState remap p s final c todo visited state) →
      (∃ state', rebuildTurn remap state = .ok (.inl state') ∧ ∃ m < n, ∃ todo visited,
        c.items = todo ++ visited ∧ todo.length = m ∧ RebuildState remap p s final c todo visited state') ∨
      ∃ result, rebuildTurn remap state = .ok (.inr result) ∧
        RebuildState remap p s final c [] c.items (noLink, result) := by
    rintro n state ⟨todo, visited, whole, rfl, holds⟩
    rcases List.eq_nil_or_concat todo with rfl | ⟨rest, i, rfl⟩
    · obtain ⟨cur, p', s'⟩ := state
      have ended : cur = noLink := holds.next
      rw [List.nil_append] at whole
      exact .inr ⟨(p', s'), by simp [rebuildTurn, ended], rfl, holds.rest, holds.items, whole ▸ holds.listed⟩
    · rw [List.concat_eq_append] at holds whole
      rw [List.append_assoc, List.singleton_append] at whole
      obtain ⟨state', stepped, holds'⟩ := rebuildTurn_spec whole distinct holds
      exact .inl ⟨state', stepped, rest.length, by simp, rest, i :: visited, whole, rfl, holds'⟩
  have start : RebuildState remap p s final c c.items [] (p.tail, p, s) := by
    refine ⟨listed.rep.tail, ⟨kept, linked⟩, fun _ _ => rfl, fun _ => false, spare, ?_, rfl⟩
    have all : c.filter (fun j => decide (j ∈ c.items) || false) = c.filter fun _ => true :=
      Sieve.filter_congr fun j member => by simp [member]
    rw [all]
    simpa [Sieve.filter] using listed
  obtain ⟨⟨p', s'⟩, ran, _, ⟨more, ended⟩, _, stays, spare', listed', visits⟩ :=
    exists_turns_of_rank progress (p.len + 1) c.items.length (p.tail, p, s) ⟨c.items, [], by simp, rfl, start⟩
      (by simp only [len, listed.rep.size]; omega)
  cases ended
  exact ⟨p', stays, spare', ran, by simpa using listed', visits⟩

/-- A rebuild re-links the queued nodes, oldest first. -/
theorem rebuild_spec {remap : σ → Nat → Except Fault (σ × Option Nat)} {p : SievePolicy}
    (valid : p.Valid) {s s' : σ} {kept : List QNode}
    (linked : relink remap s p.queued = .ok (s', kept)) :
    ∃ p', p.rebuild remap s = .ok (p', s') ∧ p'.Valid ∧ p'.queued = kept := by
  obtain ⟨live, spare, rep⟩ := valid
  obtain ⟨c, rfl, listed⟩ := rep.exists_listed
  rw [listed.queued] at linked
  obtain ⟨p', stays, spare', ran, listed', visits⟩ := listed.rebuild linked
  refine ⟨p', ran, ⟨_, _, listed'.rep⟩, ?_⟩
  rw [visits.relink] at linked
  cases linked
  rw [listed'.queued, Sieve.items_filter, List.filter_reverse]

end Rotation

section Count

variable {p p' : SievePolicy}

theorem modifyAt_count {i : Int} {f : SieveNode → SieveNode} (ran : p.modifyAt i f = .ok p') :
    p'.count = p.count := by
  unfold modifyAt at ran
  split at ran
  · cases ran; rfl
  · cases ran

theorem joinNewer_count {newer target : Int} (ran : p.joinNewer newer target = .ok p') :
    p'.count = p.count := by
  unfold joinNewer at ran
  split at ran
  · exact modifyAt_count ran
  · cases ran; rfl

theorem joinOlder_count {older target : Int} (ran : p.joinOlder older target = .ok p') :
    p'.count = p.count := by
  unfold joinOlder at ran
  split at ran
  · exact modifyAt_count ran
  · cases ran; rfl

/-- Taking a node out leaves its slot in the slice. -/
theorem unlink_count {cur : Int} (ran : p.unlink cur = .ok p') : p'.count = p.count := by
  obtain ⟨node, _, ran⟩ := exists_of_bind_eq_ok ran
  obtain ⟨p₁, first, ran⟩ := exists_of_bind_eq_ok ran
  obtain ⟨p₂, second, ran⟩ := exists_of_bind_eq_ok ran
  obtain ⟨p₃, third, ran⟩ := exists_of_bind_eq_ok ran
  cases ran
  exact (modifyAt_count third).trans ((joinOlder_count second).trans (joinNewer_count first))

/-- Queueing a node grows the slice by at most one. -/
theorem add_count_le {node : QNode} (ran : p.add node = .ok p') : p'.count ≤ p.count + 1 := by
  obtain ⟨⟨p₁, cur⟩, allocated, ran⟩ := exists_of_bind_eq_ok ran
  obtain ⟨p₂, first, ran⟩ := exists_of_bind_eq_ok ran
  obtain ⟨p₃, second, ran⟩ := exists_of_bind_eq_ok ran
  cases ran
  have grown : p₁.count ≤ p.count + 1 := by
    unfold alloc at allocated
    split at allocated
    · obtain ⟨spare, _, allocated⟩ := exists_of_bind_eq_ok allocated
      cases allocated
      exact Nat.le_succ _
    · cases allocated
      exact le_rfl
  have same := (joinOlder_count second).trans (modifyAt_count first)
  exact same.trans_le grown

/-- Re-linking the list leaves the slice as long as it was. -/
theorem rebuild_count {σ : Type} {remap : σ → Nat → Except Fault (σ × Option Nat)} {s s' : σ}
    (ran : p.rebuild remap s = .ok (p', s')) : p'.count = p.count := by
  refine turns_keeps (fun state : Int × SievePolicy × σ => state.2.1.count = p.count)
    (fun result : SievePolicy × σ => result.1.count = p.count) ?_ _ _ _ rfl ran
  rintro ⟨cur, q, s⟩ out same turned
  unfold rebuildTurn at turned
  simp only at turned
  split at turned
  · cases turned
    exact same
  · obtain ⟨node, _, turned⟩ := exists_of_bind_eq_ok turned
    obtain ⟨⟨s₁, target⟩, _, turned⟩ := exists_of_bind_eq_ok turned
    cases target with
    | some newIdx =>
      obtain ⟨q₁, modified, turned⟩ := exists_of_bind_eq_ok turned
      cases turned
      exact (modifyAt_count modified).trans same
    | none =>
      obtain ⟨q₁, unlinked, turned⟩ := exists_of_bind_eq_ok turned
      cases turned
      refine (unlink_count unlinked).trans ?_
      split
      · exact same
      · exact same

/-- Queueing a node takes a spare position when there is one. -/
theorem add_count_of_spare {node : QNode} (spare : p.free ≠ noLink) (ran : p.add node = .ok p') :
    p'.count = p.count := by
  obtain ⟨⟨p₁, cur⟩, allocated, ran⟩ := exists_of_bind_eq_ok ran
  obtain ⟨p₂, first, ran⟩ := exists_of_bind_eq_ok ran
  obtain ⟨p₃, second, ran⟩ := exists_of_bind_eq_ok ran
  cases ran
  have same : p₁.count = p.count := by
    rw [alloc, if_pos spare] at allocated
    obtain ⟨taken, _, allocated⟩ := exists_of_bind_eq_ok allocated
    cases allocated
    rfl
  exact (joinOlder_count second).trans ((modifyAt_count first).trans same)

/-- Giving an item up leaves the slice as long as it was. -/
theorem evict_count {t t' : FlatHashMap K V} {nowOff : Nat} {victim : Option Nat}
    (ran : p.evict t nowOff = .ok (p', t', victim)) : p'.count = p.count := by
  refine turns_keeps (fun state : SievePolicy × FlatHashMap K V => state.1.count = p.count)
    (fun result : SievePolicy × FlatHashMap K V × Option Nat => result.1.count = p.count) ?_ _ _ _ rfl ran
  rintro ⟨q, t⟩ out same turned
  unfold evictTurn at turned
  simp only at turned
  split at turned
  · cases turned
    exact same
  · obtain ⟨node, _, turned⟩ := exists_of_bind_eq_ok turned
    split at turned
    · cases turned
      exact same
    · obtain ⟨⟨q₁, idx⟩, removed, turned⟩ := exists_of_bind_eq_ok turned
      cases turned
      obtain ⟨node', _, removed⟩ := exists_of_bind_eq_ok removed
      obtain ⟨q₂, unlinked, removed⟩ := exists_of_bind_eq_ok removed
      cases removed
      exact (unlink_count unlinked).trans same

/-- A sweep leaves the slice as long as it was. -/
theorem sweep_count {σ : Type} {buried : σ → Nat → Bool} {release : σ → Nat → σ} {s s' : σ}
    (ran : p.sweep buried release s = .ok (p', s')) : p'.count = p.count := by
  refine turns_keeps (fun state : Int × SievePolicy × σ => state.2.1.count = p.count)
    (fun result : SievePolicy × σ => result.1.count = p.count) ?_ _ _ _ rfl ran
  rintro ⟨cur, q, s⟩ out same turned
  unfold sweepTurn at turned
  simp only at turned
  split at turned
  · cases turned
    exact same
  · obtain ⟨node, _, turned⟩ := exists_of_bind_eq_ok turned
    split at turned
    · obtain ⟨q₁, unlinked, turned⟩ := exists_of_bind_eq_ok turned
      cases turned
      refine (unlink_count unlinked).trans ?_
      split
      · exact same
      · exact same
    · cases turned
      exact same

end Count

end SievePolicy

end Memstash
