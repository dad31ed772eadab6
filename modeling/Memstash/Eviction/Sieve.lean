import Memstash.Eviction.Chances
import Memstash.Lib.Links
import Memstash.Lib.Machine

/-! SIEVE: one insertion-ordered list in a slice, scanned in place by a hand. -/

namespace Memstash

open Scan Turns Machine

variable {K V : Type}

/-- An absent neighbor, or a hand that is not set. -/
def noLink : Int := -1

/-- A queue node with its neighbors: `prev` is newer, `next` is older or the next free slot. -/
structure SieveNode where
  item : QNode
  prev : Int
  next : Int
  deriving DecidableEq, Repr, Inhabited

/-- The SIEVE policy, its slice given by its length and what each position holds. -/
structure SievePolicy where
  nodes : Nat → SieveNode
  count : Nat
  free : Int
  head : Int
  tail : Int
  hand : Int
  size : Nat

/-- A policy with nothing queued. -/
def newSieve : SievePolicy :=
  { nodes := fun _ => default, count := 0, free := noLink, head := noLink, tail := noLink,
    hand := noLink, size := 0 }

namespace SievePolicy

/-- Read one position of the slice, which panics outside it. -/
def nodeAt (p : SievePolicy) (i : Int) : Except Fault SieveNode :=
  if 0 ≤ i ∧ i < p.count then .ok (p.nodes i.toNat) else .error .panic

/-- Change one position of the slice, which panics outside it. -/
def modifyAt (p : SievePolicy) (i : Int) (f : SieveNode → SieveNode) : Except Fault SievePolicy :=
  if 0 ≤ i ∧ i < p.count then
    .ok { p with nodes := Function.update p.nodes i.toNat (f (p.nodes i.toNat)) }
  else .error .panic

/-- Hand out a node slot: from the freelist, or by growing the slice. -/
def alloc (p : SievePolicy) : Except Fault (SievePolicy × Int) :=
  if p.free ≠ noLink then do
    let node ← p.nodeAt p.free
    return ({ p with free := node.next }, p.free)
  else
    let p := { p with nodes := Function.update p.nodes p.count default, count := p.count + 1 }
    -- The position is stored in 32 bits, whatever the length of the slice.
    .ok (p, int32 (p.count - 1))

/-- How many nodes are queued. -/
def len (p : SievePolicy) : Nat := p.size

/-- Point the newer neighbor on to another node, or the head when there is no neighbor. -/
def joinNewer (p : SievePolicy) (newer target : Int) : Except Fault SievePolicy :=
  if newer ≠ noLink then p.modifyAt newer fun node => { node with next := target }
  else .ok { p with head := target }

/-- Point the older neighbor back at another node, or the tail when there is no neighbor. -/
def joinOlder (p : SievePolicy) (older target : Int) : Except Fault SievePolicy :=
  if older ≠ noLink then p.modifyAt older fun node => { node with prev := target }
  else .ok { p with tail := target }

/-- Queue a new item at the newest end. -/
def add (p : SievePolicy) (node : QNode) : Except Fault SievePolicy := do
  let (p, cur) ← p.alloc
  let p ← p.modifyAt cur fun _ => { item := node, prev := noLink, next := p.head }
  let p ← p.joinOlder p.head cur
  return { p with head := cur, size := p.size + 1 }

/-- Take a node out of the list and push its slot onto the freelist. -/
def unlink (p : SievePolicy) (cur : Int) : Except Fault SievePolicy := do
  let node ← p.nodeAt cur
  let p ← p.joinNewer node.prev node.next
  let p ← p.joinOlder node.next node.prev
  let p ← p.modifyAt cur fun node => { node with item := default, next := p.free }
  return { p with free := cur, size := p.size - 1 }

/-- Advance the hand past a node, take the node out and return its item's slot. -/
def removeAt (p : SievePolicy) (cur : Int) : Except Fault (SievePolicy × Nat) := do
  let node ← p.nodeAt cur
  let p ← { p with hand := node.prev }.unlink cur
  return (p, node.item.idx)

/-- One turn of an eviction: the item under the hand is given up, or survives in place. -/
def evictTurn (nowOff : Nat) (state : SievePolicy × FlatHashMap K V) :
    Except Fault ((SievePolicy × FlatHashMap K V) ⊕
      (SievePolicy × FlatHashMap K V × Option Nat)) :=
  let (p, t) := state
  if p.size = 0 then .ok (.inr (p, t, none))
  else do
    -- A hand that ran off the newest end resumes from the oldest item.
    let cur := if p.hand = noLink then p.tail else p.hand
    let node ← p.nodeAt cur
    let item := t.itemAt node.item.idx
    match judge item.metaWord nowOff with
    | .touched =>
      return .inl ({ p with hand := node.prev }, t.put node.item.idx item.resetChances)
    | _ =>
      let (p, idx) ← p.removeAt cur
      return .inr (p, t, some idx)

/-- Choose an item to give up. -/
def evict (p : SievePolicy) (t : FlatHashMap K V) (nowOff : Nat) :
    Except Fault (SievePolicy × FlatHashMap K V × Option Nat) :=
  -- Every turn that does not end the loop clears one item's counter.
  turns (evictTurn nowOff) (2 * p.len + 1) (p, t)

/-- One step of a sweep, from the newest end on. -/
def sweepTurn {σ : Type} (buried : σ → Nat → Bool) (release : σ → Nat → σ)
    (state : Int × SievePolicy × σ) :
    Except Fault ((Int × SievePolicy × σ) ⊕ (SievePolicy × σ)) :=
  let (cur, p, s) := state
  if cur = noLink then .ok (.inr (p, s))
  else do
    let node ← p.nodeAt cur
    if buried s node.item.idx then
      let p := if p.hand = cur then { p with hand := node.prev } else p
      let p ← p.unlink cur
      return .inl (node.next, p, release s node.item.idx)
    else return .inl (node.next, p, s)

/-- Drop the nodes of dead items, releasing each. -/
def sweep {σ : Type} (buried : σ → Nat → Bool) (release : σ → Nat → σ) (p : SievePolicy) (s : σ) :
    Except Fault (SievePolicy × σ) :=
  turns (sweepTurn buried release) (p.len + 1) (p.head, p, s)

/-- One step of a rebuild, from the oldest end on. -/
def rebuildTurn {σ : Type} (remap : σ → Nat → Except Fault (σ × Option Nat))
    (state : Int × SievePolicy × σ) :
    Except Fault ((Int × SievePolicy × σ) ⊕ (SievePolicy × σ)) :=
  let (cur, p, s) := state
  if cur = noLink then .ok (.inr (p, s))
  else do
    let node ← p.nodeAt cur
    match ← remap s node.item.idx with
    | (s, some newIdx) =>
      let p ← p.modifyAt cur fun node => { node with item := { node.item with idx := newIdx } }
      return .inl (node.prev, p, s)
    | (s, none) =>
      let p := if p.hand = cur then { p with hand := node.prev } else p
      let p ← p.unlink cur
      return .inl (node.prev, p, s)

/-- Re-link the list after a table swap, the oldest item first. -/
def rebuild {σ : Type} (remap : σ → Nat → Except Fault (σ × Option Nat)) (p : SievePolicy) (s : σ) :
    Except Fault (SievePolicy × σ) :=
  turns (rebuildTurn remap) (p.len + 1) (p.tail, p, s)

/-- Walk the list from a position toward the newest end. -/
def walk (p : SievePolicy) : Nat → Int → List QNode
  | 0, _ => []
  | n + 1, cur =>
    if cur = noLink then []
    else (p.nodes cur.toNat).item :: walk p n (p.nodes cur.toNat).prev

/-- The queued nodes, oldest first. -/
def queued (p : SievePolicy) : List QNode := p.walk p.size p.tail

end SievePolicy

end Memstash
