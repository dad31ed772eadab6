import Memstash.Itemstore.EvictQueue
import Memstash.Lib.Walks
import Memstash.Lib.Runs

/-! The queue's chunks as they are linked in memory, with every pointer and index checked. -/

namespace Memstash

open Scan Walks

/-- One link of the unrolled queue. -/
structure QueueChunk where
  items : Vector QNode queueChunkSize
  /-- The address of the next chunk, unless nil. -/
  next : Option Nat

namespace QueueChunk

/-- A chunk as it is allocated. -/
def fresh : QueueChunk := ⟨Vector.replicate queueChunkSize default, none⟩

/-- Read one node; an index outside the array panics. -/
def read (chunk : QueueChunk) (i : Nat) : Except Fault QNode :=
  if inside : i < queueChunkSize then .ok (chunk.items[i]) else .error .panic

/-- Write one node; an index outside the array panics. -/
def write (chunk : QueueChunk) (i : Nat) (node : QNode) : Except Fault QueueChunk :=
  if inside : i < queueChunkSize then .ok { chunk with items := chunk.items.set i node inside } else .error .panic

end QueueChunk

/-- A FIFO queue of linked chunks. -/
structure ChunkQueue where
  /-- Every chunk allocated so far, by address; those no pointer leads to are garbage. -/
  heap : List QueueChunk
  head : Option Nat
  tail : Option Nat
  headIdx : Nat
  tailIdx : Nat
  size : Nat

/-- The zero queue has no chunks. -/
instance : Inhabited ChunkQueue := ⟨⟨[], none, none, 0, 0, 0⟩⟩

/-- The queue model once it has room at its tail. -/
def EvictQueue.opened (q : EvictQueue) : EvictQueue :=
  if q.chunks = [] then { q with chunks := [newChunk] }
  else if q.tailIdx = queueChunkSize then { q with chunks := q.chunks ++ [newChunk], tailIdx := 0 }
  else q

/-- The queue model without a consumed head chunk. -/
def EvictQueue.advanced (q : EvictQueue) : EvictQueue :=
  if q.headIdx = queueChunkSize then
    { q with chunks := q.chunks.tail, headIdx := 0, tailIdx := if q.chunks.tail = [] then 0 else q.tailIdx }
  else q

/-- The queue model with a drained last chunk started again. -/
def EvictQueue.restarted (q : EvictQueue) : EvictQueue :=
  if q.size = 0 ∧ q.chunks ≠ [] then { q with headIdx := 0, tailIdx := 0 } else q

namespace ChunkQueue

/-- The chunk at the end of a pointer; following nil panics. -/
def chunkAt (q : ChunkQueue) (pointer : Option Nat) : Except Fault QueueChunk :=
  match pointer.bind fun addr => q.heap[addr]? with
  | some chunk => .ok chunk
  | none => .error .panic

/-- The heap with another chunk at the end of a pointer. -/
def store (q : ChunkQueue) (pointer : Option Nat) (chunk : QueueChunk) : List QueueChunk :=
  match pointer with
  | some addr => q.heap.set addr chunk
  | none => q.heap

/-- Make room at the tail, linking a new chunk when the current one is missing or full. -/
def openTail (q : ChunkQueue) : Except Fault ChunkQueue :=
  let newChunk := q.heap.length
  match q.tail with
  | none => .ok { q with heap := q.heap ++ [.fresh], head := some newChunk, tail := some newChunk }
  | some _ =>
    if q.tailIdx = queueChunkSize then do
      let tail ← q.chunkAt q.tail
      return { q with heap := q.store q.tail { tail with next := some newChunk } ++ [.fresh],
                      tail := some newChunk, tailIdx := 0 }
    else .ok q

/-- Append a node to the tail. -/
def push (q : ChunkQueue) (node : QNode) : Except Fault ChunkQueue := do
  let q ← q.openTail
  let tail ← q.chunkAt q.tail
  let tail ← tail.write q.tailIdx node
  return { q with heap := q.store q.tail tail, tailIdx := q.tailIdx + 1, size := q.size + 1 }

/-- The head node without removing it. -/
def peek (q : ChunkQueue) : Except Fault (Option QNode) :=
  if q.size = 0 then .ok none
  else do
    let head ← q.chunkAt q.head
    let node ← head.read q.headIdx
    return some node

/-- Let go of a consumed head chunk. -/
def advance (q : ChunkQueue) : Except Fault ChunkQueue :=
  if q.headIdx = queueChunkSize then do
    let head ← q.chunkAt q.head
    let q := { q with head := head.next, headIdx := 0 }
    return if q.head = none then { q with tail := none, tailIdx := 0 } else q
  else .ok q

/-- Start a drained last chunk from the beginning. -/
def restart (q : ChunkQueue) : ChunkQueue :=
  if q.size = 0 ∧ q.head ≠ none then { q with headIdx := 0, tailIdx := 0 } else q

/-- Remove the head node. -/
def pop (q : ChunkQueue) : Except Fault (Option QNode × ChunkQueue) :=
  if q.size = 0 then .ok (none, q)
  else do
    let head ← q.chunkAt q.head
    let popped ← head.read q.headIdx
    let head ← head.write q.headIdx default
    let q ← advance { q with heap := q.store q.head head, headIdx := q.headIdx + 1, size := q.size - 1 }
    return (some popped, q.restart)

section Callbacks

variable {σ : Type}

/-- Call back for the nodes of one chunk from an index up to another. -/
def rangeChunk (f : σ → QNode → σ) (chunk : QueueChunk) (start stop : Nat) (s : σ) : Except Fault σ :=
  (List.range' start (stop - start)).foldlM (fun s i => return f s (← chunk.read i)) s

/-- Call back for the nodes of one chunk after the other. -/
def rangeFrom (q : ChunkQueue) (f : σ → QNode → σ) : Nat → Option Nat → Nat → σ → Except Fault σ
  | 0, _, _, _ => .error .hang
  | _ + 1, none, _, s => .ok s
  | fuel + 1, some addr, start, s => do
    let chunk ← q.chunkAt (some addr)
    let s ← rangeChunk f chunk start (if some addr = q.tail then q.tailIdx else queueChunkSize) s
    rangeFrom q f fuel chunk.next 0 s

/-- Call back for every queued node; no chunk is met twice, so a longer walk would never end. -/
def range (q : ChunkQueue) (f : σ → QNode → σ) (s : σ) : Except Fault σ :=
  q.rangeFrom f (q.heap.length + 1) q.head q.headIdx s

/-- Count the chunks from a pointer on. -/
def chunksFrom (q : ChunkQueue) : Nat → Option Nat → Except Fault Nat
  | 0, _ => .error .hang
  | _ + 1, none => .ok 0
  | fuel + 1, some addr => do
    let chunk ← q.chunkAt (some addr)
    return (← chunksFrom q fuel chunk.next) + 1

/-- The number of linked chunks, each of one kibibyte. -/
def chunks (q : ChunkQueue) : Except Fault Nat := q.chunksFrom (q.heap.length + 1) q.head

/-- One rotation step after another, handing the nodes of dead items to the callback. -/
def sweepLoop (dead : σ → QNode → Bool) (onDrop : σ → QNode → σ) :
    Nat → ChunkQueue → σ → Except Fault (ChunkQueue × σ)
  | 0, q, s => .ok (q, s)
  | n + 1, q, s => do
    match ← q.pop with
    | (none, q) => return (q, s)
    | (some node, q) =>
      if dead s node then sweepLoop dead onDrop n q (onDrop s node)
      else sweepLoop dead onDrop n (← q.push node) s

/-- Rotate the queue once, dropping the nodes of dead items. -/
def sweepQueue (dead : σ → QNode → Bool) (onDrop : σ → QNode → σ) (q : ChunkQueue) (s : σ) :
    Except Fault (ChunkQueue × σ) :=
  sweepLoop dead onDrop q.size q s

/-- One re-linking step after another. -/
def rebuildLoop (remap : σ → Nat → σ × Option Nat) (onDrop : σ → QNode → σ) :
    Nat → ChunkQueue → σ → Except Fault (ChunkQueue × σ)
  | 0, q, s => .ok (q, s)
  | n + 1, q, s => do
    match ← q.pop with
    | (none, q) => return (q, s)
    | (some node, q) =>
      match remap s node.idx with
      | (s, some newIdx) => rebuildLoop remap onDrop n (← q.push { node with idx := newIdx }) s
      | (s, none) => rebuildLoop remap onDrop n q (onDrop s node)

/-- Re-link the queue after a table swap, dropping the nodes reported dead. -/
def rebuildQueue (remap : σ → Nat → σ × Option Nat) (onDrop : σ → QNode → σ) (q : ChunkQueue) (s : σ) :
    Except Fault (ChunkQueue × σ) :=
  rebuildLoop remap onDrop q.size q s

end Callbacks

/-- The linked chunks are those of the queue model, in its order, with the cursors at the same places. -/
structure Stands (q : ChunkQueue) (model : EvictQueue) (nodes : List (Nat × QueueChunk)) : Prop where
  walk : Walk q.heap QueueChunk.next q.head nodes none
  distinct : (nodes.map Prod.fst).Nodup
  chunks : model.chunks = nodes.map fun node => node.2.items.toList
  tail : q.tail = nodes.getLast?.map Prod.fst
  headIdx : q.headIdx = model.headIdx
  tailIdx : q.tailIdx = model.tailIdx
  size : q.size = model.size

/-- The queue holds a list of nodes. -/
def Holds (q : ChunkQueue) (list : List QNode) : Prop :=
  ∃ model nodes, q.Stands model nodes ∧ model.Valid ∧ model.toList = list

theorem holds_default : (default : ChunkQueue).Holds [] :=
  ⟨default, [], ⟨rfl, by simp, rfl, rfl, rfl, rfl, rfl⟩, EvictQueue.valid_default, rfl⟩

theorem chunkAt_eq {q : ChunkQueue} {addr : Nat} {chunk : QueueChunk} (found : q.heap[addr]? = some chunk) :
    q.chunkAt (some addr) = .ok chunk := by
  simp [chunkAt, found]

/-- The last chunk of a queue that has room at its tail. -/
structure Ready (q : ChunkQueue) (model : EvictQueue) (init : List (Nat × QueueChunk)) (addr : Nat)
    (chunk : QueueChunk) : Prop extends q.Stands model (init ++ [(addr, chunk)]) where
  room : q.tailIdx < queueChunkSize

/-- Making room leaves the last chunk with a place for one more node. -/
theorem Stands.openTail {q : ChunkQueue} {model : EvictQueue} {nodes : List (Nat × QueueChunk)}
    (stands : q.Stands model nodes) (valid : model.Valid) :
    ∃ q' init addr chunk, q.openTail = .ok q' ∧ q'.Ready model.opened init addr chunk := by
  have fresh : QueueChunk.fresh.items.toList = EvictQueue.newChunk := by
    simp [QueueChunk.fresh, EvictQueue.newChunk]
  rcases List.eq_nil_or_concat nodes with rfl | ⟨init, ⟨addr, chunk⟩, rfl⟩
  · -- Without chunks the new one is both ends.
    have bare : model.chunks = [] := by simpa using stands.chunks
    obtain ⟨headIdx, tailIdx, size⟩ := valid.empty bare
    have tail : q.tail = none := by simpa using stands.tail
    have ran : q.openTail = .ok { q with
        heap := q.heap ++ [.fresh], head := some q.heap.length, tail := some q.heap.length } := by
      simp only [ChunkQueue.openTail, tail]
    refine ⟨_, [], q.heap.length, .fresh, ran, ⟨⟨?_, by simp, ?_, ?_, ?_, ?_, ?_⟩, ?_⟩⟩
    · exact ⟨rfl, by simp, rfl⟩
    · simp [EvictQueue.opened, bare, fresh]
    · simp
    · simp [EvictQueue.opened, bare, stands.headIdx]
    · simp [EvictQueue.opened, bare, stands.tailIdx]
    · simp [EvictQueue.opened, bare, stands.size]
    · simp [stands.tailIdx, tailIdx, queueChunkSize]
  · rw [List.concat_eq_append] at stands
    have some_chunk : model.chunks ≠ [] := by simp [stands.chunks]
    obtain ⟨_, tailIn, _⟩ := valid.span some_chunk
    have tail : q.tail = some addr := by simpa using stands.tail
    obtain ⟨mid, before, rfl, found, last⟩ := walk_append.mp stands.walk
    by_cases full : q.tailIdx = queueChunkSize
    · -- The full chunk is made to point at the new one.
      have inside := (List.getElem?_eq_some_iff.mp found).1
      have apart : addr ∉ init.map Prod.fst := by
        have distinct := stands.distinct
        simp only [List.map_append, List.map_cons, List.map_nil] at distinct
        exact fun member => (List.nodup_append.mp distinct).2.2 addr member addr (by simp) rfl
      have full' : model.tailIdx = queueChunkSize := by rw [← stands.tailIdx, full]
      have ran : q.openTail = .ok { q with
          heap := q.store (some addr) { chunk with next := some q.heap.length } ++ [.fresh],
          tail := some q.heap.length, tailIdx := 0 } := by
        simp only [ChunkQueue.openTail, tail, if_pos full, chunkAt_eq found]
        rfl
      refine ⟨_, init ++ [(addr, { chunk with next := some q.heap.length })], q.heap.length, .fresh, ran,
        ⟨⟨?_, ?_, ?_, ?_, ?_, ?_, ?_⟩, ?_⟩⟩
      · refine walk_append.mpr ⟨_, walk_append.mpr ⟨_, (before.set apart _).alloc _, rfl, ?_, rfl⟩, rfl, ?_, rfl⟩
        · simp [store, List.getElem?_append_left, inside]
        · simp [store]
      · have distinct := stands.distinct
        have below : q.heap.length ∉ (init ++ [(addr, chunk)]).map Prod.fst := fun member => by
          obtain ⟨⟨_, node⟩, listed, same⟩ := List.mem_map.mp member
          have := (List.getElem?_eq_some_iff.mp (stands.walk.found listed)).1
          simp only at same
          omega
        simp only [List.map_append, List.map_cons, List.map_nil] at distinct below ⊢
        exact List.nodup_append.mpr ⟨distinct, by simp, fun a member b single => by
          rintro rfl
          exact below (List.mem_singleton.mp single ▸ member)⟩
      · simp [EvictQueue.opened, full', stands.chunks, fresh]
      · simp
      · simp [EvictQueue.opened, some_chunk, full', stands.headIdx]
      · simp [EvictQueue.opened, some_chunk, full']
      · simp [EvictQueue.opened, some_chunk, full', stands.size]
      · simp [queueChunkSize]
    · have full' : model.tailIdx ≠ queueChunkSize := by rwa [← stands.tailIdx]
      have same : model.opened = model := by simp [EvictQueue.opened, some_chunk, full']
      refine ⟨q, init, addr, chunk, by simp [ChunkQueue.openTail, tail, full], ⟨same.symm ▸ stands, ?_⟩⟩
      have := stands.tailIdx
      omega

/-- Writing the last chunk of a list of chunks. -/
theorem writeTail_append (others : List (List QNode)) (chunk : List QNode) (i : Nat) (node : QNode) :
    EvictQueue.writeTail (others ++ [chunk]) i node = others ++ [chunk.set i node] := by
  induction others with
  | nil => rfl
  | cons first rest ih =>
    obtain ⟨second, more, shape⟩ := List.exists_cons_of_ne_nil (l := rest ++ [chunk]) (by simp)
    rw [List.cons_append, shape, EvictQueue.writeTail, ← shape, ih, List.cons_append]

/-- Pushing on the chunks is pushing on the queue model. -/
theorem Stands.push {q : ChunkQueue} {model : EvictQueue} {nodes : List (Nat × QueueChunk)}
    (stands : q.Stands model nodes) (valid : model.Valid) (node : QNode) :
    ∃ q' nodes', q.push node = .ok q' ∧ q'.Stands (model.push node) nodes' := by
  obtain ⟨q', init, addr, chunk, opened, ready⟩ := stands.openTail valid
  have tail : q'.tail = some addr := by simpa using ready.tail
  obtain ⟨_, before, rfl, found, last⟩ := walk_append.mp ready.walk
  have inside := (List.getElem?_eq_some_iff.mp found).1
  have distinct := ready.distinct
  simp only [List.map_append, List.map_cons, List.map_nil] at distinct
  have apart : addr ∉ init.map Prod.fst := fun member =>
    (List.nodup_append.mp distinct).2.2 addr member addr (by simp) rfl
  let written : QueueChunk := { chunk with items := chunk.items.set q'.tailIdx node ready.room }
  have ran : q.push node = .ok { q' with
      heap := q'.store q'.tail written, tailIdx := q'.tailIdx + 1, size := q'.size + 1 } := by
    simp only [ChunkQueue.push, opened, Bind.bind, Except.bind]
    simp only [tail, chunkAt_eq found, QueueChunk.write, dif_pos ready.room]
    rfl
  refine ⟨_, init ++ [(addr, written)], ran, ⟨?_, ?_, ?_, ?_, ?_, ?_, ?_⟩⟩
  · refine walk_append.mpr ⟨_, ?_, rfl, ?_, last⟩
    · simpa only [tail, store] using before.set apart written
    · simp [tail, store, inside]
  · simpa only [List.map_append, List.map_cons, List.map_nil] using distinct
  · have listed : model.opened.chunks = init.map (fun node => node.2.items.toList) ++ [chunk.items.toList] := by
      simpa using ready.chunks
    show EvictQueue.writeTail model.opened.chunks model.opened.tailIdx node = _
    rw [listed, writeTail_append, ← ready.tailIdx]
    simp [written, Vector.toList_set]
  · simp [tail]
  · exact ready.headIdx
  · exact congrArg (· + 1) ready.tailIdx
  · exact congrArg (· + 1) ready.size

/-- Pushing appends to the list the queue holds. -/
theorem Holds.push {q : ChunkQueue} {list : List QNode} (holds : q.Holds list) (node : QNode) :
    ∃ q', q.push node = .ok q' ∧ q'.Holds (list ++ [node]) := by
  obtain ⟨model, nodes, stands, valid, rfl⟩ := holds
  obtain ⟨q', nodes', ran, stands'⟩ := stands.push valid node
  obtain ⟨valid', listed⟩ := EvictQueue.push_spec valid node
  exact ⟨q', ran, _, nodes', stands', valid', listed⟩

theorem Holds.size {q : ChunkQueue} {list : List QNode} (holds : q.Holds list) : q.size = list.length := by
  obtain ⟨model, nodes, stands, valid, rfl⟩ := holds
  rw [stands.size, EvictQueue.length_toList valid]

/-- The head chunk of a queue that is not empty. -/
theorem Stands.headChunk {q : ChunkQueue} {model : EvictQueue} {nodes : List (Nat × QueueChunk)}
    (stands : q.Stands model nodes) (valid : model.Valid) (some_node : q.size ≠ 0) :
    ∃ addr chunk rest, nodes = (addr, chunk) :: rest ∧ q.head = some addr ∧ q.heap[addr]? = some chunk ∧
      Walk q.heap QueueChunk.next chunk.next rest none ∧ q.headIdx < queueChunkSize := by
  have some_chunk : model.chunks ≠ [] := fun bare => some_node (by rw [stands.size, (valid.empty bare).2.2])
  obtain ⟨headIn, _, _⟩ := valid.span some_chunk
  cases nodes with
  | nil => exact absurd (by simpa using stands.chunks) some_chunk
  | cons first rest =>
    obtain ⟨begins, found, onward⟩ := stands.walk
    exact ⟨first.1, first.2, rest, rfl, begins, found, onward, by rw [stands.headIdx]; exact headIn⟩

/-- Peeking at the chunks is peeking at the queue model. -/
theorem Stands.peek {q : ChunkQueue} {model : EvictQueue} {nodes : List (Nat × QueueChunk)}
    (stands : q.Stands model nodes) (valid : model.Valid) : q.peek = .ok model.peek := by
  unfold ChunkQueue.peek EvictQueue.peek
  by_cases empty : q.size = 0
  · rw [if_pos empty, if_pos (by rw [← stands.size, empty])]
  · obtain ⟨addr, chunk, rest, rfl, head, found, _, inside⟩ := stands.headChunk valid empty
    have listed : model.chunks = chunk.items.toList :: rest.map fun node => node.2.items.toList := by
      simpa using stands.chunks
    rw [if_neg empty, if_neg (by rwa [← stands.size]), head, chunkAt_eq found, listed, ← stands.headIdx]
    simp [Bind.bind, Except.bind, QueueChunk.read, inside, Pure.pure, Except.pure]

/-- Letting go of a consumed head chunk. -/
theorem Stands.advance {q : ChunkQueue} {model : EvictQueue} {first : Nat × QueueChunk}
    {rest : List (Nat × QueueChunk)} (stands : q.Stands model (first :: rest)) :
    ∃ q' nodes', q.advance = .ok q' ∧ q'.Stands model.advanced nodes' := by
  unfold ChunkQueue.advance EvictQueue.advanced
  by_cases consumed : q.headIdx = queueChunkSize
  · obtain ⟨begins, found, onward⟩ := stands.walk
    have tails : model.chunks.tail = rest.map fun node => node.2.items.toList := by simp [stands.chunks]
    rw [if_pos consumed, if_pos (by rw [← stands.headIdx, consumed]), begins, chunkAt_eq found]
    simp only [Bind.bind, Except.bind, Pure.pure, Except.pure]
    cases rest with
    | nil =>
      have last : first.2.next = none := onward
      refine ⟨_, [], rfl, ⟨?_, by simp, ?_, ?_, ?_, ?_, ?_⟩⟩
      · simp only [last, if_true]
        rfl
      · simp [tails]
      · simp [last]
      · simp [last]
      · simp [last, tails]
      · simp [last, stands.size]
    | cons second others =>
      have more : first.2.next = some second.1 := onward.1
      refine ⟨_, second :: others, rfl, ⟨?_, ?_, ?_, ?_, ?_, ?_, ?_⟩⟩
      · simpa [more] using onward
      · exact (List.nodup_cons.mp stands.distinct).2
      · simp [tails]
      · simp [more, stands.tail]
      · simp [more]
      · simp [more, tails, stands.tailIdx]
      · simp [more, stands.size]
  · rw [if_neg consumed, if_neg (by rwa [← stands.headIdx])]
    exact ⟨q, _, rfl, stands⟩

/-- Starting a drained last chunk again. -/
theorem Stands.restart {q : ChunkQueue} {model : EvictQueue} {nodes : List (Nat × QueueChunk)}
    (stands : q.Stands model nodes) : q.restart.Stands model.restarted nodes := by
  have linked : q.head ≠ none ↔ model.chunks ≠ [] := by
    cases nodes with
    | nil =>
      have none : q.head = none := stands.walk
      simp [none, stands.chunks]
    | cons first rest => simp [stands.walk.1, stands.chunks]
  unfold ChunkQueue.restart EvictQueue.restarted
  by_cases drained : q.size = 0 ∧ q.head ≠ none
  · rw [if_pos drained, if_pos (by rwa [← stands.size, ← linked])]
    exact ⟨stands.walk, stands.distinct, stands.chunks, stands.tail, rfl, rfl, stands.size⟩
  · rw [if_neg drained, if_neg (by rwa [← stands.size, ← linked])]
    exact stands

/-- Popping from the chunks is popping from the queue model. -/
theorem Stands.pop {q : ChunkQueue} {model : EvictQueue} {nodes : List (Nat × QueueChunk)}
    (stands : q.Stands model nodes) (valid : model.Valid) :
    ∃ q' nodes', q.pop = .ok (model.pop.1, q') ∧ q'.Stands model.pop.2 nodes' := by
  unfold ChunkQueue.pop EvictQueue.pop
  by_cases empty : q.size = 0
  · rw [if_pos empty, if_pos (by rw [← stands.size, empty])]
    exact ⟨q, nodes, rfl, stands⟩
  · obtain ⟨addr, chunk, rest, rfl, head, found, onward, inside⟩ := stands.headChunk valid empty
    have within := (List.getElem?_eq_some_iff.mp found).1
    have apart : addr ∉ rest.map Prod.fst := (List.nodup_cons.mp stands.distinct).1
    have listed : model.chunks = chunk.items.toList :: rest.map fun node => node.2.items.toList := by
      simpa using stands.chunks
    let cleared : QueueChunk := { chunk with items := chunk.items.set q.headIdx default inside }
    -- Clearing the node leaves the same chunks linked.
    have shorter : Stands { q with heap := q.store q.head cleared, headIdx := q.headIdx + 1, size := q.size - 1 }
        { model with chunks := cleared.items.toList :: rest.map (fun node => node.2.items.toList),
                     headIdx := model.headIdx + 1, size := model.size - 1 } ((addr, cleared) :: rest) := by
      refine ⟨⟨head, ?_, ?_⟩, stands.distinct, rfl, ?_, ?_, stands.tailIdx, ?_⟩
      · simp [head, store, within]
      · simpa only [head, store] using onward.set apart cleared
      · cases rest with
        | nil => simpa using stands.tail
        | cons second others => simpa using stands.tail
      · simp [stands.headIdx]
      · simp [stands.size]
    obtain ⟨q', nodes', advanced, stands'⟩ := shorter.advance
    refine ⟨q'.restart, nodes', ?_, ?_⟩
    · rw [if_neg empty, if_neg (by rwa [← stands.size])]
      simp only [head, chunkAt_eq found, QueueChunk.read, QueueChunk.write, dif_pos inside, Bind.bind, Except.bind]
      rw [head] at advanced
      rw [advanced]
      simp [listed, ← stands.headIdx, inside, Pure.pure, Except.pure]
    · have same : cleared.items.toList = chunk.items.toList.set model.headIdx default := by
        simp [cleared, Vector.toList_set, stands.headIdx]
      rw [same] at stands'
      rw [if_neg (by rwa [← stands.size])]
      simp only [listed, List.headD_cons, List.tail_cons]
      exact stands'.restart

/-- Popping takes the first node of the list the queue holds. -/
theorem Holds.pop_cons {q : ChunkQueue} {node : QNode} {rest : List QNode} (holds : q.Holds (node :: rest)) :
    ∃ q', q.pop = .ok (some node, q') ∧ q'.Holds rest := by
  obtain ⟨model, nodes, stands, valid, list⟩ := holds
  obtain ⟨q', nodes', ran, stands'⟩ := stands.pop valid
  obtain ⟨model', popped, valid', list'⟩ := EvictQueue.pop_cons valid list
  rw [popped] at ran stands'
  exact ⟨q', ran, model', nodes', stands', valid', list'⟩

theorem Holds.pop_nil {q : ChunkQueue} (holds : q.Holds []) : q.pop = .ok (none, q) := by
  simp [ChunkQueue.pop, holds.size]

theorem Holds.peek {q : ChunkQueue} {list : List QNode} (holds : q.Holds list) : q.peek = .ok list.head? := by
  obtain ⟨model, nodes, stands, valid, rfl⟩ := holds
  rw [stands.peek valid, EvictQueue.peek_eq valid]

/-- Counting from a pointer counts the chunks on the walk from it. -/
theorem chunksFrom_eq {q : ChunkQueue} {nodes : List (Nat × QueueChunk)} :
    ∀ {pointer : Option Nat} {fuel : Nat}, Walk q.heap QueueChunk.next pointer nodes none → nodes.length < fuel →
      q.chunksFrom fuel pointer = .ok nodes.length := by
  induction nodes with
  | nil =>
    rintro pointer (_ | fuel) walk enough
    · omega
    · obtain rfl : pointer = none := walk
      rfl
  | cons first rest ih =>
    rintro pointer (_ | fuel) walk enough
    · omega
    · obtain ⟨rfl, found, onward⟩ := walk
      simp only [chunksFrom, chunkAt_eq found, Bind.bind, Except.bind,
        ih onward (by simpa using enough), List.length_cons]
      rfl

/-- At most two chunks are linked beyond those the nodes fill. -/
theorem Holds.chunks {q : ChunkQueue} {list : List QNode} (holds : q.Holds list) :
    ∃ count, q.chunks = .ok count ∧ count ≤ list.length / queueChunkSize + 2 := by
  obtain ⟨model, nodes, stands, valid, rfl⟩ := holds
  refine ⟨nodes.length, chunksFrom_eq stands.walk (Nat.lt_succ_of_le (stands.walk.length_le stands.distinct)), ?_⟩
  rw [EvictQueue.length_toList valid]
  have count : model.chunks.length = nodes.length := by simp [stands.chunks]
  by_cases bare : model.chunks = []
  · rw [← count, bare]
    exact Nat.zero_le _
  · obtain ⟨headIn, tailIn, spans⟩ := valid.span bare
    rw [count] at spans
    unfold queueChunkSize at *
    omega

section Ranging

variable {σ : Type}

/-- Ranging over one chunk calls back for the nodes between the two indices. -/
theorem rangeChunk_eq (f : σ → QNode → σ) (chunk : QueueChunk) {stop : Nat} (inside : stop ≤ queueChunkSize) :
    ∀ (start : Nat) (s : σ), rangeChunk f chunk start stop s
      = .ok (((chunk.items.toList.take stop).drop start).foldl f s) := by
  intro start
  -- Induction on how many nodes are left.
  induction left : stop - start generalizing start with
  | zero =>
    intro s
    have none : (chunk.items.toList.take stop).drop start = [] := by
      apply List.drop_eq_nil_of_le
      simp only [List.length_take, Vector.length_toList]
      omega
    simp [rangeChunk, left, none, Pure.pure, Except.pure]
  | succ n ih =>
    intro s
    have within : start < queueChunkSize := by omega
    have rest := ih (start + 1) (by omega) (f s chunk.items[start])
    have opens : (chunk.items.toList.take stop).drop start
        = chunk.items[start] :: (chunk.items.toList.take stop).drop (start + 1) := by
      rw [List.drop_eq_getElem_cons (by simp only [List.length_take, Vector.length_toList]; omega)]
      simp
    unfold rangeChunk at rest ⊢
    rw [show stop - (start + 1) = n by omega] at rest
    rw [left, List.range'_succ, List.foldlM_cons, QueueChunk.read, dif_pos within, opens, List.foldl_cons, ← rest]
    rfl

/-- Ranging from a pointer on calls back for the nodes before the tail index, in order. -/
theorem rangeFrom_eq {q : ChunkQueue} (f : σ → QNode → σ) (tailIn : q.tailIdx ≤ queueChunkSize)
    {nodes : List (Nat × QueueChunk)} :
    ∀ {pointer : Option Nat} {fuel start : Nat} (s : σ),
      Walk q.heap QueueChunk.next pointer nodes none → (nodes.map Prod.fst).Nodup →
      q.tail = nodes.getLast?.map Prod.fst → nodes.length < fuel → start ≤ queueChunkSize →
      q.rangeFrom f fuel pointer start s = .ok ((((nodes.map fun node => node.2.items.toList).flatten.take
        (queueChunkSize * (nodes.length - 1) + q.tailIdx)).drop start).foldl f s) := by
  induction nodes with
  | nil =>
    rintro pointer (_ | fuel) start s walk _ _ enough _
    · omega
    · obtain rfl : pointer = none := walk
      simp [rangeFrom]
  | cons first rest ih =>
    rintro pointer (_ | fuel) start s walk distinct tail enough inside
    · omega
    · obtain ⟨rfl, found, onward⟩ := walk
      obtain ⟨apart, distinct'⟩ := List.nodup_cons.mp distinct
      cases rest with
      | nil =>
        -- The tail chunk is filled up to the tail index.
        have last : first.2.next = none := onward
        obtain ⟨fuel, rfl⟩ : ∃ more, fuel = more + 1 := ⟨fuel - 1, by simp at enough; omega⟩
        have here : some first.1 = q.tail := by simp [tail]
        simp only [rangeFrom, chunkAt_eq found, Bind.bind, Except.bind, if_pos here,
          rangeChunk_eq f first.2 tailIn, last]
        simp
      | cons second others =>
        have elsewhere : ¬ some first.1 = q.tail := by
          rw [tail, List.getLast?_cons_cons, List.getLast?_eq_some_getLast (List.cons_ne_nil _ _), Option.map_some,
            Option.some.injEq]
          exact fun same => apart (same ▸ List.mem_map_of_mem (List.getLast_mem _))
        have size : first.2.items.toList.length = queueChunkSize := Vector.length_toList
        -- Every chunk before the tail is ranged over to its end.
        have split : (((first :: second :: others).map fun node => node.2.items.toList).flatten.take
              (queueChunkSize * ((first :: second :: others).length - 1) + q.tailIdx)).drop start
            = first.2.items.toList.drop start
              ++ ((second :: others).map fun node => node.2.items.toList).flatten.take
                (queueChunkSize * ((second :: others).length - 1) + q.tailIdx) := by
          rw [show queueChunkSize * ((first :: second :: others).length - 1) + q.tailIdx
              = first.2.items.toList.length + (queueChunkSize * ((second :: others).length - 1) + q.tailIdx) by
            simp only [List.length_cons, Nat.add_sub_cancel, Nat.mul_add, size]
            omega, List.map_cons, List.flatten_cons, List.take_length_add_append,
            List.drop_append_of_le_length (by omega)]
        have ranged := ih ((first.2.items.toList.drop start).foldl f s) onward distinct'
          (by rw [tail, List.getLast?_cons_cons]) (by simpa using enough) (Nat.zero_le queueChunkSize)
        rw [split, List.foldl_append]
        simp only [rangeFrom, chunkAt_eq found, Bind.bind, Except.bind, if_neg elsewhere,
          rangeChunk_eq f first.2 le_rfl, List.take_of_length_le (le_of_eq size), ranged, List.drop_zero]

/-- Ranging calls back for exactly the list the queue holds, in order. -/
theorem Holds.range {q : ChunkQueue} {list : List QNode} (holds : q.Holds list) (f : σ → QNode → σ) (s : σ) :
    q.range f s = .ok (list.foldl f s) := by
  obtain ⟨model, nodes, stands, valid, rfl⟩ := holds
  have enough := Nat.lt_succ_of_le (stands.walk.length_le stands.distinct)
  have count : model.chunks.length = nodes.length := by simp [stands.chunks]
  by_cases bare : model.chunks = []
  · obtain ⟨headIdx, tailIdx, size⟩ := valid.empty bare
    obtain rfl : nodes = [] := by
      rw [bare, List.length_nil] at count
      exact List.length_eq_zero_iff.mp count.symm
    have none : q.head = none := stands.walk
    simp [ChunkQueue.range, none, rangeFrom, EvictQueue.toList, bare]
  · obtain ⟨headIn, tailIn, spans⟩ := valid.span bare
    have positive : 0 < model.chunks.length := List.length_pos_iff.mpr bare
    have window : queueChunkSize * (nodes.length - 1) + q.tailIdx - model.headIdx = model.size := by
      rw [stands.tailIdx, ← count]
      have : queueChunkSize * (model.chunks.length - 1) + queueChunkSize = queueChunkSize * model.chunks.length := by
        rw [← Nat.mul_succ]
        congr 1
        omega
      omega
    rw [ChunkQueue.range, rangeFrom_eq f (by rw [stands.tailIdx]; exact tailIn) s stands.walk stands.distinct
      stands.tail enough (by rw [stands.headIdx]; omega), ← stands.chunks, List.drop_take, stands.headIdx, window]
    rfl

end Ranging

end ChunkQueue

end Memstash
