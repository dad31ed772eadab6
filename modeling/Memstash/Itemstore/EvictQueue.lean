import Memstash.Itemstore.FlatHashMap

/-! The chunked FIFO queue of eviction nodes, and the list it stands for. -/

namespace Memstash

open Scan

/-- Nodes per queue chunk. -/
def queueChunkSize : Nat := 127

/-- A queued item: its slot index and its weight when enqueued. -/
structure QNode where
  idx : Nat
  cost : Nat
  deriving DecidableEq, Repr, Inhabited

/-- A FIFO queue built on linked chunks, head chunk first. -/
structure EvictQueue where
  chunks : List (List QNode)
  headIdx : Nat
  tailIdx : Nat
  size : Nat
  deriving DecidableEq, Repr

/-- A queue without chunks. -/
instance : Inhabited EvictQueue := ⟨⟨[], 0, 0, 0⟩⟩

namespace EvictQueue

/-- A chunk as it is allocated. -/
def newChunk : List QNode := List.replicate queueChunkSize default

/-- Write one node of the last chunk. -/
def writeTail : List (List QNode) → Nat → QNode → List (List QNode)
  | [], _, _ => []
  | [chunk], i, node => [chunk.set i node]
  | chunk :: next :: rest, i, node => chunk :: writeTail (next :: rest) i node

/-- Append a node to the tail, linking a new chunk when the current tail is missing or full. -/
def push (q : EvictQueue) (node : QNode) : EvictQueue :=
  let q :=
    if q.chunks = [] then { q with chunks := [newChunk] }
    else if q.tailIdx = queueChunkSize then { q with chunks := q.chunks ++ [newChunk], tailIdx := 0 }
    else q
  { q with chunks := writeTail q.chunks q.tailIdx node, tailIdx := q.tailIdx + 1, size := q.size + 1 }

/-- The head node without removing it. -/
def peek (q : EvictQueue) : Option QNode :=
  if q.size = 0 then none else some ((q.chunks.headD []).getD q.headIdx default)

/-- Remove the head node, dropping a consumed chunk and restarting a drained last one. -/
def pop (q : EvictQueue) : Option QNode × EvictQueue :=
  if q.size = 0 then (none, q)
  else
    let head := q.chunks.headD []
    let popped := head.getD q.headIdx default
    let q : EvictQueue :=
      { q with chunks := head.set q.headIdx default :: q.chunks.tail, headIdx := q.headIdx + 1,
               size := q.size - 1 }
    let q : EvictQueue :=
      if q.headIdx = queueChunkSize then
        { q with chunks := q.chunks.tail, headIdx := 0,
                 tailIdx := if q.chunks.tail = [] then 0 else q.tailIdx }
      else q
    let q : EvictQueue :=
      if q.size = 0 ∧ q.chunks ≠ [] then { q with headIdx := 0, tailIdx := 0 } else q
    (some popped, q)

/-- The nodes in FIFO order. -/
def toList (q : EvictQueue) : List QNode := (q.chunks.flatten.drop q.headIdx).take q.size

/-- The queue's indices stay inside its chunks and agree with its size. -/
structure Valid (q : EvictQueue) : Prop where
  whole : ∀ chunk ∈ q.chunks, chunk.length = queueChunkSize
  empty : q.chunks = [] → q.headIdx = 0 ∧ q.tailIdx = 0 ∧ q.size = 0
  span : q.chunks ≠ [] →
    q.headIdx < queueChunkSize ∧ q.tailIdx ≤ queueChunkSize ∧
      q.headIdx + q.size + queueChunkSize = queueChunkSize * q.chunks.length + q.tailIdx
  drained : q.size = 0 → q.headIdx = 0 ∧ q.tailIdx = 0

theorem valid_default : (default : EvictQueue).Valid :=
  ⟨by simp [default], by simp [default], by simp [default], by simp [default]⟩

@[simp] theorem toList_default : (default : EvictQueue).toList = [] := rfl

/-- The node positions of whole chunks are laid out back to back. -/
theorem flatten_length {chunks : List (List QNode)}
    (whole : ∀ chunk ∈ chunks, chunk.length = queueChunkSize) :
    chunks.flatten.length = queueChunkSize * chunks.length := by
  induction chunks with
  | nil => simp
  | cons chunk rest ih =>
    rw [List.flatten_cons, List.length_append, whole chunk (by simp),
      ih fun c member => whole c (by simp [member]), List.length_cons]
    ring

/-- Writing in the last chunk writes one position of the layout. -/
theorem flatten_writeTail {chunks : List (List QNode)} {i : Nat} (node : QNode)
    (whole : ∀ chunk ∈ chunks, chunk.length = queueChunkSize) (some_chunk : chunks ≠ []) :
    (writeTail chunks i node).flatten
        = chunks.flatten.set (queueChunkSize * (chunks.length - 1) + i) node ∧
      (∀ chunk ∈ writeTail chunks i node, chunk.length = queueChunkSize) ∧
      (writeTail chunks i node).length = chunks.length := by
  -- The last chunk starts after all the others, so the write is shifted by their length.
  induction chunks with
  | nil => exact absurd rfl some_chunk
  | cons chunk rest ih =>
    cases rest with
    | nil => simpa [writeTail] using whole chunk (by simp)
    | cons next rest =>
      obtain ⟨laid, kept, count⟩ := ih (fun c member => whole c (by simp [member])) (by simp)
      have first : chunk.length = queueChunkSize := whole chunk (by simp)
      have shift : queueChunkSize * ((chunk :: next :: rest).length - 1) + i
          = chunk.length + (queueChunkSize * ((next :: rest).length - 1) + i) := by
        simp only [List.length_cons, Nat.add_sub_cancel, first]
        ring
      refine ⟨?_, ?_, ?_⟩
      · rw [writeTail, List.flatten_cons, laid, shift]
        change _ = (chunk ++ (next :: rest).flatten).set _ _
        rw [List.set_append_right _ _ (by omega), Nat.add_sub_cancel_left]
      · intro c member
        rw [writeTail, List.mem_cons] at member
        rcases member with rfl | member
        · exact first
        · exact kept c member
      · rw [writeTail, List.length_cons, count]
        rfl

/-- Writing the position just past a window extends the window by the written element. -/
theorem take_succ_drop_set {layout : List QNode} {start size : Nat} (node : QNode)
    (room : start + size < layout.length) :
    ((layout.set (start + size) node).drop start).take (size + 1)
      = (layout.drop start).take size ++ [node] := by
  rw [List.take_add_one]
  congr 1
  · apply List.ext_getElem?
    intro i
    simp only [List.getElem?_take, List.getElem?_drop, List.getElem?_set]
    split
    · rw [if_neg (by omega)]
    · rfl
  · simp [List.getElem?_drop, room]

/-- Pushing appends to the list the queue stands for. -/
theorem push_spec {q : EvictQueue} (valid : q.Valid) (node : QNode) :
    (q.push node).Valid ∧ (q.push node).toList = q.toList ++ [node] := by
  -- Whichever branch prepares the tail, it leaves room for one node at the end of the window.
  have prepared : ∀ r : EvictQueue, (∀ chunk ∈ r.chunks, chunk.length = queueChunkSize) →
      r.chunks ≠ [] → r.headIdx < queueChunkSize → r.tailIdx < queueChunkSize →
      r.headIdx + r.size + queueChunkSize = queueChunkSize * r.chunks.length + r.tailIdx →
      r.toList = q.toList →
      let after : EvictQueue := { r with chunks := writeTail r.chunks r.tailIdx node,
                                         tailIdx := r.tailIdx + 1, size := r.size + 1 }
      after.Valid ∧ after.toList = q.toList ++ [node] := by
    intro r whole some_chunk headIn tailIn spans same
    obtain ⟨laid, kept, count⟩ := flatten_writeTail (i := r.tailIdx) node whole some_chunk
    have chunks : writeTail r.chunks r.tailIdx node ≠ [] := by
      intro none
      rw [none, List.length_nil] at count
      exact some_chunk (List.length_eq_zero_iff.mp count.symm)
    have positive : 0 < r.chunks.length := List.length_pos_iff.mpr some_chunk
    have last : queueChunkSize * (r.chunks.length - 1) + queueChunkSize
        = queueChunkSize * r.chunks.length := by
      rw [← Nat.mul_succ]
      congr 1
      omega
    refine ⟨⟨kept, fun none => absurd none chunks, fun _ => ⟨headIn, ?_, ?_⟩, by simp⟩, ?_⟩
    · simp only; omega
    · simp only [count]; omega
    · rw [← same]
      simp only [toList, laid]
      rw [show queueChunkSize * (r.chunks.length - 1) + r.tailIdx = r.headIdx + r.size by omega]
      refine take_succ_drop_set node ?_
      rw [flatten_length whole]
      omega
  have fresh : newChunk.length = queueChunkSize := by simp [newChunk]
  unfold push
  by_cases none : q.chunks = []
  · obtain ⟨head, tail, size⟩ := valid.empty none
    simp only [none, if_true]
    refine prepared { q with chunks := [newChunk] } (by simp [fresh]) (by simp) ?_ ?_ ?_ ?_
    · simp [head, queueChunkSize]
    · simp [tail, queueChunkSize]
    · simp [head, tail, size]
    · simp [toList, size]
  · obtain ⟨headIn, tailIn, spans⟩ := valid.span none
    simp only [none, if_false]
    by_cases full : q.tailIdx = queueChunkSize
    · simp only [full, if_true]
      refine prepared { q with chunks := q.chunks ++ [newChunk], tailIdx := 0 } ?_ (by simp) headIn ?_ ?_ ?_
      · intro chunk member
        rcases List.mem_append.mp member with old | new
        · exact valid.whole chunk old
        · rw [List.mem_singleton.mp new, fresh]
      · simp [queueChunkSize]
      · simp only [List.length_append, List.length_singleton, Nat.mul_add]
        omega
      · -- The window does not reach into the new chunk.
        simp only [toList, List.flatten_append]
        rw [List.drop_append_of_le_length (by rw [flatten_length valid.whole]; omega),
          List.take_append_of_le_length]
        rw [List.length_drop, flatten_length valid.whole]
        omega
    · simp only [full, if_false]
      exact prepared q valid.whole none headIn (by omega) spans rfl

/-- The size counts the nodes of the list. -/
theorem length_toList {q : EvictQueue} (valid : q.Valid) : q.toList.length = q.size := by
  by_cases none : q.chunks = []
  · simp [toList, none, (valid.empty none).2.2]
  · obtain ⟨headIn, tailIn, spans⟩ := valid.span none
    rw [toList, List.length_take, List.length_drop, flatten_length valid.whole]
    omega

theorem pop_nil {q : EvictQueue} (valid : q.Valid) (empty : q.toList = []) : q.pop = (none, q) := by
  have size := length_toList valid
  rw [empty, List.length_nil] at size
  rw [pop, if_pos size.symm]

/-- The last step of a removal keeps the list and restores the indices of a drained queue. -/
theorem restart_spec {q : EvictQueue} (whole : ∀ chunk ∈ q.chunks, chunk.length = queueChunkSize)
    (empty : q.chunks = [] → q.headIdx = 0 ∧ q.tailIdx = 0 ∧ q.size = 0)
    (span : q.chunks ≠ [] → q.headIdx < queueChunkSize ∧ q.tailIdx ≤ queueChunkSize ∧
      q.headIdx + q.size + queueChunkSize = queueChunkSize * q.chunks.length + q.tailIdx) :
    let after : EvictQueue :=
      if q.size = 0 ∧ q.chunks ≠ [] then { q with headIdx := 0, tailIdx := 0 } else q
    after.Valid ∧ after.toList = q.toList := by
  intro after
  by_cases drained : q.size = 0 ∧ q.chunks ≠ []
  · obtain ⟨headIn, tailIn, spans⟩ := span drained.2
    have chunks : 0 < q.chunks.length := List.length_pos_iff.mpr drained.2
    -- Only one chunk can be left, since the head index lies within it.
    have single : q.chunks.length = 1 := by
      by_contra more
      have : queueChunkSize * 2 ≤ queueChunkSize * q.chunks.length := Nat.mul_le_mul_left _ (by omega)
      omega
    have same : after = { q with headIdx := 0, tailIdx := 0 } := if_pos drained
    rw [same]
    refine ⟨⟨whole, fun none => absurd none drained.2, fun _ => ⟨?_, ?_, ?_⟩, by simp⟩, ?_⟩
    · simp [queueChunkSize]
    · simp
    · simp [drained.1, single]
    · simp [toList, drained.1]
  · have same : after = q := if_neg drained
    rw [same]
    refine ⟨⟨whole, empty, span, fun zero => ?_⟩, rfl⟩
    have none : q.chunks = [] := by
      by_contra some_chunk
      exact drained ⟨zero, some_chunk⟩
    exact ⟨(empty none).1, (empty none).2.1⟩

/-- Popping takes the first node of the list. -/
theorem pop_cons {q : EvictQueue} {node : QNode} {rest : List QNode} (valid : q.Valid)
    (list : q.toList = node :: rest) : ∃ q', q.pop = (some node, q') ∧ q'.Valid ∧ q'.toList = rest := by
  have size := length_toList valid
  rw [list, List.length_cons] at size
  have some_chunk : q.chunks ≠ [] := by
    intro none
    have := (valid.empty none).2.2
    omega
  obtain ⟨headIn, tailIn, spans⟩ := valid.span some_chunk
  obtain ⟨head, others, chunks⟩ := List.exists_cons_of_ne_nil some_chunk
  have headSize : head.length = queueChunkSize := valid.whole head (by simp [chunks])
  -- The window opens with the node at the head index.
  have opens : head.getD q.headIdx default = node ∧
      ((head ++ others.flatten).drop (q.headIdx + 1)).take (q.size - 1) = rest := by
    have layout := list
    rw [toList, chunks, List.flatten_cons, ← size, List.drop_eq_getElem_cons (by
      rw [List.length_append]; omega), List.take_succ_cons, List.cons.injEq,
      List.getElem_append_left (by omega)] at layout
    refine ⟨?_, ?_⟩
    · rw [List.getD_eq_getElem _ _ (by omega), layout.1]
    · rw [← size, Nat.add_sub_cancel, layout.2]
  have headWhole : ∀ chunk ∈ head.set q.headIdx default :: others, chunk.length = queueChunkSize := by
    intro chunk member
    rcases List.mem_cons.mp member with rfl | member
    · rw [List.length_set, headSize]
    · exact valid.whole chunk (by simp [chunks, member])
  rw [chunks, List.length_cons] at spans
  rw [pop, if_neg (by omega)]
  simp only [chunks, List.headD_cons, List.tail_cons, opens.1]
  by_cases consumed : q.headIdx + 1 = queueChunkSize
  · -- The head chunk is used up, so the window starts with the next chunk.
    simp only [consumed, if_true]
    obtain ⟨restarted, same⟩ := restart_spec
      (q := { chunks := others, headIdx := 0, tailIdx := if others = [] then 0 else q.tailIdx,
              size := q.size - 1 })
      (fun chunk member => headWhole chunk (by simp [member]))
      (by
        intro (none : others = [])
        simp only [none, if_true, true_and]
        rw [none, List.length_nil] at spans
        omega)
      (by
        intro (more : others ≠ [])
        simp only [more, if_false]
        refine ⟨by simp [queueChunkSize], tailIn, ?_⟩
        rw [Nat.mul_add] at spans
        omega)
    refine ⟨_, rfl, restarted, same.trans ?_⟩
    rw [← opens.2, consumed, ← headSize, List.drop_left]
    simp [toList]
  · simp only [consumed, if_false]
    obtain ⟨restarted, same⟩ := restart_spec
      (q := { chunks := head.set q.headIdx default :: others, headIdx := q.headIdx + 1,
              tailIdx := q.tailIdx, size := q.size - 1 })
      headWhole (by simp) (by
        intro _
        refine ⟨by simp only; omega, tailIn, ?_⟩
        simp only [List.length_cons]
        omega)
    refine ⟨_, rfl, restarted, same.trans ?_⟩
    rw [← opens.2]
    simp only [toList, List.flatten_cons]
    rw [← List.set_append_left _ _ (by omega), List.drop_set_of_lt (by omega)]

/-- Peeking shows the first node of the list. -/
theorem peek_eq {q : EvictQueue} (valid : q.Valid) : q.peek = q.toList.head? := by
  cases list : q.toList with
  | nil =>
    have size := length_toList valid
    rw [list, List.length_nil] at size
    simp [peek, ← size]
  | cons node rest =>
    obtain ⟨q', popped, _, _⟩ := pop_cons valid list
    have size := length_toList valid
    rw [list, List.length_cons] at size
    rw [pop, if_neg (by omega)] at popped
    rw [peek, if_neg (by omega), List.head?_cons]
    exact congrArg Prod.fst popped

section Rotation

variable {σ : Type}

/-- One rotation step after another, handing the nodes of dead items to the callback. -/
def sweepLoop (buried : σ → QNode → Bool) (onDrop : σ → QNode → σ) :
    Nat → EvictQueue → σ → EvictQueue × σ
  | 0, q, s => (q, s)
  | n + 1, q, s =>
    match q.pop with
    | (none, q) => (q, s)
    | (some node, q) =>
      if buried s node then sweepLoop buried onDrop n q (onDrop s node)
      else sweepLoop buried onDrop n (q.push node) s

/-- Rotate the queue once, dropping the nodes of dead items and keeping the others in order. -/
def sweepQueue (buried : σ → QNode → Bool) (onDrop : σ → QNode → σ) (q : EvictQueue) (s : σ) :
    EvictQueue × σ :=
  sweepLoop buried onDrop q.size q s

/-- One re-linking step after another. -/
def rebuildLoop (remap : σ → Nat → Except Fault (σ × Option Nat)) (onDrop : σ → QNode → σ) :
    Nat → EvictQueue → σ → Except Fault (EvictQueue × σ)
  | 0, q, s => .ok (q, s)
  | n + 1, q, s =>
    match q.pop with
    | (none, q) => .ok (q, s)
    | (some node, q) => do
      let (s, moved) ← remap s node.idx
      match moved with
      | some newIdx => rebuildLoop remap onDrop n (q.push { node with idx := newIdx }) s
      | none => rebuildLoop remap onDrop n q (onDrop s node)

/-- Re-link the queue after a table swap, dropping the nodes reported dead. -/
def rebuildQueue (remap : σ → Nat → Except Fault (σ × Option Nat)) (onDrop : σ → QNode → σ)
    (q : EvictQueue) (s : σ) : Except Fault (EvictQueue × σ) :=
  rebuildLoop remap onDrop q.size q s

/-- The nodes a re-linking keeps, in order, with the state it ends in. -/
def remapNodes (remap : σ → Nat → Except Fault (σ × Option Nat)) (onDrop : σ → QNode → σ) :
    σ → List QNode → Except Fault (σ × List QNode)
  | s, [] => .ok (s, [])
  | s, node :: rest => do
    let (s, moved) ← remap s node.idx
    match moved with
    | some newIdx =>
      let (s, kept) ← remapNodes remap onDrop s rest
      return (s, { node with idx := newIdx } :: kept)
    | none => remapNodes remap onDrop (onDrop s node) rest

/-- A sweep filters the list and hands each dead node to the callback once, in order. -/
theorem sweepQueue_spec {buried : σ → QNode → Bool} {onDrop : σ → QNode → σ} {q : EvictQueue}
    (valid : q.Valid) (s : σ)
    (stable : ∀ s node other, buried (onDrop s node) other = buried s other) :
    ∃ q', sweepQueue buried onDrop q s = (q', (q.toList.filter (buried s)).foldl onDrop s) ∧
      q'.Valid ∧ q'.toList = q.toList.filter fun node => !buried s node := by
  -- The loop has `todo` left at the front and what it kept behind it.
  have loop : ∀ (todo kept : List QNode) (q : EvictQueue) (s : σ), q.Valid →
      q.toList = todo ++ kept →
      ∃ q', sweepLoop buried onDrop todo.length q s
          = (q', (todo.filter (buried s)).foldl onDrop s) ∧ q'.Valid ∧
        q'.toList = kept ++ todo.filter fun node => !buried s node := by
    intro todo
    induction todo with
    | nil =>
      intro kept q s valid list
      exact ⟨q, rfl, valid, by simpa using list⟩
    | cons node rest ih =>
      intro kept q s valid list
      obtain ⟨popped, eq, valid', list'⟩ := pop_cons valid (by simpa using list)
      simp only [List.length_cons, sweepLoop, eq]
      by_cases drop : buried s node = true
      · obtain ⟨q', swept, valid'', list''⟩ := ih kept popped (onDrop s node) valid' list'
        have same : buried (onDrop s node) = buried s := funext (stable s node)
        refine ⟨q', ?_, valid'', ?_⟩
        · simp only [drop, if_true, swept, same, List.filter_cons, List.foldl_cons]
        · simp [list'', same, drop]
      · obtain ⟨pushedValid, pushedList⟩ := push_spec valid' node
        obtain ⟨q', swept, valid'', list''⟩ := ih (kept ++ [node]) (popped.push node) s pushedValid
          (by rw [pushedList, list', List.append_assoc])
        refine ⟨q', ?_, valid'', ?_⟩
        · simp [drop, swept]
        · simp [list'', drop]
  have size := length_toList valid
  obtain ⟨q', swept, valid', list'⟩ := loop q.toList [] q s valid (by simp)
  exact ⟨q', by rw [sweepQueue, ← size, swept], valid', by simpa using list'⟩

/-- Re-linking a queue re-links its list. -/
theorem rebuildQueue_spec {remap : σ → Nat → Except Fault (σ × Option Nat)}
    {onDrop : σ → QNode → σ} {q : EvictQueue} (valid : q.Valid) {s s' : σ} {kept : List QNode}
    (mapped : remapNodes remap onDrop s q.toList = .ok (s', kept)) :
    ∃ q', rebuildQueue remap onDrop q s = .ok (q', s') ∧ q'.Valid ∧ q'.toList = kept := by
  have loop : ∀ (todo done : List QNode) (q : EvictQueue) (s : σ) (kept : List QNode), q.Valid →
      q.toList = todo ++ done → remapNodes remap onDrop s todo = .ok (s', kept) →
      ∃ q', rebuildLoop remap onDrop todo.length q s = .ok (q', s') ∧ q'.Valid ∧
        q'.toList = done ++ kept := by
    intro todo
    induction todo with
    | nil =>
      intro done q s kept valid list mapped
      simp only [remapNodes, Except.ok.injEq, Prod.mk.injEq] at mapped
      obtain ⟨rfl, rfl⟩ := mapped
      exact ⟨q, rfl, valid, by simpa using list⟩
    | cons node rest ih =>
      intro done q s kept valid list mapped
      obtain ⟨popped, eq, valid', list'⟩ := pop_cons valid (by simpa using list)
      simp only [List.length_cons, rebuildLoop, eq]
      simp only [remapNodes, Bind.bind, Except.bind] at mapped ⊢
      cases moved : remap s node.idx with
      | error fault => simp [moved] at mapped
      | ok result =>
        obtain ⟨s₁, target⟩ := result
        simp only [moved] at mapped ⊢
        cases target with
        | none => exact ih done popped (onDrop s₁ node) kept valid' list' mapped
        | some newIdx =>
          simp only at mapped ⊢
          cases tail : remapNodes remap onDrop s₁ rest with
          | error fault => simp [tail] at mapped
          | ok result =>
            obtain ⟨s₂, keptRest⟩ := result
            simp only [tail, Pure.pure, Except.pure, Except.ok.injEq, Prod.mk.injEq] at mapped
            obtain ⟨rfl, rfl⟩ := mapped
            obtain ⟨pushedValid, pushedList⟩ := push_spec valid' { node with idx := newIdx }
            obtain ⟨q', rebuilt, valid'', list''⟩ := ih (done ++ [{ node with idx := newIdx }])
              (popped.push { node with idx := newIdx }) s₁ keptRest pushedValid
              (by rw [pushedList, list', List.append_assoc]) tail
            exact ⟨q', rebuilt, valid'', by simpa using list''⟩
  have size := length_toList valid
  obtain ⟨q', rebuilt, valid', list'⟩ := loop q.toList [] q s kept valid (by simp) mapped
  exact ⟨q', by rw [rebuildQueue, ← size, rebuilt], valid', by simpa using list'⟩

end Rotation

end EvictQueue

end Memstash
