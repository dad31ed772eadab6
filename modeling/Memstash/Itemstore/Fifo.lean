import Memstash.Itemstore.Chunks

/-! Every sequence of operations on the linked chunks is one on a list, and keeps few chunks linked. -/

namespace Memstash

open Scan Runs

variable {σ : Type}

/-- Visit the nodes of a list in order, keeping what each visit returns. -/
def rotated (visit : σ → QNode → σ × Option QNode) : σ → List QNode → σ × List QNode
  | s, [] => (s, [])
  | s, node :: rest =>
    match visit s node with
    | (s, some kept) => ((rotated visit s rest).1, kept :: (rotated visit s rest).2)
    | (s, none) => rotated visit s rest

/-- A sweep keeps the nodes of live items and hands the others to the callback. -/
def sweepVisit (dead : σ → QNode → Bool) (onDrop : σ → QNode → σ) (s : σ) (node : QNode) : σ × Option QNode :=
  if dead s node then (onDrop s node, none) else (s, some node)

/-- A re-linking keeps the nodes that have a new index and hands the others to the callback. -/
def rebuildVisit (remap : σ → Nat → σ × Option Nat) (onDrop : σ → QNode → σ) (s : σ) (node : QNode) :
    σ × Option QNode :=
  match remap s node.idx with
  | (s, some newIdx) => (s, some { node with idx := newIdx })
  | (s, none) => (onDrop s node, none)

namespace ChunkQueue

/-- One rotation step after another, pushing back what each visit returns. -/
def rotateLoop (visit : σ → QNode → σ × Option QNode) :
    Nat → ChunkQueue → σ → Except Fault (ChunkQueue × σ)
  | 0, q, s => .ok (q, s)
  | n + 1, q, s => do
    match ← q.pop with
    | (none, q) => return (q, s)
    | (some node, q) =>
      match visit s node with
      | (s, some kept) => rotateLoop visit n (← q.push kept) s
      | (s, none) => rotateLoop visit n q s

/-- A sweep is a rotation. -/
theorem sweepLoop_eq (dead : σ → QNode → Bool) (onDrop : σ → QNode → σ) :
    ∀ n q s, sweepLoop dead onDrop n q s = rotateLoop (sweepVisit dead onDrop) n q s := by
  intro n
  induction n with
  | zero => exact fun _ _ => rfl
  | succ n ih =>
    intro q s
    simp only [sweepLoop, rotateLoop]
    congr 1
    funext popped
    obtain ⟨_ | node, q⟩ := popped
    · rfl
    · simp only [sweepVisit]
      split
      · exact ih _ _
      · simp only [ih]

/-- A re-linking is a rotation. -/
theorem rebuildLoop_eq (remap : σ → Nat → σ × Option Nat) (onDrop : σ → QNode → σ) :
    ∀ n q s, rebuildLoop remap onDrop n q s = rotateLoop (rebuildVisit remap onDrop) n q s := by
  intro n
  induction n with
  | zero => exact fun _ _ => rfl
  | succ n ih =>
    intro q s
    simp only [rebuildLoop, rotateLoop]
    congr 1
    funext popped
    obtain ⟨_ | node, q⟩ := popped
    · rfl
    · simp only [rebuildVisit]
      rcases remap s node.idx with ⟨s', _ | newIdx⟩
      · exact ih _ _
      · simp only [ih]

/-- A rotation visits what is left at the front, and keeps behind it what it pushed back. -/
theorem Holds.rotateLoop {visit : σ → QNode → σ × Option QNode} {todo : List QNode} :
    ∀ {q : ChunkQueue} {kept : List QNode} (s : σ), q.Holds (todo ++ kept) →
      ∃ q', rotateLoop visit todo.length q s = .ok (q', (rotated visit s todo).1) ∧
        q'.Holds (kept ++ (rotated visit s todo).2) := by
  induction todo with
  | nil =>
    intro q kept s holds
    exact ⟨q, rfl, by simpa [rotated] using holds⟩
  | cons node rest ih =>
    intro q kept s holds
    rw [List.cons_append] at holds
    obtain ⟨popped, ran, holds'⟩ := holds.pop_cons
    simp only [List.length_cons, ChunkQueue.rotateLoop, ran, Bind.bind, Except.bind, rotated]
    rcases visit s node with ⟨s', _ | moved⟩
    · exact ih s' holds'
    · obtain ⟨pushed, ranPush, holds''⟩ := holds'.push moved
      rw [List.append_assoc] at holds''
      obtain ⟨q', turned, final⟩ := ih s' holds''
      exact ⟨q', by simp only [ranPush, turned], by simpa using final⟩

end ChunkQueue

/-- One call on the queue; callbacks work on a state of their own. -/
inductive QueueOp (σ : Type) where
  | push (node : QNode)
  | pop
  | peek
  | range (f : σ → QNode → σ)
  | sweep (dead : σ → QNode → Bool) (onDrop : σ → QNode → σ)
  | rebuild (remap : σ → Nat → σ × Option Nat) (onDrop : σ → QNode → σ)

namespace QueueOp

/-- A call on the linked chunks, with the answers so far. -/
def work : ChunkQueue × σ × List (Option QNode) → QueueOp σ →
    Except Fault (ChunkQueue × σ × List (Option QNode))
  | (q, s, answers), .push node => return (← q.push node, s, answers)
  | (q, s, answers), .pop => do
    let (node, q) ← q.pop
    return (q, s, answers ++ [node])
  | (q, s, answers), .peek => return (q, s, answers ++ [← q.peek])
  | (q, s, answers), .range f => return (q, ← q.range f s, answers)
  | (q, s, answers), .sweep dead onDrop => do
    let (q, s) ← ChunkQueue.sweepQueue dead onDrop q s
    return (q, s, answers)
  | (q, s, answers), .rebuild remap onDrop => do
    let (q, s) ← ChunkQueue.rebuildQueue remap onDrop q s
    return (q, s, answers)

/-- The same call on a list. -/
def onList : List QNode × σ × List (Option QNode) → QueueOp σ → List QNode × σ × List (Option QNode)
  | (list, s, answers), .push node => (list ++ [node], s, answers)
  | (list, s, answers), .pop => (list.tail, s, answers ++ [list.head?])
  | (list, s, answers), .peek => (list, s, answers ++ [list.head?])
  | (list, s, answers), .range f => (list, list.foldl f s, answers)
  | (list, s, answers), .sweep dead onDrop =>
    ((rotated (sweepVisit dead onDrop) s list).2, (rotated (sweepVisit dead onDrop) s list).1, answers)
  | (list, s, answers), .rebuild remap onDrop =>
    ((rotated (rebuildVisit remap onDrop) s list).2, (rotated (rebuildVisit remap onDrop) s list).1, answers)

/-- A call on chunks that hold a list does what it does on the list. -/
theorem work_onList {q : ChunkQueue} {list : List QNode} (holds : q.Holds list) (s : σ)
    (answers : List (Option QNode)) (op : QueueOp σ) :
    ∃ q', work (q, s, answers) op = .ok (q', (onList (list, s, answers) op).2) ∧
      q'.Holds (onList (list, s, answers) op).1 := by
  cases op with
  | push node =>
    obtain ⟨q', ran, holds'⟩ := holds.push node
    exact ⟨q', by simp only [work, ran]; rfl, holds'⟩
  | pop =>
    cases list with
    | nil => exact ⟨q, by simp only [work, holds.pop_nil]; rfl, holds⟩
    | cons node rest =>
      obtain ⟨q', ran, holds'⟩ := holds.pop_cons
      exact ⟨q', by simp only [work, ran]; rfl, holds'⟩
  | peek => exact ⟨q, by simp only [work, holds.peek]; rfl, holds⟩
  | range f => exact ⟨q, by simp only [work, holds.range]; rfl, holds⟩
  | sweep dead onDrop =>
    obtain ⟨q', ran, holds'⟩ := @ChunkQueue.Holds.rotateLoop σ (sweepVisit dead onDrop) list q [] s
      (by simpa using holds)
    exact ⟨q', by simp only [work, ChunkQueue.sweepQueue, holds.size, ChunkQueue.sweepLoop_eq, ran]; rfl, holds'⟩
  | rebuild remap onDrop =>
    obtain ⟨q', ran, holds'⟩ := @ChunkQueue.Holds.rotateLoop σ (rebuildVisit remap onDrop) list q [] s
      (by simpa using holds)
    exact ⟨q', by simp only [work, ChunkQueue.rebuildQueue, holds.size, ChunkQueue.rebuildLoop_eq, ran]; rfl, holds'⟩

/-- Every run on the chunks is the run on a list: it meets no nil pointer and no index outside a chunk,
answers as the list does, counts the list's nodes, and keeps at most two chunks more than they fill. -/
theorem queue_is_list (s : σ) (ops : List (QueueOp σ)) :
    ∃ q, run work (default, s, []) ops = .ok (q, (ops.foldl onList ([], s, [])).2) ∧
      q.size = (ops.foldl onList ([], s, [])).1.length ∧
      ∃ count, q.chunks = .ok count ∧ count ≤ q.size / queueChunkSize + 2 := by
  have reached : ∃ q, run work (default, s, []) ops = .ok (q, (ops.foldl onList ([], s, [])).2) ∧
      q.Holds (ops.foldl onList ([], s, [])).1 := by
    -- Induction from the end: the last call starts where the others stop.
    induction ops using List.reverseRecOn with
    | nil => exact ⟨default, rfl, ChunkQueue.holds_default⟩
    | append_singleton done op ih =>
      obtain ⟨q, ran, holds⟩ := ih
      obtain ⟨q', worked, holds'⟩ := work_onList holds _ _ op
      rw [run_append ran, List.foldl_append]
      exact ⟨q', worked, holds'⟩
  obtain ⟨q, ran, holds⟩ := reached
  obtain ⟨count, linked, few⟩ := holds.chunks
  exact ⟨q, ran, holds.size, count, linked, by rwa [holds.size]⟩

end QueueOp

end Memstash
