import Memstash.L2.Expirations
import Memstash.Lib.Collapsing

/-! Bulk writes of the SQL and DynamoDB adapters: duplicates collapsed, the rest in limited requests. -/

namespace Memstash

open Collapsing Occurrences

variable {K V D E σ : Type}

/-- Write the items one by one, stopping at the first error. -/
def batchSetSequential (set : σ → K × V → Except E σ) (s : σ) (items : List (K × V)) : Except E σ := items.foldlM set s

namespace SqlAdapter

/-- A row of a multi-row insert. -/
structure KvRow (D : Type) where
  storageKey : String
  data : D

/-- A positional parameter. -/
inductive Arg (D : Type) where
  | text (s : String)
  | blob (data : D)
  | integer (n : Int)

/-- An upsert: the numbers of the placeholders of each row it inserts, and the parameters. -/
structure Statement (D : Type) where
  tuples : List (Nat × Nat × Nat)
  args : List (Arg D)

/-- The most positional parameters of a statement. -/
def maxStatementParams : Nat := 900

/-- Rows per statement, of three parameters each. -/
def chunkRows : Nat := maxStatementParams / 3

/-- The statement that upserts some rows with one deadline. -/
def insertStatement (deadline : Int) (chunk : List (KvRow D)) : Statement D where
  tuples := (List.range chunk.length).map fun i => (3 * i + 1, 3 * i + 2, 3 * i + 3)
  args := chunk.flatMap fun row => [.text row.storageKey, .blob row.data, .integer deadline]

/-- The rows a database reads from a statement: key, value and deadline. -/
def Statement.rows (statement : Statement D) : List (String × D × Int) :=
  statement.tuples.filterMap fun (key, value, deadline) =>
    match statement.args[key - 1]?, statement.args[value - 1]?, statement.args[deadline - 1]? with
    | some (.text k), some (.blob d), some (.integer n) => some (k, d, n)
    | _, _, _ => none

section Calls

variable (exec : σ → Statement D → Except E σ) (marshal : V → Except E D) (keyFunc : K → String) (now ttl : Int)

/-- Store one item. -/
def set (s : σ) (item : K × V) : Except E σ := do
  let data ← marshal item.2
  exec s (insertStatement (DeadlineStore.sqlExpiresAt now ttl) [⟨keyFunc item.1, data⟩])

/-- The rows of a list of items, the last value of each storage key in the place of its first. -/
def collapsedRows (items : List (K × V)) : Except E (List (KvRow D)) := do
  let (rows, _) ← items.foldlM (fun state item => do
    let data ← marshal item.2
    return absorb KvRow.storageKey (fun old new => { old with data := new.data }) state ⟨keyFunc item.1, data⟩)
    (([] : List (KvRow D)), fun _ => none)
  return rows

/-- Store all items. -/
def batchSet (multiRowUpsert : Bool) (s : σ) (items : List (K × V)) : Except E σ :=
  if items = [] then .ok s
  else if multiRowUpsert = false then batchSetSequential (set exec marshal keyFunc now ttl) s items
  else do
    let rows ← collapsedRows marshal keyFunc items
    (slicesFrom chunkRows rows rows.length 0).foldlM (fun s chunk =>
      exec s (insertStatement (DeadlineStore.sqlExpiresAt now ttl) chunk)) s

end Calls

/-- A database that accepts every statement, with the statements so far. -/
def accept (db : (String → Option (D × Int)) × List (Statement D)) (statement : Statement D) :
    Except E ((String → Option (D × Int)) × List (Statement D)) :=
  .ok (puts db.1 statement.rows, db.2 ++ [statement])

/-- The row of an item whose value was encoded. -/
def rowOf (keyFunc : K → String) (data : V → D) (item : K × V) : KvRow D := ⟨keyFunc item.1, data item.2⟩

/-- When every value can be encoded, the rows are those of the items, collapsed. -/
theorem collapsedRows_eq {marshal : V → Except E D} {data : V → D} (keyFunc : K → String) {items : List (K × V)}
    (encodes : ∀ item ∈ items, marshal item.2 = .ok (data item.2)) :
    collapsedRows marshal keyFunc items = .ok (collapse KvRow.storageKey (fun old new => { old with data := new.data })
      (items.map (rowOf keyFunc data))) := by
  have folded : ∀ (items : List (K × V)) (state : List (KvRow D) × (String → Option Nat)),
      (∀ item ∈ items, marshal item.2 = .ok (data item.2)) →
      items.foldlM (fun state item => do
        let data ← marshal item.2
        return absorb KvRow.storageKey (fun old new => { old with data := new.data }) state ⟨keyFunc item.1, data⟩)
        state = (.ok ((items.map (rowOf keyFunc data)).foldl
          (absorb KvRow.storageKey fun old new => { old with data := new.data }) state) : Except E _) := by
    intro items
    induction items with
    | nil => exact fun _ _ => rfl
    | cons item rest ih =>
      intro state encodes
      rw [List.foldlM_cons, encodes item (by simp), List.map_cons, List.foldl_cons]
      exact ih _ fun other member => encodes other (by simp [member])
  rw [collapsedRows, folded items _ encodes]
  rfl

/-- A database reads back the rows a statement was built from. -/
theorem insertStatement_rows (deadline : Int) (chunk : List (KvRow D)) :
    (insertStatement deadline chunk).rows = chunk.map fun row => (row.storageKey, row.data, deadline) := by
  -- Induction from the end: the last row reads the last three parameters, the others do not move.
  induction chunk using List.reverseRecOn with
  | nil => rfl
  | append_singleton before row ih =>
    have size : (before.flatMap fun row => [Arg.text row.storageKey, .blob row.data, .integer deadline]).length
        = 3 * before.length := by
      simp [Nat.mul_comm]
    unfold Statement.rows insertStatement at ih ⊢
    simp only [List.length_append, List.length_singleton, List.range_succ, List.map_append, List.map_cons,
      List.map_nil, List.flatMap_append, List.flatMap_cons, List.flatMap_nil, List.append_nil,
      List.filterMap_append] at ih ⊢
    congr 1
    · rw [← ih]
      refine List.filterMap_congr fun tuple member => ?_
      obtain ⟨i, inside, rfl⟩ := List.mem_map.mp member
      rw [List.mem_range] at inside
      simp only [Nat.add_sub_cancel]
      rw [List.getElem?_append_left (by omega), List.getElem?_append_left (by omega),
        List.getElem?_append_left (by omega)]
    · simp only [List.filterMap_cons, List.filterMap_nil, Nat.add_sub_cancel]
      rw [List.getElem?_append_right (by omega), List.getElem?_append_right (by omega),
        List.getElem?_append_right (by omega), size]
      simp

/-- Statements that are accepted one after the other write all their rows. -/
theorem foldlM_accept {α : Type} (statement : α → Statement D) (l : List α) :
    ∀ db : (String → Option (D × Int)) × List (Statement D),
      l.foldlM (fun db a => accept db (statement a)) db
        = (.ok (puts db.1 (l.flatMap fun a => (statement a).rows), db.2 ++ l.map statement) : Except E _) := by
  induction l with
  | nil =>
    intro db
    simp [puts, Pure.pure, Except.pure]
  | cons a rest ih =>
    intro db
    rw [List.foldlM_cons]
    refine (ih _).trans ?_
    simp [puts_append]

/-- One by one, every item is written with the deadline. -/
theorem sequential_eq {marshal : V → Except E D} {data : V → D} (keyFunc : K → String) (now ttl : Int)
    {items : List (K × V)} (encodes : ∀ item ∈ items, marshal item.2 = .ok (data item.2))
    (db : (String → Option (D × Int)) × List (Statement D)) :
    ∃ log, batchSetSequential (set accept marshal keyFunc now ttl) db items = .ok (puts db.1
      (items.map fun item => (keyFunc item.1, data item.2, DeadlineStore.sqlExpiresAt now ttl)), log) := by
  induction items generalizing db with
  | nil => exact ⟨db.2, rfl⟩
  | cons item rest ih =>
    obtain ⟨log, ran⟩ := ih (fun other member => encodes other (by simp [member]))
      (puts db.1 [(keyFunc item.1, data item.2, DeadlineStore.sqlExpiresAt now ttl)],
        db.2 ++ [insertStatement (DeadlineStore.sqlExpiresAt now ttl) [⟨keyFunc item.1, data item.2⟩]])
    refine ⟨log, ?_⟩
    rw [batchSetSequential, List.foldlM_cons, set, encodes item (by simp)]
    rw [batchSetSequential] at ran
    simp only [Bind.bind, Except.bind, accept, insertStatement_rows, List.map_cons, List.map_nil] at ran ⊢
    rw [ran, ← puts_append]
    rfl

/-- The storage keys of a statement. -/
def Statement.keys (statement : Statement D) : List String := statement.rows.map Prod.fst

/-- A bulk write in a multi-row dialect leaves the same rows as the single writes, in requests that keep to
the limit and name every storage key once between them. -/
theorem batchSet_spec {marshal : V → Except E D} {data : V → D} (keyFunc : K → String) (now ttl : Int)
    {items : List (K × V)} (encodes : ∀ item ∈ items, marshal item.2 = .ok (data item.2))
    (store : String → Option (D × Int)) :
    ∃ requests, batchSet accept marshal keyFunc now ttl true (store, []) items = .ok (puts store
        (items.map fun item => (keyFunc item.1, data item.2, DeadlineStore.sqlExpiresAt now ttl)), requests) ∧
      (requests.flatMap Statement.keys).Nodup ∧
      ∀ request ∈ requests, request.args.length ≤ maxStatementParams := by
  unfold batchSet
  by_cases none : items = []
  · exact ⟨[], by simp [none, puts], by simp, by simp⟩
  · let replace : KvRow D → KvRow D → KvRow D := fun old new => { old with data := new.data }
    let value : KvRow D → D × Int := fun row => (row.data, DeadlineStore.sqlExpiresAt now ttl)
    obtain ⟨distinct, values⟩ := @collapse_spec _ _ _ _ KvRow.storageKey replace value (fun _ _ same => same)
      (fun _ _ => rfl) (items.map (rowOf keyFunc data))
    rw [if_neg none, if_neg (by simp), collapsedRows_eq keyFunc encodes]
    set rows := collapse KvRow.storageKey replace (items.map (rowOf keyFunc data)) with collapsed
    obtain ⟨whole, small⟩ := slicesFrom_spec (show 0 < chunkRows by decide) rows rows.length 0 (by omega)
    rw [List.drop_zero] at whole
    -- The slices' rows are all the rows, each written once.
    have written : (slicesFrom chunkRows rows rows.length 0).flatMap (fun chunk =>
        (insertStatement (DeadlineStore.sqlExpiresAt now ttl) chunk).rows)
        = rows.map fun row => (row.storageKey, value row) := by
      conv_rhs => rw [← whole, List.map_flatten]
      rw [List.flatMap_def]
      exact congrArg List.flatten (List.map_congr_left fun chunk _ => insertStatement_rows _ chunk)
    refine ⟨(slicesFrom chunkRows rows rows.length 0).map (insertStatement (DeadlineStore.sqlExpiresAt now ttl)),
      (foldlM_accept (insertStatement (DeadlineStore.sqlExpiresAt now ttl)) _ (store, [])).trans ?_, ?_, ?_⟩
    · rw [written, List.nil_append]
      congr 2
      funext k
      rw [puts_apply, puts_apply, values, List.map_map]
      rfl
    · rw [List.flatMap_map]
      have names : (slicesFrom chunkRows rows rows.length 0).flatMap (fun chunk =>
          (insertStatement (DeadlineStore.sqlExpiresAt now ttl) chunk).keys) = rows.map KvRow.storageKey := by
        unfold Statement.keys
        rw [← List.map_flatMap, written, List.map_map]
        rfl
      rw [names]
      exact distinct
    · intro request member
      obtain ⟨chunk, inside, rfl⟩ := List.mem_map.mp member
      have few := small chunk inside
      simp only [insertStatement, List.length_flatMap, List.length_cons, List.length_nil, List.map_const',
        List.sum_replicate, smul_eq_mul]
      unfold chunkRows maxStatementParams at *
      omega

end SqlAdapter

namespace DynamoAdapter

/-- A put of one item: its key, its value and its TTL attribute. -/
abbrev Put (D : Type) := String × D × Option Int

/-- The most items of a write request. -/
def batchWriteLimit : Nat := 25

/-- How often unprocessed items are sent again. -/
def maxBatchRetries : Nat := 1

section Calls

variable (write : σ → List (Put D) → Except E (σ × List (Put D))) (errUnprocessed : E)
  (marshal : V → Except E D) (keyFunc : K → String) (now ttl : Int)

/-- The attributes of an item. -/
def encodeItem (item : K × V) : Except E (Put D) := do
  let data ← marshal item.2
  return (keyFunc item.1, data, DeadlineStore.dynamoDeadline now ttl)

/-- Send a request until nothing is unprocessed, for a number of attempts. -/
def sendAll : Nat → σ → List (Put D) → σ × Option E
  | _, s, [] => (s, none)
  | 0, s, _ :: _ => (s, some errUnprocessed)
  | attempts + 1, s, put :: more =>
    match write s (put :: more) with
    | .error e => (s, some e)
    | .ok (s, pending) => sendAll attempts s pending

/-- Store one chunk of items with one request. -/
def batchSetChunk (s : σ) (chunk : List (K × V)) : σ × Option E :=
  match chunk.mapM (encodeItem marshal keyFunc now ttl) with
  | .error e => (s, some e)
  | .ok puts => sendAll write errUnprocessed (maxBatchRetries + 1) s puts

/-- The items of a list, the last of each storage key in the place of its first. -/
def deduped (items : List (K × V)) : List (K × V) :=
  collapse (fun item => keyFunc item.1) (fun _ new => new) items

/-- The chunks a list of items is stored in. -/
def chunks (items : List (K × V)) : List (List (K × V)) :=
  if items = [] then []
  else
    let items := deduped keyFunc items
    if items.length ≤ batchWriteLimit then [items]
    else slicesUpTo batchWriteLimit items ((items.length + batchWriteLimit - 1) / batchWriteLimit)

/-- Store the chunks in the order their goroutines happen to run, joining the errors. -/
def batchSet (order : List (List (K × V))) (s : σ) : σ × List E :=
  order.foldl (fun (s, errs) chunk =>
    let (s, err) := batchSetChunk write errUnprocessed marshal keyFunc now ttl s chunk
    (s, errs ++ err.toList)) (s, [])

/-- Store one item with a put request of its own. -/
def set (put : σ → Put D → Except E σ) (s : σ) (item : K × V) : Except E σ := do
  put s (← encodeItem marshal keyFunc now ttl item)

end Calls

/-- A table that accepts every request and leaves nothing unprocessed, with the requests so far. -/
def accept (table : (String → Option (D × Option Int)) × List (List (Put D))) (request : List (Put D)) :
    Except E (((String → Option (D × Option Int)) × List (List (Put D))) × List (Put D)) :=
  .ok ((puts table.1 request, table.2 ++ [request]), [])

/-- The same table for single puts. -/
def acceptPut (table : (String → Option (D × Option Int)) × List (List (Put D))) (put : Put D) :
    Except E ((String → Option (D × Option Int)) × List (List (Put D))) :=
  .ok (puts table.1 [put], table.2 ++ [[put]])

section Laws

variable {marshal : V → Except E D} {data : V → D} (keyFunc : K → String) (now ttl : Int)

/-- The put of an item whose value was encoded. -/
def putOf (data : V → D) (item : K × V) : Put D :=
  (keyFunc item.1, data item.2, DeadlineStore.dynamoDeadline now ttl)

/-- When every value can be encoded, so can the items. -/
theorem mapM_encodeItem {items : List (K × V)} (encodes : ∀ item ∈ items, marshal item.2 = .ok (data item.2)) :
    items.mapM (encodeItem marshal keyFunc now ttl) = .ok (items.map (putOf keyFunc now ttl data)) := by
  induction items with
  | nil => rfl
  | cons item rest ih =>
    rw [List.mapM_cons, ih fun other member => encodes other (by simp [member]), encodeItem, encodes item (by simp)]
    rfl

/-- A chunk is stored by one request, or by none when it is empty. -/
theorem batchSetChunk_eq (errUnprocessed : E) {chunk : List (K × V)}
    (encodes : ∀ item ∈ chunk, marshal item.2 = .ok (data item.2))
    (table : (String → Option (D × Option Int)) × List (List (Put D))) :
    batchSetChunk accept errUnprocessed marshal keyFunc now ttl table chunk
      = ((puts table.1 (chunk.map (putOf keyFunc now ttl data)),
          table.2 ++ if chunk = [] then [] else [chunk.map (putOf keyFunc now ttl data)]), none) := by
  rw [batchSetChunk, mapM_encodeItem keyFunc now ttl encodes]
  cases chunk with
  | nil => simp [sendAll, puts]
  | cons item rest => simp [sendAll, accept, maxBatchRetries]

/-- The chunks are stored in their order, without errors. -/
theorem batchSet_eq (errUnprocessed : E) {order : List (List (K × V))}
    (encodes : ∀ chunk ∈ order, ∀ item ∈ chunk, marshal item.2 = .ok (data item.2))
    (store : String → Option (D × Option Int)) :
    batchSet accept errUnprocessed marshal keyFunc now ttl order (store, [])
      = ((puts store (order.flatten.map (putOf keyFunc now ttl data)),
          (order.filter (· ≠ [])).map fun chunk => chunk.map (putOf keyFunc now ttl data)), []) := by
  unfold batchSet
  -- Induction from the end: the last chunk finds what the others left.
  induction order using List.reverseRecOn with
  | nil => rfl
  | append_singleton before chunk ih =>
    rw [List.foldl_append, ih fun other member => encodes other (by simp [member])]
    simp only [List.foldl_cons, List.foldl_nil,
      batchSetChunk_eq keyFunc now ttl errUnprocessed (encodes chunk (by simp)), List.flatten_append,
      List.flatten_singleton, List.map_append, puts_append, List.filter_append]
    by_cases empty : chunk = [] <;> simp [empty]

/-- The chunks are the collapsed items in pieces that keep to the limit. -/
theorem chunks_spec (items : List (K × V)) :
    (chunks keyFunc items).flatten = deduped keyFunc items ∧
      ∀ chunk ∈ chunks keyFunc items, chunk.length ≤ batchWriteLimit := by
  unfold chunks
  by_cases none : items = []
  · simp [none, deduped, collapse]
  · rw [if_neg none]
    dsimp only
    split
    · rename_i small
      simpa using small
    · obtain ⟨whole, small⟩ := slicesUpTo_spec batchWriteLimit (deduped keyFunc items)
        (((deduped keyFunc items).length + batchWriteLimit - 1) / batchWriteLimit)
      refine ⟨whole.trans (List.take_of_length_le ?_), small⟩
      unfold batchWriteLimit
      omega

/-- A bulk write leaves the same items as the single writes, whatever order its chunks are stored in, in
requests that keep to the limit and name every storage key once between them. -/
theorem batchSet_spec (errUnprocessed : E) {items : List (K × V)}
    (encodes : ∀ item ∈ items, marshal item.2 = .ok (data item.2)) {order : List (List (K × V))}
    (perm : order.Perm (chunks keyFunc items)) (store : String → Option (D × Option Int)) :
    ∃ requests, batchSet accept errUnprocessed marshal keyFunc now ttl order (store, [])
        = ((puts store (items.map (putOf keyFunc now ttl data)), requests), []) ∧
      (requests.flatMap fun request => request.map Prod.fst).Nodup ∧
      ∀ request ∈ requests, request.length ≤ batchWriteLimit := by
  obtain ⟨whole, small⟩ := chunks_spec keyFunc items
  let value : K × V → D × Option Int := fun item => (data item.2, DeadlineStore.dynamoDeadline now ttl)
  obtain ⟨distinct, values⟩ := @collapse_spec _ _ _ _ (fun item : K × V => keyFunc item.1) (fun _ new => new) value
    (fun _ _ _ => rfl) (fun _ _ => rfl) items
  -- Together the chunks are the collapsed items, in some order.
  have flat : order.flatten.Perm (deduped keyFunc items) := whole ▸ perm.flatten
  have stored : ∀ chunk ∈ order, ∀ item ∈ chunk, marshal item.2 = .ok (data item.2) := by
    intro chunk inside item member
    have left : item ∈ deduped keyFunc items := flat.mem_iff.mp (List.mem_flatten.mpr ⟨chunk, inside, member⟩)
    exact encodes item (mem_of_mem_collapse left)
  have names : ((deduped keyFunc items).map (putOf keyFunc now ttl data)).map Prod.fst
      = (deduped keyFunc items).map fun item => keyFunc item.1 := by
    rw [List.map_map]
    rfl
  refine ⟨(order.filter (· ≠ [])).map fun chunk => chunk.map (putOf keyFunc now ttl data),
    (batchSet_eq keyFunc now ttl errUnprocessed stored store).trans ?_, ?_, ?_⟩
  · congr 2
    funext k
    rw [puts_apply, puts_apply, lastValue_perm (names ▸ distinct) (flat.map _)]
    exact congrArg (·.or (store k)) (values k)
  · have keys : (((order.filter (· ≠ [])).map fun chunk => chunk.map (putOf keyFunc now ttl data)).flatMap
        fun request => request.map Prod.fst) = order.flatten.map fun item => keyFunc item.1 := by
      rw [List.flatMap_map, ← List.flatten_filter_ne_nil (L := order), List.map_flatten, List.flatMap_def]
      refine congrArg List.flatten (List.map_congr_left fun chunk _ => ?_)
      rw [List.map_map]
      rfl
    rw [keys]
    exact (flat.map _).nodup_iff.mpr distinct
  · intro request member
    obtain ⟨chunk, inside, rfl⟩ := List.mem_map.mp member
    rw [List.length_map]
    exact small chunk (perm.mem_iff.mp (List.mem_filter.mp inside).1)

/-- One by one, every item is put. -/
theorem sequential_eq {items : List (K × V)} (encodes : ∀ item ∈ items, marshal item.2 = .ok (data item.2))
    (table : (String → Option (D × Option Int)) × List (List (Put D))) :
    ∃ log, batchSetSequential (set marshal keyFunc now ttl acceptPut) table items
      = .ok (puts table.1 (items.map (putOf keyFunc now ttl data)), log) := by
  induction items generalizing table with
  | nil => exact ⟨table.2, rfl⟩
  | cons item rest ih =>
    obtain ⟨log, ran⟩ := ih (fun other member => encodes other (by simp [member]))
      (puts table.1 [putOf keyFunc now ttl data item], table.2 ++ [[putOf keyFunc now ttl data item]])
    refine ⟨log, ?_⟩
    rw [batchSetSequential, List.foldlM_cons, set, encodeItem, encodes item (by simp)]
    rw [batchSetSequential, ← puts_append] at ran
    exact ran

end Laws

end DynamoAdapter

/-- The store after some writes, by the last value each key is given. -/
theorem puts_lastValue {A B : Type} (keyFunc : K → String) (data : V → A) (stamp : B) (items : List (K × V))
    (store : String → Option (A × B)) (k : String) :
    puts store (items.map fun item => (keyFunc item.1, data item.2, stamp)) k
      = ((lastValue (items.map fun item => (keyFunc item.1, data item.2)) k).map (·, stamp)).or (store k) := by
  rw [puts_apply]
  congr 1
  induction items with
  | nil => rfl
  | cons item rest ih =>
    rw [List.map_cons, List.map_cons, lastValue_cons, lastValue_cons, ih, Option.map_or]
    split <;> rfl

/-- Bulk writes leave every storage key with the value of its last occurrence, as single writes in order
do, with no storage key twice in one request or in two, and every request within its limit. -/
theorem bulk_writes_equal_sets {marshal : V → Except E D} {data : V → D} (keyFunc : K → String) (now ttl : Int)
    {items : List (K × V)} (encodes : ∀ item ∈ items, marshal item.2 = .ok (data item.2)) :
    (∀ store : String → Option (D × Int), ∃ store' requests log,
      SqlAdapter.batchSet SqlAdapter.accept marshal keyFunc now ttl true (store, []) items = .ok (store', requests) ∧
      batchSetSequential (SqlAdapter.set SqlAdapter.accept marshal keyFunc now ttl) (store, []) items
        = .ok (store', log) ∧
      (∀ k, store' k = ((lastValue (items.map fun item => (keyFunc item.1, data item.2)) k).map
        (·, DeadlineStore.sqlExpiresAt now ttl)).or (store k)) ∧
      (requests.flatMap SqlAdapter.Statement.keys).Nodup ∧
      ∀ request ∈ requests, request.args.length ≤ SqlAdapter.maxStatementParams) ∧
    ∀ (errUnprocessed : E) (store : String → Option (D × Option Int)) (order : List (List (K × V))),
      order.Perm (DynamoAdapter.chunks keyFunc items) → ∃ store' requests log,
      DynamoAdapter.batchSet DynamoAdapter.accept errUnprocessed marshal keyFunc now ttl order (store, [])
        = ((store', requests), []) ∧
      batchSetSequential (DynamoAdapter.set marshal keyFunc now ttl DynamoAdapter.acceptPut) (store, []) items
        = .ok (store', log) ∧
      (∀ k, store' k = ((lastValue (items.map fun item => (keyFunc item.1, data item.2)) k).map
        (·, DeadlineStore.dynamoDeadline now ttl)).or (store k)) ∧
      (requests.flatMap fun request => request.map Prod.fst).Nodup ∧
      ∀ request ∈ requests, request.length ≤ DynamoAdapter.batchWriteLimit := by
  refine ⟨fun store => ?_, fun errUnprocessed store order perm => ?_⟩
  · obtain ⟨requests, ran, distinct, small⟩ := SqlAdapter.batchSet_spec keyFunc now ttl encodes store
    obtain ⟨log, single⟩ := SqlAdapter.sequential_eq keyFunc now ttl encodes (store, [])
    exact ⟨_, requests, log, ran, single, puts_lastValue keyFunc data _ items store, distinct, small⟩
  · obtain ⟨requests, ran, distinct, small⟩ :=
      DynamoAdapter.batchSet_spec keyFunc now ttl errUnprocessed encodes perm store
    obtain ⟨log, single⟩ := DynamoAdapter.sequential_eq keyFunc now ttl encodes (store, [])
    exact ⟨_, requests, log, ran, single, puts_lastValue keyFunc data _ items store, distinct, small⟩

/-- The second of two values for one key is the one a bulk write leaves. -/
theorem bulk_writes_equal_sets_twice : ∃ (store' : String → Option (Nat × Int)) (requests : _),
    SqlAdapter.batchSet (E := Unit) SqlAdapter.accept Except.ok (fun key : Bool => toString key) 0 0 true
        (fun _ => none, []) [(true, 5), (true, 6)] = .ok (store', requests) ∧
      store' "true" = some (6, 0) := by
  obtain ⟨store', requests, _, ran, _, values, _⟩ := (@bulk_writes_equal_sets Bool Nat Nat Unit Except.ok id
    (fun key => toString key) 0 0 [(true, 5), (true, 6)] fun _ _ => rfl).1 fun _ => none
  exact ⟨store', requests, ran, (values "true").trans (by decide)⟩

end Memstash
