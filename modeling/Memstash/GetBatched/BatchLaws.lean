import Memstash.GetBatched.Batch
import Memstash.Lib.Occurrences

/-! A batch files every request under its key, whatever the scratch it reuses. -/

namespace Memstash

open Machine Occurrences

variable {K : Type}

namespace GetBatch

variable {b b' : GetBatch K}

/-- The slots that wait along a chain whose links run backwards. -/
def Waits (b : GetBatch K) : Int → List Nat → Prop
  | slot, [] => slot < 0
  | slot, waiting :: rest => ∃ i : Nat, slot = i ∧ b.slots[i]? = some waiting ∧
      ∃ after, b.next[i]? = some after ∧ after < i ∧ Waits b after rest

/-- Walking along a chain yields the slots that wait there. -/
theorem Waits.chain {waiting : List Nat} : ∀ {slot : Int}, b.Waits slot waiting →
    ∀ {fuel : Nat}, 0 < fuel → slot + 1 < fuel → b.chain fuel slot = some waiting := by
  induction waiting with
  | nil =>
    intro slot ended fuel enough _
    obtain ⟨rest, rfl⟩ : ∃ rest, fuel = rest + 1 := ⟨fuel - 1, by omega⟩
    have ended : slot < 0 := ended
    rw [GetBatch.chain, if_pos ended]
  | cons first others ih =>
    rintro slot ⟨i, rfl, held, after, linked, backwards, waits⟩ fuel enough deep
    obtain ⟨rest, rfl⟩ : ∃ rest, fuel = rest + 1 := ⟨fuel - 1, by omega⟩
    have onward : b.chain rest after = some others := ih waits (by omega) (by omega)
    rw [GetBatch.chain, if_neg (by omega)]
    simp [held, linked, onward]

/-- A chain begins within the batch. -/
theorem Waits.lt {waiting : List Nat} {slot : Int} (waits : b.Waits slot waiting) :
    slot < b.slots.length := by
  cases waiting with
  | nil =>
    have ended : slot < 0 := waits
    omega
  | cons first others =>
    obtain ⟨i, rfl, held, _⟩ := waits
    obtain ⟨inside, _⟩ := List.getElem?_eq_some_iff.mp held
    omega

theorem Waits.nonneg_iff {waiting : List Nat} {slot : Int} (waits : b.Waits slot waiting) :
    0 ≤ slot ↔ waiting ≠ [] := by
  cases waiting with
  | nil =>
    have ended : slot < 0 := waits
    simpa using ended
  | cons first others =>
    obtain ⟨i, rfl, _⟩ := waits
    simp

/-- Filing more requests leaves the chains as they are. -/
theorem Waits.grow {slots : List Nat} {next : List Int} (more : b'.slots = b.slots ++ slots)
    (links : b'.next = b.next ++ next) {waiting : List Nat} :
    ∀ {slot : Int}, b.Waits slot waiting → b'.Waits slot waiting := by
  induction waiting with
  | nil => exact fun ended => ended
  | cons first others ih =>
    rintro slot ⟨i, rfl, held, after, linked, backwards, waits⟩
    obtain ⟨inside, _⟩ := List.getElem?_eq_some_iff.mp held
    obtain ⟨inside', _⟩ := List.getElem?_eq_some_iff.mp linked
    refine ⟨i, rfl, ?_, after, ?_, backwards, ih waits⟩
    · rw [more, List.getElem?_append_left inside, held]
    · rw [links, List.getElem?_append_left inside', linked]

theorem Waits.congr (slots : b'.slots = b.slots) (next : b'.next = b.next) {waiting : List Nat}
    {slot : Int} (waits : b.Waits slot waiting) : b'.Waits slot waiting :=
  waits.grow (by rw [slots, List.append_nil]) (by rw [next, List.append_nil])

variable [DecidableEq K]

/-- The slots of the requests for a key. -/
def waiting (reqs : List (AsyncGet K)) (key : K) : List Nat :=
  (reqs.filter fun req => req.key = key).map AsyncGet.slot

/-- The requests a batch was asked to file, and the keys it has served since. -/
structure Filed (reqs : List (AsyncGet K)) (served : List K) (b : GetBatch K) : Prop where
  slots : b.slots = reqs.map AsyncGet.slot
  next : b.next.length = reqs.length
  keys : b.keys = (reqs.map AsyncGet.key).eraseDups
  head : b.head.length = b.keys.length
  /-- The last request of a key heads its chain. -/
  waits : ∀ pos key, b.keys[pos]? = some key →
    b.Waits (b.headAt pos) (if key ∈ served then [] else (waiting reqs key).reverse)
  indexed : ∀ index, b.index = some index → ∀ key pos, index key = some pos ↔ b.keys[pos]? = some key

theorem filed_reset (b : GetBatch K) : Filed [] [] b.reset := by
  refine ⟨rfl, rfl, by simp [reset], rfl, by simp [reset], fun index known key pos => ?_⟩
  obtain ⟨_, _, rfl⟩ := Option.map_eq_some_iff.mp known
  simp [reset]

variable {reqs : List (AsyncGet K)} {served : List K}

theorem Filed.nodup (filed : Filed reqs served b) : b.keys.Nodup := by
  rw [filed.keys]
  exact nodup_eraseDups _

theorem Filed.mem_keys (filed : Filed reqs served b) {key : K} :
    key ∈ b.keys ↔ ∃ req ∈ reqs, req.key = key := by
  rw [filed.keys, List.mem_eraseDups, List.mem_map]

/-- Looking a key up finds its position, by the scan or by the index. -/
theorem Filed.lookup_eq_some (filed : Filed reqs served b) {key : K} {pos : Nat} :
    b.lookup key = some pos ↔ b.keys[pos]? = some key := by
  unfold lookup
  cases known : b.index with
  | none => exact idxOf?_eq_some_of_nodup filed.nodup
  | some index => exact filed.indexed index known key pos

theorem Filed.lookup_eq_none (filed : Filed reqs served b) {key : K} :
    b.lookup key = none ↔ key ∉ b.keys := by
  rw [Option.eq_none_iff_forall_ne_some, List.mem_iff_getElem?, not_exists]
  simp only [ne_eq, filed.lookup_eq_some]

/-- A key of the batch has not been served exactly when its chain has a beginning. -/
theorem Filed.headAt_nonneg (filed : Filed reqs served b) {key : K} {pos : Nat}
    (here : b.keys[pos]? = some key) : 0 ≤ b.headAt pos ↔ key ∉ served := by
  rw [(filed.waits pos key here).nonneg_iff]
  split
  · rename_i gone
    simp [gone]
  · rename_i waits
    -- Someone asked for every key of the batch.
    obtain ⟨req, asked, same⟩ := filed.mem_keys.mp (List.mem_of_getElem? here)
    have some : waiting reqs key ≠ [] := by
      refine List.ne_nil_of_mem (a := req.slot) (List.mem_map.mpr ⟨req, ?_, rfl⟩)
      exact List.mem_filter.mpr ⟨asked, by simpa using same⟩
    simp [waits, some]

omit [DecidableEq K] in
/-- Setting one head leaves the others. -/
theorem headAt_set (b : GetBatch K) {pos : Nat} (inside : pos < b.head.length) (link : Int)
    (other : Nat) : { b with head := b.head.set pos link }.headAt other
      = if other = pos then link else b.headAt other := by
  unfold headAt
  rw [List.getD_eq_getElem?_getD, List.getElem?_set]
  by_cases same : pos = other
  · subst same
    simp [inside]
  · rw [if_neg same, if_neg (Ne.symm same), List.getD_eq_getElem?_getD]

/-- Marking a key as served. -/
theorem Filed.serve (filed : Filed reqs served b) {key : K} {pos : Nat} (here : b.keys[pos]? = some key) :
    Filed reqs (key :: served) { b with head := b.head.set pos (-1) } := by
  obtain ⟨inside, _⟩ := List.getElem?_eq_some_iff.mp here
  refine ⟨filed.slots, filed.next, filed.keys, by simpa using filed.head, fun other key' there => ?_,
    filed.indexed⟩
  rw [headAt_set b (by rw [filed.head]; exact inside)]
  by_cases same : other = pos
  · subst same
    obtain rfl := Option.some.inj (here.symm.trans there)
    rw [if_pos rfl, if_pos (by simp)]
    exact Int.negSucc_lt_zero 0
  · have apart : key' ≠ key := fun equal =>
      same (getElem?_unique filed.nodup there (equal ▸ here))
    rw [if_neg same]
    simp only [List.mem_cons, apart, false_or]
    refine Waits.congr ?_ ?_ (filed.waits other key' there) <;> rfl

/-- One more key in an index. -/
theorem update_index {rest : List K} {last : K} {index : K → Option Nat} (fresh : last ∉ rest)
    (known : ∀ key pos, index key = some pos ↔ rest[pos]? = some key) (key : K) (pos : Nat) :
    Function.update index last (some rest.length) key = some pos ↔
      (rest ++ [last])[pos]? = some key := by
  rw [List.getElem?_append]
  by_cases same : key = last
  · subst same
    rw [Function.update_self, Option.some_inj]
    split
    · rename_i inside
      have away : rest[pos]? ≠ some key := fun there => fresh (List.mem_of_getElem? there)
      simp only [away, iff_false]
      omega
    · rename_i outside
      rw [List.getElem?_singleton]
      split
      · simp only [iff_true]
        omega
      · simp only [reduceCtorEq, iff_false]
        omega
  · rw [Function.update_of_ne same, known]
    split
    · rfl
    · rename_i outside
      rw [List.getElem?_eq_none (by omega), List.getElem?_singleton]
      split
      · simp [Ne.symm same]
      · rfl

/-- Only the served keys of the batch matter. -/
theorem Filed.congr_served (filed : Filed reqs served b) {served' : List K}
    (same : ∀ key ∈ b.keys, key ∈ served' ↔ key ∈ served) : Filed reqs served' b := by
  refine { filed with waits := fun pos key here => ?_ }
  have waits := filed.waits pos key here
  simp only [same key (List.mem_of_getElem? here)]
  exact waits

/-- The index built for some keys knows the position of each. -/
theorem indexOfKeys_eq_some {keys : List K} : keys.Nodup → ∀ key pos,
    indexOfKeys keys key = some pos ↔ keys[pos]? = some key := by
  induction keys using List.reverseRecOn with
  | nil => simp [indexOfKeys]
  | append_singleton rest last ih =>
    intro distinct
    obtain ⟨distinctRest, _, apart⟩ := List.nodup_append.mp distinct
    have fresh : last ∉ rest := fun member => apart last member last (by simp) rfl
    have built : indexOfKeys (rest ++ [last])
        = Function.update (indexOfKeys rest) last (some rest.length) := by
      simp [indexOfKeys, List.zipIdx_append, List.foldl_append]
    rw [built]
    exact update_index fresh (ih distinctRest)

omit [DecidableEq K] in
/-- A newly filed request heads its chain. -/
theorem Waits.push {slot : Nat} {head : Int} {waiting : List Nat} (links : b.next.length = b.slots.length)
    (slots : b'.slots = b.slots ++ [slot]) (next : b'.next = b.next ++ [head])
    (waits : b.Waits head waiting) : b'.Waits b.slots.length (slot :: waiting) :=
  ⟨b.slots.length, rfl, by simp [slots], head, by simp [next, ← links], waits.lt, waits.grow slots next⟩

/-- The requests for a key, with one more. -/
theorem waiting_concat (reqs : List (AsyncGet K)) (req : AsyncGet K) (key : K) :
    waiting (reqs ++ [req]) key
      = if req.key = key then waiting reqs key ++ [req.slot] else waiting reqs key := by
  unfold waiting
  split
  · rename_i same
    simp [List.filter_append, same]
  · rename_i apart
    simp [List.filter_append, apart]

/-- Filing a request for a key that is in the batch. -/
theorem Filed.add_known (filed : Filed reqs [] b) (few : reqs.length < 2 ^ 31) (req : AsyncGet K)
    {pos : Nat} (here : b.keys[pos]? = some req.key) : Filed (reqs ++ [req]) [] (b.add req) := by
  have count : b.slots.length = reqs.length := by rw [filed.slots, List.length_map]
  have links : b.next.length = b.slots.length := by rw [filed.next, count]
  have link : int32 b.slots.length = b.slots.length := int32_of_range (by omega) (by omega)
  obtain ⟨inside, _⟩ := List.getElem?_eq_some_iff.mp here
  have known : req.key ∈ reqs.map AsyncGet.key := by
    rw [← List.mem_eraseDups, ← filed.keys]
    exact List.mem_of_getElem? here
  rw [add, filed.lookup_eq_some.mpr here, link]
  refine ⟨by simp [filed.slots], by simp [filed.next], ?_, by simpa using filed.head,
    fun other key there => ?_, filed.indexed⟩
  · rw [List.map_append, List.map_singleton, eraseDups_concat, if_pos known]
    exact filed.keys
  · have waits := filed.waits other key there
    simp only [List.not_mem_nil, if_false] at waits ⊢
    have head := headAt_set b (by rw [filed.head]; exact inside) b.slots.length other
    unfold headAt at head ⊢
    dsimp only at head ⊢
    rw [head, waiting_concat]
    by_cases same : other = pos
    · subst same
      obtain rfl := Option.some.inj (here.symm.trans there)
      rw [if_pos rfl, if_pos rfl, List.reverse_append]
      exact waits.push links rfl rfl
    · have apart : req.key ≠ key := fun equal =>
        same (getElem?_unique filed.nodup there (equal ▸ here))
      rw [if_neg same, if_neg apart]
      exact waits.grow rfl rfl

/-- Appending a new key, before the index is told. -/
theorem Filed.append (filed : Filed reqs [] b) (req : AsyncGet K) (fresh : req.key ∉ b.keys) :
    Filed (reqs ++ [req]) [] { b.append req b.slots.length with index := none } := by
  have links : b.next.length = b.slots.length := by rw [filed.next, filed.slots, List.length_map]
  have unknown : req.key ∉ reqs.map AsyncGet.key := by
    rw [← List.mem_eraseDups, ← filed.keys]
    exact fresh
  refine ⟨by simp [GetBatch.append, filed.slots], by simp [GetBatch.append, filed.next], ?_,
    by simp [GetBatch.append, filed.head], fun pos key there => ?_, by simp⟩
  · rw [List.map_append, List.map_singleton, eraseDups_concat, if_neg unknown, ← filed.keys]
    rfl
  simp only [List.not_mem_nil, if_false, waiting_concat]
  have slots : ({ b.append req b.slots.length with index := none } : GetBatch K).slots
      = b.slots ++ [req.slot] := rfl
  have next : ({ b.append req b.slots.length with index := none } : GetBatch K).next
      = b.next ++ [-1] := rfl
  have there' : (b.keys ++ [req.key])[pos]? = some key := there
  show Waits _ ((b.head ++ [(b.slots.length : Int)]).getD pos (-1)) _
  rw [List.getD_eq_getElem?_getD, List.getElem?_append]
  rw [List.getElem?_append] at there'
  by_cases inside : pos < b.keys.length
  · -- A key that was there keeps its chain.
    rw [if_pos inside] at there'
    rw [if_pos (by rw [filed.head]; exact inside), ← List.getD_eq_getElem?_getD]
    have apart : req.key ≠ key := fun equal => fresh (equal ▸ List.mem_of_getElem? there')
    rw [if_neg apart]
    have waits := filed.waits pos key there'
    simp only [List.not_mem_nil, if_false] at waits
    exact waits.grow slots next
  · -- The new key has the one request.
    rw [if_neg inside] at there'
    rw [List.getElem?_singleton] at there'
    split at there'
    · rename_i last
      obtain rfl := Option.some.inj there'
      have nobody : waiting reqs req.key = [] := by
        unfold waiting
        rw [List.map_eq_nil_iff, List.filter_eq_nil_iff]
        intro asked member same
        exact unknown (List.mem_map.mpr ⟨asked, member, by simpa using same⟩)
      rw [if_neg (by rw [filed.head]; exact inside), filed.head, last, if_pos rfl, nobody]
      have alone : b.Waits (-1) [] := Int.negSucc_lt_zero 0
      exact alone.push links slots next
    · cases there'

/-- Filing a request for a new key. -/
theorem Filed.add_fresh (filed : Filed reqs [] b) (few : reqs.length < 2 ^ 31) (req : AsyncGet K)
    (fresh : req.key ∉ b.keys) : Filed (reqs ++ [req]) [] (b.add req) := by
  have count : b.slots.length = reqs.length := by rw [filed.slots, List.length_map]
  have link : int32 b.slots.length = b.slots.length := int32_of_range (by omega) (by omega)
  have core := filed.append req fresh
  rw [GetBatch.add, filed.lookup_eq_none.mpr fresh, link]
  dsimp only
  -- The index follows the keys, whether it is there or is built now.
  have reindexed : ∀ index, (∀ key pos, index key = some pos ↔ b.keys[pos]? = some key) →
      Filed (reqs ++ [req]) [] { b.append req b.slots.length with
        index := some (Function.update index req.key (some b.keys.length)) } := by
    intro index known
    refine ⟨core.slots, core.next, core.keys, core.head, fun pos key there => ?_, ?_⟩
    · refine Waits.congr ?_ ?_ (core.waits pos key there) <;> rfl
    · rintro _ ⟨⟩
      exact update_index fresh known
  have length : (b.append req b.slots.length).keys.length - 1 = b.keys.length := by simp [GetBatch.append]
  have rest : (b.append req b.slots.length).keys.dropLast = b.keys := by simp [GetBatch.append]
  have same : (b.append req b.slots.length).index = b.index := rfl
  unfold indexKey
  rw [length, rest, same]
  cases known : b.index with
  | some index => exact reindexed index (filed.indexed index known)
  | none =>
    dsimp only
    split
    · rw [← known] at core
      exact core
    · exact reindexed _ (indexOfKeys_eq_some filed.nodup)

/-- Filing a request, while their number fits the links. -/
theorem Filed.add (filed : Filed reqs [] b) (few : reqs.length < 2 ^ 31) (req : AsyncGet K) :
    Filed (reqs ++ [req]) [] (b.add req) := by
  by_cases known : req.key ∈ b.keys
  · obtain ⟨pos, here⟩ := List.mem_iff_getElem?.mp known
    exact filed.add_known few req here
  · exact filed.add_fresh few req known

end GetBatch

end Memstash
