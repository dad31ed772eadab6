import Memstash.GetBatched.BatchLaws

/-! Every request a worker takes off the queue is settled once, with the answer of its own key. -/

namespace Memstash

open Programs Occurrences

variable {K V E : Type}

/-- A call of the second level, with its reply; a missing one stands for a panic. -/
inductive L2Query (K V E : Type) where
  | get (key : K) (reply : Option (V × Bool × Option E))
  | batchGet (keys : List K) (reply : Option (List (K × V) × Option E))
  deriving DecidableEq, Repr

namespace L2Query

/-- The keys that were asked for. -/
def keys : L2Query K V E → List K
  | get key _ => [key]
  | batchGet keys _ => keys

/-- The pairs a reply answers with, and what it says of all other keys. -/
def outcome : L2Query K V E → List (K × V) × Option (ReadError E)
  | get _ none => ([], some .panicked)
  | get key (some (value, found, err)) =>
    if found then ([(key, value)], none) else ([], err.map .failed)
  | batchGet _ none => ([], some .panicked)
  | batchGet _ (some (_, some err)) => ([], some (.failed err))
  | batchGet _ (some (fromL2, none)) => (fromL2, none)

end L2Query

/-- What a worker has looked up, asked and settled. -/
structure ReadLog (K V E : Type) where
  looked : List (K × Option V)
  asked : List (L2Query K V E)
  settled : List (Nat × Answer V E)
  /-- What memory held at first, less what was found missing, and with what was stored since. -/
  memory : K → Option V

namespace ReadLog

/-- Nothing yet. -/
def start (memory : K → Option V) : ReadLog K V E := ⟨[], [], [], memory⟩

/-- Settle some more slots. -/
def settling (log : ReadLog K V E) (settled : List (Nat × Answer V E)) : ReadLog K V E :=
  { log with settled := log.settled ++ settled }

/-- Ask the second level once more. -/
def asking (log : ReadLog K V E) (query : L2Query K V E) : ReadLog K V E :=
  { log with asked := log.asked ++ [query] }

/-- Some slots were settled, and nothing was looked up or asked. -/
structure Settles (log : ReadLog K V E) (settled : List (Nat × Answer V E)) (log' : ReadLog K V E) :
    Prop where
  looked : log'.looked = log.looked
  asked : log'.asked = log.asked
  settled : log'.settled = log.settled ++ settled

/-- Settling some slots and then others. -/
theorem Settles.trans {log log' log'' : ReadLog K V E} {first second : List (Nat × Answer V E)}
    (one : log.Settles first log') (two : log'.Settles second log'') :
    log.Settles (first ++ second) log'' :=
  ⟨two.looked.trans one.looked, two.asked.trans one.asked, by rw [two.settled, one.settled, List.append_assoc]⟩

variable [DecidableEq K]

/-- Note a question and its answer. -/
def after : (op : ReadOp K V E) → op.Ans → ReadLog K V E → ReadLog K V E
  | .getMemory key, some found, log =>
    { log with
      looked := log.looked ++ [(key, found)]
      memory := Function.update log.memory key found }
  | .setMemory key value _, some _, log =>
    { log with memory := Function.update log.memory key (some value) }
  | .l2Get key, reply, log => log.asking (.get key reply)
  | .l2BatchGet keys, reply, log => log.asking (.batchGet keys reply)
  | .settle slot answer, _, log => log.settling [(slot, answer)]
  | _, _, log => log

omit [DecidableEq K] in
/-- Whether memory gives an answer: no lookup panics, and no store either when the handler is calm. -/
def MemoryAnswers (calm : Prop) : (op : ReadOp K V E) → op.Ans → Prop
  | .getMemory _, answer => answer ≠ none
  | .setMemory _ _ _, answer => calm → answer ≠ none
  | _, _ => True

/-- A worker keeps a log; the second level may answer anything. -/
def rules (calm : Prop) : Rules (ReadOp K V E) ReadOp.Ans (ReadLog K V E) where
  allowed _ _ := True
  possible op _ answer := MemoryAnswers calm op answer
  after := after

end ReadLog

/-- The answer a key gets from the pairs that were found and what holds of all other keys. -/
def answerFor [DecidableEq K] [Inhabited V] (found : List (K × V)) (err : Option (ReadError E)) (key : K) :
    Answer V E :=
  match found.lookup key with
  | some value => ⟨value, true, none⟩
  | none => ⟨default, false, err⟩

section Answers

variable [DecidableEq K]

/-- A key is looked up successfully when some pair has it. -/
theorem lookup_eq_none_iff_not_mem {found : List (K × V)} {key : K} :
    found.lookup key = none ↔ key ∉ found.map Prod.fst := by
  rw [List.lookup_eq_none_iff]
  simp only [bne_iff_ne, List.mem_map, not_exists, not_and]
  exact ⟨fun apart pair member same => apart pair member same.symm,
    fun apart pair member same => apart pair member same.symm⟩

variable [Inhabited V]

theorem answerFor_of_not_mem {found : List (K × V)} {err : Option (ReadError E)} {key : K}
    (absent : key ∉ found.map Prod.fst) : answerFor found err key = ⟨default, false, err⟩ := by
  rw [answerFor, lookup_eq_none_iff_not_mem.mpr absent]

/-- The first value found for a key is its answer, whatever else is found. -/
theorem answerFor_append {found : List (K × V)} (more : List (K × V)) (err err' : Option (ReadError E))
    {key : K} (known : key ∈ found.map Prod.fst) :
    answerFor (found ++ more) err key = answerFor found err' key := by
  obtain ⟨value, first⟩ := Option.ne_none_iff_exists'.mp
    fun none => lookup_eq_none_iff_not_mem.mp none known
  rw [answerFor, answerFor, List.lookup_append, first]
  rfl

/-- A pair with a new key is the answer of its key. -/
theorem answerFor_concat {found : List (K × V)} {item : K × V} (err : Option (ReadError E))
    (fresh : item.1 ∉ found.map Prod.fst) :
    answerFor (found ++ [item]) err item.1 = ⟨item.2, true, none⟩ := by
  rw [answerFor, List.lookup_append, lookup_eq_none_iff_not_mem.mpr fresh]
  simp [List.lookup]

end Answers

namespace Read

open ReadLog GetBatch

variable [DecidableEq K] {calm : Prop} {reqs : List (AsyncGet K)} {served : List K} {b : GetBatch K}
  {log start : ReadLog K V E} {answer : K → Answer V E}

/-- Settling slot after slot. -/
theorem each_settle (waiting : List Nat) (answer : Answer V E) : ∀ log : ReadLog K V E,
    Ensures (rules calm) (.each (fun slot => settle slot answer) waiting : Read K V E Unit)
      (fun out log' => out = some () ∧ log' = log.settling (waiting.map fun slot => (slot, answer))) log := by
  induction waiting with
  | nil => exact fun log => ⟨rfl, by simp [settling]⟩
  | cons slot rest ih =>
    intro log
    refine ⟨trivial, fun _ _ => (ih _).mono fun out log' ends => ⟨ends.1, ends.2.trans ?_⟩⟩
    simp [rules, ReadLog.after, settling]

/-- The requests for served keys have been settled since the start, each once and with its answer. -/
def Settled (reqs : List (AsyncGet K)) (served : List K) (answer : K → Answer V E)
    (start log : ReadLog K V E) : Prop :=
  ∃ settled, start.Settles settled log ∧
    settled.Perm ((reqs.filter fun req => req.key ∈ served).map fun req => (req.slot, answer req.key))

theorem Settled.nothing (reqs : List (AsyncGet K)) (answer : K → Answer V E) (log : ReadLog K V E) :
    Settled reqs [] answer log log :=
  ⟨[], ⟨rfl, rfl, by simp⟩, by simp⟩

theorem Settled.remember (settled : Settled reqs served answer start log) (memory : K → Option V) :
    Settled reqs served answer start { log with memory := memory } := by
  obtain ⟨done, settles, perm⟩ := settled
  exact ⟨done, ⟨settles.looked, settles.asked, settles.settled⟩, perm⟩

/-- Only the answers to served keys matter. -/
theorem Settled.congr (settled : Settled reqs served answer start log) {answer' : K → Answer V E}
    (same : ∀ key ∈ served, answer' key = answer key) : Settled reqs served answer' start log := by
  obtain ⟨done, settles, perm⟩ := settled
  refine ⟨done, settles, perm.trans (List.Perm.of_eq (List.map_congr_left fun req member => ?_))⟩
  rw [same _ (by simpa using (List.mem_filter.mp member).2)]

/-- Only the served keys of the batch matter. -/
theorem Settled.congr_served (settled : Settled reqs served answer start log) {served' : List K}
    (same : ∀ req ∈ reqs, req.key ∈ served' ↔ req.key ∈ served) :
    Settled reqs served' answer start log := by
  obtain ⟨done, settles, perm⟩ := settled
  have filtered : (reqs.filter fun req => req.key ∈ served') = reqs.filter fun req => req.key ∈ served :=
    List.filter_congr fun req member => by simp [same req member]
  exact ⟨done, settles, by rw [filtered]; exact perm⟩

/-- Serving a key settles its requests and no others. -/
theorem settleKey_serves (filed : Filed reqs served b) (settled : Settled reqs served answer start log)
    {key : K} {pos : Nat} (here : b.keys[pos]? = some key) (fresh : key ∉ served) :
    Ensures (rules calm) (settleKey b pos (answer key) : Read K V E (GetBatch K))
      (fun out log' => ∃ b', out = some b' ∧ b'.keys = b.keys ∧ Filed reqs (key :: served) b' ∧
        Settled reqs (key :: served) answer start log' ∧ log'.memory = log.memory) log := by
  have waits := filed.waits pos key here
  rw [if_neg fresh] at waits
  have room := waits.lt
  unfold settleKey
  rw [waits.chain (by omega) (by omega)]
  refine Ensures.bind ((each_settle _ _ log).mono ?_)
  rintro _ _ ⟨rfl, rfl⟩
  refine ⟨_, rfl, rfl, filed.serve here, ?_, rfl⟩
  obtain ⟨done, settles, perm⟩ := settled
  refine ⟨_, settles.trans ⟨rfl, rfl, rfl⟩, ?_⟩
  -- The requests served now are those of the key, the ones before are of other keys.
  have split := filter_or_perm (fun req : AsyncGet K => req.key ∈ served) (fun req => req.key = key) reqs
    fun req _ old => by
      simp only [decide_eq_true_eq] at old
      simp only [decide_eq_false_iff_not]
      rintro rfl
      exact fresh old
  have both : (reqs.filter fun req => req.key ∈ key :: served)
      = reqs.filter fun req => decide (req.key ∈ served) || decide (req.key = key) :=
    List.filter_congr fun req _ => by simp [Bool.or_comm]
  rw [both]
  refine List.Perm.trans ?_ (split.map _).symm
  rw [List.map_append]
  refine perm.append ?_
  refine ((List.reverse_perm _).map _).trans (List.Perm.of_eq ?_)
  rw [GetBatch.waiting, List.map_map]
  refine List.map_congr_left fun req member => ?_
  rw [← (by simpa using (List.mem_filter.mp member).2 : req.key = key)]
  rfl

/-- A hit stores the value and serves the key, or leaves the batch as it was when the store panics. -/
theorem settleHit_serves (filed : Filed reqs served b) (settled : Settled reqs served answer start log)
    {key : K} {pos : Nat} (here : b.keys[pos]? = some key) (fresh : key ∉ served) {value : V}
    (hit : answer key = ⟨value, true, none⟩) :
    Ensures (rules calm) (settleHit b pos value : Read K V E (Except (GetBatch K) (GetBatch K)))
      (fun out log' =>
        (∃ b', out = some (.ok b') ∧ b'.keys = b.keys ∧ Filed reqs (key :: served) b' ∧
          Settled reqs (key :: served) answer start log' ∧
          log'.memory = Function.update log.memory key (some value)) ∨
        (¬ calm ∧ out = some (.error b) ∧ log' = log)) log := by
  unfold settleHit
  rw [here]
  refine ⟨trivial, fun expireOff _ => ⟨trivial, fun stored possible => ?_⟩⟩
  cases stored with
  | none => exact .inr ⟨fun quiet => possible quiet rfl, rfl, rfl⟩
  | some _ =>
    have serves : Ensures (rules calm) (settleKey b pos ⟨value, true, none⟩ : Read K V E (GetBatch K)) _
        { log with memory := Function.update log.memory key (some value) } :=
      hit ▸ settleKey_serves filed (settled.remember _) here fresh
    refine Ensures.bind (p := settleKey b pos ⟨value, true, none⟩) (serves.mono ?_)
    rintro _ log' ⟨b', rfl, keys, filed', settled', memory⟩
    exact .inl ⟨b', rfl, keys, filed', settled', memory⟩

variable [Inhabited V]

/-- Settling what is left at some positions. -/
theorem settlePositions_serves {err : Option (ReadError E)} (positions : List Nat) :
    ∀ {served : List K} {b : GetBatch K} {log : ReadLog K V E}, Filed reqs served b →
      Settled reqs served answer start log →
      (∀ key ∈ b.keys, key ∉ served → answer key = ⟨default, false, err⟩) →
      Ensures (rules calm) (settlePositions err positions b : Read K V E (GetBatch K))
        (fun out log' => ∃ b' served', out = some b' ∧ b'.keys = b.keys ∧ Filed reqs served' b' ∧
          Settled reqs served' answer start log' ∧ log'.memory = log.memory ∧
          (∀ key ∈ served, key ∈ served') ∧
          ∀ pos ∈ positions, ∀ key, b.keys[pos]? = some key → key ∈ served') log := by
  induction positions with
  | nil =>
    intro served b log filed settled _
    exact ⟨b, served, rfl, rfl, filed, settled, rfl, fun _ member => member, by simp⟩
  | cons pos rest ih =>
    intro served b log filed settled misses
    unfold settlePositions
    by_cases waits : b.headAt pos ≥ 0
    · rw [if_pos waits]
      -- Only a key of the batch has a chain.
      obtain ⟨key, here⟩ : ∃ key, b.keys[pos]? = some key := by
        by_contra outside
        have beyond : b.head.length ≤ pos := by
          rw [filed.head]
          by_contra inside
          exact outside ⟨_, List.getElem?_eq_getElem (by omega)⟩
        rw [headAt, List.getD_eq_getElem?_getD, List.getElem?_eq_none beyond] at waits
        exact absurd waits (by decide)
      have fresh := (filed.headAt_nonneg here).mp waits
      have miss := misses key (List.mem_of_getElem? here) fresh
      rw [← miss]
      refine Ensures.bind (p := settleKey b pos (answer key)) ((settleKey_serves filed settled here fresh).mono ?_)
      rintro _ log' ⟨b', rfl, keys, filed', settled', memory⟩
      have misses' : ∀ other ∈ b'.keys, other ∉ key :: served → answer other = ⟨default, false, err⟩ := by
        intro other member apart
        rw [keys] at member
        exact misses other member fun old => apart (List.mem_cons_of_mem _ old)
      refine (ih filed' settled' misses').mono ?_
      rintro _ log'' ⟨b'', served', rfl, keys', filed'', settled'', memory', kept, done⟩
      refine ⟨b'', served', rfl, keys'.trans keys, filed'', settled'', memory'.trans memory,
        fun other member => kept other (List.mem_cons_of_mem _ member), fun other member key' there => ?_⟩
      rcases List.mem_cons.mp member with rfl | later
      · obtain rfl := Option.some.inj (here.symm.trans there)
        exact kept _ List.mem_cons_self
      · exact done other later key' (by rw [keys]; exact there)
    · rw [if_neg waits]
      refine (ih filed settled misses).mono ?_
      rintro _ log' ⟨b', served', rfl, keys, filed', settled', memory, kept, done⟩
      refine ⟨b', served', rfl, keys, filed', settled', memory, kept, fun other member key there => ?_⟩
      rcases List.mem_cons.mp member with rfl | later
      · exact kept key (by_contra fun fresh => waits ((filed.headAt_nonneg there).mpr fresh))
      · exact done other later key there

/-- Settling what is left of a batch settles all of it. -/
theorem settleRest_serves {err : Option (ReadError E)} (filed : Filed reqs served b)
    (settled : Settled reqs served answer start log)
    (misses : ∀ key ∈ b.keys, key ∉ served → answer key = ⟨default, false, err⟩) :
    Ensures (rules calm) (settleRest b err : Read K V E (GetBatch K))
      (fun out log' => (∃ b', out = some b') ∧ log'.memory = log.memory ∧ ∃ done, start.Settles done log' ∧
        done.Perm (reqs.map fun req => (req.slot, answer req.key))) log := by
  refine (settlePositions_serves _ filed settled misses).mono ?_
  rintro _ log' ⟨b', served', rfl, _, _, ⟨done, settles, perm⟩, memory, _, all⟩
  refine ⟨⟨b', rfl⟩, memory, done, settles, ?_⟩
  -- Every request's key has a position, and every position was visited.
  have everyone : (reqs.filter fun req => req.key ∈ served') = reqs := by
    refine List.filter_eq_self.mpr fun req member => ?_
    obtain ⟨pos, here⟩ := List.mem_iff_getElem?.mp (filed.mem_keys.mpr ⟨req, member, rfl⟩)
    obtain ⟨inside, _⟩ := List.getElem?_eq_some_iff.mp here
    simpa using all pos (List.mem_range.mpr (by rw [filed.head]; exact inside)) _ here
  rwa [everyone] at perm

/-- What memory holds once the keys of a batch that were found have been stored. -/
def promoted (keys : List K) (found : List (K × V)) (memory : K → Option V) (key : K) : Option V :=
  if key ∈ keys then (found.lookup key).or (memory key) else memory key

omit [Inhabited V] in
/-- A pair that changes nothing for the batch is not stored. -/
theorem promoted_skip {keys : List K} {found : List (K × V)} {item : K × V}
    (idle : item.1 ∉ keys ∨ item.1 ∈ found.map Prod.fst) (memory : K → Option V) :
    promoted keys (found ++ [item]) memory = promoted keys found memory := by
  funext key
  unfold promoted
  split
  · rename_i member
    rw [List.lookup_append]
    cases known : found.lookup key with
    | some value => rfl
    | none =>
      have apart : key ≠ item.1 := by
        rintro rfl
        exact idle.elim (fun stranger => stranger member) (lookup_eq_none_iff_not_mem.mp known)
      simp [List.lookup, beq_false_of_ne apart]
  · rfl

omit [Inhabited V] in
/-- The first pair of a key is stored. -/
theorem promoted_hit {keys : List K} {found : List (K × V)} {key : K} (listed : key ∈ keys)
    (fresh : key ∉ found.map Prod.fst) (value : V) (memory : K → Option V) :
    promoted keys (found ++ [(key, value)]) memory
      = Function.update (promoted keys found memory) key (some value) := by
  funext other
  by_cases same : other = key
  · subst same
    rw [Function.update_self, promoted, if_pos listed, List.lookup_append,
      lookup_eq_none_iff_not_mem.mpr fresh]
    simp [List.lookup]
  · rw [Function.update_of_ne same, promoted, promoted, List.lookup_append]
    simp [List.lookup, beq_false_of_ne same]

/-- How far the hits of a reply have been settled. -/
structure Progress (reqs : List (AsyncGet K)) (found : List (K × V)) (start : ReadLog K V E)
    (b : GetBatch K) (log : ReadLog K V E) : Prop where
  filed : Filed reqs (found.map Prod.fst) b
  settled : Settled reqs (found.map Prod.fst) (answerFor found none) start log
  memory : log.memory = promoted b.keys found start.memory

/-- A pair that changes nothing for the batch: a stranger, or a key that was answered before. -/
theorem Progress.skip {found : List (K × V)} (progress : Progress reqs found start b log) {item : K × V}
    (idle : item.1 ∉ b.keys ∨ item.1 ∈ found.map Prod.fst) :
    Progress reqs (found ++ [item]) start b log := by
  have same : ∀ key ∈ b.keys, key ∈ (found ++ [item]).map Prod.fst ↔ key ∈ found.map Prod.fst := by
    intro key member
    rw [List.map_append, List.mem_append, List.map_singleton, List.mem_singleton]
    refine ⟨fun either => either.elim id fun equal => ?_, .inl⟩
    subst equal
    exact idle.resolve_left fun stranger => stranger member
  refine ⟨progress.filed.congr_served same, ?_, progress.memory.trans (promoted_skip idle _).symm⟩
  refine (progress.settled.congr fun key known => answerFor_append _ _ _ known).congr_served ?_
  exact fun req member => same _ (progress.filed.mem_keys.mpr ⟨req, member, rfl⟩)

/-- A pair that answers a key for the first time. -/
theorem Progress.hit {found : List (K × V)} (progress : Progress reqs found start b log) {key : K}
    {pos : Nat} (here : b.keys[pos]? = some key) (fresh : key ∉ found.map Prod.fst) (value : V) :
    Ensures (rules calm) (settleHit b pos value : Read K V E (Except (GetBatch K) (GetBatch K)))
      (fun out log' =>
        (∃ b', out = some (.ok b') ∧ b'.keys = b.keys ∧
          Progress reqs (found ++ [(key, value)]) start b' log') ∨
        (¬ calm ∧ out = some (.error b) ∧ log' = log)) log := by
  have settled : Settled reqs (found.map Prod.fst) (answerFor (found ++ [(key, value)]) none) start log :=
    progress.settled.congr fun _ known => answerFor_append _ _ _ known
  have answer : answerFor (found ++ [(key, value)]) none key = (⟨value, true, none⟩ : Answer V E) :=
    @answerFor_concat _ _ _ _ _ _ (key, value) none fresh
  refine (settleHit_serves progress.filed settled here fresh answer).mono ?_
  rintro _ log' (⟨b', rfl, keys, filed', settled', memory⟩ | broken)
  · -- The key joins those that were found.
    have same : ∀ other, other ∈ (found ++ [(key, value)]).map Prod.fst ↔ other ∈ key :: found.map Prod.fst := by
      intro other
      simp [or_comm]
    refine .inl ⟨b', rfl, keys, filed'.congr_served fun other _ => same other,
      settled'.congr_served fun req _ => same req.key, ?_⟩
    rw [memory, progress.memory, keys, promoted_hit (List.mem_of_getElem? here) fresh]
  · exact .inr broken

/-- Settling the hits of a reply, up to its end or to a store that panics. -/
theorem settleHits_serves (items : List (K × V)) : ∀ {found : List (K × V)} {b : GetBatch K}
    {log : ReadLog K V E}, Progress reqs found start b log →
    Ensures (rules calm) (settleHits b items : Read K V E (Except (GetBatch K) (GetBatch K)))
      (fun out log' => ∃ b' found', b'.keys = b.keys ∧ Progress reqs found' start b' log' ∧
        (out = some (.ok b') ∧ found' = found ++ items ∨
          ¬ calm ∧ out = some (.error b') ∧ found' <+: found ++ items)) log := by
  induction items with
  | nil =>
    intro found b log progress
    exact ⟨b, found, rfl, progress, .inl ⟨rfl, by simp⟩⟩
  | cons item rest ih =>
    intro found b log progress
    have skips : item.1 ∉ b.keys ∨ item.1 ∈ found.map Prod.fst →
        Ensures (rules calm) (settleHits b rest : Read K V E (Except (GetBatch K) (GetBatch K)))
          (fun out log' => ∃ b' found', b'.keys = b.keys ∧ Progress reqs found' start b' log' ∧
            (out = some (.ok b') ∧ found' = found ++ item :: rest ∨
              ¬ calm ∧ out = some (.error b') ∧ found' <+: found ++ item :: rest)) log := by
      intro idle
      have onward := ih (progress.skip idle)
      rwa [List.append_assoc] at onward
    unfold settleHits
    cases position : b.lookup item.1 with
    | none => exact skips (.inl (progress.filed.lookup_eq_none.mp position))
    | some pos =>
      have here := progress.filed.lookup_eq_some.mp position
      by_cases waits : b.headAt pos ≥ 0
      · simp only [if_pos waits]
        have fresh := (progress.filed.headAt_nonneg here).mp waits
        refine Ensures.bind (p := settleHit b pos item.2) ((progress.hit here fresh item.2).mono ?_)
        rintro _ log' (⟨b', rfl, keys, progress'⟩ | ⟨loud, rfl, rfl⟩)
        · have onward := ih progress'
          rw [List.append_assoc] at onward
          refine onward.mono ?_
          rintro out log'' ⟨b'', found', keys', ends⟩
          exact ⟨b'', found', keys'.trans keys, ends⟩
        · exact ⟨b, found, rfl, progress, .inr ⟨loud, rfl, List.prefix_append _ _⟩⟩
      · simp only [if_neg waits]
        exact skips (.inr (by_contra fun fresh => waits ((progress.filed.headAt_nonneg here).mpr fresh)))

/-- What a call of the second level yields: its reply or, when a store panics, a part of it. -/
def Yields (calm : Prop) (query : L2Query K V E) (found : List (K × V)) (err : Option (ReadError E)) : Prop :=
  (found, err) = query.outcome ∨ ¬ calm ∧ found <+: query.outcome.1 ∧ err = some .panicked

/-- What holds of the other keys does not matter to those that were found. -/
theorem Progress.forget {found : List (K × V)} (progress : Progress reqs found start b log)
    (err : Option (ReadError E)) : Settled reqs (found.map Prod.fst) (answerFor found err) start log :=
  progress.settled.congr fun key known => by
    have grown := answerFor_append (E := E) [] err none known
    rwa [List.append_nil] at grown

/-- Once every key was found, every request has its answer. -/
theorem Progress.complete {found : List (K × V)} (progress : Progress reqs found start b log)
    (all : ∀ key ∈ b.keys, key ∈ found.map Prod.fst) (err : Option (ReadError E)) :
    ∃ done, start.Settles done log ∧
      done.Perm (reqs.map fun req => (req.slot, answerFor found err req.key)) := by
  obtain ⟨done, settles, perm⟩ := progress.forget err
  refine ⟨done, settles, ?_⟩
  have everyone : (reqs.filter fun req => req.key ∈ found.map Prod.fst) = reqs :=
    List.filter_eq_self.mpr fun req member => by
      simpa using all _ (progress.filed.mem_keys.mpr ⟨req, member, rfl⟩)
  rwa [everyone] at perm

/-- Settling the rest after some hits gives every request its answer. -/
theorem Progress.settlesRest {found : List (K × V)} (progress : Progress reqs found start b log)
    (err : Option (ReadError E)) :
    Ensures (rules calm) (settleRest b err : Read K V E (GetBatch K))
      (fun out log' => (∃ b', out = some b') ∧ log'.memory = promoted b.keys found start.memory ∧
        ∃ done, start.Settles done log' ∧
          done.Perm (reqs.map fun req => (req.slot, answerFor found err req.key))) log := by
  rw [← progress.memory]
  exact settleRest_serves progress.filed (progress.forget err) fun key _ fresh => answerFor_of_not_mem fresh

theorem Progress.nothing (filed : Filed reqs [] b) (log : ReadLog K V E) : Progress reqs [] log b log :=
  ⟨filed, .nothing _ _ _, by funext key; simp [promoted]⟩

/-- A batch has asked the second level once, and the outcome answers every request. -/
structure Resolved (calm : Prop) (keys : List K) (reqs : List (AsyncGet K)) (start : ReadLog K V E)
    (query : L2Query K V E) (found : List (K × V)) (err : Option (ReadError E)) (log : ReadLog K V E) :
    Prop where
  asked : query.keys = keys
  yields : Yields calm query found err
  settled : ∃ done, (start.asking query).Settles done log ∧
    done.Perm (reqs.map fun req => (req.slot, answerFor found err req.key))
  memory : log.memory = promoted keys found start.memory

/-- How a batch stands after a panic: what was found before it has been settled. -/
structure Interrupted (calm : Prop) (keys : List K) (reqs : List (AsyncGet K)) (start : ReadLog K V E)
    (query : L2Query K V E) (found : List (K × V)) (b : GetBatch K) (log : ReadLog K V E) : Prop where
  asked : query.keys = keys
  yields : Yields calm query found (some .panicked)
  keys : b.keys = keys
  progress : Progress reqs found (start.asking query) b log

/-- How asking the second level for a batch may end. -/
def AskEnd (calm : Prop) (keys : List K) (reqs : List (AsyncGet K)) (start : ReadLog K V E)
    (out : Option (Except (GetBatch K) (GetBatch K))) (log : ReadLog K V E) : Prop :=
  (∃ b query found err, out = some (.ok b) ∧ Resolved calm keys reqs start query found err log) ∨
    ∃ b query found, out = some (.error b) ∧ Interrupted calm keys reqs start query found b log

theorem reqs_eq_nil (filed : Filed reqs served b) (none : b.keys = []) : reqs = [] := by
  refine List.eq_nil_iff_forall_not_mem.mpr fun req member => ?_
  have listed := filed.mem_keys.mpr ⟨req, member, rfl⟩
  rw [none] at listed
  exact absurd listed (List.not_mem_nil)

/-- Settling the rest of a batch resolves it. -/
theorem Progress.resolves {query : L2Query K V E} {found : List (K × V)} {keys : List K}
    (progress : Progress reqs found (start.asking query) b log) (calm : Prop) (err : Option (ReadError E))
    (asked : query.keys = keys) (same : b.keys = keys) (yields : Yields calm query found err) :
    Ensures (rules calm) (settleRest b err : Read K V E (GetBatch K))
      (fun out log' => (∃ b', out = some b') ∧ Resolved calm keys reqs start query found err log') log := by
  refine (progress.settlesRest err).mono ?_
  rintro _ log' ⟨returned, memory, settled⟩
  rw [same] at memory
  exact ⟨returned, asked, yields, settled, memory⟩

/-- Asking the second level for one key. -/
theorem askL2_single (filed : Filed reqs [] b) {key : K} (single : b.keys = [key]) :
    Ensures (rules calm) (askL2 b : Read K V E (Except (GetBatch K) (GetBatch K)))
      (AskEnd calm b.keys reqs log) log := by
  unfold askL2
  rw [single]
  refine ⟨trivial, fun reply _ => ?_⟩
  have progress : Progress reqs [] (log.asking (.get key reply)) b (log.asking (.get key reply)) :=
    .nothing filed _
  match reply with
  | none => exact .inr ⟨b, _, [], rfl, rfl, .inl rfl, single, progress⟩
  | some (value, true, err) =>
    have first : b.keys[0]? = some key := by rw [single]; rfl
    refine (progress.hit first (by simp) value).mono ?_
    rintro _ log' (⟨b', rfl, keys, progress'⟩ | ⟨loud, rfl, rfl⟩)
    · have settled := progress'.complete (by simp [keys, single]) none
      have memory := progress'.memory
      rw [keys, single] at memory
      exact .inl ⟨b', _, _, _, rfl, rfl, .inl rfl, settled, memory⟩
    · exact .inr ⟨b, .get key (some (value, true, err)), [], rfl, rfl, .inr ⟨loud, List.nil_prefix, rfl⟩,
        single, progress⟩
  | some (value, false, err) =>
    have resolves := progress.resolves calm (err.map .failed) rfl single (.inl rfl)
    refine Ensures.bind (p := settleRest b (err.map .failed)) (resolves.mono ?_)
    rintro _ log' ⟨⟨b', rfl⟩, resolved⟩
    exact .inl ⟨b', _, _, _, rfl, resolved⟩

/-- Asking the second level for several keys. -/
theorem askL2_many (filed : Filed reqs [] b) {key key' : K} {keys : List K}
    (many : b.keys = key :: key' :: keys) :
    Ensures (rules calm) (askL2 b : Read K V E (Except (GetBatch K) (GetBatch K)))
      (AskEnd calm b.keys reqs log) log := by
  unfold askL2
  rw [many]
  refine ⟨trivial, fun reply _ => ?_⟩
  have progress : Progress reqs [] (log.asking (.batchGet (key :: key' :: keys) reply)) b
      (log.asking (.batchGet (key :: key' :: keys) reply)) := .nothing filed _
  match reply with
  | none => exact .inr ⟨b, _, [], rfl, rfl, .inl rfl, many, progress⟩
  | some (_, some err) =>
    have resolves := progress.resolves calm (some (.failed err)) rfl many (.inl rfl)
    refine Ensures.bind (p := settleRest b (some (.failed err))) (resolves.mono ?_)
    rintro _ log' ⟨⟨b', rfl⟩, resolved⟩
    exact .inl ⟨b', _, _, _, rfl, resolved⟩
  | some (fromL2, none) =>
    refine Ensures.bind (p := settleHits b fromL2) ((settleHits_serves fromL2 progress).mono ?_)
    rintro _ log' ⟨b', found, same, progress', ⟨rfl, rfl⟩ | ⟨loud, rfl, partly⟩⟩
    · have resolves := progress'.resolves calm none rfl (same.trans many) (.inl rfl)
      refine Ensures.bind (p := settleRest b' none) (resolves.mono ?_)
      rintro _ log'' ⟨⟨b'', rfl⟩, resolved⟩
      exact .inl ⟨b'', _, _, _, rfl, resolved⟩
    · exact .inr ⟨b', .batchGet _ (some (fromL2, none)), found, rfl, rfl, .inr ⟨loud, partly, rfl⟩,
        same.trans many, progress'⟩

/-- Resolving a batch answers every request, whatever the second level replies and whenever a panic
strikes. -/
theorem resolveBatch_serves (filed : Filed reqs [] b) (someone : reqs ≠ []) :
    Ensures (rules calm) (resolveBatch b : Read K V E (GetBatch K))
      (fun out log' => (∃ b', out = some b') ∧
        ∃ query found err, Resolved calm b.keys reqs log query found err log') log := by
  have asks : Ensures (rules calm) (askL2 b : Read K V E (Except (GetBatch K) (GetBatch K)))
      (AskEnd calm b.keys reqs log) log := by
    match keys : b.keys with
    | [] => exact absurd (reqs_eq_nil filed keys) someone
    | [key] => exact keys ▸ askL2_single filed keys
    | key :: key' :: rest => exact keys ▸ askL2_many filed keys
  refine Ensures.bind (p := askL2 b) (asks.mono ?_)
  rintro _ log' (⟨b', query, found, err, rfl, resolved⟩ | ⟨b', query, found, rfl, interrupted⟩)
  · exact ⟨⟨b', rfl⟩, query, found, err, resolved⟩
  · -- The callers that still wait are woken with the panic.
    refine Ensures.bind (p := settleRest b' (some .panicked))
      ((interrupted.progress.resolves calm _ interrupted.asked interrupted.keys interrupted.yields).mono ?_)
    rintro _ log'' ⟨⟨b'', rfl⟩, resolved⟩
    exact ⟨trivial, fun _ _ => ⟨⟨b'', rfl⟩, query, found, _, resolved⟩⟩

theorem resolveBatch_nobody (filed : Filed [] [] b) :
    (resolveBatch b : Read K V E (GetBatch K)) = .done b := by
  unfold resolveBatch askL2
  rw [filed.keys]
  rfl

/-- The requests that memory had no value for. -/
def missed (polled : List (AsyncGet K × Option V)) : List (AsyncGet K) :=
  polled.filterMap fun (req, held) => if held.isNone then some req else none

/-- The answers of the requests that memory had a value for. -/
def answeredFromMemory (polled : List (AsyncGet K × Option V)) : List (Nat × Answer V E) :=
  polled.filterMap fun (req, held) => held.map fun value => (req.slot, ⟨value, true, none⟩)

/-- Some requests have been taken off the queue, and filed or answered from memory. -/
structure Collected (polled : List (AsyncGet K × Option V)) (start : ReadLog K V E) (b : GetBatch K)
    (log : ReadLog K V E) : Prop where
  filed : Filed (missed polled) [] b
  looked : log.looked = start.looked ++ polled.map fun entry => (entry.1.key, entry.2)
  asked : log.asked = start.asked
  settled : log.settled = start.settled ++ answeredFromMemory polled

omit [Inhabited V] in
/-- Collecting one more request. -/
theorem collect_collects {polled : List (AsyncGet K × Option V)} (collected : Collected polled start b log)
    (few : polled.length < 2 ^ 31) (req : AsyncGet K) :
    Ensures (rules calm) (collect b req : Read K V E (GetBatch K))
      (fun out log' => ∃ b' held, out = some b' ∧ Collected (polled ++ [(req, held)]) start b' log') log := by
  refine ⟨trivial, fun answer possible => ?_⟩
  match answer with
  | none => exact absurd rfl possible
  | some (some value) =>
    refine ⟨trivial, fun _ _ => ⟨b, some value, rfl, ?_, ?_, collected.asked, ?_⟩⟩
    · simpa [missed] using collected.filed
    · simp [rules, ReadLog.after, settling, collected.looked]
    · simp [rules, ReadLog.after, settling, collected.settled, answeredFromMemory]
  | some none =>
    have filed : (missed polled).length < 2 ^ 31 :=
      (List.length_filterMap_le _ _).trans_lt few
    refine ⟨b.add req, none, rfl, ?_, ?_, collected.asked, ?_⟩
    · simpa [missed] using collected.filed.add filed req
    · simp [rules, ReadLog.after, collected.looked]
    · simp [rules, ReadLog.after, collected.settled, answeredFromMemory]

omit [Inhabited V] in
/-- Draining the queue collects what it holds, up to an empty poll or a full batch. -/
theorem drain_collects (polls : List (Option (AsyncGet K))) :
    ∀ {polled : List (AsyncGet K × Option V)} {b : GetBatch K} {log : ReadLog K V E},
      Collected polled start b log →
      (∀ burst : List (AsyncGet K), burst.map some <+: polls → polled.length + burst.length ≤ 2 ^ 31) →
      Ensures (rules calm) (drain b polls : Read K V E (GetBatch K × List (Option (AsyncGet K))))
        (fun out log' => ∃ b' polls' more, out = some (b', polls') ∧
          Collected (polled ++ more) start b' log' ∧ polls' <:+ polls ∧
          polls.reduceOption = more.map Prod.fst ++ polls'.reduceOption) log := by
  induction polls with
  | nil =>
    intro polled b log collected _
    exact ⟨b, [], [], rfl, by simpa using collected, List.suffix_refl _, rfl⟩
  | cons poll rest ih =>
    intro polled b log collected few
    unfold drain
    split
    · cases poll with
      | none =>
        exact ⟨b, rest, [], rfl, by simpa using collected, List.suffix_cons _ _, by simp [List.reduceOption]⟩
      | some req =>
        have one := few [req] (by simp)
        rw [List.length_singleton] at one
        refine Ensures.bind (p := collect b req) ((collect_collects collected (by omega) req).mono ?_)
        rintro _ log' ⟨b', held, rfl, collected'⟩
        have fewer : ∀ burst : List (AsyncGet K), burst.map some <+: rest →
            (polled ++ [(req, held)]).length + burst.length ≤ 2 ^ 31 := by
          intro burst begins
          have total := few (req :: burst) (by simpa using begins)
          simp only [List.length_append, List.length_cons, List.length_nil] at total ⊢
          omega
        refine (ih collected' fewer).mono ?_
        rintro _ log'' ⟨b'', polls', more, rfl, collected'', suffix, taken⟩
        refine ⟨b'', polls', (req, held) :: more, rfl, ?_, suffix.trans (List.suffix_cons _ _), ?_⟩
        · rw [List.append_assoc] at collected''
          exact collected''
        · simp only [List.reduceOption, List.filterMap_cons, id_eq, List.map_cons, List.cons_append] at taken ⊢
          rw [taken]
    · exact ⟨b, poll :: rest, [], rfl, by simpa using collected, List.suffix_refl _, rfl⟩

end Read

/-- What one batch of a worker looked up, asked and settled. -/
structure BatchRecord (K V E : Type) where
  /-- The requests taken off the queue, with what memory held for each. -/
  polled : List (AsyncGet K × Option V)
  asked : List (L2Query K V E)
  settled : List (Nat × Answer V E)

/-- A log has grown by a batch. -/
structure ReadLog.Adds (log : ReadLog K V E) (batch : BatchRecord K V E) (log' : ReadLog K V E) : Prop where
  looked : log'.looked = log.looked ++ batch.polled.map fun entry => (entry.1.key, entry.2)
  asked : log'.asked = log.asked ++ batch.asked
  settled : log'.settled = log.settled ++ batch.settled

namespace BatchRecord

open Read

variable [DecidableEq K] [Inhabited V]

/-- The answer a request should get: what memory held, or its key's part of the outcome. -/
def expected (found : List (K × V)) (err : Option (ReadError E)) (req : AsyncGet K) :
    Option V → Answer V E
  | some value => ⟨value, true, none⟩
  | none => answerFor found err req.key

/-- The second level was asked at most once, for the distinct keys memory did not have, and every request
was settled once with the answer it should get. -/
def Served (calm : Prop) (batch : BatchRecord K V E) : Prop :=
  ∃ found err,
    (missed batch.polled = [] ∧ batch.asked = [] ∨
      missed batch.polled ≠ [] ∧ ∃ query, batch.asked = [query] ∧
        query.keys = ((missed batch.polled).map AsyncGet.key).eraseDups ∧ Yields calm query found err) ∧
    batch.settled.Perm (batch.polled.map fun (req, held) => (req.slot, expected found err req held))

/-- The requests answered from memory and the others are all requests. -/
theorem expected_perm (found : List (K × V)) (err : Option (ReadError E))
    (polled : List (AsyncGet K × Option V)) :
    List.Perm (answeredFromMemory polled ++
        (missed polled).map fun req : AsyncGet K => (req.slot, answerFor found err req.key))
      (polled.map fun entry : AsyncGet K × Option V =>
        (entry.1.slot, expected found err entry.1 entry.2)) := by
  induction polled with
  | nil => exact .nil
  | cons entry rest ih =>
    obtain ⟨req, held⟩ := entry
    cases held with
    | some value =>
      simpa [answeredFromMemory, missed, expected] using ih.cons (req.slot, expected found err req (some value))
    | none =>
      simpa [answeredFromMemory, missed, expected] using
        List.perm_middle.trans (ih.cons (req.slot, answerFor found err req.key))

theorem Served.slots {calm : Prop} {batch : BatchRecord K V E} (served : batch.Served calm) :
    (batch.settled.map Prod.fst).Perm ((batch.polled.map Prod.fst).map AsyncGet.slot) := by
  obtain ⟨found, err, _, perm⟩ := served
  have slots := perm.map Prod.fst
  rwa [List.map_map] at slots ⊢

end BatchRecord

namespace Read

open ReadLog GetBatch BatchRecord

variable [DecidableEq K] [Inhabited V] {calm : Prop} {log : ReadLog K V E}

/-- Serving one batch, with any scratch. -/
theorem serveBatch_serves (b : GetBatch K) (first : AsyncGet K) {polls : List (Option (AsyncGet K))}
    (few : ∀ burst : List (AsyncGet K), burst.map some <+: polls → 1 + burst.length ≤ 2 ^ 31) :
    Ensures (rules calm) (serveBatch b first polls : Read K V E (GetBatch K × List (Option (AsyncGet K))))
      (fun out log' => ∃ b' polls' batch, out = some (b', polls') ∧ log.Adds batch log' ∧
        batch.Served calm ∧ polls' <:+ polls ∧
        first :: polls.reduceOption = batch.polled.map Prod.fst ++ polls'.reduceOption) log := by
  have fresh : Collected [] log b.reset log := ⟨filed_reset b, by simp, rfl, by simp [answeredFromMemory]⟩
  refine Ensures.bind (p := collect b.reset first) ((collect_collects fresh (by norm_num) first).mono ?_)
  rintro _ _ ⟨b₁, held, rfl, collected⟩
  refine Ensures.bind (p := drain b₁ polls) ((drain_collects polls collected (by simpa using few)).mono ?_)
  rintro _ log₂ ⟨b₂, polls', more, rfl, collected', suffix, taken⟩
  generalize whole : [] ++ [(first, held)] ++ more = polled at collected'
  have requests : first :: polls.reduceOption = polled.map Prod.fst ++ polls'.reduceOption := by
    rw [taken, ← whole]
    simp
  by_cases nobody : missed polled = []
  · have filed := collected'.filed
    rw [nobody] at filed
    show Ensures _ ((resolveBatch b₂).bind _) _ _
    rw [resolveBatch_nobody filed]
    refine ⟨b₂, polls', ⟨polled, [], answeredFromMemory polled⟩, rfl,
      ⟨collected'.looked, by simp [collected'.asked], collected'.settled⟩, ?_, suffix, requests⟩
    have all := expected_perm (E := E) [] none polled
    rw [nobody] at all
    exact ⟨[], none, .inl ⟨nobody, rfl⟩, by simpa using all⟩
  · refine Ensures.bind (p := resolveBatch b₂) ((resolveBatch_serves collected'.filed nobody).mono ?_)
    rintro _ log' ⟨⟨b₃, rfl⟩, query, found, err, resolved⟩
    obtain ⟨done, settles, perm⟩ := resolved.settled
    refine ⟨b₃, polls', ⟨polled, [query], answeredFromMemory polled ++ done⟩, rfl, ⟨?_, ?_, ?_⟩, ?_, suffix,
      requests⟩
    · exact settles.looked.trans collected'.looked
    · rw [settles.asked, asking, collected'.asked]
    · rw [settles.settled, ← List.append_assoc, ← collected'.settled]
      rfl
    · refine ⟨found, err, .inr ⟨nobody, query, rfl, resolved.asked.trans collected'.filed.keys,
        resolved.yields⟩, ?_⟩
      exact (perm.append_left _).trans (expected_perm found err polled)

/-- Serving batch after batch. -/
theorem serveAll_serves (fuel : Nat) : ∀ {b : GetBatch K} {polls : List (Option (AsyncGet K))}
    {log : ReadLog K V E}, polls.length ≤ fuel →
    (∀ burst : List (AsyncGet K), burst.map some <:+: polls → burst.length ≤ 2 ^ 31) →
    Ensures (rules calm) (serveAll fuel b polls : Read K V E Unit)
      (fun out log' => out = some () ∧ ∃ batches : List (BatchRecord K V E),
        (∀ batch ∈ batches, batch.Served calm) ∧
        polls.reduceOption = (batches.flatMap fun batch => batch.polled.map Prod.fst) ∧
        log'.asked = log.asked ++ batches.flatMap BatchRecord.asked ∧
        log'.settled = log.settled ++ batches.flatMap BatchRecord.settled) log := by
  induction fuel with
  | zero =>
    intro b polls log short _
    obtain rfl := List.eq_nil_of_length_eq_zero (Nat.le_zero.mp short)
    exact ⟨rfl, [], by simp, rfl, by simp, by simp⟩
  | succ fuel ih =>
    intro b polls log short pauses
    match polls with
    | [] => exact ⟨rfl, [], by simp, rfl, by simp, by simp⟩
    | none :: rest =>
      have shorter : rest.length ≤ fuel := Nat.le_of_succ_le_succ short
      exact ih shorter fun burst within => pauses burst (within.trans (List.suffix_cons _ _).isInfix)
    | some first :: rest =>
      have few : ∀ burst : List (AsyncGet K), burst.map some <+: rest → 1 + burst.length ≤ 2 ^ 31 := by
        intro burst begins
        have total := pauses (first :: burst) (List.IsPrefix.isInfix (by simpa using begins))
        rw [List.length_cons] at total
        omega
      refine Ensures.bind (p := serveBatch b first rest) ((serveBatch_serves b first few).mono ?_)
      rintro _ _ ⟨b', polls', batch, rfl, adds, served, suffix, taken⟩
      have shorter : polls'.length ≤ fuel := suffix.length_le.trans (Nat.le_of_succ_le_succ short)
      have within : polls' <:+: some first :: rest := (suffix.trans (List.suffix_cons _ _)).isInfix
      refine (ih shorter fun burst inside => pauses burst (inside.trans within)).mono ?_
      rintro _ log' ⟨rfl, batches, all, others, asked, settled⟩
      refine ⟨rfl, batch :: batches, ?_, ?_, ?_, ?_⟩
      · intro other member
        rcases List.mem_cons.mp member with rfl | later
        · exact served
        · exact all other later
      · rw [List.flatMap_cons, ← others, ← taken]
        rfl
      · rw [asked, adds.asked, List.flatMap_cons, List.append_assoc]
      · rw [settled, adds.settled, List.flatMap_cons, List.append_assoc]

end Read

end Memstash
