import Memstash.Cache.Level

/-! Batched lookups: a group of keys is walked to its candidates first, which are validated after. -/

namespace Memstash

open Probing Scan RangeSum MetaWord

variable {K V : Type}

/-- What the walk of a batched lookup notes for a key: a slot, and the word it was seen with. -/
structure Candidate where
  pos : Nat
  word : MetaWord

namespace FlatHashMap

/-- One step of a walk to the first slot under the key's tag; the key itself is not compared yet. -/
def candidateVisit (t : FlatHashMap K V) (hash : BitVec 64) (pos : Nat) :
    Option (Except Fault (Option Candidate)) :=
  let word := (t.itemAt pos).metaWord
  if word = 0#64 ∨ (pos = groupEnd (t.home hash) ∧ t.overflowed (t.home hash) = false) then
    some (.ok none)
  else if word &&& deadOrTag = tagOf hash then some (.ok (some ⟨t.wrap pos, word⟩))
  else none

/-- The first candidate for a key hash, or none when the probe chain ends before. -/
def candidate (t : FlatHashMap K V) (hash : BitVec 64) : Except Fault (Option Candidate) :=
  scan (t.candidateVisit hash) t.len (t.home hash)

end FlatHashMap

namespace Shard

variable [Inhabited K] [Inhabited V] [DecidableEq K]

/-- Resolve a key against the candidate its walk noted. -/
def validate (cfg : ShardConfig K V) (nowOff : Nat) (sh : Shard K V) (key : K) :
    Option Candidate → Except Fault (Shard K V × Option V × List (Deletion K V))
  | none => .ok (sh, none, [])
  | some ⟨pos, word⟩ =>
    let item := sh.items.itemAt pos
    -- A tag collision, or a slot that changed since the walk.
    if item.snapshotInto word = false ∨ item.entry.key ≠ key then sh.getMemory cfg nowOff key
    else if word.expired nowOff then do
      let (sh, deletions) ← sh.dropExpired cfg nowOff key pos
      return (sh, none, deletions)
    else
      let items := sh.items.put pos (cfg.touch nowOff item word)
      .ok ({ sh with items := items }, some item.entry.value, [])

end Shard

namespace MemoryLevel

variable [Inhabited K] [Inhabited V] [DecidableEq K]

/-- Look keys up one after the other, each in the level the ones before left. -/
def lookEach {α : Type} (look : MemoryLevel K V → K × α →
      Except Fault (MemoryLevel K V × Option V × List (Deletion K V))) :
    MemoryLevel K V → List (K × α) →
      Except Fault (MemoryLevel K V × List (K × Option V) × List (Deletion K V))
  | c, [] => .ok (c, [], [])
  | c, next :: rest => do
    let (c, found, deletions) ← look c next
    let (c, more, later) ← lookEach look c rest
    return (c, (next.1, found) :: more, deletions ++ later)

/-- Below this many keys a batch is looked up key by key. -/
def smallBatch : Nat := 4

/-- The keys of one group of a batch. -/
def batchGroupSize : Nat := 12

/-- Resolve a group of keys: all of them are walked before the first is validated. -/
def batchGetGroup (nowOff : Nat) (c : MemoryLevel K V) (keys : List K) :
    Except Fault (MemoryLevel K V × List (K × Option V) × List (Deletion K V)) := do
  let candidates ← keys.mapM fun key =>
    (c.shards (c.keyShard key)).items.candidate (c.cfg.keyHash key)
  lookEach (fun c (key, found) => c.onShard key fun sh => sh.validate c.cfg nowOff key found) c
    (keys.zip candidates)

/-- Resolve groups of keys one after the other. -/
def batchGetGroups (nowOff : Nat) : Nat → MemoryLevel K V → List K →
    Except Fault (MemoryLevel K V × List (K × Option V) × List (Deletion K V))
  | 0, c, _ => .ok (c, [], [])
  | fuel + 1, c, keys => do
    if keys.isEmpty then return (c, [], [])
    let (c, answers, deletions) ← c.batchGetGroup nowOff (keys.take batchGroupSize)
    let (c, more, later) ← batchGetGroups nowOff fuel c (keys.drop batchGroupSize)
    return (c, answers ++ more, deletions ++ later)

/-- Look a batch of keys up in memory; each key is answered in turn, found or missing. -/
def batchGetMemory (nowOff : Nat) (c : MemoryLevel K V) (keys : List K) :
    Except Fault (MemoryLevel K V × List (K × Option V) × List (Deletion K V)) :=
  if keys.length ≤ smallBatch then
    lookEach (fun c next => c.getMemory nowOff next.1) c (keys.map fun key => (key, ()))
  -- Every group takes at least one key, so there are no more groups than keys.
  else batchGetGroups nowOff keys.length c keys

/-- The pairs of a batch that were found. -/
def hits (answers : List (K × Option V)) : List (K × V) :=
  answers.filterMap fun (key, found) => found.map fun value => (key, value)

end MemoryLevel

/-- A candidate was a live slot under the key's tag when it was noted. -/
structure FlatHashMap.Noted (t : FlatHashMap K V) (hash : BitVec 64) (seen : Candidate) : Prop where
  inside : seen.pos < t.len
  word : seen.word = (t.slots seen.pos).metaWord
  occupied : seen.word ≠ 0#64
  tag : seen.word &&& deadOrTag = tagOf hash

/-- A walk ends at the first slot that decides it. -/
theorem FlatHashMap.candidate_ends [DecidableEq K] {t : FlatHashMap K V} {hash : K → BitVec 64}
    (inv : t.Inv hash) (room : occupied t.len t.cells < t.len) (key : K) :
    ∃ steps < t.len, ∃ result,
      (∀ e < steps, t.candidateVisit (hash key) (t.home (hash key) + e) = none) ∧
      t.candidateVisit (hash key) (t.home (hash key) + steps) = some result ∧
      t.candidate (hash key) = result := by
  -- A vacancy within one turn of the table ends the walk at the latest.
  obtain ⟨distance, small, vacant⟩ := exists_vacancy_ahead (t.home_lt (hash key)) room
  have ends : t.candidateVisit (hash key) (t.home (hash key) + distance) ≠ none := by
    have empty : (t.itemAt (t.home (hash key) + distance)).metaWord = 0#64 := by
      rw [FlatHashMap.itemAt, inv.sized.wrap_eq]
      exact (Item.cell_eq_vacant_iff _).mp vacant
    simp [FlatHashMap.candidateVisit, empty]
  obtain ⟨steps, within, result, before, decided, scanned⟩ := exists_scan_eq small ends
  exact ⟨steps, by omega, result, before, decided, scanned⟩

/-- A walk ends, and what it notes is a candidate. -/
theorem FlatHashMap.candidate_spec [DecidableEq K] {t : FlatHashMap K V} {hash : K → BitVec 64}
    (inv : t.Inv hash) (room : occupied t.len t.cells < t.len) (key : K) :
    ∃ found, t.candidate (hash key) = .ok found ∧
      ∀ seen, found = some seen → t.Noted (hash key) seen := by
  obtain ⟨steps, _, result, _, decided, scanned⟩ := FlatHashMap.candidate_ends inv room key
  rw [scanned]
  unfold FlatHashMap.candidateVisit at decided
  dsimp only at decided
  split at decided
  · cases decided
    exact ⟨none, rfl, fun seen none => by cases none⟩
  · rename_i goesOn
    split at decided
    · rename_i tag
      cases decided
      refine ⟨_, rfl, fun seen same => ?_⟩
      cases same
      exact ⟨t.wrap_lt _, rfl, fun empty => goesOn (.inl empty), tag⟩
    · cases decided

namespace Shard

variable {cfg : ShardConfig K V} {sh : Shard K V}

/-- A validated candidate whose key is right is the key's live slot, now and when it was noted. -/
theorem Inv.candidate_live (inv : sh.Inv cfg) {before : FlatHashMap K V}
    (table : before.Inv cfg.keyHash) (narrow : before.Narrows sh.items) {hash : BitVec 64}
    {seen : Candidate} (noted : before.Noted hash seen)
    (valid : (sh.items.itemAt seen.pos).snapshotInto seen.word = true) :
    sh.items.cells (sh.items.wrap seen.pos) = .live (sh.items.itemAt seen.pos).entry.key ∧
      before.cells seen.pos = .live (sh.items.itemAt seen.pos).entry.key := by
  have inside : seen.pos < sh.items.len := by rw [narrow.size]; exact noted.inside
  have normal := inv.table.sized.wrap_of_lt inside
  have same := Item.snapshotInto_word valid
  -- The word was loaded from a live slot, and the slot's occupancy has not ended since.
  have alive : seen.word.isDead = false := by
    by_contra buried
    exact FlatHashMap.dead_ne_tag (by simpa using buried) hash noted.tag
  have top : aliveGenMask.getLsbD 63 = true := by decide
  have alive' : (sh.items.itemAt seen.pos).metaWord.isDead = false := by
    rw [isDead_eq, getLsbD_eq_of_and_eq same top, ← isDead_eq, alive]
  have gen : seen.word &&& genMask ≠ 0#64 := by
    rw [noted.word]
    exact (table.settled _ noted.inside).gen (by rw [← noted.word]; exact noted.occupied)
  have gen' : (sh.items.itemAt seen.pos).metaWord &&& genMask ≠ 0#64 := by
    rw [and_eq_of_and_eq same (by decide)]
    exact gen
  have live : sh.items.cells (sh.items.wrap seen.pos) = .live (sh.items.itemAt seen.pos).entry.key :=
    (Item.cell_eq_live_iff _ _).mpr ⟨ne_zero_of_gen gen', alive', rfl⟩
  refine ⟨live, narrow.live _ noted.inside _ ?_⟩
  rw [normal] at live
  exact live

variable [Inhabited K] [Inhabited V] [DecidableEq K]

/-- Validating a candidate returns; for a key that had lapsed when it was noted, it finds nothing. -/
theorem Inv.validate (inv : sh.Inv cfg) (nowOff : Nat) (key : K) {before : FlatHashMap K V}
    (table : before.Inv cfg.keyHash) (narrow : before.Narrows sh.items) {found : Option Candidate}
    (noted : ∀ seen, found = some seen → before.Noted (cfg.keyHash key) seen) :
    ∃ sh' answer deletions, sh.validate cfg nowOff key found = .ok (sh', answer, deletions) ∧
      sh'.Inv cfg ∧ sh.items.Narrows sh'.items ∧ Looked cfg nowOff key sh sh' deletions ∧
      (∀ other value off, sh'.items.Serves other value off →
        other = key ∨ sh.items.Serves other value off) ∧
      ((∀ value off, before.Serves key value off ∨ sh.items.Serves key value off →
          lapsed off nowOff = true) →
        answer = none ∧ ∀ value off, sh'.items.Serves key value off → sh.items.Serves key value off) := by
  cases found with
  | none =>
    exact ⟨sh, none, [], rfl, inv, .refl _, .dropped (.kept rfl), fun _ _ _ served => .inr served,
      fun _ => ⟨rfl, fun _ _ served => served⟩⟩
  | some seen =>
    have note := noted seen rfl
    unfold Shard.validate
    dsimp only
    split
    · -- The lookup starts over, as if it were alone.
      obtain ⟨sh', answer, deletions, ran, read, looked⟩ := inv.getMemory nowOff key
      exact ⟨sh', answer, deletions, ran, read.inv inv, read.narrows, looked, fun _ _ _ => read.within,
        fun stale => read.of_stale fun value off served => stale value off (.inr served)⟩
    · rename_i usable
      simp only [not_or, not_not, Bool.not_eq_false] at usable
      obtain ⟨valid, named⟩ := usable
      obtain ⟨live, lived⟩ := inv.candidate_live table narrow note valid
      rw [named] at live lived
      split
      · obtain ⟨sh', deletions, ran, removed, dropped⟩ := inv.dropExpired nowOff key seen.pos
        refine ⟨sh', none, deletions, by rw [ran]; rfl, removed.inv, removed.slots, .dropped dropped,
          fun _ _ _ served => .inr (removed.before served),
          fun _ => ⟨rfl, fun _ _ served => removed.before served⟩⟩
      · rename_i inTime
        obtain ⟨kept, entry, _⟩ := touch_spec cfg nowOff (sh.items.itemAt seen.pos) seen.word
        obtain ⟨touched, slots, overwrites⟩ := inv.touched live kept entry
        refine ⟨_, _, _, rfl, touched, slots, .hit (serves_of_live live) touched overwrites,
          fun other value off served => ?_, fun stale => ?_⟩
        · rcases (overwrites other value off).mp served with ⟨same, _⟩ | ⟨_, earlier⟩
          · exact .inl same
          · exact .inr earlier
        · -- The word is the lapsed one the walk saw, so this branch was not taken.
          have late := stale _ _ (.inl ⟨seen.pos, note.inside, lived, rfl, rfl⟩)
          rw [← note.word] at late
          exact absurd late inTime

end Shard

namespace MemoryLevel

variable [Inhabited K] [Inhabited V] [DecidableEq K] {c : MemoryLevel K V}

/-- What looking keys up one after the other leaves and reports. -/
inductive Looks (nowOff : Nat) : MemoryLevel K V → List (Deletion K V) → MemoryLevel K V → Prop
  | done (c : MemoryLevel K V) : Looks nowOff c [] c
  | next {c c' : MemoryLevel K V} {key : K} {sh : Shard K V} {gone later : List (Deletion K V)}
      (looked : Shard.Looked c.cfg nowOff key (c.shards (c.keyShard key)) sh gone)
      (rest : Looks nowOff (c.put (c.keyShard key) sh) later c') : Looks nowOff c (gone ++ later) c'

omit [Inhabited K] [Inhabited V] [DecidableEq K] in
/-- Some lookups and then others. -/
theorem Looks.trans {nowOff : Nat} {c c' c'' : MemoryLevel K V} {gone later : List (Deletion K V)}
    (first : Looks nowOff c gone c') (second : Looks nowOff c' later c'') :
    Looks nowOff c (gone ++ later) c'' := by
  induction first with
  | done => exact second
  | next looked _ ih =>
    rw [List.append_assoc]
    exact .next looked (ih second)

omit [Inhabited K] [Inhabited V] [DecidableEq K] in
theorem Looks.one {nowOff : Nat} {key : K} {sh : Shard K V} {gone : List (Deletion K V)}
    (looked : Shard.Looked c.cfg nowOff key (c.shards (c.keyShard key)) sh gone) :
    Looks nowOff c gone (c.put (c.keyShard key) sh) := by
  rw [← List.append_nil gone]
  exact .next looked (.done _)

omit [Inhabited K] [Inhabited V] [DecidableEq K] in
/-- What every lookup of a sequence preserves holds at its end, and of every answer. -/
theorem lookEach_spec {α : Type} (look : MemoryLevel K V → K × α →
      Except Fault (MemoryLevel K V × Option V × List (Deletion K V)))
    (nowOff : Nat) (inv : MemoryLevel K V → Prop) (answered : K → Option V → Prop)
    (items : List (K × α))
    (each : ∀ c, ∀ next ∈ items, inv c → ∃ c' found deletions,
      look c next = .ok (c', found, deletions) ∧ inv c' ∧ Looks nowOff c deletions c' ∧
        answered next.1 found) :
    ∀ c, inv c → ∃ c' answers deletions, lookEach look c items = .ok (c', answers, deletions) ∧
      inv c' ∧ Looks nowOff c deletions c' ∧ ∀ answer ∈ answers, answered answer.1 answer.2 := by
  induction items with
  | nil => exact fun c holds => ⟨c, [], [], rfl, holds, .done c, by simp⟩
  | cons next rest ih =>
    intro c holds
    obtain ⟨mid, found, first, looked, holds', reported, fine⟩ := each c next (by simp) holds
    obtain ⟨last, answers, later, ran, holds'', reported', others⟩ :=
      ih (fun c other member => each c other (by simp [member])) mid holds'
    refine ⟨last, (next.1, found) :: answers, first ++ later, ?_, holds'', reported.trans reported', ?_⟩
    · rw [lookEach, looked]
      simp only [Bind.bind, Except.bind, ran]
      rfl
    · intro answer member
      rcases List.mem_cons.mp member with rfl | more
      · exact fine
      · exact others answer more

/-- Reading a key lets the others fade, and the key itself when it is stale. -/
theorem Inv.getMemory_fades (inv : c.Inv) (nowOff : Nat) {faded : Set K} {read : K}
    (stale : read ∈ faded → c.Stale read nowOff) :
    ∃ c' found deletions, c.getMemory nowOff read = .ok (c', found, deletions) ∧ Fades faded c c' ∧
      Looks nowOff c deletions c' ∧ (read ∈ faded → found = none) := by
  obtain ⟨sh, found, deletions, ran, answer, looked⟩ := (inv.shard read).getMemory nowOff read
  refine ⟨_, found, deletions, onShard_eq ran, inv.put_fades (answer.inv (inv.shard read))
    (fun _ _ _ => answer.within) ?_, .one looked, ?_⟩
  · intro member value off served
    exact (answer.of_stale (stale member)).2 value off served
  · intro member
    exact (answer.of_stale (stale member)).1

/-- Resolving a group lets keys fade that are stale or not in it, and does not find them. -/
theorem Inv.batchGetGroup_fades (inv : c.Inv) (nowOff : Nat) {faded : Set K} {keys : List K}
    (stale : ∀ key ∈ keys, key ∈ faded → c.Stale key nowOff) :
    ∃ c' answers deletions, c.batchGetGroup nowOff keys = .ok (c', answers, deletions) ∧
      Fades faded c c' ∧ Looks nowOff c deletions c' ∧
      ∀ answer ∈ answers, answer.1 ∈ faded → answer.2 = none := by
  -- The walks read the level as it is before the first validation.
  obtain ⟨candidates, walked, noted⟩ := exists_mapM_eq
    (f := fun key => (c.shards (c.keyShard key)).items.candidate (c.cfg.keyHash key)) (l := keys)
    fun key _ => by
      have shard := inv.shard key
      have quarter := shard.housed.occupied_le
      obtain ⟨large, _, _⟩ := shard.table.sized.bounds
      exact FlatHashMap.candidate_spec shard.table (by omega) key
  obtain ⟨c', answers, deletions, ran, ⟨fades, _⟩, reported, fine⟩ := lookEach_spec
    (fun c next => c.onShard next.1 fun sh => sh.validate c.cfg nowOff next.1 next.2) nowOff
    (fun c' => Fades faded c c' ∧
      ∀ i < c.numShards, (c.shards i).items.Narrows (c'.shards i).items)
    (fun read found => read ∈ faded → found = none) (keys.zip candidates)
    (fun mid next member holds => by
      obtain ⟨read, found⟩ := next
      obtain ⟨fades, narrow⟩ := holds
      have listed : read ∈ keys := (List.of_mem_zip member).1
      have here : mid.keyShard read = c.keyShard read := by
        simp only [keyShard, shardOf, fades.cfg, fades.mask]
      have inside := c.keyShard_lt read
      have shard := fades.inv.shard read
      have note := noted (read, found) member
      rw [here, fades.cfg] at shard
      obtain ⟨sh, answer, deletions, ran, shInv, slots, looked, within, lapsed⟩ :=
        shard.validate nowOff read (inv.shard read).table (narrow _ inside) note
      rw [← here, ← fades.cfg] at ran looked
      have own : read ∈ faded → answer = none ∧ ∀ value off, sh.items.Serves read value off →
          mid.Serves read value off := by
        intro fading
        have late := stale read listed fading
        obtain ⟨missed, before⟩ := lapsed fun value off served => by
          rcases served with first | now
          · exact late value off first
          · exact late value off (fades.serves read fading value off (by rw [Serves, here]; exact now))
        exact ⟨missed, fun value off served => by rw [Serves, here]; exact before value off served⟩
      refine ⟨_, answer, deletions, onShard_eq ran, ⟨fades.trans (fades.inv.put_fades
        (by rw [fades.cfg]; exact shInv) (by rw [here]; exact within) fun fading => (own fading).2),
        fun i bound => ?_⟩, .one looked, fun fading => (own fading).1⟩
      by_cases changed : i = mid.keyShard read
      · subst changed
        rw [put_here, here]
        exact (narrow _ inside).trans slots
      · rw [put_others _ _ changed]
        exact narrow i bound)
    c ⟨.refl inv faded, fun i _ => .refl _⟩
  refine ⟨c', answers, deletions, ?_, fades, reported, fine⟩
  rw [batchGetGroup, walked]
  exact ran

/-- Resolving group after group lets keys fade that are stale or not asked for. -/
theorem batchGetGroups_fades (nowOff : Nat) {faded : Set K} (fuel : Nat) :
    ∀ {c : MemoryLevel K V} {keys : List K}, c.Inv →
      (∀ key ∈ keys, key ∈ faded → c.Stale key nowOff) →
    ∃ c' answers deletions, batchGetGroups nowOff fuel c keys = .ok (c', answers, deletions) ∧
      Fades faded c c' ∧ Looks nowOff c deletions c' ∧
      ∀ answer ∈ answers, answer.1 ∈ faded → answer.2 = none := by
  induction fuel with
  | zero =>
    intro c keys inv _
    exact ⟨c, [], [], rfl, .refl inv faded, .done c, by simp⟩
  | succ fuel ih =>
    intro c keys inv stale
    by_cases empty : keys.isEmpty = true
    · exact ⟨c, [], [], by simp [batchGetGroups, empty, Pure.pure, Except.pure], .refl inv faded,
        .done c, by simp⟩
    · have staleNow : ∀ key ∈ keys.take batchGroupSize, key ∈ faded → c.Stale key nowOff :=
        fun key member => stale key (List.mem_of_mem_take member)
      obtain ⟨mid, answers, first, resolved, fades, reported, fine⟩ :=
        inv.batchGetGroup_fades nowOff staleNow
      -- The keys are as stale for the groups that follow.
      have staleLater : ∀ key ∈ keys.drop batchGroupSize, key ∈ faded → mid.Stale key nowOff :=
        fun key member fading => fades.stale fading (stale key (List.mem_of_mem_drop member) fading)
      obtain ⟨c', more, later, ran, fades', reported', fine'⟩ := ih fades.inv staleLater
      refine ⟨c', answers ++ more, first ++ later, ?_, fades.trans fades', reported.trans reported', ?_⟩
      · simp only [batchGetGroups, empty, resolved, ran, Bind.bind, Except.bind, Pure.pure,
          Except.pure, Bool.false_eq_true, if_false]
      · intro answer member
        rcases List.mem_append.mp member with early | late
        · exact fine answer early
        · exact fine' answer late

/-- A batch lets keys fade that are stale or not asked for, and does not find them. -/
theorem Inv.batchGetMemory_fades (inv : c.Inv) (nowOff : Nat) {faded : Set K} {keys : List K}
    (stale : ∀ key ∈ keys, key ∈ faded → c.Stale key nowOff) :
    ∃ c' answers deletions, c.batchGetMemory nowOff keys = .ok (c', answers, deletions) ∧
      Fades faded c c' ∧ Looks nowOff c deletions c' ∧
      ∀ answer ∈ answers, answer.1 ∈ faded → answer.2 = none := by
  unfold batchGetMemory
  split
  · refine lookEach_spec _ nowOff (Fades faded c) (fun read found => read ∈ faded → found = none) _
      (fun mid next member fades => ?_) c (.refl inv faded)
    obtain ⟨listed, keyIn, rfl⟩ := List.mem_map.mp member
    obtain ⟨c', found, deletions, ran, fades', reported, missed⟩ := fades.inv.getMemory_fades nowOff
      fun fading => fades.stale fading (stale listed keyIn fading)
    exact ⟨c', found, deletions, ran, fades.trans fades', reported, missed⟩
  · exact batchGetGroups_fades nowOff keys.length inv stale

end MemoryLevel

end Memstash
