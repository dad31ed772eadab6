import Mathlib

/-! Reading from the front of a stream, and formats no strict part of which reads as the whole. -/

namespace Streams

variable {β ε ε' α α' : Type}

/-- A reader takes what it needs from the front of a stream, or fails. -/
abbrev Reader (β ε : Type) := StateT (List β) (Except ε)

/-- Why a read failed: nothing was left, the stream was cut short, or a number was too large. -/
inductive ReadError where
  | eof
  | unexpectedEof
  | overflow
  deriving DecidableEq, Repr

/-- Whether a read failed because the stream ended. -/
def ReadError.Short (e : ReadError) : Prop := e = .eof ∨ e = .unexpectedEof

/-- Read exactly a number of symbols. -/
def readFull (n : Nat) : Reader β ReadError (List β) := fun stream =>
  if stream.length < n then .error (if stream.isEmpty then .eof else .unexpectedEof)
  else .ok (stream.take n, stream.drop n)

/-- Say more about an error. -/
def Reader.wrap (f : ε → ε') (r : Reader β ε α) : Reader β ε' α := fun stream =>
  (r stream).mapError f

/-- A reader takes exactly these symbols for a value, and any strict part of them makes it fail. -/
structure Reads (short : ε → Prop) (r : Reader β ε α) (symbols : List β) (a : α) : Prop where
  whole : ∀ rest, r (symbols ++ rest) = .ok (a, rest)
  cut : ∀ part, part <+: symbols → part ≠ symbols → ∃ e, short e ∧ r part = .error e

variable {short : ε → Prop} {r : Reader β ε α} {symbols symbols' : List β} {a : α} {a' : α'}

/-- A part of two lists in a row ends in the first, or has the first whole. -/
theorem part_append {part xs ys : List β} (within : part <+: xs ++ ys) :
    (part <+: xs ∧ part ≠ xs) ∨ ∃ more, part = xs ++ more ∧ more <+: ys := by
  by_cases strict : part <+: xs ∧ part ≠ xs
  · exact .inl strict
  · -- Both are at the front of one list, so the first list is at the front of the part.
    have reaches : xs <+: part := by
      rcases List.prefix_or_prefix_of_prefix within (List.prefix_append xs ys) with inFirst | reaches
      · have whole : part = xs := by_contra fun differs => strict ⟨inFirst, differs⟩
        exact whole ▸ List.prefix_rfl
      · exact reaches
    obtain ⟨more, rfl⟩ := reaches
    exact .inr ⟨more, rfl, (List.prefix_append_right_inj xs).mp within⟩

/-- Reading nothing. -/
theorem Reads.pure (a : α) : Reads short (Pure.pure a : Reader β ε α) [] a := by
  refine ⟨fun rest => rfl, fun part within strict => ?_⟩
  exact absurd (List.prefix_nil.mp within) strict

/-- Reading one thing after another. -/
theorem Reads.bind {f : α → Reader β ε α'} (first : Reads short r symbols a)
    (second : Reads short (f a) symbols' a') : Reads short (r >>= f) (symbols ++ symbols') a' := by
  constructor
  · intro rest
    show (r (symbols ++ symbols' ++ rest) >>= fun read => f read.1 read.2) = _
    rw [List.append_assoc, first.whole]
    exact second.whole rest
  · intro part within strict
    show ∃ e, short e ∧ (r part >>= fun read => f read.1 read.2) = _
    -- The cut falls into what the first reader takes, or into what the second takes.
    rcases part_append within with ⟨inFirst, cutFirst⟩ | ⟨more, rfl, inSecond⟩
    · obtain ⟨e, isShort, failed⟩ := first.cut part inFirst cutFirst
      exact ⟨e, isShort, by rw [failed]; rfl⟩
    · have cutSecond : more ≠ symbols' := fun same => strict (by rw [same])
      obtain ⟨e, isShort, failed⟩ := second.cut more inSecond cutSecond
      exact ⟨e, isShort, by rw [first.whole]; exact failed⟩

/-- Reading last what is not looked at any further. -/
theorem Reads.map (first : Reads short r symbols a) (f : α → α') :
    Reads short (r >>= fun a => Pure.pure (f a)) symbols (f a) := by
  have done : Reads short (Pure.pure (f a) : Reader β ε α') [] (f a) := Reads.pure (f a)
  have both := first.bind (f := fun a => Pure.pure (f a)) done
  rwa [List.append_nil] at both

/-- Saying more about errors does not change what is read. -/
theorem Reads.wrap {f : ε → ε'} {short' : ε' → Prop} (reads : Reads short r symbols a)
    (kept : ∀ e, short e → short' (f e)) : Reads short' (r.wrap f) symbols a := by
  constructor
  · intro rest
    rw [Reader.wrap, reads.whole]
    rfl
  · intro part within strict
    obtain ⟨e, isShort, failed⟩ := reads.cut part within strict
    exact ⟨f e, kept e isShort, by rw [Reader.wrap, failed]; rfl⟩

/-- Reading as many symbols as there are. -/
theorem reads_readFull (symbols : List β) :
    Reads ReadError.Short (readFull symbols.length) symbols symbols := by
  constructor
  · intro rest
    unfold readFull
    rw [if_neg (by simp), List.take_left, List.drop_left]
  · intro part within strict
    have shorter : part.length < symbols.length :=
      lt_of_le_of_ne within.length_le fun same => strict (within.eq_of_length same)
    refine ⟨if part.isEmpty then .eof else .unexpectedEof, ?_, ?_⟩
    · unfold ReadError.Short
      split
      · exact .inl rfl
      · exact .inr rfl
    · unfold readFull
      rw [if_pos shorter]

end Streams
