import Emilib.ByteWords

/-!
# Transfers over `read` and `write`

A source is what a descriptor will still deliver: bytes, what happens after the
last of them, and how the kernel splits the next reads. A sink is what was sent
and how much more is accepted before a write fails. Each call moves at least one
byte and at most what was asked for, at the kernel's choice; a call of length
zero returns zero.

`emi_read` and `emi_write` of `emi_sock.c` repeat such calls until one returns no
more than zero. Their specifications do not mention the splits: the bytes moved
and the result depend only on the stream and the size.
-/

namespace Emilib.Transfers

/-- What reads return once every byte was delivered: end of file, or an error. -/
inductive Ending where
  | closed
  | failed
deriving DecidableEq, Repr

/-- The reading end of a stream. Entry `n` of `splits` lets that read return at
most `n + 1` bytes; later reads return all that was asked for and is there. -/
structure Source where
  bytes : List Byte
  ending : Ending
  splits : List Nat
deriving DecidableEq, Repr

/-- The writing end of a stream; `room` is how many bytes are still accepted
before writes fail, without a limit when it is `none`. -/
structure Sink where
  sent : List Byte
  room : Option Nat
  splits : List Nat
deriving DecidableEq, Repr

/-- The most bytes the next call may move, out of `count`. -/
def chunkSize (splits : List Nat) (count : Nat) : Nat :=
  match splits with
  | [] => count
  | split :: _ => min (split + 1) count

/-- `read(2)`: the result, the bytes stored and the source afterwards. -/
def Source.read (source : Source) (count : Nat) : Int × List Byte × Source :=
  if count = 0 then (0, [], source)
  else if source.bytes = [] then
    match source.ending with
    | .closed => (0, [], source)
    | .failed => (-1, [], source)
  else
    let chunk := chunkSize source.splits (min count source.bytes.length)
    (chunk, source.bytes.take chunk,
      { source with bytes := source.bytes.drop chunk, splits := source.splits.tail })

/-- The loop of `emi_read`, for at most `fuel` calls of `read`. -/
def readLoop : Nat → Source → Nat → Option (Int × List Byte × Source)
  | 0, _, _ => none
  | fuel + 1, source, size =>
      match source.read size with
      | (ret, chunk, rest) =>
          if ret > 0 then do
            let (final, got, last) ← readLoop fuel rest (size - ret.toNat)
            return (final, chunk ++ got, last)
          else some (ret, chunk, rest)

/-- `emi_read`: the result, the bytes stored at `buf` and the source afterwards.
Every call of `read` but the last shortens `size`, so `size + 1` of them are enough. -/
def emiRead (source : Source) (size : BitVec 32) : Option (Int × List Byte × Source) :=
  readLoop (size.toNat + 1) source size.toNat

/-- How many of `count` bytes a sink accepts before writes fail. -/
def Sink.accepts (sink : Sink) (count : Nat) : Nat :=
  match sink.room with
  | none => count
  | some room => min room count

/-- The sink after `chunk` was written in one call. -/
def Sink.extend (sink : Sink) (chunk : List Byte) : Sink :=
  { sent := sink.sent ++ chunk
    room := sink.room.map (· - chunk.length)
    splits := sink.splits.tail }

/-- `write(2)`: the result and the sink afterwards. -/
def Sink.write (sink : Sink) (bytes : List Byte) : Int × Sink :=
  if bytes = [] then (0, sink)
  else if sink.accepts bytes.length = 0 then (-1, sink)
  else
    let chunk := chunkSize sink.splits (sink.accepts bytes.length)
    (chunk, sink.extend (bytes.take chunk))

/-- The loop of `emi_write`, for at most `fuel` calls of `write`. -/
def writeLoop : Nat → Sink → List Byte → Option (Int × Sink)
  | 0, _, _ => none
  | fuel + 1, sink, bytes =>
      match sink.write bytes with
      | (ret, rest) =>
          if ret > 0 then writeLoop fuel rest (bytes.drop ret.toNat)
          else some (ret, rest)

/-- `emi_write` of the bytes at `buf`. -/
def emiWrite (sink : Sink) (bytes : List Byte) : Option (Int × Sink) :=
  writeLoop (bytes.length + 1) sink bytes

/-- A call moves at least one byte of what it may. -/
theorem chunkSize_pos (splits : List Nat) (count : Nat) (some : 0 < count) :
    0 < chunkSize splits count := by
  cases splits with
  | nil => exact some
  | cons split splits => exact Nat.lt_min.2 ⟨Nat.succ_pos split, some⟩

/-- A call moves no more than it may. -/
theorem chunkSize_le (splits : List Nat) (count : Nat) : chunkSize splits count ≤ count := by
  cases splits with
  | nil => exact Nat.le_refl count
  | cons split splits => exact Nat.min_le_right (split + 1) count

/-- What `emi_read` returns: zero unless the stream fails before `size` bytes. In
particular a stream that is closed early counts as complete. -/
def readStatus (source : Source) (size : Nat) : Int :=
  if size ≤ source.bytes.length ∨ source.ending = .closed then 0 else -1

/-- What `emi_read` takes for complete. -/
theorem readStatus_zero (source : Source) (size : Nat) :
    readStatus source size = 0 ↔ size ≤ source.bytes.length ∨ source.ending = .closed := by
  rw [readStatus]
  split
  · exact iff_of_true rfl ‹_›
  · exact iff_of_false (by decide) ‹_›

/-- A stream that has all the bytes is read without an error. -/
theorem readStatus_complete {source : Source} {body rest : List Byte}
    (stream : source.bytes = body ++ rest) : readStatus source body.length = 0 := by
  rw [readStatus_zero, stream, List.length_append]
  exact Or.inl (Nat.le_add_right body.length rest.length)

/-- The source after the next bytes were taken from it; the kernel may split the
reads that follow in any way. -/
def Source.Advanced (before after : Source) (count : Nat) : Prop :=
  after.bytes = before.bytes.drop count ∧ after.ending = before.ending

/-- The loop stores what the stream has of the next `size` bytes, for any splits.
Proof: by induction on the bound on the calls; a call that returns bytes leaves
the rest of the stream and a smaller size. -/
theorem readLoop_exact (fuel : Nat) (source : Source) (size : Nat) (enough : size < fuel) :
    ∃ rest, readLoop fuel source size =
      some (readStatus source size, source.bytes.take size, rest) ∧ source.Advanced rest size := by
  induction fuel generalizing source size with
  | zero => exact absurd enough (Nat.not_lt_zero size)
  | succ fuel inductionHypothesis =>
    by_cases done : size = 0
    · refine ⟨source, ?_, ?_⟩
      · simp [readLoop, Source.read, done, readStatus]
      · simp [Source.Advanced, done]
    by_cases empty : source.bytes = []
    · refine ⟨source, ?_, ?_⟩
      · cases ended : source.ending <;>
          simp [readLoop, Source.read, done, empty, ended, readStatus]
      · simp [Source.Advanced, empty]
    · have available : 0 < source.bytes.length := List.length_pos_iff.2 empty
      have positive := chunkSize_pos source.splits (min size source.bytes.length) (by omega)
      have bounded := chunkSize_le source.splits (min size source.bytes.length)
      generalize chosen : chunkSize source.splits (min size source.bytes.length) = chunk
        at positive bounded
      have called : source.read size = ((chunk : Int), source.bytes.take chunk,
          { source with bytes := source.bytes.drop chunk, splits := source.splits.tail }) := by
        simp [Source.read, done, empty, chosen]
      obtain ⟨rest, looped, advanced, ending⟩ := inductionHypothesis
        { source with bytes := source.bytes.drop chunk, splits := source.splits.tail }
        (size - chunk) (by omega)
      refine ⟨rest, ?_, ?_, ending⟩
      · have status : readStatus { source with
            bytes := source.bytes.drop chunk, splits := source.splits.tail } (size - chunk) =
            readStatus source size := by
          have same : size - chunk ≤ source.bytes.length - chunk ↔ size ≤ source.bytes.length := by
            omega
          simp [readStatus, same]
        have joined : source.bytes.take chunk ++ (source.bytes.drop chunk).take (size - chunk) =
            source.bytes.take size := by
          rw [← List.take_add, Nat.add_sub_cancel' (by omega)]
        rw [readLoop, called]
        simp only [gt_iff_lt, Int.natCast_pos, positive, ↓reduceIte, Int.toNat_natCast, looped,
          Option.bind_eq_bind, Option.bind_some, Option.pure_def, status, joined]
      · rw [advanced, List.drop_drop, Nat.add_sub_cancel' (by omega)]

/-- `emi_read` stores what the stream has of the next `size` bytes, for any splits. -/
theorem emiRead_exact (source : Source) (size : BitVec 32) :
    ∃ rest, emiRead source size =
      some (readStatus source size.toNat, source.bytes.take size.toNat, rest) ∧
        source.Advanced rest size.toNat :=
  readLoop_exact (size.toNat + 1) source size.toNat (Nat.lt_succ_self size.toNat)

/-- A sink accepts no more than there is. -/
theorem Sink.accepts_le (sink : Sink) (count : Nat) : sink.accepts count ≤ count := by
  cases limit : sink.room with
  | none => simp [Sink.accepts, limit]
  | some room => simp [Sink.accepts, limit]

/-- What `emi_write` returns: zero when the sink accepts all the bytes. -/
def writeStatus (sink : Sink) (count : Nat) : Int :=
  if sink.accepts count = count then 0 else -1

/-- The sink after all of `bytes` it accepts were written, however the kernel
splits the writes that follow. -/
def Sink.Extended (before after : Sink) (bytes : List Byte) : Prop :=
  after.sent = before.sent ++ bytes.take (before.accepts bytes.length) ∧
    after.room = before.room.map (· - before.accepts bytes.length)

/-- The loop sends what the sink accepts of the bytes, for any splits. -/
theorem writeLoop_exact (fuel : Nat) (sink : Sink) (bytes : List Byte)
    (enough : bytes.length < fuel) :
    ∃ rest, writeLoop fuel sink bytes = some (writeStatus sink bytes.length, rest) ∧
      sink.Extended rest bytes := by
  induction fuel generalizing sink bytes with
  | zero => exact absurd enough (Nat.not_lt_zero bytes.length)
  | succ fuel inductionHypothesis =>
    by_cases done : bytes = []
    · refine ⟨sink, ?_, ?_⟩
      · cases limit : sink.room <;>
          simp [writeLoop, Sink.write, done, writeStatus, Sink.accepts, limit]
      · cases limit : sink.room <;> simp [Sink.Extended, Sink.accepts, done, limit]
    have available : 0 < bytes.length := List.length_pos_iff.2 done
    by_cases refused : sink.accepts bytes.length = 0
    · refine ⟨sink, ?_, ?_⟩
      · have short : ¬ 0 = bytes.length := by omega
        simp [writeLoop, Sink.write, done, refused, writeStatus, short]
      · simp [Sink.Extended, refused]
    · have within := sink.accepts_le bytes.length
      have positive := chunkSize_pos sink.splits (sink.accepts bytes.length) (by omega)
      have bounded := chunkSize_le sink.splits (sink.accepts bytes.length)
      generalize chosen : chunkSize sink.splits (sink.accepts bytes.length) = chunk
        at positive bounded
      have called : sink.write bytes = ((chunk : Int), sink.extend (bytes.take chunk)) := by
        simp [Sink.write, done, refused, chosen]
      have length : (bytes.take chunk).length = chunk := by
        rw [List.length_take]
        omega
      have accepted : (sink.extend (bytes.take chunk)).accepts (bytes.length - chunk) =
          sink.accepts bytes.length - chunk := by
        cases limit : sink.room <;>
          simp only [Sink.extend, Sink.accepts, limit, length, Option.map_none, Option.map_some]
        omega
      obtain ⟨rest, looped, sent, room⟩ := inductionHypothesis
        (sink.extend (bytes.take chunk)) (bytes.drop chunk) (by rw [List.length_drop]; omega)
      rw [List.length_drop, accepted] at sent room
      refine ⟨rest, ?_, ?_, ?_⟩
      · have status : writeStatus (sink.extend (bytes.take chunk)) (bytes.drop chunk).length =
            writeStatus sink bytes.length := by
          rw [writeStatus, writeStatus, List.length_drop, accepted]
          have same : sink.accepts bytes.length - chunk = bytes.length - chunk ↔
              sink.accepts bytes.length = bytes.length := by omega
          simp only [same]
        rw [writeLoop, called]
        simp only [gt_iff_lt, Int.natCast_pos, positive, ↓reduceIte, Int.toNat_natCast, looped,
          status]
      · have joined : bytes.take chunk ++
            (bytes.drop chunk).take (sink.accepts bytes.length - chunk) =
            bytes.take (sink.accepts bytes.length) := by
          rw [← List.take_add, Nat.add_sub_cancel' bounded]
        rw [sent, Sink.extend, List.append_assoc, joined]
      · rw [room, Sink.extend, length, Option.map_map]
        congr 1
        funext limit
        simp only [Function.comp_apply]
        omega

/-- `emi_write` sends what the sink accepts of the bytes, for any splits. -/
theorem emiWrite_exact (sink : Sink) (bytes : List Byte) :
    ∃ rest, emiWrite sink bytes = some (writeStatus sink bytes.length, rest) ∧
      sink.Extended rest bytes :=
  writeLoop_exact (bytes.length + 1) sink bytes (Nat.lt_succ_self bytes.length)

/-- A sink that never fails takes all the bytes. -/
theorem emiWrite_unlimited (sink : Sink) (bytes : List Byte) (unlimited : sink.room = none) :
    ∃ rest, emiWrite sink bytes = some (0, rest) ∧ rest.sent = sink.sent ++ bytes ∧
      rest.room = none := by
  obtain ⟨rest, written, sent, room⟩ := emiWrite_exact sink bytes
  have all : sink.accepts bytes.length = bytes.length := by simp [Sink.accepts, unlimited]
  refine ⟨rest, ?_, ?_, ?_⟩
  · rw [written, writeStatus, if_pos all]
  · rw [sent, all, List.take_length]
  · rw [room, unlimited, Option.map_none]

end Emilib.Transfers
