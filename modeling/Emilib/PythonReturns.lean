import Emilib.Replies

/-!
# Return data in Python

`emilib.py` decodes the return data of a reply a second time and in its own way. Its
generator lays an `emi_retdata` over the start of the buffer, rebinds the buffer to a
slice behind the record, and yields a copy of the bytes behind the header. The links
between the records are not followed.

A slice is a new `bytearray`, while the structure laid over the old one still refers
to the old one, from which the copy is taken. So buffers are objects of a heap here,
and the generator holds a reference to its current one.
-/

namespace Emilib.PythonReturns

open ByteWords Messages Transfers SharedBlocks ReturnData Replies

/-- The `bytearray` objects made so far. A reference is the number of an object. -/
abbrev Heap := List (List Byte)

/-- The bytes of an object. -/
def Heap.bytes (heap : Heap) (object : Nat) : List Byte := heap[object]?.getD []

/-- What stops a generator: `from_buffer` raises a `ValueError` for an object this long, or
a copy would read memory behind the object. -/
inductive Stopped where
  | bufferTooSmall (length : Nat)
  | outsideObject (size length : Nat)
deriving DecidableEq, Repr

/-- `emi_retdata.from_buffer`: the object that the structure is laid over. -/
def fromBuffer (heap : Heap) (object : Nat) : Except Stopped Nat :=
  if (heap.bytes object).length < sizeofRetdata then
    .error (.bufferTooSmall (heap.bytes object).length)
  else .ok object

/-- The field `size` of the structure. -/
def sizeField (order : ByteOrder) (heap : Heap) (retdata : Nat) : BitVec 32 :=
  word32 order (((heap.bytes retdata).drop 8).take 4)

/-- `emi_retdata.data`: a copy of `size` bytes behind the structure. -/
def data (order : ByteOrder) (heap : Heap) (retdata : Nat) : Except Stopped (List Byte) :=
  let size := (sizeField order heap retdata).toNat
  if sizeofRetdata + size ≤ (heap.bytes retdata).length then
    .ok (((heap.bytes retdata).drop sizeofRetdata).take size)
  else .error (.outsideObject size (heap.bytes retdata).length)

/-- `buffer[start:]`: a new object. -/
def slice (heap : Heap) (object start : Nat) : Nat × Heap :=
  (heap.length, heap ++ [(heap.bytes object).drop start])

/-- The generator `get_retdata_iter` at the test of its loop: the objects, and `_retdata`. -/
structure Generator where
  heap : Heap
  retdata : Nat
deriving DecidableEq, Repr

/-- `next`: what is yielded, or nothing when the generator stops. -/
def next (order : ByteOrder) (generator : Generator) :
    Except Stopped (Option (List Byte) × Generator) :=
  if (generator.heap.bytes generator.retdata).length > 0 then do
    let retdata ← fromBuffer generator.heap generator.retdata
    let size := (sizeField order generator.heap retdata).toNat
    let (rest, heap) := slice generator.heap generator.retdata (sizeofRetdata + size)
    let yielded ← data order heap retdata
    return (some yielded, ⟨heap, rest⟩)
  else return (none, generator)

/-- Everything a generator yields until it stops, for at most `fuel` calls of `next`. -/
def yields (order : ByteOrder) : Nat → Generator → Option (Except Stopped (List (List Byte)))
  | 0, _ => none
  | fuel + 1, generator =>
      match next order generator with
      | .error stopped => some (.error stopped)
      | .ok (none, _) => some (.ok [])
      | .ok (some yielded, generator) =>
          (yields order fuel generator).map fun rest => rest.map (yielded :: ·)

/-- The generator that `emi_msg_send` makes for a buffer. -/
def getRetdataIter (buffer : List Byte) : Generator := ⟨[buffer], 0⟩

/-- A buffer with one record for each block. -/
def records (order : ByteOrder) (blocks : List EmiRetdata) : List Byte :=
  blocks.flatMap (retdataBytes order)

section Objects

variable {order : ByteOrder} {heap : Heap} {object start : Nat} {block : EmiRetdata}
  {rest : List Byte}

/-- A slice leaves the objects that are there. -/
theorem bytes_slice_old (inside : object < heap.length) (other : Nat) :
    (slice heap other start).2.bytes object = heap.bytes object :=
  congrArg (·.getD []) (List.getElem?_append_left inside)

/-- The object of a slice has the bytes from its start on. -/
theorem bytes_slice_new : (slice heap object start).2.bytes (slice heap object start).1 =
    (heap.bytes object).drop start := by
  simp [slice, Heap.bytes]

/-- An object with bytes is on the heap. -/
theorem inside_of_bytes (nonempty : 0 < (heap.bytes object).length) : object < heap.length := by
  by_contra outside
  rw [Heap.bytes, List.getElem?_eq_none (Nat.le_of_not_lt outside)] at nonempty
  exact absurd nonempty (by decide)

/-- The field `size` of a record at the start of an object. -/
theorem sizeField_record (content : heap.bytes object = retdataBytes order block ++ rest) :
    sizeField order heap object = block.size := by
  have field : ((retdataBytes order block ++ rest).drop 8).take 4 = bytes32 order block.size := by
    simp only [retdataBytes, List.append_assoc]
    exact slice_middle _ _ _ 8 4 (bytes64_length order block.nextOffset).symm
      (bytes32_length order block.size).symm
  rw [sizeField, content, field, word32_bytes32]

/-- The bytes behind the header of a record at the start of an object. -/
theorem data_record (content : heap.bytes object = retdataBytes order block ++ rest)
    (whole : block.size.toNat = block.data.length) : data order heap object = .ok block.data := by
  have copied : ((retdataBytes order block ++ rest).drop sizeofRetdata).take block.size.toNat =
      block.data := by
    have header : retdataBytes order block ++ rest =
        (bytes64 order block.nextOffset ++ bytes32 order block.size ++ bytes32 order block.pad) ++
          (block.data ++ rest) := by
      simp only [retdataBytes, List.append_assoc]
    rw [header]
    exact slice_middle _ _ _ sizeofRetdata block.size.toNat (by simp [sizeofRetdata]) whole
  have room : sizeofRetdata + block.size.toNat ≤ (heap.bytes object).length := by
    rw [content, List.length_append, retdataBytes_length, whole]
    omega
  rw [data, sizeField_record content]
  simp only [if_pos room]
  rw [content, copied]

/-- A generator at a record yields its bytes and goes on behind it. -/
theorem next_record (content : heap.bytes object = retdataBytes order block ++ rest)
    (whole : block.size.toNat = block.data.length) :
    ∃ sliced behind, next order ⟨heap, object⟩ = .ok (some block.data, ⟨sliced, behind⟩) ∧
      sliced.bytes behind = rest := by
  have length : (retdataBytes order block).length = sizeofRetdata + block.size.toNat := by
    rw [retdataBytes_length, whole]
  have long : sizeofRetdata ≤ (heap.bytes object).length := by
    rw [content, List.length_append, length]
    omega
  have positive : (heap.bytes object).length > 0 := Nat.lt_of_lt_of_le (by decide) long
  have kept : (slice heap object (sizeofRetdata + block.size.toNat)).2.bytes object =
      retdataBytes order block ++ rest :=
    (bytes_slice_old (inside_of_bytes positive) object).trans content
  refine ⟨(slice heap object (sizeofRetdata + block.size.toNat)).2,
    (slice heap object (sizeofRetdata + block.size.toNat)).1, ?_, bytes_slice_new.trans ?_⟩
  · rw [next, if_pos positive, fromBuffer, if_neg (Nat.not_lt.mpr long)]
    simp only [bind, Except.bind, pure, Except.pure, sizeField_record content]
    rw [data_record kept whole]
  · rw [content, ← length, List.drop_left]

/-- A generator at an empty buffer stops. -/
theorem next_empty (empty : heap.bytes object = []) :
    next order ⟨heap, object⟩ = .ok (none, ⟨heap, object⟩) := by
  rw [next, if_neg (by simp [empty])]
  rfl

/-- A generator yields the bytes of all records in its buffer, and stops. -/
theorem records_yielded {blocks : List EmiRetdata} (content : heap.bytes object =
    records order blocks) (whole : ∀ block ∈ blocks, block.size.toNat = block.data.length) :
    yields order (blocks.length + 1) ⟨heap, object⟩ =
      some (.ok (blocks.map EmiRetdata.data)) := by
  induction blocks generalizing heap object with
  | nil =>
    rw [yields, next_empty content]
    rfl
  | cons block rest inductionHypothesis =>
    rw [records, List.flatMap_cons] at content
    obtain ⟨sliced, behind, yielded, remaining⟩ :=
      next_record content (whole block List.mem_cons_self)
    have others := inductionHypothesis remaining
      fun other member => whole other (List.mem_cons_of_mem block member)
    rw [yields, yielded]
    simp only [List.length_cons, others]
    rfl

end Objects

/-- The bytes that were sent back are yielded in order, one string for each record. -/
theorem sent_strings_yielded (order : ByteOrder) (blocks : List EmiRetdata)
    (whole : ∀ block ∈ blocks, block.size.toNat = block.data.length) :
    yields order (blocks.length + 1) (getRetdataIter (records order blocks)) =
      some (.ok (blocks.map EmiRetdata.data)) :=
  records_yielded rfl whole

/-- A string with a zero byte and an empty one. -/
theorem zero_and_empty_yielded :
    yields .little 3 (getRetdataIter (records .little [⟨40, 2, 9, [0, 7]⟩, ⟨0, 0, 0, []⟩])) =
      some (.ok [[0, 7], []]) :=
  sent_strings_yielded .little [⟨40, 2, 9, [0, 7]⟩, ⟨0, 0, 0, []⟩] (by decide)

/-- The data of a block in a chain are as long as its size says. -/
theorem chained_whole {shared : Shared} {offset : Address} {chain : List (Address × EmiRetdata)}
    (chained : Chained shared offset chain) :
    ∀ block ∈ chain.map Prod.snd, block.size.toNat = block.data.length := by
  induction chain generalizing offset with
  | nil => exact fun _ member => absurd member List.not_mem_nil
  | cons entry rest inductionHypothesis =>
    obtain ⟨_, _, _, _, length, continued⟩ := chained
    intro block member
    rcases List.mem_cons.mp member with rfl | later
    · exact length.symm
    · exact inductionHypothesis continued block later

/-- What `emi_msg_write_ret` sends behind the payload is a buffer from which the generator
yields the data of the blocks in their chain. -/
theorem reply_yielded {shared : Shared} {chain : List (Address × EmiRetdata)}
    (replying : Replying shared chain) (order : ByteOrder) (sink : Sink)
    (unlimited : sink.room = none) :
    ∃ fuel written buffer, emiMsgWriteRet order shared fuel sink = some (0, written) ∧
      written.sent = sink.sent ++ (payloadBytes order shared.message ++ buffer) ∧
      yields order (chain.length + 1) (getRetdataIter buffer) =
        some (.ok (chain.map fun entry => entry.2.data)) := by
  obtain ⟨fuel, written, sends, sent⟩ := replying.sends order sink unlimited
  have content : Heap.bytes [chainBytes order chain] 0 = records order (chain.map Prod.snd) := by
    rw [records, List.flatMap_map]
    rfl
  have yielded := records_yielded content (chained_whole replying.chained)
  rw [List.length_map, List.map_map] at yielded
  exact ⟨fuel, written, chainBytes order chain, sends, sent, yielded⟩

end Emilib.PythonReturns
