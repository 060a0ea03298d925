import Emilib.Runs
import Emilib.ReturnData

/-!
# The chain of return blocks in memory

The handlers of a block-mode message add return blocks to it under its lock. Here
`emi_retdata_alloc`, `emi_load_retdata` and `for_each_retdata` run on the bytes of
memory, and what `emi_alloc` returns is left to the environment: any storage that
meets neither the record of the message nor a block obtained before, or NULL.

Beside the memory stands what the handlers have obtained, newest first, and what
they have stored in it. The chain is compared with that list. Its links are offsets
from the message that pass through a 32-bit variable, so a block below the message,
or far above it, is lost once a newer one was put in front of it.
-/

namespace Emilib.ReturnChain

open ByteWords FlagBits Messages SharedBlocks ReturnData

/-- A message and the memory around its record. -/
structure Core where
  message : EmiMsg
  memory : Address → Byte

/-- The fields of a return block. -/
def fieldPlace (place : Address) (offset : Nat) : Address := place + BitVec.ofNat 64 offset

/-- The message after an unsuccessful `emi_retdata_alloc`. -/
def failReply (core : Core) : Core :=
  { core with message := { core.message with flag := lower core.message.flag retSucceeded } }

/-- `emi_retdata_alloc` of the message at `address`, when `emi_alloc` would return
`answer`: the data area of the new block, or NULL. -/
def emiRetdataAlloc (order : ByteOrder) (address : Address) (core : Core) (size : BitVec 32)
    (answer : Option Address) : Option Address × Core :=
  if size = 0 then (none, core)
  else if ¬ Holds core.message.flag modeBlock then (none, failReply core)
  else
    match answer with
    | none => (none, failReply core)
    | some addr =>
        let oldRetdataOffset : BitVec 32 := core.message.retdataOffset.setWidth 32
        let message := { core.message with
          retsize := core.message.retsize + (size + BitVec.ofNat 32 sizeofRetdata)
          retdataOffset := getOffset address addr }
        let memory := writeBytes core.memory addr (bytes64 order (oldRetdataOffset.setWidth 64))
        let memory := writeBytes memory (fieldPlace addr 8) (bytes32 order size)
        (some (fieldPlace addr sizeofRetdata), ⟨message, memory⟩)

/-- `emi_load_retdata`. The size is the length of the data. -/
def emiLoadRetdata (order : ByteOrder) (address : Address) (core : Core) (data : List Byte)
    (answer : Option Address) : Int × Core :=
  match emiRetdataAlloc order address core (BitVec.ofNat 32 data.length) answer with
  | (none, core) => (-1, core)
  | (some ret, core) => (0, { core with memory := writeBytes core.memory ret data })

/-- The return block whose header is at an address. -/
def loadRetdata (order : ByteOrder) (memory : Address → Byte) (place : Address) : EmiRetdata :=
  let size := word32 order (readBytes memory (fieldPlace place 8) 4)
  { nextOffset := word64 order (readBytes memory (fieldPlace place 0) 8)
    size := size
    pad := word32 order (readBytes memory (fieldPlace place 12) 4)
    data := readBytes memory (fieldPlace place sizeofRetdata) size.toNat }

/-- `for_each_retdata` of the message at `address`, after the block `data`: the
blocks it visits, with their addresses. -/
def forEachRetdata (order : ByteOrder) (address : Address) (core : Core) :
    Nat → Option EmiRetdata → Option (List (Address × EmiRetdata))
  | 0, _ => none
  | fuel + 1, data =>
      match getNextRetdata address core.message data with
      | none => some []
      | some place =>
          (forEachRetdata order address core fuel
            (some (loadRetdata order core.memory place))).map
              ((place, loadRetdata order core.memory place) :: ·)

/-- A block a handler obtained, and what it wants to return in it. -/
structure Block where
  place : Address
  content : List Byte
deriving DecidableEq, Repr

/-- A message, the memory, and the blocks obtained, newest first. -/
structure Handling extends Core where
  obtained : List Block

/-- What a handler does. -/
inductive Call where
  | alloc (size : BitVec 32) (answer : Option Address)
  | load (data : List Byte) (answer : Option Address)
  | store (place : Address) (offset : Nat) (bytes : List Byte)

/-- The block with bytes of its content replaced. -/
def Block.revise (block : Block) (place : Address) (offset : Nat) (bytes : List Byte) : Block :=
  if block.place = place then
    { block with content :=
        block.content.take offset ++ bytes ++ block.content.drop (offset + bytes.length) }
  else block

/-- Serve one call. A successful one adds its block: with what the memory holds
there, or with the data. Storing goes to the data area of the block at `place`. -/
def serve (order : ByteOrder) (address : Address) (handling : Handling) : Call → Handling
  | .alloc size answer =>
      match answer, emiRetdataAlloc order address handling.toCore size answer with
      | some place, (some data, core) =>
          ⟨core, ⟨place, readBytes core.memory data size.toNat⟩ :: handling.obtained⟩
      | _, (_, core) => ⟨core, handling.obtained⟩
  | .load data answer =>
      match answer, emiLoadRetdata order address handling.toCore data answer with
      | some place, (0, core) => ⟨core, ⟨place, data⟩ :: handling.obtained⟩
      | _, (_, core) => ⟨core, handling.obtained⟩
  | .store place offset bytes =>
      { message := handling.message
        memory := writeBytes handling.memory (fieldPlace place (sizeofRetdata + offset)) bytes
        obtained := handling.obtained.map (·.revise place offset bytes) }

/-- Two stretches of memory that do not wrap have no byte in common. -/
def Beside (start : Address) (count : Nat) (start' : Address) (count' : Nat) : Prop :=
  start.toNat + count ≤ start'.toNat ∨ start'.toNat + count' ≤ start.toNat

instance (start : Address) (count : Nat) (start' : Address) (count' : Nat) :
    Decidable (Beside start count start' count') := inferInstanceAs (Decidable (_ ∨ _))

/-- The bytes a block takes up. -/
def Block.length (block : Block) : Nat := sizeofRetdata + block.content.length

/-- Storage of this length that `emi_alloc` may return: it meets neither the record of
the message nor a block obtained before. -/
def Fresh (address : Address) (obtained : List Block) (place : Address) (length : Nat) : Prop :=
  place.toNat + length ≤ 2 ^ 64 ∧ Beside place length address sizeofMsg ∧
    ∀ block ∈ obtained, Beside place length block.place block.length

/-- `emi_alloc` returns fresh storage or NULL, and handlers store bytes only in the
data areas of the blocks they obtained. -/
def Honest (address : Address) (handling : Handling) : Call → Prop
  | .alloc size answer =>
      ∀ place ∈ answer, Fresh address handling.obtained place (sizeofRetdata + size.toNat)
  | .load data answer => data.length < 2 ^ 32 ∧
      ∀ place ∈ answer, Fresh address handling.obtained place (sizeofRetdata + data.length)
  | .store place offset bytes => bytes ≠ [] ∧
      ∃ block ∈ handling.obtained, block.place = place ∧
        offset + bytes.length ≤ block.content.length

/-- The handlers of a block-mode message that has no return block yet. -/
def handlers (order : ByteOrder) (address : Address) : System Handling Call where
  start handling := handling.obtained = [] ∧ handling.message.retsize = 0 ∧
    handling.message.retdataOffset = 0 ∧ Holds handling.message.flag modeBlock
  step before call after := after = serve order address before call

/-- The bytes of the wire that blocks take up. -/
def total (obtained : List Block) : Nat := (obtained.map Block.length).sum

/-- What a user of `for_each_retdata` sees of a block. -/
def seen (visit : Address × EmiRetdata) : Address × Nat × List Byte :=
  (visit.1, visit.2.size.toNat, visit.2.data)

/-- What there is to see of a block obtained. -/
def Block.listed (block : Block) : Address × Nat × List Byte :=
  (block.place, block.content.length, block.content)

/-- Nothing changed but, at most, the success bit. -/
def OnlyFlagged (before after : Core) : Prop :=
  ∃ flag, (flag = before.message.flag ∨ flag = lower before.message.flag retSucceeded) ∧
    after = { before with message := { before.message with flag := flag } }

/-- `for_each_retdata` visits the blocks obtained, newest first, each with its size and
content; `retsize` is the sum of their lengths; and a call that fails changes nothing
but the success bit. -/
structure Accumulated (order : ByteOrder) (address : Address) (handling : Handling) : Prop where
  enumerated : ∃ fuel visited, forEachRetdata order address handling.toCore fuel none =
      some visited ∧ visited.map seen = handling.obtained.map Block.listed
  counted : handling.message.retsize.toNat = total handling.obtained
  allocFails : ∀ size answer core,
    emiRetdataAlloc order address handling.toCore size answer = (none, core) →
      OnlyFlagged handling.toCore core
  loadFails : ∀ data answer core,
    emiLoadRetdata order address handling.toCore data answer = (-1, core) →
      OnlyFlagged handling.toCore core

/-- The block lies less than `2 ^ 32` bytes above the message. -/
def Near (address : Address) (block : Block) : Prop :=
  (getOffset address block.place).toNat < 2 ^ 32

instance (address : Address) (block : Block) : Decidable (Near address block) :=
  inferInstanceAs (Decidable (_ < _))

/-- The message and the memory after a block was put at the head of the chain. -/
def pushed (order : ByteOrder) (address : Address) (core : Core) (size : BitVec 32)
    (addr : Address) : Core where
  message := { core.message with
    retsize := core.message.retsize + (size + BitVec.ofNat 32 sizeofRetdata)
    retdataOffset := getOffset address addr }
  memory := writeBytes
    (writeBytes core.memory addr (bytes64 order (truncated core.message.retdataOffset)))
    (fieldPlace addr 8) (bytes32 order size)

section Calls

variable (order : ByteOrder) (address : Address) (core : Core) (answer : Option Address)

/-- Everything `emi_retdata_alloc` can do. -/
theorem emiRetdataAlloc_cases (size : BitVec 32) :
    (∃ after, emiRetdataAlloc order address core size answer = (none, after) ∧
      OnlyFlagged core after) ∨
    ∃ place, size ≠ 0 ∧ answer = some place ∧
      emiRetdataAlloc order address core size answer =
        (some (fieldPlace place sizeofRetdata), pushed order address core size place) := by
  by_cases zero : size = 0
  · exact .inl ⟨core, if_pos zero, core.message.flag, .inl rfl, rfl⟩
  by_cases blocking : Holds core.message.flag modeBlock
  · cases answer with
    | none =>
      refine .inl ⟨failReply core, ?_, _, .inr rfl, rfl⟩
      simp only [emiRetdataAlloc, if_neg zero, blocking, not_true, if_false]
    | some place =>
      refine .inr ⟨place, zero, rfl, ?_⟩
      simp only [emiRetdataAlloc, if_neg zero, blocking, not_true, if_false]
      rfl
  · refine .inl ⟨failReply core, ?_, _, .inr rfl, rfl⟩
    simp only [emiRetdataAlloc, if_neg zero, blocking, not_false_eq_true, if_true]

/-- Everything `emi_load_retdata` can do. -/
theorem emiLoadRetdata_cases (data : List Byte) :
    (∃ after, emiLoadRetdata order address core data answer = (-1, after) ∧
      OnlyFlagged core after) ∨
    ∃ place, BitVec.ofNat 32 data.length ≠ 0 ∧ answer = some place ∧
      emiLoadRetdata order address core data answer =
        (0, ⟨(pushed order address core (BitVec.ofNat 32 data.length) place).message,
          writeBytes (pushed order address core (BitVec.ofNat 32 data.length) place).memory
            (fieldPlace place sizeofRetdata) data⟩) := by
  rcases emiRetdataAlloc_cases order address core answer (BitVec.ofNat 32 data.length) with
    ⟨after, failed, flagged⟩ | ⟨place, nonzero, answered, taken⟩
  · exact .inl ⟨after, by rw [emiLoadRetdata, failed], flagged⟩
  · exact .inr ⟨place, nonzero, answered, by rw [emiLoadRetdata, taken]⟩

end Calls

section Fields

variable {order : ByteOrder} {before after memory : Address → Byte} {place : Address}

/-- A field of storage that does not wrap is where its offset says. -/
theorem fieldPlace_toNat (offset : Nat) (inside : place.toNat + offset < 2 ^ 64) :
    (fieldPlace place offset).toNat = place.toNat + offset := by
  rw [fieldPlace, BitVec.toNat_add, BitVec.toNat_ofNat]
  omega

/-- The data of a block are as many bytes behind its header as its size says. -/
theorem loadRetdata_data (order : ByteOrder) (memory : Address → Byte) (place : Address) :
    (loadRetdata order memory place).data = readBytes memory (fieldPlace place sizeofRetdata)
      (loadRetdata order memory place).size.toNat := rfl

/-- Behind an untouched header only the data may change. -/
theorem loadRetdata_header (untouched : Untouched before after place sizeofRetdata) :
    (loadRetdata order after place).size = (loadRetdata order before place).size ∧
      (loadRetdata order after place).nextOffset =
        (loadRetdata order before place).nextOffset := by
  have link := untouched.read 0 8 (by decide)
  have size := untouched.read 8 4 (by decide)
  simp only [loadRetdata, fieldPlace, link, size, and_self]

/-- A block whose storage is untouched is loaded as before. -/
theorem loadRetdata_kept (length : Nat)
    (untouched : Untouched before after place (sizeofRetdata + length))
    (sized : (loadRetdata order before place).size.toNat = length) :
    loadRetdata order after place = loadRetdata order before place := by
  have header : sizeofRetdata = 16 := rfl
  have link := untouched.read 0 8 (by omega)
  have size := untouched.read 8 4 (by omega)
  have pad := untouched.read 12 4 (by omega)
  have data := untouched.read sizeofRetdata length (by omega)
  have count : (word32 order (readBytes before (fieldPlace place 8) 4)).toNat = length := sized
  simp only [fieldPlace] at count
  simp only [loadRetdata, fieldPlace, link, size, pad, count, data]

/-- Storing bytes beside a stretch leaves it. -/
theorem stored_beside (memory : Address → Byte) (start target : Address) (bytes : List Byte)
    (count : Nat) (bounded : start.toNat + count ≤ 2 ^ 64)
    (stored : target.toNat + bytes.length ≤ 2 ^ 64)
    (beside : Beside target bytes.length start count) :
    Untouched memory (writeBytes memory target bytes) start count := by
  apply writeBytes_untouched memory target start bytes count bounded stored
  rcases beside with left | right
  · exact .inr left
  · exact .inl right

/-- The header `emi_retdata_alloc` stores is loaded again, in front of any data. -/
theorem pushed_header (order : ByteOrder) (address : Address) (core : Core) (size : BitVec 32)
    (bounded : place.toNat + sizeofRetdata ≤ 2 ^ 64) :
    (loadRetdata order (pushed order address core size place).memory place).size = size ∧
      (loadRetdata order (pushed order address core size place).memory place).nextOffset =
        truncated core.message.retdataOffset := by
  have header : sizeofRetdata = 16 := rfl
  have start : fieldPlace place 0 = place := BitVec.add_zero place
  have second := @fieldPlace_toNat place 8 (by omega)
  constructor
  · have field := readBytes_writeBytes
      (writeBytes core.memory place (bytes64 order (truncated core.message.retdataOffset)))
      (fieldPlace place 8) (bytes32 order size) (by simp)
    rw [bytes32_length] at field
    simp only [loadRetdata, pushed, field, word32_bytes32]
  · have kept := writeBytes_untouched
      (writeBytes core.memory place (bytes64 order (truncated core.message.retdataOffset)))
      (fieldPlace place 8) place (bytes32 order size) 8 (by omega)
      (by rw [bytes32_length, second]; omega) (by rw [second]; omega)
    have field := kept.read 0 8 (by omega)
    have stored := readBytes_writeBytes core.memory place
      (bytes64 order (truncated core.message.retdataOffset)) (by simp)
    rw [bytes64_length] at stored
    rw [← fieldPlace, start, stored] at field
    simp only [loadRetdata, pushed, start, field, word64_bytes64]

/-- Storing the header leaves storage beside the block. -/
theorem pushed_untouched (order : ByteOrder) (address : Address) (core : Core) (size : BitVec 32)
    (start : Address) (count : Nat) (wrapless : start.toNat + count ≤ 2 ^ 64)
    (bounded : place.toNat + sizeofRetdata ≤ 2 ^ 64)
    (beside : Beside place sizeofRetdata start count) :
    Untouched core.memory (pushed order address core size place).memory start count := by
  have header : sizeofRetdata = 16 := rfl
  have second := @fieldPlace_toNat place 8 (by omega)
  simp only [Beside] at beside
  apply Untouched.trans (stored_beside core.memory start place _ count wrapless ?_ ?_)
    (stored_beside _ start (fieldPlace place 8) _ count wrapless ?_ ?_)
  · rw [bytes64_length]
    omega
  · rw [bytes64_length, Beside]
    omega
  · rw [bytes32_length, second]
    omega
  · rw [bytes32_length, Beside, second]
    omega

end Fields

/-- The offset of the newest block, and zero when there is none. -/
def chainOffset (address : Address) : List Block → Address
  | [] => 0
  | block :: _ => getOffset address block.place

/-- A block lies in memory with its size, its content and a link that kept the low 32
bits of an offset. -/
structure Laid (order : ByteOrder) (memory : Address → Byte) (block : Block)
    (link : Address) : Prop where
  bounded : block.place.toNat + block.length ≤ 2 ^ 64
  size : (loadRetdata order memory block.place).size.toNat = block.content.length
  data : (loadRetdata order memory block.place).data = block.content
  next : (loadRetdata order memory block.place).nextOffset = truncated link

/-- The blocks lie in memory beside each other and the message, each linked to the one
obtained before it. -/
def Stored (order : ByteOrder) (address : Address) (memory : Address → Byte) :
    List Block → Prop
  | [] => True
  | block :: older =>
      Laid order memory block (chainOffset address older) ∧
      Beside block.place block.length address sizeofMsg ∧
      (∀ other ∈ older, Beside block.place block.length other.place other.length) ∧
      Stored order address memory older

/-- What a run of calls leaves. -/
structure Recorded (order : ByteOrder) (address : Address) (handling : Handling) : Prop where
  head : handling.message.retdataOffset = chainOffset address handling.obtained
  retsize : handling.message.retsize = BitVec.ofNat 32 (total handling.obtained)
  stored : Stored order address handling.memory handling.obtained

section Steps

variable {order : ByteOrder} {address place : Address} {before after : Address → Byte}
  {blocks : List Block} {block : Block} {link : Address} {core : Core}

/-- A block takes up at least its header. -/
theorem Block.length_pos (block : Block) : 0 < block.length :=
  Nat.lt_of_lt_of_le (by decide) (Nat.le_add_right sizeofRetdata block.content.length)

/-- A block stays laid while its storage is untouched. -/
theorem Laid.kept (laid : Laid order before block link)
    (untouched : Untouched before after block.place block.length) :
    Laid order after block link := by
  have same := loadRetdata_kept block.content.length untouched laid.size
  exact ⟨laid.bounded, by rw [same, laid.size], by rw [same, laid.data],
    by rw [same, laid.next]⟩

/-- So do all blocks of the chain. -/
theorem Stored.kept (stored : Stored order address before blocks)
    (untouched : ∀ block ∈ blocks, Untouched before after block.place block.length) :
    Stored order address after blocks := by
  induction blocks with
  | nil => trivial
  | cons block older inductionHypothesis =>
    obtain ⟨laid, apart, beside, rest⟩ := stored
    exact ⟨laid.kept (untouched block List.mem_cons_self), apart, beside,
      inductionHypothesis rest
        (fun other member => untouched other (List.mem_cons_of_mem block member))⟩

/-- The blocks of a chain are pairwise beside each other. -/
theorem Stored.pairwise (stored : Stored order address before blocks) :
    blocks.Pairwise (fun block other =>
      Beside block.place block.length other.place other.length) := by
  induction blocks with
  | nil => exact List.Pairwise.nil
  | cons block older inductionHypothesis =>
    obtain ⟨_, _, beside, rest⟩ := stored
    exact List.pairwise_cons.mpr ⟨beside, inductionHypothesis rest⟩

/-- So are any two different blocks of it. -/
theorem Stored.beside (stored : Stored order address before blocks) {other : Block}
    (member : block ∈ blocks) (present : other ∈ blocks) (different : block ≠ other) :
    Beside block.place block.length other.place other.length := by
  have forwards : blocks.Pairwise (fun block other => block ≠ other →
      Beside block.place block.length other.place other.length) := by
    apply stored.pairwise.imp
    exact fun beside _ => beside
  have backwards : blocks.Pairwise (flip fun block other => block ≠ other →
      Beside block.place block.length other.place other.length) := by
    apply stored.pairwise.imp
    exact fun beside _ => beside.symm
  have apart := forwards.forall_of_forall_of_flip (fun _ _ same => absurd rfl same) backwards
  exact apart member present different

/-- Every block of a chain stays where it was obtained, within the address space. -/
theorem Stored.bounded (stored : Stored order address before blocks) :
    ∀ block ∈ blocks, block.place.toNat + block.length ≤ 2 ^ 64 := by
  induction blocks with
  | nil => exact fun block member => absurd member List.not_mem_nil
  | cons head older inductionHypothesis =>
    obtain ⟨laid, _, _, rest⟩ := stored
    intro block member
    rcases List.mem_cons.mp member with rfl | deeper
    · exact laid.bounded
    · exact inductionHypothesis rest block deeper

/-- A further block adds its length to the total. -/
theorem total_push (size : BitVec 32) (sized : size.toNat = block.content.length)
    (blocks : List Block) :
    BitVec.ofNat 32 (total blocks) + (size + BitVec.ofNat 32 sizeofRetdata) =
      BitVec.ofNat 32 (total (block :: blocks)) := by
  apply BitVec.eq_of_toNat_eq
  simp only [total, List.map_cons, List.sum_cons, Block.length, BitVec.toNat_add,
    BitVec.toNat_ofNat, sized]
  omega

/-- A failed call keeps the record. -/
theorem Recorded.flagged {handling : Handling} (recorded : Recorded order address handling)
    (flagged : OnlyFlagged handling.toCore core) :
    Recorded order address ⟨core, handling.obtained⟩ := by
  obtain ⟨flag, _, rfl⟩ := flagged
  exact ⟨recorded.head, recorded.retsize, recorded.stored⟩

/-- A new block at the head of the chain keeps the record, when the memory holds it and
the storage of the older ones is untouched. -/
theorem Recorded.push {handling : Handling} (recorded : Recorded order address handling)
    (size : BitVec 32) (place : Address) (content : List Byte) (after : Core)
    (message : after.message = (pushed order address handling.toCore size place).message)
    (sized : size.toNat = content.length)
    (fresh : Fresh address handling.obtained place (sizeofRetdata + content.length))
    (untouched : ∀ other ∈ handling.obtained,
      Untouched handling.memory after.memory other.place other.length)
    (laid : Laid order after.memory ⟨place, content⟩ handling.message.retdataOffset) :
    Recorded order address ⟨after, ⟨place, content⟩ :: handling.obtained⟩ := by
  obtain ⟨_, apart, beside⟩ := fresh
  refine ⟨?_, ?_, ?_⟩
  · exact congrArg EmiMsg.retdataOffset message
  · have grown := @total_push ⟨place, content⟩ size sized handling.obtained
    rw [← recorded.retsize] at grown
    exact (congrArg EmiMsg.retsize message).trans grown
  · rw [recorded.head] at laid
    exact ⟨laid, apart, beside, recorded.stored.kept untouched⟩

/-- Storing the header of a fresh block leaves the older blocks. -/
theorem fresh_untouched {handling : Handling} (recorded : Recorded order address handling)
    (size : BitVec 32) (length : Nat)
    (fresh : Fresh address handling.obtained place (sizeofRetdata + length)) :
    ∀ other ∈ handling.obtained, Untouched handling.memory
      (pushed order address handling.toCore size place).memory other.place other.length := by
  obtain ⟨bounded, _, beside⟩ := fresh
  intro other member
  apply pushed_untouched order address handling.toCore size other.place other.length
    (recorded.stored.bounded other member) (by omega)
  have apart := beside other member
  simp only [Beside] at apart ⊢
  omega

/-- A call of `emi_retdata_alloc` keeps the record. -/
theorem alloc_recorded {handling : Handling} (recorded : Recorded order address handling)
    (size : BitVec 32) (answer : Option Address)
    (honest : Honest address handling (.alloc size answer)) :
    Recorded order address (serve order address handling (.alloc size answer)) := by
  rcases emiRetdataAlloc_cases order address handling.toCore answer size with
    ⟨after, failed, flagged⟩ | ⟨place, nonzero, rfl, taken⟩
  · have served : serve order address handling (.alloc size answer) =
        ⟨after, handling.obtained⟩ := by
      cases answer <;> simp only [serve, failed]
    rw [served]
    exact recorded.flagged flagged
  · have fresh := honest place rfl
    have room := fresh.1
    obtain ⟨sized, linked⟩ := @pushed_header place order address handling.toCore size (by omega)
    -- the content is whatever the data area holds
    generalize held : readBytes (pushed order address handling.toCore size place).memory
      (fieldPlace place sizeofRetdata) size.toNat = content
    have length : size.toNat = content.length := by rw [← held, readBytes_length]
    have served : serve order address handling (.alloc size (some place)) =
        ⟨pushed order address handling.toCore size place,
          ⟨place, content⟩ :: handling.obtained⟩ := by
      simp only [serve, taken, held]
    rw [served]
    rw [length] at fresh room
    apply recorded.push size place content _ rfl length fresh
    · exact fresh_untouched recorded size content.length fresh
    · refine ⟨room, ?_, ?_, linked⟩
      · rw [sized, length]
      · rw [loadRetdata_data, sized, held]

/-- A call of `emi_load_retdata` keeps the record. -/
theorem load_recorded {handling : Handling} (recorded : Recorded order address handling)
    (data : List Byte) (answer : Option Address)
    (honest : Honest address handling (.load data answer)) :
    Recorded order address (serve order address handling (.load data answer)) := by
  obtain ⟨short, honest⟩ := honest
  have exact32 : (BitVec.ofNat 32 data.length).toNat = data.length := by
    rw [BitVec.toNat_ofNat]
    exact Nat.mod_eq_of_lt short
  rcases emiLoadRetdata_cases order address handling.toCore answer data with
    ⟨after, failed, flagged⟩ | ⟨place, nonzero, rfl, taken⟩
  · have served : serve order address handling (.load data answer) =
        ⟨after, handling.obtained⟩ := by
      cases answer <;> simp only [serve, failed]
    rw [served]
    exact recorded.flagged flagged
  · have fresh := honest place rfl
    have filled : 0 < data.length := by
      rw [← exact32]
      exact BitVec.toNat_pos_of_ne_zero nonzero
    have untouched := fresh_untouched recorded (BitVec.ofNat 32 data.length) data.length fresh
    have room := fresh.1
    obtain ⟨sized, linked⟩ :=
      @pushed_header place order address handling.toCore (BitVec.ofNat 32 data.length) (by omega)
    have start := @fieldPlace_toNat place sizeofRetdata (by omega)
    -- the data go behind the header, into the same fresh storage
    have served : serve order address handling (.load data (some place)) =
        ⟨⟨(pushed order address handling.toCore (BitVec.ofNat 32 data.length) place).message,
            writeBytes
              (pushed order address handling.toCore (BitVec.ofNat 32 data.length) place).memory
              (fieldPlace place sizeofRetdata) data⟩,
          ⟨place, data⟩ :: handling.obtained⟩ := by
      simp only [serve, taken]
    rw [served]
    generalize (pushed order address handling.toCore (BitVec.ofNat 32 data.length) place).memory =
      memory at sized linked untouched
    apply recorded.push (BitVec.ofNat 32 data.length) place data
      ⟨_, writeBytes memory (fieldPlace place sizeofRetdata) data⟩ rfl exact32 fresh
    · intro other member
      apply (untouched other member).trans
      apply stored_beside _ _ _ _ _ (recorded.stored.bounded other member) (by omega)
      have clear := fresh.2.2 other member
      simp only [Beside] at clear ⊢
      omega
    · obtain ⟨size, next⟩ := @loadRetdata_header order _ _ place
        (stored_beside memory place (fieldPlace place sizeofRetdata) data sizeofRetdata (by omega)
          (by omega) (by simp only [Beside]; omega))
      refine ⟨room, ?_, ?_, next.trans linked⟩
      · rw [size, sized, exact32]
      · have held := readBytes_writeBytes memory (fieldPlace place sizeofRetdata) data (by omega)
        rw [loadRetdata_data, size, sized, exact32, held]

/-- Revising a block leaves its place. -/
@[simp] theorem Block.revise_place (block : Block) (place : Address) (offset : Nat)
    (bytes : List Byte) : (block.revise place offset bytes).place = block.place := by
  rw [Block.revise]
  split <;> rfl

/-- The bytes a handler stores lie in the data area of this block, or beside the block. -/
def Block.Touched (block : Block) (place : Address) (offset : Nat) (bytes : List Byte) : Prop :=
  (block.place = place ∧ offset + bytes.length ≤ block.content.length) ∨
    (block.place ≠ place ∧ Beside (fieldPlace place (sizeofRetdata + offset)) bytes.length
      block.place block.length)

/-- Revising a block leaves its length, too. -/
theorem Block.Touched.length {offset : Nat} {bytes : List Byte}
    (touched : block.Touched place offset bytes) :
    (block.revise place offset bytes).length = block.length := by
  rcases touched with ⟨here, inside⟩ | ⟨elsewhere, _⟩
  · rw [Block.revise, if_pos here, Block.length, Block.length, spliced_length _ _ _ inside]
  · rw [Block.revise, if_neg elsewhere]

/-- A block stays laid, with the bytes stored in its data area. -/
theorem Laid.store {offset : Nat} {bytes : List Byte} (laid : Laid order before block link)
    (touched : block.Touched place offset bytes) (some : bytes ≠ [])
    (bounded : (fieldPlace place (sizeofRetdata + offset)).toNat + bytes.length ≤ 2 ^ 64) :
    Laid order (writeBytes before (fieldPlace place (sizeofRetdata + offset)) bytes)
      (block.revise place offset bytes) link := by
  have length := touched.length
  rcases touched with ⟨rfl, inside⟩ | ⟨elsewhere, beside⟩
  · have filled := List.length_pos_iff.mpr some
    have room := laid.bounded
    rw [Block.length] at room
    have header : sizeofRetdata = 16 := rfl
    have target := @fieldPlace_toNat block.place (sizeofRetdata + offset) (by omega)
    obtain ⟨size, next⟩ := @loadRetdata_header order _ _ block.place
      (stored_beside before block.place (fieldPlace block.place (sizeofRetdata + offset)) bytes
        sizeofRetdata (by omega) bounded (by simp only [Beside]; omega))
    refine ⟨?_, ?_, ?_, ?_⟩
    · rw [length, Block.revise_place]
      exact laid.bounded
    · rw [Block.revise_place, size, laid.size, Block.revise, if_pos rfl,
        spliced_length _ _ _ inside]
    · have shifted : fieldPlace block.place (sizeofRetdata + offset) =
          fieldPlace block.place sizeofRetdata + BitVec.ofNat 64 offset := by
        rw [fieldPlace, fieldPlace, BitVec.add_assoc, ← BitVec.ofNat_add]
      have held : readBytes before (fieldPlace block.place sizeofRetdata) block.content.length =
          block.content := by
        rw [← laid.size, ← loadRetdata_data, laid.data]
      have spliced := readBytes_spliced before (fieldPlace block.place sizeofRetdata) bytes offset
        block.content.length inside (by omega)
      rw [held, ← shifted] at spliced
      rw [Block.revise_place, loadRetdata_data, size, laid.size, spliced, Block.revise, if_pos rfl]
    · rw [Block.revise_place, next, laid.next]
  · rw [Block.revise, if_neg elsewhere]
    exact laid.kept (stored_beside before block.place _ bytes block.length laid.bounded bounded
      beside)

/-- Revising blocks leaves the offset of the newest one. -/
theorem chainOffset_revise (offset : Nat) (bytes : List Byte) :
    chainOffset address (blocks.map (·.revise place offset bytes)) =
      chainOffset address blocks := by
  cases blocks with
  | nil => rfl
  | cons newest _ => simp only [List.map_cons, chainOffset, Block.revise_place]

/-- So do all blocks of the chain. -/
theorem Stored.store {offset : Nat} {bytes : List Byte}
    (stored : Stored order address before blocks)
    (touched : ∀ block ∈ blocks, block.Touched place offset bytes) (some : bytes ≠ [])
    (bounded : (fieldPlace place (sizeofRetdata + offset)).toNat + bytes.length ≤ 2 ^ 64) :
    Stored order address (writeBytes before (fieldPlace place (sizeofRetdata + offset)) bytes)
      (blocks.map (·.revise place offset bytes)) := by
  induction blocks with
  | nil => trivial
  | cons block older inductionHypothesis =>
    obtain ⟨laid, apart, beside, rest⟩ := stored
    have here := touched block List.mem_cons_self
    have others := fun other member => touched other (List.mem_cons_of_mem block member)
    refine ⟨?_, ?_, ?_, inductionHypothesis rest others⟩
    · rw [chainOffset_revise]
      exact laid.store here some bounded
    · rw [here.length, Block.revise_place]
      exact apart
    · intro other member
      obtain ⟨original, present, rfl⟩ := List.mem_map.mp member
      rw [here.length, (others original present).length, Block.revise_place, Block.revise_place]
      exact beside original present

/-- Storing in the data area of one block of a chain touches no other. -/
theorem Stored.touched {offset : Nat} {bytes : List Byte}
    (stored : Stored order address before blocks) (member : block ∈ blocks)
    (inside : offset + bytes.length ≤ block.content.length) (some : bytes ≠ []) :
    (fieldPlace block.place (sizeofRetdata + offset)).toNat + bytes.length ≤ 2 ^ 64 ∧
      ∀ other ∈ blocks, other.Touched block.place offset bytes := by
  have filled := List.length_pos_iff.mpr some
  have room := stored.bounded block member
  have length : block.length = sizeofRetdata + block.content.length := rfl
  have target := @fieldPlace_toNat block.place (sizeofRetdata + offset) (by omega)
  refine ⟨by omega, ?_⟩
  intro other present
  by_cases same : other = block
  · subst same
    exact .inl ⟨rfl, inside⟩
  · have beside := stored.beside present member same
    have positive := other.length_pos
    simp only [Beside] at beside
    refine .inr ⟨?_, ?_⟩
    · intro here
      rw [here] at beside
      omega
    · simp only [Beside]
      omega

/-- Every call keeps the record. -/
theorem serve_recorded {handling : Handling} (recorded : Recorded order address handling)
    (call : Call) (honest : Honest address handling call) :
    Recorded order address (serve order address handling call) := by
  cases call with
  | alloc size answer => exact alloc_recorded recorded size answer honest
  | load data answer => exact load_recorded recorded data answer honest
  | store place offset bytes =>
    obtain ⟨some, block, member, rfl, inside⟩ := honest
    obtain ⟨bounded, touched⟩ := recorded.stored.touched member inside some
    refine ⟨?_, ?_, recorded.stored.store touched some bounded⟩
    · exact recorded.head.trans (chainOffset_revise offset bytes).symm
    · have lengths : (handling.obtained.map (·.revise block.place offset bytes)).map Block.length =
          handling.obtained.map Block.length := by
        rw [List.map_map]
        exact List.map_congr_left fun other present => (touched other present).length
      have same : total (handling.obtained.map (·.revise block.place offset bytes)) =
          total handling.obtained := congrArg List.sum lengths
      simp only [serve, same]
      exact recorded.retsize

end Steps

/-- The record holds in every state the handlers can reach. -/
theorem reached_recorded {order : ByteOrder} {address : Address} {handling : Handling}
    (reached : (handlers order address).ReachedUnder (Honest address) handling) :
    Recorded order address handling := by
  apply reached.invariant
  · rintro handling ⟨empty, none, home, _⟩
    refine ⟨?_, ?_, ?_⟩
    · rw [empty, home]
      rfl
    · rw [empty, none]
      rfl
    · rw [empty]
      trivial
  · rintro before call after recorded honest rfl
    exact serve_recorded recorded call honest

section Walks

variable {order : ByteOrder} {address : Address} {core : Core}

/-- Truncation keeps the offset of a near block, and the empty one, and no other. -/
theorem truncated_iff (blocks : List Block) :
    truncated (chainOffset address blocks) = chainOffset address blocks ↔
      ∀ block ∈ blocks.head?, Near address block := by
  have kept (offset : Address) : truncated offset = offset ↔ offset.toNat < 2 ^ 32 := by
    rw [← BitVec.toNat_inj]
    simp only [truncated, BitVec.toNat_setWidth]
    omega
  cases blocks with
  | nil => simp [truncated, chainOffset]
  | cons block older =>
    rw [kept]
    simp [chainOffset, Near]

/-- The walk goes on while the offset leads away from the message. -/
theorem walk_onward {data : Option EmiRetdata} (fuel : Nat)
    (nonzero : core.message.retsize ≠ 0) (onward : followed core.message data ≠ 0) :
    forEachRetdata order address core (fuel + 1) data =
      (forEachRetdata order address core fuel
        (some (loadRetdata order core.memory (getAddr address (followed core.message data))))).map
        ((getAddr address (followed core.message data), loadRetdata order core.memory
          (getAddr address (followed core.message data))) :: ·) := by
  have apart : getAddr address (followed core.message data) ≠ address := by
    intro same
    apply onward
    rw [getAddr] at same
    simpa using same
  have next : getNextRetdata address core.message data =
      some (getAddr address (followed core.message data)) := by
    simp only [getNextRetdata, if_neg nonzero, if_neg apart]
  rw [forEachRetdata, next]

/-- It stops at the message. -/
theorem walk_home {data : Option EmiRetdata} (fuel : Nat)
    (home : followed core.message data = 0) :
    forEachRetdata order address core (fuel + 1) data = some [] := by
  have nowhere : getNextRetdata address core.message data = none := by
    simp [getNextRetdata, home, getAddr]
  rw [forEachRetdata, nowhere]

/-- Blocks are near when the first one is and all others are. -/
theorem near_cases (address : Address) (blocks : List Block) :
    (∀ block ∈ blocks, Near address block) ↔
      (∀ block ∈ blocks.head?, Near address block) ∧
        ∀ block ∈ blocks.tail, Near address block := by
  cases blocks <;> simp

/-- The walk from an offset enumerates the stored blocks exactly when the offset is that
of the newest one and no older one lost its link. -/
theorem enumerates_iff (blocks : List Block) (data : Option EmiRetdata)
    (stored : Stored order address core.memory blocks) (nonzero : core.message.retsize ≠ 0) :
    (∃ fuel visited, forEachRetdata order address core fuel data = some visited ∧
        visited.map seen = blocks.map Block.listed) ↔
      followed core.message data = chainOffset address blocks ∧
        ∀ block ∈ blocks.tail, Near address block := by
  induction blocks generalizing data with
  | nil =>
    constructor
    · rintro ⟨fuel, visited, walked, same⟩
      obtain rfl := List.map_eq_nil_iff.mp same
      refine ⟨?_, fun block member => absurd member List.not_mem_nil⟩
      by_contra onward
      cases fuel with
      | zero => cases walked
      | succ fuel =>
        rw [walk_onward fuel nonzero onward] at walked
        obtain ⟨rest, _, longer⟩ := Option.map_eq_some_iff.mp walked
        cases longer
    · rintro ⟨home, _⟩
      exact ⟨1, [], walk_home 0 home, rfl⟩
  | cons block older inductionHypothesis =>
    obtain ⟨laid, apart, _, rest⟩ := stored
    have later := inductionHypothesis (some (loadRetdata order core.memory block.place)) rest
    have link : followed core.message (some (loadRetdata order core.memory block.place)) =
        truncated (chainOffset address older) := laid.next
    rw [link, truncated_iff, ← near_cases] at later
    have shown : seen (block.place, loadRetdata order core.memory block.place) =
        block.listed := by
      rw [seen, Block.listed, laid.size, laid.data]
    constructor
    · rintro ⟨fuel, visited, walked, same⟩
      obtain ⟨visit, others, rfl, first, matching⟩ := List.map_eq_cons_iff.mp same
      cases fuel with
      | zero => cases walked
      | succ fuel =>
        by_cases home : followed core.message data = 0
        · rw [walk_home fuel home] at walked
          cases walked
        · rw [walk_onward fuel nonzero home] at walked
          obtain ⟨walkedOn, remaining, listed⟩ := Option.map_eq_some_iff.mp walked
          obtain ⟨rfl, rfl⟩ := List.cons.inj listed
          have place : getAddr address (followed core.message data) = block.place :=
            congrArg Prod.fst first
          rw [place] at remaining
          refine ⟨?_, later.mp ⟨fuel, _, remaining, matching⟩⟩
          rw [chainOffset, ← place, getOffset_getAddr]
    · rintro ⟨follows, near⟩
      obtain ⟨fuel, visited, walked, same⟩ := later.mpr near
      have place : getAddr address (followed core.message data) = block.place := by
        rw [follows, chainOffset, getAddr_getOffset]
      have onward : followed core.message data ≠ 0 := by
        intro home
        have there : block.place = address := by
          rw [← place, home, getAddr]
          exact BitVec.add_zero address
        have positive := block.length_pos
        have record : sizeofMsg = 72 := rfl
        rw [there, Beside] at apart
        omega
      refine ⟨fuel + 1, (block.place, loadRetdata order core.memory block.place) :: visited, ?_,
        ?_⟩
      · rw [walk_onward fuel nonzero onward, place, walked, Option.map_some]
      · rw [List.map_cons, List.map_cons, shown, same]

end Walks

/-- In every state the handlers can reach while the lengths stay below `2 ^ 32`, the
return blocks have accumulated without loss exactly when every block but the newest
lies less than `2 ^ 32` bytes above the message.

`Recorded` holds in every reached state, so the links are the truncated offsets of the
older blocks; what is left is whether the walk finds the blocks by them. -/
theorem accumulated_iff (order : ByteOrder) (address : Address) (handling : Handling)
    (reached : (handlers order address).ReachedUnder (Honest address) handling)
    (bounded : total handling.obtained < 2 ^ 32) :
    Accumulated order address handling ↔
      ∀ block ∈ handling.obtained.tail, Near address block := by
  have recorded := reached_recorded reached
  have counted : handling.message.retsize.toNat = total handling.obtained := by
    rw [recorded.retsize, BitVec.toNat_ofNat]
    exact Nat.mod_eq_of_lt bounded
  have walks : (∃ fuel visited, forEachRetdata order address handling.toCore fuel none =
      some visited ∧ visited.map seen = handling.obtained.map Block.listed) ↔
      ∀ block ∈ handling.obtained.tail, Near address block := by
    by_cases zero : handling.message.retsize = 0
    · have nothing : handling.obtained = [] := by
        cases listed : handling.obtained with
        | nil => rfl
        | cons block older =>
          have positive := block.length_pos
          rw [zero, listed, total, List.map_cons, List.sum_cons] at counted
          have none : (0 : BitVec 32).toNat = 0 := rfl
          omega
      rw [nothing]
      refine ⟨fun _ block member => absurd member List.not_mem_nil, fun _ => ⟨1, [], ?_, rfl⟩⟩
      have nowhere : getNextRetdata address handling.message none = none := if_pos zero
      rw [forEachRetdata, nowhere]
    · rw [enumerates_iff handling.obtained none recorded.stored zero]
      exact and_iff_right recorded.head
  rw [← walks]
  constructor
  · exact fun accumulated => accumulated.enumerated
  · intro enumerated
    refine ⟨enumerated, counted, ?_, ?_⟩
    · intro size answer core failed
      rcases emiRetdataAlloc_cases order address handling.toCore answer size with
        ⟨after, same, flagged⟩ | ⟨place, _, _, taken⟩
      · obtain ⟨_, rfl⟩ := Prod.mk.inj (same.symm.trans failed)
        exact flagged
      · cases taken.symm.trans failed
    · intro data answer core failed
      rcases emiLoadRetdata_cases order address handling.toCore answer data with
        ⟨after, same, flagged⟩ | ⟨place, _, _, taken⟩
      · obtain ⟨_, rfl⟩ := Prod.mk.inj (same.symm.trans failed)
        exact flagged
      · cases taken.symm.trans failed

/-- A block-mode message without return blocks, in memory of zeros. -/
def unanswered : Handling where
  message := { emptyMsg with flag := modeBlock, msg := 7 }
  memory := fun _ => 0
  obtained := []

/-- It is a start of the handlers. -/
theorem unanswered_reached :
    (handlers .little 1000).ReachedUnder (Honest 1000) unanswered :=
  .initial unanswered ⟨rfl, rfl, rfl, by decide⟩

/-- Two handlers return a byte and two bytes in storages that the allocator chooses; the
message is at 1000. -/
def answeredAt (first second : Address) : Handling :=
  serve .little 1000 (serve .little 1000 unanswered (.load [1] (some first)))
    (.load [2, 3] (some second))

/-- With fresh storages the handlers reach this state. -/
theorem answeredAt_reached {first second : Address} (fresh : Fresh 1000 [] first 17)
    (beside : Fresh 1000 [⟨first, [1]⟩] second 18) :
    (handlers .little 1000).ReachedUnder (Honest 1000) (answeredAt first second) := by
  apply System.ReachedUnder.next (serve .little 1000 unanswered (.load [1] (some first))) _
    (.load [2, 3] (some second)) ?_ ?_ rfl
  · apply System.ReachedUnder.next unanswered _ (.load [1] (some first)) unanswered_reached ?_ rfl
    refine ⟨by decide, ?_⟩
    rintro place ⟨⟩
    exact fresh
  · refine ⟨by decide, ?_⟩
    rintro place ⟨⟩
    exact beside

/-- Two handlers returned data in storage above the message. -/
def answeredAbove : Handling := answeredAt 2000 3000

/-- Their return data have accumulated. -/
theorem answeredAbove_accumulated : Accumulated .little 1000 answeredAbove := by
  have reached : (handlers .little 1000).ReachedUnder (Honest 1000) answeredAbove := by
    apply answeredAt_reached
    · exact ⟨by decide, by decide, by simp⟩
    · exact ⟨by decide, by decide, by simp only [List.mem_singleton, forall_eq]; decide⟩
  refine (accumulated_iff .little 1000 answeredAbove reached (by decide)).mpr ?_
  intro block member
  obtain rfl := List.mem_singleton.mp member
  decide

/-- One handler returned a byte in storage below the message, a second one above it. -/
def answeredAround : Handling := answeredAt 500 2000

/-- Both storages are fresh, so the handlers reach this state. -/
theorem answeredAround_reached :
    (handlers .little 1000).ReachedUnder (Honest 1000) answeredAround := by
  apply answeredAt_reached
  · exact ⟨by decide, by decide, by simp⟩
  · exact ⟨by decide, by decide, by simp only [List.mem_singleton, forall_eq]; decide⟩

/-- The block below the message is lost behind the newer one. -/
theorem answeredAround_loses : ¬ ∀ (order : ByteOrder) (address : Address) (handling : Handling),
    (handlers order address).ReachedUnder (Honest address) handling →
    total handling.obtained < 2 ^ 32 → Accumulated order address handling := by
  intro always
  have accumulated := always .little 1000 answeredAround answeredAround_reached (by decide)
  have recorded := reached_recorded answeredAround_reached
  obtain ⟨_, near⟩ := (enumerates_iff answeredAround.obtained none recorded.stored
    (by decide)).mp accumulated.enumerated
  exact absurd (near ⟨500, [1]⟩ List.mem_cons_self) (by decide)

end Emilib.ReturnChain
