import Emilib.Requests

/-!
# Return data on the core's side

`emi_retdata_alloc` of `emi_ifr.c` puts a new block at the head of a message's
chain of return blocks and adds its length to `retsize`; `emi_msg_write_ret` of
`emi_sockr.c` sends the payload and then the blocks of the chain, newest first.

A return block is read from the arena or not at all: following an offset out of
the arena, or to an address that holds no return block, has no result, and so
has sending bytes from beyond its end. The walk takes fuel; results are stated
for some amount of it.
-/

namespace Emilib.ReturnData

open ByteWords FlagBits Messages Transfers SharedBlocks Requests

/-- The number of bytes of the arena: `MSG_SHM_SIZE`. -/
def msgShmSize : Nat := 2 ^ buddyShift * 2 ^ emiOrderNum

/-- The message after an unsuccessful `emi_retdata_alloc`. -/
def failReply (shared : Shared) : Shared :=
  { shared with
    message := { shared.message with flag := lower shared.message.flag retSucceeded } }

/-- Put the new block at `addr` at the head of the chain. The old head offset
passes through a 32-bit variable, and what the source does not store of the block
is what the memory held there. -/
def pushRetdata (shared : Shared) (addr : Address) (size : BitVec 32) : Shared :=
  let oldRetdataOffset : BitVec 32 := shared.message.retdataOffset.setWidth 32
  let block : EmiRetdata :=
    { nextOffset := oldRetdataOffset.setWidth 64
      size := size
      pad := word32 .little (readBytes shared.shm.memory (getAddr addr 12) 4)
      data := readBytes shared.shm.memory (getAddr addr 16) size.toNat }
  { shared with
    shm := { shared.shm with returns := fun place =>
      if place = addr then some block else shared.shm.returns place }
    message := { shared.message with
      retsize := shared.message.retsize + (size + BitVec.ofNat 32 sizeofRetdata)
      retdataOffset := getOffset shared.address addr } }

/-- `emi_retdata_alloc`, under the lock of the message: the address of the block,
or NULL, and the message. -/
def emiRetdataAlloc (shared : Shared) (size : BitVec 32) : Option Address × Shared :=
  if size = 0 then (none, shared)
  else if ¬ Holds shared.message.flag modeBlock then (none, failReply shared)
  else
    match emiAlloc shared.shm (size.toNat + sizeofRetdata) with
    | (none, shm) => (none, failReply { shared with shm := shm })
    | (some addr, shm) => (some addr, pushRetdata { shared with shm := shm } addr size)

/-- The blocks obtained for a message, newest first, with the sizes asked for. -/
abbrev Obtained := List (Address × BitVec 32)

/-- The calls of `emi_retdata_alloc` the handlers make, in the order in which they
take the lock, after the blocks `obtained` before. -/
def retdataAllocs : Obtained → Shared → List (BitVec 32) → Obtained × Shared
  | obtained, shared, [] => (obtained, shared)
  | obtained, shared, size :: calls =>
      match emiRetdataAlloc shared size with
      | (none, shared) => retdataAllocs obtained shared calls
      | (some addr, shared) => retdataAllocs ((addr, size) :: obtained) shared calls

/-- The offset `get_next_retdata` follows after the block `data`, or at first. -/
def followed (message : EmiMsg) : Option EmiRetdata → Address
  | none => message.retdataOffset
  | some data => data.nextOffset

/-- `get_next_retdata`: the address of the next block, or NULL. -/
def getNextRetdata (address : Address) (message : EmiMsg) (data : Option EmiRetdata) :
    Option Address :=
  if message.retsize = 0 then none
  else
    let newdata := getAddr address (followed message data)
    if newdata = address then none else some newdata

/-- Read the return block at an address of the arena. -/
def loadRetdata (shm : Shm) (place : Address) : Option EmiRetdata :=
  if place.toNat + sizeofRetdata ≤ msgShmSize then shm.returns place else none

/-- Send a return block. The size of the transfer is a 32-bit number. -/
def writeBlock (order : ByteOrder) (sink : Sink) (place : Address) (block : EmiRetdata) :
    Option (Int × Sink) :=
  let size := (block.size + BitVec.ofNat 32 sizeofRetdata).toNat
  if place.toNat + size ≤ msgShmSize then emiWrite sink ((retdataBytes order block).take size)
  else none

/-- The loop `for_each_retdata` of `emi_msg_write_retdata`, after the block `data`. -/
def writeRetdataLoop (order : ByteOrder) (shared : Shared) :
    Nat → Sink → Option EmiRetdata → Option (Int × Sink)
  | 0, _, _ => none
  | fuel + 1, sink, data =>
      match getNextRetdata shared.address shared.message data with
      | none => some (0, sink)
      | some place => do
          let block ← loadRetdata shared.shm place
          let (ret, sink) ← writeBlock order sink place block
          if ret ≠ 0 then return (-1, sink)
          else writeRetdataLoop order shared fuel sink (some block)

/-- `emi_msg_write_ret`. -/
def emiMsgWriteRet (order : ByteOrder) (shared : Shared) (fuel : Nat) (sink : Sink) :
    Option (Int × Sink) := do
  let (ret, sink) ← emiMsgWritePayload order sink shared.message
  if ret ≠ 0 then return (-1, sink)
  else if shared.message.retsize.toNat > 0 then writeRetdataLoop order shared fuel sink none
  else return (0, sink)

/-- Everything one call of `emi_retdata_alloc` can do: fail, with at most an offer
consumed and the success bit cleared, or push a block that was available. -/
theorem emiRetdataAlloc_cases (shared : Shared) (size : BitVec 32) :
    (∃ offers flag, (flag = shared.message.flag ∨ flag = lower shared.message.flag retSucceeded) ∧
      emiRetdataAlloc shared size = (none, { shared with
        shm := { shared.shm with offers := offers }
        message := { shared.message with flag := flag } })) ∨
      ∃ extent available offers,
        extent.order =
          sizeToOrder (toInt ((size.toNat + sizeofRetdata + addrBufOffset) % 2 ^ 64)) ∧
        emiRetdataAlloc shared size = (some extent.address, pushRetdata
          { shared with shm := shared.shm.grant extent available offers } extent.address size) := by
  by_cases zero : size = 0
  · exact Or.inl ⟨shared.shm.offers, shared.message.flag, Or.inl rfl,
      by simp only [emiRetdataAlloc, if_pos zero]⟩
  by_cases blocking : Holds shared.message.flag modeBlock
  · rcases emiAlloc_cases shared.shm (size.toNat + sizeofRetdata) with
      ⟨offers, refused⟩ | ⟨extent, available, offers, order, taken⟩
    · exact Or.inl ⟨offers, _, Or.inr rfl, by
        simp only [emiRetdataAlloc, if_neg zero, blocking, not_true, if_false, refused, failReply]⟩
    · exact Or.inr ⟨extent, available, offers, order, by
        simp only [emiRetdataAlloc, if_neg zero, blocking, not_true, if_false, taken]⟩
  · exact Or.inl ⟨shared.shm.offers, _, Or.inr rfl, by
      simp only [emiRetdataAlloc, if_neg zero, blocking, not_false_eq_true, if_true, failReply]⟩

/-- A property of the blocks obtained and the message, kept by every call. -/
theorem retdataAllocs_rule (holds : Obtained → Shared → Prop)
    (failed : ∀ obtained shared offers flag, holds obtained shared →
      (flag = shared.message.flag ∨ flag = lower shared.message.flag retSucceeded) →
      holds obtained { shared with
        shm := { shared.shm with offers := offers }
        message := { shared.message with flag := flag } })
    (pushed : ∀ obtained shared extent available offers (size : BitVec 32),
      holds obtained shared →
      extent.order =
        sizeToOrder (toInt ((size.toNat + sizeofRetdata + addrBufOffset) % 2 ^ 64)) →
      holds ((extent.address, size) :: obtained) (pushRetdata
        { shared with shm := shared.shm.grant extent available offers } extent.address size))
    (calls : List (BitVec 32)) (obtained : Obtained) (shared : Shared)
    (initially : holds obtained shared) :
    holds (retdataAllocs obtained shared calls).1 (retdataAllocs obtained shared calls).2 := by
  induction calls generalizing obtained shared with
  | nil => exact initially
  | cons size calls inductionHypothesis =>
    rcases emiRetdataAlloc_cases shared size with
      ⟨offers, flag, cleared, call⟩ | ⟨extent, available, offers, order, call⟩
    · rw [retdataAllocs, call]
      exact inductionHypothesis _ _ (failed obtained shared offers flag initially cleared)
    · rw [retdataAllocs, call]
      exact inductionHypothesis _ _
        (pushed obtained shared extent available offers size initially order)

/-- The bytes of the wire that blocks take up. -/
def total : Obtained → Nat
  | [] => 0
  | (_, size) :: older => size.toNat + sizeofRetdata + total older

/-- The offset of the newest block, and zero when there is none. -/
def headOffset (address : Address) : Obtained → Address
  | [] => 0
  | (place, _) :: _ => getOffset address place

/-- An offset after it passed through a 32-bit variable. -/
def truncated (offset : Address) : Address := (offset.setWidth 32).setWidth 64

/-- The blocks are in the arena, each with its size and linked to the one before
it, by an offset that kept its low 32 bits only. -/
def Stored (shared : Shared) : Obtained → Prop
  | [] => True
  | (place, size) :: older =>
      shared.shm.Owns place ∧ place ≠ shared.address ∧
      place.toNat + sizeofRetdata ≤ msgShmSize ∧
      (size.toNat + sizeofRetdata + addrBufOffset < 2 ^ 31 →
        place.toNat + size.toNat + sizeofRetdata ≤ msgShmSize) ∧
      (∃ block, shared.shm.returns place = some block ∧ block.size = size ∧
        block.data.length = size.toNat ∧
        block.nextOffset = truncated (headOffset shared.address older)) ∧
      Stored shared older

/-- What a run of calls leaves: the blocks stored and linked from the head, and
their lengths added to the size the payload came with. -/
structure Recorded (before : BitVec 32) (obtained : Obtained) (shared : Shared) : Prop where
  owned : shared.shm.Owns shared.address
  inside : shared.address.toNat ≤ msgShmSize
  head : shared.message.retdataOffset = headOffset shared.address obtained
  retsize : shared.message.retsize = before + BitVec.ofNat 32 (total obtained)
  stored : Stored shared obtained

/-- A further block adds its size and its header to the total. -/
theorem total_push (before size : BitVec 32) (address : Address) (obtained : Obtained) :
    before + BitVec.ofNat 32 (total obtained) + (size + BitVec.ofNat 32 sizeofRetdata) =
      before + BitVec.ofNat 32 (total ((address, size) :: obtained)) := by
  apply BitVec.eq_of_toNat_eq
  simp only [total, BitVec.toNat_add, BitVec.toNat_ofNat]
  omega

/-- Stored blocks stay stored when another address gets a return block. -/
theorem Stored.push {shared : Shared} {obtained : Obtained} (stored : Stored shared obtained)
    (extent : Extent) (available : extent.Available shared.shm.live.extents)
    (offers : List (Option Nat)) (size : BitVec 32) :
    Stored (pushRetdata { shared with shm := shared.shm.grant extent available offers }
      extent.address size) obtained := by
  induction obtained with
  | nil => trivial
  | cons entry older inductionHypothesis =>
    obtain ⟨place, size'⟩ := entry
    obtain ⟨owned, apart, inside, room, ⟨block, found, fields⟩, rest⟩ := stored
    refine ⟨owned.grant extent available offers, apart, inside, room, ⟨block, ?_, fields⟩,
      inductionHypothesis rest⟩
    have other : place ≠ extent.address := fun same => available.fresh (same ▸ owned)
    simp only [pushRetdata, if_neg other]
    exact found

/-- The block at the end of a link is where its offset says, below `2 ^ 32` above
the message. -/
def Near (address : Address) (entry : Address × BitVec 32) : Prop :=
  (getOffset address entry.1).toNat < 2 ^ 32

instance (address : Address) (entry : Address × BitVec 32) : Decidable (Near address entry) :=
  inferInstanceAs (Decidable (_ < _))

/-- `emi_alloc` computed the order of the block from the size asked for, not from
what the conversion to `int` made of it. -/
def Fits (entry : Address × BitVec 32) : Prop :=
  entry.2.toNat + sizeofRetdata + addrBufOffset < 2 ^ 31

instance (entry : Address × BitVec 32) : Decidable (Fits entry) :=
  inferInstanceAs (Decidable (_ < _))

/-- Truncation keeps the offset of a near block, and the empty one. -/
theorem truncated_near (address : Address) (obtained : Obtained)
    (near : ∀ entry ∈ obtained.head?, Near address entry) :
    truncated (headOffset address obtained) = headOffset address obtained := by
  apply BitVec.eq_of_toNat_eq
  simp only [truncated, BitVec.toNat_setWidth]
  cases obtained with
  | nil => rfl
  | cons entry older =>
    have bound : (getOffset address entry.1).toNat < 2 ^ 32 := near entry rfl
    simp only [headOffset]
    omega

/-- Truncation of any other offset leads out of the arena. -/
theorem truncated_far (shm : Shm) (address place : Address) (base : address.toNat ≤ msgShmSize)
    (inside : place.toNat ≤ msgShmSize) (far : ¬ (getOffset address place).toNat < 2 ^ 32) :
    getAddr address (truncated (getOffset address place)) ≠ address ∧
      loadRetdata shm (getAddr address (truncated (getOffset address place))) = none := by
  have outside : msgShmSize < (getAddr address (truncated (getOffset address place))).toNat := by
    simp only [msgShmSize, buddyShift, emiOrderNum] at base inside ⊢
    simp only [getOffset, BitVec.toNat_sub] at far
    simp only [getAddr, truncated, getOffset, BitVec.toNat_add, BitVec.toNat_setWidth,
      BitVec.toNat_sub]
    omega
  constructor
  · intro same
    rw [same] at outside
    omega
  · rw [loadRetdata, if_neg]
    omega

/-- A walk that ends does so in the same way with more fuel. -/
theorem writeRetdataLoop_more (order : ByteOrder) (shared : Shared) (fuel extra : Nat)
    (sink : Sink) (data : Option EmiRetdata) (result : Int × Sink)
    (ended : writeRetdataLoop order shared fuel sink data = some result) :
    writeRetdataLoop order shared (fuel + extra) sink data = some result := by
  induction fuel generalizing sink data with
  | zero => cases ended
  | succ fuel inductionHypothesis =>
    rw [Nat.succ_add, writeRetdataLoop]
    rw [writeRetdataLoop] at ended
    cases next : getNextRetdata shared.address shared.message data with
    | none =>
      rw [next] at ended
      exact ended
    | some place =>
      simp only [next] at ended ⊢
      obtain ⟨block, loaded, continued⟩ := Option.bind_eq_some_iff.1 ended
      obtain ⟨⟨ret, sent⟩, wrote, finished⟩ := Option.bind_eq_some_iff.1 continued
      simp only [loaded, Option.bind_eq_bind, Option.bind_some, wrote]
      by_cases failed : ret ≠ 0
      · rw [if_pos failed] at finished ⊢
        exact finished
      · rw [if_neg failed] at finished ⊢
        exact inductionHypothesis sent (some block) finished

/-- The walk has one outcome, whatever fuel it was given. -/
theorem writeRetdataLoop_unique (order : ByteOrder) (shared : Shared) (fuel fuel' : Nat)
    (sink : Sink) (data : Option EmiRetdata) (result result' : Int × Sink)
    (ended : writeRetdataLoop order shared fuel sink data = some result)
    (ended' : writeRetdataLoop order shared fuel' sink data = some result') :
    result = result' := by
  have left := writeRetdataLoop_more order shared fuel fuel' sink data result ended
  have right := writeRetdataLoop_more order shared fuel' fuel sink data result' ended'
  rw [Nat.add_comm, right] at left
  exact (Option.some.inj left).symm

/-- The blocks a walk over the message visits from an offset on, with their
addresses; the last one links to the message itself. -/
def Chained (shared : Shared) : Address → List (Address × EmiRetdata) → Prop
  | offset, [] => offset = 0
  | offset, (place, block) :: rest =>
      getAddr shared.address offset = place ∧ place ≠ shared.address ∧
      loadRetdata shared.shm place = some block ∧
      place.toNat + (block.size.toNat + sizeofRetdata) ≤ msgShmSize ∧
      block.data.length = block.size.toNat ∧ Chained shared block.nextOffset rest

/-- The bytes of the blocks of a chain, in order. -/
def chainBytes (order : ByteOrder) (chain : List (Address × EmiRetdata)) : List Byte :=
  chain.flatMap fun entry => retdataBytes order entry.2

theorem chainBytes_cons (order : ByteOrder) (entry : Address × EmiRetdata)
    (rest : List (Address × EmiRetdata)) :
    chainBytes order (entry :: rest) = retdataBytes order entry.2 ++ chainBytes order rest :=
  List.flatMap_cons

/-- A return block takes up its header and its data. -/
theorem retdataBytes_length (order : ByteOrder) (block : EmiRetdata) :
    (retdataBytes order block).length = sizeofRetdata + block.data.length := by
  simp only [retdataBytes, List.length_append, bytes64_length, bytes32_length, sizeofRetdata]

/-- What is written of a block is the whole of it, while the 32-bit sum does not wrap. -/
theorem blockSize_exact (size : BitVec 32) (bounded : size.toNat + sizeofRetdata < 2 ^ 32) :
    (size + BitVec.ofNat 32 sizeofRetdata).toNat = size.toNat + sizeofRetdata := by
  simp only [BitVec.toNat_add, BitVec.toNat_ofNat, sizeofRetdata] at bounded ⊢
  omega

/-- The walk over a chain sends its blocks, and ends. -/
theorem chain_sends (order : ByteOrder) (shared : Shared) (nonzero : shared.message.retsize ≠ 0)
    (chain : List (Address × EmiRetdata)) (data : Option EmiRetdata)
    (chained : Chained shared (followed shared.message data) chain)
    (sink : Sink) (unlimited : sink.room = none) :
    ∃ written, writeRetdataLoop order shared (chain.length + 1) sink data = some (0, written) ∧
      written.sent = sink.sent ++ chainBytes order chain := by
  induction chain generalizing data sink with
  | nil =>
    refine ⟨sink, ?_, (List.append_nil _).symm⟩
    have home : getAddr shared.address (followed shared.message data) = shared.address := by
      rw [chained]
      simp [getAddr]
    simp only [writeRetdataLoop, getNextRetdata, if_neg nonzero, home, if_true]
  | cons entry rest inductionHypothesis =>
    obtain ⟨place, block⟩ := entry
    obtain ⟨goes, apart, found, room, length, continued⟩ := chained
    have next : getNextRetdata shared.address shared.message data = some place := by
      simp only [getNextRetdata, if_neg nonzero, goes, if_neg apart]
    have exact32 := blockSize_exact block.size (by
      simp only [msgShmSize, buddyShift, emiOrderNum] at room
      omega)
    have whole : (retdataBytes order block).take (block.size.toNat + sizeofRetdata) =
        retdataBytes order block := by
      apply List.take_of_length_le
      rw [retdataBytes_length, length]
      omega
    obtain ⟨sent, wrote, grown, open'⟩ := emiWrite_unlimited sink (retdataBytes order block)
      unlimited
    obtain ⟨written, walked, extended⟩ :=
      inductionHypothesis (some block) continued sent open'
    refine ⟨written, ?_, ?_⟩
    · rw [List.length_cons, writeRetdataLoop, next]
      simp only [found, Option.bind_eq_bind, Option.bind_some, writeBlock, exact32, if_pos room,
        whole, wrote]
      exact walked
    · rw [extended, grown, chainBytes_cons, List.append_assoc]

/-- Stored blocks whose links all survived, and which all fit, form a chain of
their length. -/
theorem stored_chained (order : ByteOrder) (shared : Shared) (obtained : Obtained)
    (stored : Stored shared obtained)
    (near : ∀ entry ∈ obtained.tail, Near shared.address entry)
    (fits : ∀ entry ∈ obtained, Fits entry) :
    ∃ chain, Chained shared (headOffset shared.address obtained) chain ∧
      (chainBytes order chain).length = total obtained := by
  induction obtained with
  | nil => exact ⟨[], rfl, rfl⟩
  | cons entry older inductionHypothesis =>
    obtain ⟨place, size⟩ := entry
    obtain ⟨_, apart, inside, room, ⟨block, found, sized, length, link⟩, rest⟩ := stored
    obtain ⟨chain, chained, counted⟩ := inductionHypothesis rest
      (fun entry member => near entry (List.mem_of_mem_tail member))
      (fun entry member => fits entry (List.mem_cons_of_mem _ member))
    have enough := room (fits (place, size) List.mem_cons_self)
    have onward : block.nextOffset = headOffset shared.address older := by
      rw [link]
      apply truncated_near
      intro entry member
      exact near entry (List.mem_of_mem_head? member)
    refine ⟨(place, block) :: chain, ⟨getAddr_getOffset shared.address place, apart, ?_, ?_, ?_,
      ?_⟩, ?_⟩
    · rw [loadRetdata, if_pos inside, found]
    · rw [sized]
      omega
    · rw [length, sized]
    · rw [onward]
      exact chained
    · rw [chainBytes_cons, List.length_append, retdataBytes_length, length, counted, total]
      omega

/-- A walk that has to follow a lost link has no result. -/
theorem lost_link_stuck (order : ByteOrder) (shared : Shared)
    (nonzero : shared.message.retsize ≠ 0) (inside : shared.address.toNat ≤ msgShmSize)
    (block : EmiRetdata) (place : Address) (within : place.toNat ≤ msgShmSize)
    (far : ¬ (getOffset shared.address place).toNat < 2 ^ 32)
    (link : block.nextOffset = truncated (getOffset shared.address place)) (fuel : Nat)
    (sink : Sink) : writeRetdataLoop order shared fuel sink (some block) = none := by
  cases fuel with
  | zero => rfl
  | succ fuel =>
    obtain ⟨apart, lost⟩ := truncated_far shared.shm shared.address place inside within far
    have away : getNextRetdata shared.address shared.message (some block) =
        some (getAddr shared.address (truncated (getOffset shared.address place))) := by
      simp only [getNextRetdata, if_neg nonzero, followed, link, if_neg apart]
    rw [writeRetdataLoop, away]
    simp [lost]

/-- A lost link, or a block larger than the arena, leaves the walk without a result. -/
theorem walk_stuck (order : ByteOrder) (shared : Shared) (nonzero : shared.message.retsize ≠ 0)
    (inside : shared.address.toNat ≤ msgShmSize) (obtained : Obtained)
    (stored : Stored shared obtained)
    (broken : (∃ entry ∈ obtained.tail, ¬ Near shared.address entry) ∨
      ∃ entry ∈ obtained, ¬ Fits entry)
    (bounded : total obtained < 2 ^ 32) (data : Option EmiRetdata)
    (follows : followed shared.message data = headOffset shared.address obtained)
    (fuel : Nat) (sink : Sink) (unlimited : sink.room = none) :
    writeRetdataLoop order shared fuel sink data = none := by
  induction obtained generalizing data fuel sink with
  | nil => simp at broken
  | cons entry older inductionHypothesis =>
    obtain ⟨place, size⟩ := entry
    cases fuel with
    | zero => rfl
    | succ fuel =>
      obtain ⟨_, apart, here, enough, ⟨block, found, sized, length, link⟩, rest⟩ := stored
      have next : getNextRetdata shared.address shared.message data = some place := by
        simp only [getNextRetdata, if_neg nonzero, follows, headOffset, getAddr_getOffset,
          if_neg apart]
      have loaded : loadRetdata shared.shm place = some block := by
        rw [loadRetdata, if_pos here, found]
      have exact32 := blockSize_exact size (by
        simp only [total] at bounded
        omega)
      rw [writeRetdataLoop, next]
      simp only [loaded, Option.bind_eq_bind, Option.bind_some, writeBlock, sized]
      by_cases small : Fits (place, size)
      · obtain ⟨sent, wrote, _, open'⟩ := emiWrite_unlimited sink
          ((retdataBytes order block).take (size + BitVec.ofNat 32 sizeofRetdata).toNat) unlimited
        have room : place.toNat + (size.toNat + sizeofRetdata) ≤ msgShmSize := by
          have within := enough small
          omega
        rw [if_pos (by rw [exact32]; exact room), wrote]
        simp only [Option.bind_some, ne_eq, not_true, if_false]
        -- the walk goes on, so what is broken is an older link or block
        cases older with
        | nil => simp [small] at broken
        | cons entry' older' =>
          by_cases close : Near shared.address entry'
          · apply inductionHypothesis rest _ _ (some block) _ fuel sent open'
            · rcases broken with ⟨entry, member, far⟩ | ⟨entry, member, large⟩
              · rcases List.mem_cons.1 member with rfl | deeper
                · exact absurd close far
                · exact Or.inl ⟨entry, deeper, far⟩
              · rcases List.mem_cons.1 member with rfl | deeper
                · exact absurd small large
                · exact Or.inr ⟨entry, deeper, large⟩
            · simp only [total] at bounded ⊢
              omega
            · rw [followed, link]
              apply truncated_near
              intro entry member
              cases member
              exact close
          · have within : entry'.1.toNat ≤ msgShmSize := by
              have placed := rest.2.2.1
              omega
            exact lost_link_stuck order shared nonzero inside block entry'.1 within close link
              fuel sent
      · have outside : ¬ place.toNat + (size.toNat + sizeofRetdata) ≤ msgShmSize := by
          simp only [Fits, sizeofRetdata, addrBufOffset] at small
          simp only [msgShmSize, buddyShift, emiOrderNum, sizeofRetdata]
          omega
        rw [if_neg (by rw [exact32]; exact outside)]
        rfl

/-- `emi_msg_write_ret` sends the payload and then as many bytes as its `retsize`
announces. -/
def AnnouncedSizeSent (order : ByteOrder) (shared : Shared) (sink : Sink) : Prop :=
  ∃ fuel ret written body, emiMsgWriteRet order shared fuel sink = some (ret, written) ∧
    written.sent = sink.sent ++ payloadBytes order shared.message ++ body ∧
    body.length = shared.message.retsize.toNat

/-- After the payload, `emi_msg_write_ret` is the walk over the chain, or nothing. -/
theorem emiMsgWriteRet_exact (order : ByteOrder) (shared : Shared) (sink : Sink)
    (unlimited : sink.room = none) :
    ∃ headed, headed.sent = sink.sent ++ payloadBytes order shared.message ∧
      headed.room = none ∧ ∀ fuel, emiMsgWriteRet order shared fuel sink =
        if shared.message.retsize.toNat > 0 then writeRetdataLoop order shared fuel headed none
        else some (0, headed) := by
  obtain ⟨headed, wrote, sent, open'⟩ :=
    emiWrite_unlimited sink (payloadBytes order shared.message) unlimited
  refine ⟨headed, sent, open', ?_⟩
  intro fuel
  simp [emiMsgWriteRet, emiMsgWritePayload, wrote]

/-- A nonzero announced size is sent exactly when it was zero before the handlers
ran, no link was truncated and every block fits. -/
theorem announced_iff (order : ByteOrder) (before : BitVec 32) (obtained : Obtained)
    (shared : Shared) (recorded : Recorded before obtained shared)
    (bounded : total obtained < 2 ^ 32) (sink : Sink) (unlimited : sink.room = none) :
    AnnouncedSizeSent order shared sink ↔
      before + BitVec.ofNat 32 (total obtained) = 0 ∨
        before = 0 ∧ (∀ entry ∈ obtained.tail, Near shared.address entry) ∧
          ∀ entry ∈ obtained, Fits entry := by
  obtain ⟨headed, sent, open', walked⟩ := emiMsgWriteRet_exact order shared sink unlimited
  by_cases zero : shared.message.retsize = 0
  · rw [← recorded.retsize]
    refine ⟨fun _ => Or.inl zero, fun _ => ⟨0, 0, headed, [], ?_, ?_, ?_⟩⟩
    · rw [walked, if_neg (by rw [zero]; decide)]
    · rw [sent, List.append_nil]
    · rw [zero]
      rfl
  have positive : shared.message.retsize.toNat > 0 := by
    have nonzero : shared.message.retsize.toNat ≠ 0 := fun none =>
      zero (BitVec.eq_of_toNat_eq none)
    omega
  have same : before = 0 ↔ shared.message.retsize.toNat = total obtained := by
    rw [recorded.retsize, ← BitVec.toNat_inj, BitVec.toNat_add, BitVec.toNat_ofNat]
    have bound : before.toNat < 2 ^ 32 := before.isLt
    simp only [BitVec.ofNat_eq_ofNat, BitVec.toNat_ofNat]
    omega
  by_cases whole : (∀ entry ∈ obtained.tail, Near shared.address entry) ∧
      ∀ entry ∈ obtained, Fits entry
  · obtain ⟨chain, chained, counted⟩ :=
      stored_chained order shared obtained recorded.stored whole.1 whole.2
    rw [← recorded.head] at chained
    obtain ⟨written, loop, extended⟩ :=
      chain_sends order shared zero chain none chained headed open'
    constructor
    · rintro ⟨fuel, ret, written', body', result, extended', counted'⟩
      rw [walked, if_pos positive] at result
      obtain ⟨_, rfl⟩ := Prod.mk.inj (writeRetdataLoop_unique order shared fuel
        (chain.length + 1) headed none _ _ result loop)
      have bodies : body' = chainBytes order chain := by
        rw [extended, sent] at extended'
        exact (List.append_cancel_left extended').symm
      exact Or.inr ⟨same.2 (by rw [← counted', bodies, counted]), whole⟩
    · rintro (none | ⟨empty, _⟩)
      · exact absurd (recorded.retsize.trans none) zero
      · refine ⟨chain.length + 1, 0, written, chainBytes order chain, ?_, ?_, ?_⟩
        · rw [walked, if_pos positive, loop]
        · rw [extended, sent]
        · rw [counted, same.1 empty]
  · have broken : (∃ entry ∈ obtained.tail, ¬ Near shared.address entry) ∨
        ∃ entry ∈ obtained, ¬ Fits entry := by
      by_cases near : ∀ entry ∈ obtained.tail, Near shared.address entry
      · have large : ¬ ∀ entry ∈ obtained, Fits entry := fun fits => whole ⟨near, fits⟩
        exact Or.inr (by simpa using large)
      · exact Or.inl (by simpa using near)
    constructor
    · rintro ⟨fuel, ret, written, body, result, _, _⟩
      rw [walked, if_pos positive, walk_stuck order shared zero recorded.inside obtained
        recorded.stored broken bounded none recorded.head fuel headed open'] at result
      cases result
    · rintro (none | ⟨_, intact⟩)
      · exact absurd (recorded.retsize.trans none) zero
      · exact absurd intact whole

end Emilib.ReturnData
