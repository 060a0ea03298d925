import Emilib.ReturnData

/-!
# What one message allocates and frees

`emi_receive_operation` of `emi_core.c` allocates the message, reads the request
over it, registers a receiver or has the receivers run, and frees the message with
all it takes to be its blocks. This module follows every path of that function and
every outcome of the allocations, and settles which addresses are freed and what
stays allocated.

What the request does not decide is a parameter: how the registration went, how
many receivers were counted, which return blocks their handlers ask for, and how
they end. The reply in between only reads the message, so it is left out here.
-/

namespace Emilib.ReceiveOperation

open FlagBits Messages Transfers SharedBlocks Requests ReturnData

/-- How the register path went on: no memory for the entry, an entry that is there
already, or a new entry. -/
inductive Registration where
  | noMap
  | refused
  | inserted
deriving DecidableEq, Repr

/-- What the request does not decide. `calls` are the sizes of the handlers' calls of
`emi_retdata_alloc`, in the order of the lock. -/
structure Circumstances where
  registration : Registration
  receivers : Nat
  calls : List (BitVec 32)
  someFailed : Bool
  allExited : Bool
deriving DecidableEq, Repr

/-- Set the flag word of a message. -/
def setFlag (shared : Shared) (flag : BitVec 32) : Shared :=
  { shared with message := { shared.message with flag := flag } }

/-- The register path, up to its reply. -/
def registerMessage (registration : Registration) (shared : Shared) : Shared :=
  match registration with
  | .noMap => shared
  | .refused => setFlag shared (lower shared.message.flag retSucceeded)
  | .inserted => setFlag shared (raise shared.message.flag retSucceeded)

/-- The verdict of the handlers: one that fails clears the success bit in block mode. -/
def judge (someFailed : Bool) (shared : Shared) : Shared :=
  if someFailed ∧ Holds shared.message.flag modeBlock then
    setFlag shared (lower shared.message.flag retSucceeded)
  else shared

/-- The end of the wait loop: without a receiver left the success bit is cleared. -/
def settle (allExited : Bool) (shared : Shared) : Shared :=
  if allExited then setFlag shared (lower shared.message.flag retSucceeded) else shared

/-- The send path, up to its reply, with the return blocks the handlers obtained. -/
def sendMessage (circumstances : Circumstances) (shared : Shared) : Obtained × Shared :=
  if circumstances.receivers > 0 then
    let (obtained, shared) := retdataAllocs []
      (setFlag shared (raise shared.message.flag retSucceeded)) circumstances.calls
    (obtained, settle circumstances.allExited (judge circumstances.someFailed shared))
  else ([], setFlag shared (lower shared.message.flag retSucceeded))

/-- `emi_receive_operation`: the return blocks that were obtained for the message,
and the arena afterwards. -/
def emiReceiveOperation (order : ByteOrder) (arena : Shm) (source : Source)
    (circumstances : Circumstances) : Option (Obtained × Shm) :=
  match allocSharedMsg arena 0 with
  | .inl arena => some ([], arena)
  | .inr msgPos => do
      let (ret, received) ← emiMsgRead order ⟨msgPos, source⟩
      if ret < 0 then return ([], freeSharedMsg received.shared)
      else if Holds received.shared.message.flag cmdRegister then
        return ([], freeSharedMsg (registerMessage circumstances.registration received.shared))
      else
        let (obtained, shared) := sendMessage circumstances received.shared
        return (obtained, freeSharedMsg shared)

/-- The arena with its records of calls emptied, as a new message starts them. -/
def unlogged (arena : Shm) : Shm := { arena with granted := [], freed := [] }

/-- Every address that was freed had been granted, and none was freed twice. -/
def FreesItsOwn (shm : Shm) : Prop :=
  shm.freed.Nodup ∧ ∀ addr ∈ shm.freed, addr ∈ shm.granted

/-- The arena has the same live blocks as before. -/
def LeaksNothing (before after : Shm) : Prop :=
  ∀ extent, extent ∈ after.live.extents ↔ extent ∈ before.live.extents

/-- The addresses that `free_shared_msg` passes to `emi_free`, last one first. -/
def freedBy (shared : Shared) : List Address :=
  shared.address ::
    ((if shared.message.retsize.toNat > 0
        then [getAddr shared.address shared.message.retdataOffset] else []) ++
      if Holds shared.message.flag flagAllocdata
        then [getAddr shared.address shared.message.dataOffset] else [])

/-- Free several addresses, the last one first. -/
def freeAll (shm : Shm) (addresses : List Address) : Shm :=
  addresses.foldr (fun addr shm => emiFree shm addr) shm

/-- What freeing several addresses does to the arena. -/
theorem freeAll_exact (shm : Shm) (addresses : List Address) :
    (freeAll shm addresses).freed = addresses ++ shm.freed ∧
      (freeAll shm addresses).granted = shm.granted ∧
      ∀ extent, extent ∈ (freeAll shm addresses).live.extents ↔
        extent ∈ shm.live.extents ∧ extent.address ∉ addresses := by
  induction addresses with
  | nil => exact ⟨rfl, rfl, fun extent => by simp [freeAll]⟩
  | cons addr rest inductionHypothesis =>
    obtain ⟨freed, granted, live⟩ := inductionHypothesis
    refine ⟨congrArg (addr :: ·) freed, granted, ?_⟩
    intro extent
    have last : extent ∈ (freeAll shm (addr :: rest)).live.extents ↔
        extent ∈ (freeAll shm rest).live.extents ∧ extent.address ≠ addr :=
      emiFree_live (freeAll shm rest) addr extent
    rw [last, live, List.mem_cons]
    constructor
    · rintro ⟨⟨member, others⟩, other⟩
      exact ⟨member, fun found => found.elim other others⟩
    · rintro ⟨member, others⟩
      exact ⟨⟨member, fun found => others (Or.inr found)⟩, fun same => others (Or.inl same)⟩

/-- `free_shared_msg` frees these addresses and nothing else. -/
theorem freeSharedMsg_exact (shared : Shared) :
    freeSharedMsg shared = freeAll shared.shm (freedBy shared) := by
  by_cases data : Holds shared.message.flag flagAllocdata <;>
    by_cases ret : shared.message.retsize.toNat > 0 <;>
      simp [freeSharedMsg, freeSharedMsgData, freeRetdata, freeAllocdata, freedBy, freeAll, data,
        ret]

/-- The message holds exactly its own block, a data block if its flag says so, and
the return blocks obtained; the arena granted these since the message was new, and
nothing was freed. `before` is the `retsize` the request came with. -/
structure Holding (arena : Shm) (before : BitVec 32) (own : Extent) (data : Option Extent)
    (obtained : Obtained) (shared : Shared) : Prop where
  address : shared.address = own.address
  flagged : Holds shared.message.flag flagAllocdata ↔ data.isSome
  placed : ∀ extent ∈ data,
    getAddr shared.address shared.message.dataOffset = extent.address
  head : shared.message.retdataOffset = headOffset shared.address obtained
  retsize : shared.message.retsize = before + BitVec.ofNat 32 (total obtained)
  freed : shared.shm.freed = []
  ledger : ∃ blocks : List Extent,
    blocks.map Extent.address = obtained.map Prod.fst ∧
    shared.shm.live.extents = blocks ++ (data.toList ++ own :: arena.live.extents) ∧
    shared.shm.granted = (blocks ++ (data.toList ++ [own])).map Extent.address

/-- A change of the flag word that leaves the allocation bit alone. -/
theorem Holding.setFlag {arena : Shm} {before : BitVec 32} {own : Extent} {data : Option Extent}
    {obtained : Obtained} {shared : Shared}
    (holding : Holding arena before own data obtained shared) (flag : BitVec 32)
    (same : Holds flag flagAllocdata ↔ Holds shared.message.flag flagAllocdata) :
    Holding arena before own data obtained (setFlag shared flag) :=
  ⟨holding.address, same.trans holding.flagged, holding.placed, holding.head, holding.retsize,
    holding.freed, holding.ledger⟩

/-- Clearing the success bit leaves the allocation bit alone. -/
theorem lower_keeps (flag : BitVec 32) :
    Holds (lower flag retSucceeded) flagAllocdata ↔ Holds flag flagAllocdata :=
  holds_lower_apart flag retSucceeded flagAllocdata retSucceeded_apart_flagAllocdata

/-- Setting the success bit leaves the allocation bit alone. -/
theorem raise_keeps (flag : BitVec 32) :
    Holds (raise flag retSucceeded) flagAllocdata ↔ Holds flag flagAllocdata :=
  holds_raise_apart flag retSucceeded flagAllocdata retSucceeded_apart_flagAllocdata

/-- The handlers' calls add their blocks to what the message holds. -/
theorem retdataAllocs_holding (arena : Shm) (before : BitVec 32) (own : Extent)
    (data : Option Extent) (calls : List (BitVec 32)) (shared : Shared)
    (initially : Holding arena before own data [] shared) :
    Holding arena before own data (retdataAllocs [] shared calls).1
      (retdataAllocs [] shared calls).2 := by
  apply retdataAllocs_rule (Holding arena before own data)
  · intro obtained shared offers flag holding cleared
    have same : Holds flag flagAllocdata ↔ Holds shared.message.flag flagAllocdata := by
      rcases cleared with rfl | rfl
      · exact Iff.rfl
      · exact lower_keeps shared.message.flag
    exact ⟨holding.address, same.trans holding.flagged, holding.placed, holding.head,
      holding.retsize, holding.freed, holding.ledger⟩
  · intro obtained shared extent available offers size holding _
    obtain ⟨blocks, places, live, granted⟩ := holding.ledger
    refine ⟨holding.address, holding.flagged, holding.placed, rfl, ?_, holding.freed,
      extent :: blocks, ?_, ?_, ?_⟩
    · exact (congrArg (· + _) holding.retsize).trans (total_push before size _ obtained)
    · simp [places]
    · simp [pushRetdata, Shm.grant, Live.insert, live]
    · simp [pushRetdata, Shm.grant, granted]
  · exact initially

/-- A property that the reading establishes, and that neither a change of the success
bit nor the handlers' calls break, holds of the message that is freed at the end. -/
theorem emiReceiveOperation_rule (holds : Obtained → Shared → Prop)
    (flags : ∀ obtained shared flag, holds obtained shared →
      (flag = raise shared.message.flag retSucceeded ∨
        flag = lower shared.message.flag retSucceeded) → holds obtained (setFlag shared flag))
    (handlers : ∀ shared calls, holds [] shared →
      holds (retdataAllocs [] shared calls).1 (retdataAllocs [] shared calls).2)
    (order : ByteOrder) (arena : Shm) (source : Source) (circumstances : Circumstances)
    (opened : Shared) (allocated : allocSharedMsg arena 0 = .inr opened) (ret : Int)
    (received : Receiving) (read : emiMsgRead order ⟨opened, source⟩ = some (ret, received))
    (initially : holds [] received.shared) :
    ∃ obtained shared, emiReceiveOperation order arena source circumstances =
      some (obtained, freeSharedMsg shared) ∧ holds obtained shared := by
  simp only [emiReceiveOperation, allocated, read, Option.bind_eq_bind, Option.bind_some,
    Option.pure_def]
  by_cases failed : ret < 0
  · exact ⟨[], received.shared, by rw [if_pos failed], initially⟩
  rw [if_neg failed]
  by_cases registers : Holds received.shared.message.flag cmdRegister
  · refine ⟨[], registerMessage circumstances.registration received.shared,
      by rw [if_pos registers], ?_⟩
    cases circumstances.registration with
    | noMap => exact initially
    | refused => exact flags [] received.shared _ initially (Or.inr rfl)
    | inserted => exact flags [] received.shared _ initially (Or.inl rfl)
  rw [if_neg registers]
  refine ⟨_, _, rfl, ?_⟩
  by_cases counted : circumstances.receivers > 0
  · rw [sendMessage, if_pos counted]
    have ran := handlers _ circumstances.calls
      (flags [] received.shared _ initially (Or.inl rfl))
    generalize retdataAllocs [] _ circumstances.calls = handled at ran
    have judged : holds handled.1 (judge circumstances.someFailed handled.2) := by
      rw [judge]
      split
      · exact flags handled.1 handled.2 _ ran (Or.inr rfl)
      · exact ran
    show holds handled.1 (settle circumstances.allExited (judge circumstances.someFailed handled.2))
    rw [settle]
    split
    · exact flags handled.1 _ _ judged (Or.inr rfl)
    · exact judged
  · rw [sendMessage, if_neg counted]
    exact flags [] received.shared _ initially (Or.inr rfl)

/-- A new message, or none, and the records of calls with it. -/
theorem opened_cases (arena : Shm) :
    (∃ offers, (emiAlloc (unlogged arena) sizeofMsg).1 = none ∧
      allocSharedMsg (unlogged arena) 0 = .inl { unlogged arena with offers := offers }) ∨
      ∃ own available offers memory, (emiAlloc (unlogged arena) sizeofMsg).1 ≠ none ∧
        allocSharedMsg (unlogged arena) 0 = .inr (withMemory
          ⟨(unlogged arena).grant own available offers, own.address, emptyMsg⟩ memory) := by
  rcases emiAlloc_cases (unlogged arena) sizeofMsg with
    ⟨offers, refused⟩ | ⟨own, available, offers, _, taken⟩
  · refine Or.inl ⟨offers, by rw [refused], ?_⟩
    have call : emiAlloc (unlogged arena) (sizeofMsg + (0 : BitVec 32).toNat) = _ := refused
    rw [allocSharedMsg, call]
  · refine Or.inr ⟨own, available, offers,
      ByteWords.writeBytes arena.memory (getAddr own.address (BitVec.ofNat 64 sizeofMsg))
        (List.replicate (0 : BitVec 32).toNat 0), by rw [taken]; simp, ?_⟩
    have call : emiAlloc (unlogged arena) (sizeofMsg + (0 : BitVec 32).toNat) = _ := taken
    rw [allocSharedMsg, call]
    rfl

/-- What is read over a new message with a clear allocation bit: the message holds
its own block, and a data block exactly when its data moved. -/
theorem read_holding (order : ByteOrder) (arena : Shm) (own : Extent)
    (available : own.Available (unlogged arena).live.extents) (offers : List (Option Nat))
    (memory : Address → Byte) (source : Source) (placed : Shared) (memory' : Address → Byte)
    (plain : ¬ Holds (recorded order source emptyMsg).flag flagAllocdata)
    (stowed : Stowed (stored order ⟨withMemory
      ⟨(unlogged arena).grant own available offers, own.address, emptyMsg⟩ memory, source⟩)
      placed) :
    ∃ data, Holding arena (recorded order source emptyMsg).retsize own data []
      (withMemory placed memory') := by
  cases stowed with
  | unmoved =>
    refine ⟨none, rfl, iff_of_false plain (by simp), ?_, rfl, ?_, rfl, [], rfl, rfl, rfl⟩
    · simp
    · simp [withMemory, stored, total]
  | refused offers' =>
    have lowered := fun held => plain ((lower_keeps (recorded order source emptyMsg).flag).1 held)
    refine ⟨none, rfl, iff_of_false lowered (by simp), ?_, rfl, ?_, rfl, [], rfl, rfl, rfl⟩
    · simp
    · simp [withMemory, refuse, stored, total]
  | moved extent available' offers' =>
    have unflagged : ¬ Holds (stored order ⟨withMemory
        ⟨(unlogged arena).grant own available offers, own.address, emptyMsg⟩ memory,
        source⟩).message.flag flagAllocdata := plain
    refine ⟨some extent, rfl, ?_, ?_, rfl, ?_, ?_, [], rfl, ?_, ?_⟩
    · simp only [withMemory, relocate, Option.isSome_some, iff_true]
      exact holds_raise _ flagAllocdata (by decide)
    · intro data member
      cases member
      exact getAddr_getOffset _ _
    · simp [withMemory, relocate, stored, total]
    · rw [withMemory_freed, relocate_plain _ _ _ unflagged]
      rfl
    · rw [withMemory_live, relocate_plain _ _ _ unflagged]
      rfl
    · rw [withMemory_granted, relocate_plain _ _ _ unflagged]
      rfl

/-- Every address `emi_alloc` returns lies this far behind the start of a smallest block. -/
def Granted (addr : Address) : Prop := addr.toNat % 2 ^ buddyShift = addrBufOffset

instance (addr : Address) : Decidable (Granted addr) := inferInstanceAs (Decidable (_ = _))

/-- The address of a block is one that `emi_alloc` returns. -/
theorem block_granted (extent : Extent) : Granted extent.address := by
  rw [Granted, Extent.address, BitVec.toNat_ofNat]
  simp only [buddyShift, addrBufOffset]
  omega

/-- The message was made to free, or has freed, an address that no call returns. -/
structure Misled (shared : Shared) : Prop where
  aligned : ∀ addr ∈ shared.shm.granted, Granted addr
  freed : (∃ addr ∈ shared.shm.freed, ¬ Granted addr) ∨
    Holds shared.message.flag flagAllocdata ∧
      ¬ Granted (getAddr shared.address shared.message.dataOffset)

/-- A change of the flag word that leaves the allocation bit alone. -/
theorem Misled.setFlag {shared : Shared} (misled : Misled shared) (flag : BitVec 32)
    (same : Holds flag flagAllocdata ↔ Holds shared.message.flag flagAllocdata) :
    Misled (setFlag shared flag) :=
  ⟨misled.aligned, misled.freed.imp id (fun frees => ⟨same.2 frees.1, frees.2⟩)⟩

/-- The handlers' calls do not undo it. -/
theorem retdataAllocs_misled (calls : List (BitVec 32)) (shared : Shared)
    (initially : Misled shared) : Misled (retdataAllocs [] shared calls).2 := by
  apply retdataAllocs_rule (fun _ shared => Misled shared)
  · intro _ shared offers flag misled cleared
    have same : Holds flag flagAllocdata ↔ Holds shared.message.flag flagAllocdata := by
      rcases cleared with rfl | rfl
      · exact Iff.rfl
      · exact lower_keeps shared.message.flag
    exact ⟨misled.aligned, misled.freed.imp id (fun frees => ⟨same.2 frees.1, frees.2⟩)⟩
  · intro _ shared extent available offers size misled _
    refine ⟨?_, misled.freed⟩
    intro addr member
    rcases List.mem_cons.1 member with rfl | old
    · exact block_granted extent
    · exact misled.aligned addr old
  · exact initially

/-- A payload whose allocation bit is set misleads the message. -/
theorem read_misled (order : ByteOrder) (arena : Shm) (own : Extent)
    (available : own.Available (unlogged arena).live.extents) (offers : List (Option Nat))
    (memory : Address → Byte) (source : Source) (placed : Shared) (memory' : Address → Byte)
    (flagged : Holds (recorded order source emptyMsg).flag flagAllocdata)
    (stowed : Stowed (stored order ⟨withMemory
      ⟨(unlogged arena).grant own available offers, own.address, emptyMsg⟩ memory, source⟩)
      placed) : Misled (withMemory placed memory') := by
  have inline : ¬ Granted (getAddr own.address (recorded order source emptyMsg).dataOffset) := by
    have place := block_granted own
    have offset : (recorded order source emptyMsg).dataOffset.toNat = 72 := rfl
    simp only [Granted, getAddr, BitVec.toNat_add, offset, buddyShift, addrBufOffset] at place ⊢
    omega
  have opened : ∀ addr ∈ [own.address], Granted addr := by
    intro addr member
    rw [List.mem_singleton.1 member]
    exact block_granted own
  cases stowed with
  | unmoved => exact ⟨opened, Or.inr ⟨flagged, inline⟩⟩
  | refused offers' =>
    exact ⟨opened, Or.inr ⟨(lower_keeps (recorded order source emptyMsg).flag).2 flagged, inline⟩⟩
  | moved extent available' offers' =>
    have set : Holds (stored order ⟨withMemory
        ⟨(unlogged arena).grant own available offers, own.address, emptyMsg⟩ memory,
        source⟩).message.flag flagAllocdata := flagged
    constructor
    · rw [withMemory_granted, relocate_flagged _ _ _ set]
      intro addr member
      rcases List.mem_cons.1 member with rfl | old
      · exact block_granted extent
      · exact opened addr old
    · refine Or.inl ⟨_, ?_, inline⟩
      rw [withMemory_freed, relocate_flagged _ _ _ set]
      exact List.mem_cons_self

/-- A misled message is freed with an address that was never granted. -/
theorem Misled.frees {shared : Shared} (misled : Misled shared) :
    ¬ FreesItsOwn (freeSharedMsg shared) := by
  obtain ⟨freed, granted, _⟩ := freeAll_exact shared.shm (freedBy shared)
  rintro ⟨_, own⟩
  rw [freeSharedMsg_exact, freed, granted] at own
  rcases misled.freed with ⟨addr, member, bad⟩ | ⟨flagged, bad⟩
  · exact bad (misled.aligned addr (own addr (List.mem_append_right _ member)))
  · refine bad (misled.aligned _ (own _ (List.mem_append_left _ ?_)))
    simp [freedBy, flagged]

/-- The addresses that a message frees: its own, that of its newest return block when
`retsize` is not zero, and that of its data block. -/
theorem Holding.freedBy {arena : Shm} {before : BitVec 32} {own : Extent} {data : Option Extent}
    {obtained : Obtained} {shared : Shared}
    (holding : Holding arena before own data obtained shared) :
    freedBy shared = own.address ::
      ((if shared.message.retsize.toNat > 0
          then [getAddr own.address (headOffset own.address obtained)] else []) ++
        data.toList.map Extent.address) := by
  rw [ReceiveOperation.freedBy, holding.head, holding.address]
  congr 2
  have flagged := holding.flagged
  cases data with
  | none => rw [if_neg (by simpa using flagged), Option.toList_none, List.map_nil]
  | some extent =>
    have place := holding.placed extent rfl
    rw [holding.address] at place
    rw [if_pos (by simpa using flagged), place]
    rfl

/-- The addresses of the blocks a message holds are distinct, and distinct from those
of the blocks that were live before. -/
theorem Holding.distinct {arena : Shm} {before : BitVec 32} {own : Extent}
    {data : Option Extent} {obtained : Obtained} {shared : Shared}
    (holding : Holding arena before own data obtained shared) :
    (obtained.map Prod.fst ++ (data.toList.map Extent.address ++
      own.address :: arena.live.extents.map Extent.address)).Nodup := by
  obtain ⟨blocks, places, live, _⟩ := holding.ledger
  have nodup := shared.shm.live.nodup
  rw [live, List.map_append, List.map_append, List.map_cons, places] at nodup
  exact nodup

/-- Some of distinct addresses, in another order. -/
theorem freed_nodup (own : Address) (data rest returns : List Address)
    (distinct : (returns ++ (data ++ own :: rest)).Nodup) :
    (own :: data).Nodup ∧ ∀ place ∈ returns, (own :: place :: data).Nodup := by
  obtain ⟨_, held, apart⟩ := List.nodup_append.1 distinct
  have first : (own :: (data ++ rest)).Nodup := List.perm_middle.nodup_iff.1 held
  have frees : (own :: data).Nodup :=
    first.sublist (List.Sublist.cons_cons own (List.sublist_append_left data rest))
  refine ⟨frees, ?_⟩
  intro place member
  obtain ⟨fresh, others⟩ := List.nodup_cons.1 frees
  have away : place ≠ own :=
    apart place member own (List.mem_append_right data List.mem_cons_self)
  have other : place ∉ data := fun found =>
    apart place member place (List.mem_append_left _ found) rfl
  refine List.nodup_cons.2 ⟨?_, List.nodup_cons.2 ⟨other, others⟩⟩
  intro found
  rcases List.mem_cons.1 found with same | found
  · exact away same.symm
  · exact fresh found

/-- A 32-bit number is positive unless it is zero. -/
theorem positive_iff (word : BitVec 32) : word.toNat > 0 ↔ word ≠ 0 := by
  have zero : (0 : BitVec 32).toNat = 0 := rfl
  rw [gt_iff_lt, Nat.pos_iff_ne_zero, ne_eq, ne_eq, ← BitVec.toNat_inj, zero]

/-- What a message that holds its own blocks frees is its own, once each, unless
`retsize` claims a return block that was never obtained. -/
theorem Holding.frees_iff {arena : Shm} {before : BitVec 32} {own : Extent}
    {data : Option Extent} {obtained : Obtained} {shared : Shared}
    (holding : Holding arena before own data obtained shared) :
    FreesItsOwn (freeSharedMsg shared) ↔ before = 0 ∨ obtained ≠ [] := by
  obtain ⟨freed, granted, _⟩ := freeAll_exact shared.shm (ReceiveOperation.freedBy shared)
  obtain ⟨blocks, places, live, ledger⟩ := holding.ledger
  obtain ⟨frees, freesReturn⟩ := freed_nodup own.address _ _ _ holding.distinct
  rw [FreesItsOwn, freeSharedMsg_exact, freed, granted, holding.freed, List.append_nil,
    holding.freedBy, ledger, List.map_append, List.map_append, places, List.map_singleton]
  generalize data.toList.map Extent.address = dataPlaces at frees freesReturn
  cases obtained with
  | nil =>
    have same : shared.message.retsize = before := by
      rw [holding.retsize]
      simp [total]
    have home : getAddr own.address (headOffset own.address []) = own.address := by
      simp [getAddr, headOffset]
    rw [same, home]
    by_cases zero : before = 0
    · rw [if_neg (fun claimed => (positive_iff before).1 claimed zero)]
      refine iff_of_true ⟨frees, ?_⟩ (Or.inl zero)
      intro addr member
      rcases List.mem_cons.1 member with rfl | found
      · exact List.mem_append_right _ (List.mem_append_right _ (List.mem_singleton.2 rfl))
      · exact List.mem_append_right _ (List.mem_append_left _ found)
    · rw [if_pos ((positive_iff before).2 zero)]
      apply iff_of_false
      · rintro ⟨nodup, _⟩
        exact (List.nodup_cons.1 nodup).1 List.mem_cons_self
      · rintro (none | some)
        · exact zero none
        · exact some rfl
  | cons entry older =>
    have place : getAddr own.address (headOffset own.address (entry :: older)) = entry.1 :=
      getAddr_getOffset own.address entry.1
    have first : entry.1 ∈ (entry :: older).map Prod.fst := List.mem_cons_self
    rw [place]
    refine iff_of_true ⟨?_, ?_⟩ (Or.inr (List.cons_ne_nil entry older))
    · split
      · exact freesReturn entry.1 first
      · exact frees
    · intro addr member
      rcases List.mem_cons.1 member with rfl | found
      · exact List.mem_append_right _ (List.mem_append_right _ (List.mem_singleton.2 rfl))
      rcases List.mem_append.1 found with newest | found
      · split at newest
        · rw [List.mem_singleton.1 newest]
          exact List.mem_append_left _ first
        · exact absurd newest List.not_mem_nil
      · exact List.mem_append_right _ (List.mem_append_left _ found)

/-- Nothing leaks exactly when every return block is among what is freed. -/
theorem Holding.leaks_places {arena : Shm} {before : BitVec 32} {own : Extent}
    {data : Option Extent} {obtained : Obtained} {shared : Shared}
    (holding : Holding arena before own data obtained shared) :
    LeaksNothing arena (freeSharedMsg shared) ↔
      ∀ place ∈ obtained.map Prod.fst, place ∈ ReceiveOperation.freedBy shared := by
  obtain ⟨_, _, left⟩ := freeAll_exact shared.shm (ReceiveOperation.freedBy shared)
  obtain ⟨blocks, places, live, _⟩ := holding.ledger
  obtain ⟨_, held, apart⟩ := List.nodup_append.1 holding.distinct
  obtain ⟨_, older, others⟩ := List.nodup_append.1 held
  rw [LeaksNothing, freeSharedMsg_exact]
  constructor
  · intro same place member
    obtain ⟨block, there, rfl⟩ := List.mem_map.1 (places ▸ member)
    by_cases freed : block.address ∈ ReceiveOperation.freedBy shared
    · exact freed
    · have kept := (same block).1 ((left block).2 ⟨by rw [live]; exact List.mem_append_left _ there,
        freed⟩)
      have twice := apart block.address member block.address (List.mem_append_right _
        (List.mem_cons_of_mem _ (List.mem_map_of_mem kept)))
      exact absurd rfl twice
  · intro freed extent
    rw [left, live]
    have mine : ∀ addr ∈ ReceiveOperation.freedBy shared,
        addr ∈ obtained.map Prod.fst ∨ addr = own.address ∨
          addr ∈ data.toList.map Extent.address := by
      intro addr member
      rw [holding.freedBy] at member
      rcases List.mem_cons.1 member with here | found
      · exact Or.inr (Or.inl here)
      rcases List.mem_append.1 found with newest | found
      · split at newest
        · rw [List.mem_singleton.1 newest]
          cases obtained with
          | nil => exact Or.inr (Or.inl (by simp [getAddr, headOffset]))
          | cons entry rest =>
            exact Or.inl (by simp [headOffset])
        · exact absurd newest List.not_mem_nil
      · exact Or.inr (Or.inr found)
    constructor
    · rintro ⟨member, away⟩
      rcases List.mem_append.1 member with block | member
      · exact absurd (freed extent.address (places ▸ List.mem_map_of_mem block)) away
      rcases List.mem_append.1 member with moved | member
      · refine absurd ?_ away
        rw [holding.freedBy]
        exact List.mem_cons_of_mem _ (List.mem_append_right _ (List.mem_map_of_mem moved))
      rcases List.mem_cons.1 member with rfl | member
      · refine absurd ?_ away
        rw [holding.freedBy]
        exact List.mem_cons_self
      · exact member
    · intro member
      refine ⟨List.mem_append_right _ (List.mem_append_right _ (List.mem_cons_of_mem _ member)), ?_⟩
      have listed : extent.address ∈ arena.live.extents.map Extent.address :=
        List.mem_map_of_mem member
      intro claimed
      rcases mine extent.address claimed with block | here | moved
      · exact apart extent.address block extent.address
          (List.mem_append_right _ (List.mem_cons_of_mem _ listed)) rfl
      · exact (List.nodup_cons.1 older).1 (here ▸ listed)
      · exact others extent.address moved extent.address (List.mem_cons_of_mem _ listed) rfl

/-- A request that came with `retsize` zero leaks nothing exactly when it has no
return block, or a single one whose length did not wrap `retsize` around to zero. -/
theorem Holding.leaks_iff {arena : Shm} {own : Extent} {data : Option Extent}
    {obtained : Obtained} {shared : Shared} (holding : Holding arena 0 own data obtained shared) :
    LeaksNothing arena (freeSharedMsg shared) ↔
      obtained = [] ∨ ∃ entry, obtained = [entry] ∧
        entry.2 + BitVec.ofNat 32 sizeofRetdata ≠ 0 := by
  rw [holding.leaks_places]
  have distinct := holding.distinct
  have freed : ∀ place ∈ obtained.map Prod.fst, place ∈ ReceiveOperation.freedBy shared ↔
      shared.message.retsize ≠ 0 ∧
        place = getAddr own.address (headOffset own.address obtained) := by
    intro place member
    obtain ⟨_, frees⟩ := freed_nodup own.address _ _ _ distinct
    obtain ⟨apart, rest⟩ := List.nodup_cons.1 (frees place member)
    have other := (List.nodup_cons.1 rest).1
    have away : place ≠ own.address := fun same => apart (same ▸ List.mem_cons_self)
    rw [holding.freedBy, List.mem_cons, List.mem_append, ← positive_iff]
    by_cases claimed : shared.message.retsize.toNat > 0
    · rw [if_pos claimed, List.mem_singleton]
      exact ⟨fun found => ⟨claimed, (found.resolve_left away).resolve_right other⟩,
        fun found => Or.inr (Or.inl found.2)⟩
    · rw [if_neg claimed]
      constructor
      · intro found
        exact absurd ((found.resolve_left away).resolve_right other) List.not_mem_nil
      · exact fun found => absurd found.1 claimed
  have size : shared.message.retsize = BitVec.ofNat 32 (total obtained) := by
    rw [holding.retsize]
    simp
  cases obtained with
  | nil => simp
  | cons entry older =>
    have place : getAddr own.address (headOffset own.address (entry :: older)) = entry.1 :=
      getAddr_getOffset own.address entry.1
    rw [place] at freed
    cases older with
    | nil =>
      have alone : shared.message.retsize = entry.2 + BitVec.ofNat 32 sizeofRetdata := by
        rw [size]
        apply BitVec.eq_of_toNat_eq
        simp [total]
      constructor
      · intro all
        have first := (freed entry.1 List.mem_cons_self).1 (all entry.1 List.mem_cons_self)
        exact Or.inr ⟨entry, rfl, alone ▸ first.1⟩
      · rintro (none | ⟨only, same, nonzero⟩) place member
        · cases none
        · cases same
          rw [List.mem_singleton.1 member]
          exact (freed entry.1 List.mem_cons_self).2 ⟨alone ▸ nonzero, rfl⟩
    | cons second rest =>
      have apart : second.1 ≠ entry.1 := by
        have unique := (List.nodup_append.1 distinct).1
        intro same
        exact (List.nodup_cons.1 unique).1 (same ▸ List.mem_cons_self)
      have there : second.1 ∈ (entry :: second :: rest).map Prod.fst :=
        List.mem_cons_of_mem _ List.mem_cons_self
      apply iff_of_false
      · intro all
        exact apart ((freed second.1 there).1 (all second.1 there)).2
      · rintro (none | ⟨only, same, _⟩)
        · cases none
        · cases same

/-- When no message can be allocated, nothing happens. -/
theorem emiReceiveOperation_unopened (order : ByteOrder) (arena : Shm) (source : Source)
    (circumstances : Circumstances) (offers : List (Option Nat))
    (refused : allocSharedMsg (unlogged arena) 0 = .inl { unlogged arena with offers := offers }) :
    emiReceiveOperation order (unlogged arena) source circumstances =
      some ([], { unlogged arena with offers := offers }) := by
  simp only [emiReceiveOperation, refused]

/-- A message whose payload has a clear allocation bit is freed holding its own blocks. -/
theorem emiReceiveOperation_holding (order : ByteOrder) (arena : Shm) (source : Source)
    (circumstances : Circumstances) (own : Extent)
    (available : own.Available (unlogged arena).live.extents) (offers : List (Option Nat))
    (memory : Address → Byte)
    (allocated : allocSharedMsg (unlogged arena) 0 = .inr (withMemory
      ⟨(unlogged arena).grant own available offers, own.address, emptyMsg⟩ memory))
    (plain : ¬ Holds (recorded order source emptyMsg).flag flagAllocdata) :
    ∃ data obtained shared, emiReceiveOperation order (unlogged arena) source circumstances =
        some (obtained, freeSharedMsg shared) ∧
      Holding arena (recorded order source emptyMsg).retsize own data obtained shared := by
  obtain ⟨held, _, _⟩ := allocSharedMsg_inline (unlogged arena) _ allocated
  obtain ⟨ret, placed, memory', rest, read, stowed⟩ := emiMsgRead_cases order ⟨_, source⟩ 0 held
  obtain ⟨data, holding⟩ :=
    read_holding order arena own available offers memory source placed memory' plain stowed
  refine ⟨data, emiReceiveOperation_rule
    (Holding arena (recorded order source emptyMsg).retsize own data) ?_ ?_ order (unlogged arena)
    source circumstances _ allocated ret _ read holding⟩
  · rintro obtained shared flag holds (rfl | rfl)
    · exact holds.setFlag _ (raise_keeps shared.message.flag)
    · exact holds.setFlag _ (lower_keeps shared.message.flag)
  · exact fun shared calls holds => retdataAllocs_holding arena _ own data calls shared holds

/-- A message whose payload has the allocation bit set is freed misled. -/
theorem emiReceiveOperation_misled (order : ByteOrder) (arena : Shm) (source : Source)
    (circumstances : Circumstances) (own : Extent)
    (available : own.Available (unlogged arena).live.extents) (offers : List (Option Nat))
    (memory : Address → Byte)
    (allocated : allocSharedMsg (unlogged arena) 0 = .inr (withMemory
      ⟨(unlogged arena).grant own available offers, own.address, emptyMsg⟩ memory))
    (flagged : Holds (recorded order source emptyMsg).flag flagAllocdata) :
    ∃ obtained shared, emiReceiveOperation order (unlogged arena) source circumstances =
        some (obtained, freeSharedMsg shared) ∧ Misled shared := by
  obtain ⟨held, _, _⟩ := allocSharedMsg_inline (unlogged arena) _ allocated
  obtain ⟨ret, placed, memory', rest, read, stowed⟩ := emiMsgRead_cases order ⟨_, source⟩ 0 held
  have misled :=
    read_misled order arena own available offers memory source placed memory' flagged stowed
  apply emiReceiveOperation_rule (fun _ shared => Misled shared) ?_ ?_ order (unlogged arena)
    source circumstances _ allocated ret _ read misled
  · rintro _ shared flag holds (rfl | rfl)
    · exact holds.setFlag _ (raise_keeps shared.message.flag)
    · exact holds.setFlag _ (lower_keeps shared.message.flag)
  · exact fun shared calls holds => retdataAllocs_misled calls shared holds

/-- Handling a request with `retsize` zero and a clear allocation bit leaves the live
blocks as they were exactly when no return block was obtained for it, or a single
one whose length did not wrap `retsize` around to zero.

Proof: `free_shared_msg_data` frees the head of the chain only; its own block and a
data block are always among what is freed. -/
theorem leaks_nothing_iff (order : ByteOrder) (arena : Shm) (source : Source)
    (circumstances : Circumstances)
    (plain : ¬ Holds (recorded order source emptyMsg).flag flagAllocdata)
    (noReturn : (recorded order source emptyMsg).retsize = 0) :
    ∃ obtained final,
      emiReceiveOperation order (unlogged arena) source circumstances = some (obtained, final) ∧
      (LeaksNothing arena final ↔
        obtained = [] ∨ ∃ entry, obtained = [entry] ∧
          entry.2 + BitVec.ofNat 32 sizeofRetdata ≠ 0) := by
  rcases opened_cases arena with
    ⟨offers, _, refused⟩ | ⟨own, available, offers, memory, _, allocated⟩
  · exact ⟨[], _, emiReceiveOperation_unopened order arena source circumstances offers refused,
      iff_of_true (fun extent => Iff.rfl) (Or.inl rfl)⟩
  · obtain ⟨data, obtained, shared, ran, holding⟩ := emiReceiveOperation_holding order arena source
      circumstances own available offers memory allocated plain
    rw [noReturn] at holding
    exact ⟨obtained, _, ran, holding.leaks_iff⟩

/-- Nobody registered for the message. -/
def nobody : Circumstances := ⟨.noMap, 0, [], false, false⟩

/-- Two receivers, whose handlers return one byte each. -/
def twoAnswers : Circumstances := ⟨.noMap, 2, [1, 1], false, false⟩

/-- A block-mode request without data. -/
def blockStream : Source :=
  ⟨payloadBytes .little { emptyMsg with flag := modeBlock, msg := 7 }, .closed, []⟩

/-- An arena with room for a message and two return blocks. -/
def answerArena : Shm := { emptyArena with offers := [some 0, some 1, some 2] }

/-- The condition, for two answers to a block-mode request. -/
theorem two_answers_leak_nothing_iff :
    ∃ obtained final,
      emiReceiveOperation .little (unlogged answerArena) blockStream twoAnswers =
        some (obtained, final) ∧
      (LeaksNothing answerArena final ↔
        obtained = [] ∨ ∃ entry, obtained = [entry] ∧
          entry.2 + BitVec.ofNat 32 sizeofRetdata ≠ 0) :=
  leaks_nothing_iff .little answerArena blockStream twoAnswers (by decide) (by decide)

/-- Of two return blocks only the newest is freed. -/
theorem older_answer_leaked :
    ∃ final, emiReceiveOperation .little (unlogged answerArena) blockStream twoAnswers =
        some ([(516, 1), (260, 1)], final) ∧ final.live.extents = [⟨1, 0⟩] ∧
      ¬ LeaksNothing answerArena final := by
  refine ⟨_, rfl, by decide, ?_⟩
  intro same
  exact absurd ((same ⟨1, 0⟩).1 (by decide)) List.not_mem_nil

end Emilib.ReceiveOperation
