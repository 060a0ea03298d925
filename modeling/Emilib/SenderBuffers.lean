import Emilib.Ledger
import Emilib.Replies
import Emilib.Runs

/-!
# The return data a sender owns

`emi_msg_send` of `emi_if.c` and what it allocates and frees. A message says by two
of its members whether it has return data: `retsize` is positive, and
`retdata_offset` leads to the buffer. `emi_msg_read_ret` reads the payload of the
reply over `retsize` before it allocates, and it assigns `retdata_offset` without a
look at the buffer that may be there.

The content of the buffers is left out. The loop that relinks them assigns links
only, so every reply has a result here, whatever sizes its blocks announce; where
the loop stays inside the buffer, this is the result with its content.
-/

namespace Emilib.SenderBuffers

open ByteWords FlagBits Messages Transfers Requests ReturnData Replies

/-- A message on its sender's side: its record, the buffers `emi_msg_read_ret`
obtained for it, and whether it was itself freed. -/
structure Sender where
  message : EmiMsg
  buffers : Ledger Address
  released : Bool

/-- What one call of `emi_msg_send` meets: whether it gets a socket and a connection,
the data area and how much of the request is accepted, the stream of the reply, and
what `malloc` would return. -/
structure Attempt where
  opened : Bool
  connected : Bool
  memory : Address → Byte
  sink : Sink
  source : Source
  malloc : Option Address

/-- `free`. Freeing NULL does nothing. -/
def Sender.free (sender : Sender) : Option Address → Sender
  | none => sender
  | some place => { sender with buffers := sender.buffers.free place }

/-- The members of a message that a caller assigns. -/
def Sender.assign (sender : Sender) (flag msg cmd size : BitVec 32) : Sender :=
  { sender with message := { sender.message with flag, msg, cmd, size } }

/-- `emi_msg_free_data`. -/
def emiMsgFreeData (address : Address) (sender : Sender) : Sender :=
  if sender.message.retsize.toNat > 0 then
    let freed := sender.free (getNextRetdata address sender.message none)
    { freed with message := { freed.message with retsize := 0 } }
  else sender

/-- `emi_msg_free`. -/
def emiMsgFree (address : Address) (sender : Sender) : Sender :=
  { emiMsgFreeData address sender with released := true }

/-- The message with a new buffer at `data`. -/
def Sender.obtain (address : Address) (sender : Sender) (data : Address) : Sender :=
  { sender with
    message := { sender.message with retdataOffset := getOffset address data }
    buffers := sender.buffers.allocate data }

/-- The branch of `emi_msg_read_ret` behind a `malloc` that returned `data`. The status
is that of `emi_msg_read_retdata`. -/
def readInto (address : Address) (sender : Sender) (data : Address) (source : Source) :
    Option (Int × Sender) := do
  let sender := sender.obtain address data
  let (ret, _, _) ← emiRead source sender.message.retsize
  if ret ≠ 0 then return (-1, emiMsgFreeData address sender)
  else return (0, sender)

/-- `emi_msg_read_ret`. -/
def emiMsgReadRet (order : ByteOrder) (address : Address) (sender : Sender)
    (malloc : Option Address) (source : Source) : Option (Int × Sender) := do
  let (ret, message, source) ← emiMsgReadPayload order source sender.message
  let sender := { sender with message := message }
  if ret ≠ 0 then return (-1, sender)
  else if sender.message.retsize.toNat > 0 then
    match malloc with
    | none => return (-1, sender)
    | some data => readInto address sender data source
  else return (0, sender)

/-- `emi_msg_send`. -/
def emiMsgSend (order : ByteOrder) (address : Address) (sender : Sender) (attempt : Attempt) :
    Option (Int × Sender) := do
  if ¬ attempt.opened then return (-1, sender)
  else if ¬ attempt.connected then return (-1, sender)
  else
    let (ret, _) ← emiMsgWrite order attempt.sink attempt.memory address sender.message
    if ret ≠ 0 then return (-1, sender)
    else if Holds sender.message.flag modeBlock then
      let (ret, sender) ← emiMsgReadRet order address sender attempt.malloc attempt.source
      if ret ≠ 0 then return (-1, sender)
      else if ¬ Holds sender.message.flag retSucceeded then return (-1, sender)
      else return (0, sender)
    else return (0, sender)

/-- What a program does with its message. -/
inductive Action where
  | assign (flag msg cmd size : BitVec 32)
  | send (attempt : Attempt)
  | freeData
  | free

/-- `malloc` returns a block apart from the message and from its live buffers. -/
def Attempt.Legal (address : Address) (sender : Sender) (attempt : Attempt) : Prop :=
  attempt.malloc ≠ some address ∧ ∀ data ∈ sender.buffers.live, attempt.malloc ≠ some data

instance (address : Address) (sender : Sender) (attempt : Attempt) :
    Decidable (attempt.Legal address sender) :=
  @instDecidableAnd _ _ inferInstance (List.decidableBAll _ _)

/-- The step an action names. Nothing is done with a message that was freed. -/
def perform (order : ByteOrder) (address : Address) (sender : Sender) (action : Action) :
    Option Sender :=
  if sender.released then none
  else
    match action with
    | .assign flag msg cmd size => some (sender.assign flag msg cmd size)
    | .send attempt =>
        if attempt.Legal address sender then
          (emiMsgSend order address sender attempt).map Prod.snd
        else none
    | .freeData => some (emiMsgFreeData address sender)
    | .free => some (emiMsgFree address sender)

/-- A message as `emi_msg_alloc` returns it, with a data area of this size. -/
def emiMsgAlloc (size : BitVec 32) : Sender where
  message := ⟨0, 0, 0, size, 0, BitVec.ofNat 64 sizeofMsg, 0⟩
  buffers := .empty
  released := false

/-- The runs over one message at this address. -/
def sending (order : ByteOrder) (address : Address) : System Sender Action :=
  System.performing (fun sender => ∃ size, sender = emiMsgAlloc size) (perform order address)

/-- Nothing stray was freed, and once the message is freed, each of its buffers was
freed exactly once. -/
def FreedOnce (sender : Sender) : Prop :=
  sender.buffers.stray = [] ∧ (sender.released → sender.buffers.Settled)

/-- A call gets as far as reading a reply. -/
def Attempt.Replied (order : ByteOrder) (address : Address) (sender : Sender)
    (attempt : Attempt) : Prop :=
  attempt.opened ∧ attempt.connected ∧
    (emiMsgWrite order attempt.sink attempt.memory address sender.message).map Prod.fst = some 0 ∧
    Holds sender.message.flag modeBlock

/-- The payload of the reply is read without an error and announces return data, and
there is memory for them. -/
def Attempt.Obtains (order : ByteOrder) (sender : Sender) (attempt : Attempt) : Prop :=
  readStatus attempt.source payloadSize = 0 ∧
    (recorded order attempt.source sender.message).retsize ≠ 0 ∧ attempt.malloc ≠ none

/-- A call that reads a reply into a message with return data obtains no buffer and
leaves `retsize` positive. One that reads a reply into a message without return data
obtains a buffer or leaves `retsize` zero, unless there was no buffer before. -/
def Careful (order : ByteOrder) (address : Address) (sender : Sender) : Action → Prop
  | .send attempt => attempt.Replied order address sender →
      if getNextRetdata address sender.message none ≠ none then
        ¬ attempt.Obtains order sender ∧
          (recorded order attempt.source sender.message).retsize ≠ 0
      else
        attempt.Obtains order sender ∨
          (recorded order attempt.source sender.message).retsize = 0 ∨
          sender.message.retdataOffset = 0
  | .assign .. | .freeData | .free => True

/-- The invariant: the live buffer is the one the members of the message lead to. -/
structure Owned (address : Address) (sender : Sender) : Prop where
  honest : sender.buffers.stray = []
  found : sender.released = false →
    sender.buffers.live = (getNextRetdata address sender.message none).toList
  returned : sender.released → sender.buffers.live = []

/-- The first return block that a message with return data leads to. -/
theorem getNextRetdata_first {address : Address} {message : EmiMsg} (nonzero : message.retsize ≠ 0)
    (away : message.retdataOffset ≠ 0) :
    getNextRetdata address message none = some (getAddr address message.retdataOffset) := by
  have apart : getAddr address message.retdataOffset ≠ address := by
    intro home
    apply away
    calc message.retdataOffset
        = getOffset address (getAddr address message.retdataOffset) :=
          (getOffset_getAddr address message.retdataOffset).symm
      _ = 0 := by
          rw [home, getOffset, BitVec.sub_self]
          rfl
  rw [getNextRetdata, if_neg nonzero]
  exact if_neg apart

/-- A message without `retsize` or without an offset has no return data. -/
theorem getNextRetdata_none {address : Address} {message : EmiMsg} :
    getNextRetdata address message none = none ↔
      message.retsize = 0 ∨ message.retdataOffset = 0 := by
  constructor
  · intro none
    by_contra neither
    rw [not_or] at neither
    rw [getNextRetdata_first neither.1 neither.2] at none
    cases none
  · rintro (zero | zero)
    · rw [getNextRetdata, if_pos zero]
    · rw [getNextRetdata]
      split
      · rfl
      · simp [followed, zero, getAddr]

/-- The sender with the payload of a reply read over its message. -/
def Sender.answered (order : ByteOrder) (sender : Sender) (attempt : Attempt) : Sender :=
  { sender with message := recorded order attempt.source sender.message }

/-- Reading a reply into a buffer: the message keeps it, or it is freed again. -/
theorem readInto_exact (address : Address) (sender : Sender) (data : Address) (source : Source) :
    readInto address sender data source =
      if readStatus source sender.message.retsize.toNat ≠ 0 then
        some (-1, emiMsgFreeData address (sender.obtain address data))
      else some (0, sender.obtain address data) := by
  obtain ⟨rest, filled, _⟩ := emiRead_exact source (sender.obtain address data).message.retsize
  simp only [readInto, filled, Option.bind_eq_bind, Option.bind_some, Option.pure_def]
  rfl

/-- A reply for which nothing is obtained changes the payload and no buffer. One for
which a buffer is obtained leaves it to the message or frees it again. -/
theorem emiMsgReadRet_cases (order : ByteOrder) (address : Address) (sender : Sender)
    (attempt : Attempt) :
    ∃ ret after, emiMsgReadRet order address sender attempt.malloc attempt.source =
        some (ret, after) ∧
      ((¬ attempt.Obtains order sender ∧ after = sender.answered order attempt) ∨
        ∃ data, attempt.Obtains order sender ∧ attempt.malloc = some data ∧
          (after = (sender.answered order attempt).obtain address data ∨
            after = emiMsgFreeData address
              ((sender.answered order attempt).obtain address data))) := by
  obtain ⟨rest, read, _⟩ := emiMsgReadPayload_exact order attempt.source sender.message
  simp only [emiMsgReadRet, read, Option.bind_eq_bind, Option.bind_some, Option.pure_def]
  by_cases failed : readStatus attempt.source payloadSize = 0
  · rw [if_neg (not_not.mpr failed)]
    by_cases announced : (sender.answered order attempt).message.retsize.toNat > 0
    · have nonzero : (recorded order attempt.source sender.message).retsize ≠ 0 := by
        intro zero
        have positive : (recorded order attempt.source sender.message).retsize.toNat > 0 :=
          announced
        rw [zero] at positive
        cases positive
      cases found : attempt.malloc with
      | none =>
        refine ⟨-1, _, if_pos announced, .inl ⟨?_, rfl⟩⟩
        exact fun obtains => obtains.2.2 found
      | some data =>
        have obtains : attempt.Obtains order sender :=
          ⟨failed, nonzero, by rw [found]; exact Option.some_ne_none data⟩
        have filled := readInto_exact address (sender.answered order attempt) data rest
        split at filled
        · exact ⟨-1, _, (if_pos announced).trans filled, .inr ⟨data, obtains, rfl, .inr rfl⟩⟩
        · exact ⟨0, _, (if_pos announced).trans filled, .inr ⟨data, obtains, rfl, .inl rfl⟩⟩
    · refine ⟨0, _, if_neg announced, .inl ⟨?_, rfl⟩⟩
      intro obtains
      exact announced (Nat.pos_of_ne_zero fun zero => obtains.2.1 (BitVec.eq_of_toNat_eq zero))
  · rw [if_pos failed]
    refine ⟨-1, _, rfl, .inl ⟨?_, rfl⟩⟩
    exact fun obtains => failed obtains.1

/-- A call that reads a reply does what reading it does. -/
theorem emiMsgSend_replied {order : ByteOrder} {address : Address} {sender : Sender}
    {attempt : Attempt} (replied : attempt.Replied order address sender) :
    (emiMsgSend order address sender attempt).map Prod.snd =
      (emiMsgReadRet order address sender attempt.malloc attempt.source).map Prod.snd := by
  obtain ⟨opened, connected, written, block⟩ := replied
  obtain ⟨⟨ret, sink⟩, wrote, rfl⟩ := Option.map_eq_some_iff.mp written
  simp only [emiMsgSend, opened, connected, wrote, Option.bind_eq_bind, Option.bind_some,
    Option.pure_def, not_true, if_false, ne_eq, if_pos block]
  cases emiMsgReadRet order address sender attempt.malloc attempt.source with
  | none => rfl
  | some result =>
    simp only [Option.bind_some]
    split
    · rfl
    · split <;> rfl

/-- A call that reads no reply changes nothing. -/
theorem emiMsgSend_unreplied {order : ByteOrder} {address : Address} {sender after : Sender}
    {attempt : Attempt} (unreplied : ¬ attempt.Replied order address sender)
    (sent : (emiMsgSend order address sender attempt).map Prod.snd = some after) :
    after = sender := by
  rw [emiMsgSend] at sent
  by_cases opened : attempt.opened = true
  · by_cases connected : attempt.connected = true
    · cases wrote : emiMsgWrite order attempt.sink attempt.memory address sender.message with
      | none => simp [opened, connected, wrote] at sent
      | some result =>
        by_cases failed : result.1 = 0
        · by_cases block : Holds sender.message.flag modeBlock
          · exact absurd ⟨opened, connected, by rw [wrote]; exact congrArg some failed, block⟩
              unreplied
          · simp [opened, connected, wrote, failed, block] at sent
            exact sent.symm
        · simp [opened, connected, wrote, failed] at sent
          exact sent.symm
    · simp [opened, connected] at sent
      exact sent.symm
  · simp [opened] at sent
    exact sent.symm

/-- What `emi_msg_free_data` frees is what `get_next_retdata` leads to. -/
theorem emiMsgFreeData_buffers (address : Address) (sender : Sender) :
    (emiMsgFreeData address sender).buffers =
      (sender.free (getNextRetdata address sender.message none)).buffers := by
  rw [emiMsgFreeData]
  split
  · rfl
  · have zero : sender.message.retsize = 0 := BitVec.eq_of_toNat_eq (by simp; omega)
    rw [getNextRetdata_none.mpr (.inl zero)]
    rfl

theorem emiMsgFreeData_message (address : Address) (sender : Sender) :
    (emiMsgFreeData address sender).message = { sender.message with retsize := 0 } := by
  rw [emiMsgFreeData]
  split
  · cases getNextRetdata address sender.message none <;> rfl
  · have zero : sender.message.retsize = 0 := BitVec.eq_of_toNat_eq (by simp; omega)
    rw [← zero]

/-- A message without its return data has none. -/
theorem emiMsgFreeData_none (address : Address) (sender : Sender) :
    getNextRetdata address (emiMsgFreeData address sender).message none = none := by
  rw [emiMsgFreeData_message]
  exact getNextRetdata_none.mpr (.inl rfl)

/-- Freeing the return data of a message keeps the invariant and leaves no buffer. -/
theorem Owned.freeData {address : Address} {sender : Sender} (owned : Owned address sender)
    (unreleased : sender.released = false) :
    (emiMsgFreeData address sender).buffers.stray = [] ∧
      (emiMsgFreeData address sender).buffers.live = [] := by
  rw [emiMsgFreeData_buffers]
  have live := owned.found unreleased
  cases first : getNextRetdata address sender.message none with
  | none =>
    rw [first] at live
    exact ⟨owned.honest, live⟩
  | some place =>
    rw [first] at live
    obtain ⟨none, same⟩ := Ledger.free_only live
    exact ⟨same.trans owned.honest, none⟩

/-- A message with a new buffer leads to it. -/
theorem obtain_first {address : Address} {sender : Sender} {data : Address}
    (nonzero : sender.message.retsize ≠ 0) (apart : data ≠ address) :
    getNextRetdata address (sender.obtain address data).message none = some data := by
  have away : getOffset address data ≠ 0 := by
    intro home
    apply apart
    rw [← getAddr_getOffset address data, home, getAddr]
    exact BitVec.add_zero address
  have first := @getNextRetdata_first address (sender.obtain address data).message nonzero away
  rw [first]
  exact congrArg some (getAddr_getOffset address data)

/-- Reading return data with their content has the status of reading their bytes. -/
theorem emiMsgReadRetdata_status {order : ByteOrder} {message : EmiMsg} {stale : List Byte}
    {source : Source} {ret : Int} {reply : Reply}
    (read : emiMsgReadRetdata order message stale source = some (ret, reply)) :
    ret = readStatus source message.retsize.toNat ∧ reply.message = message ∧
      reply.buffer ≠ none := by
  obtain ⟨rest, taken, _⟩ := emiRead_exact source message.retsize
  simp only [emiMsgReadRetdata, taken, Option.bind_eq_bind, Option.bind_some, Option.pure_def]
    at read
  by_cases failed : readStatus source message.retsize.toNat = 0
  · rw [if_neg (not_not.mpr failed)] at read
    obtain ⟨linked, _, read⟩ := Option.bind_eq_some_iff.mp read
    cases read
    exact ⟨failed.symm, rfl, Option.some_ne_none linked⟩
  · rw [if_pos failed] at read
    cases read
    refine ⟨?_, rfl, Option.some_ne_none _⟩
    rw [readStatus] at failed ⊢
    split
    · rw [if_pos ‹_›] at failed
      exact absurd rfl failed
    · rfl

/-- A buffer with its content is live where the ledger has it. -/
def Holding (before after : Sender) (malloc : Option Storage) (reply : Reply) : Prop :=
  after.message = reply.message ∧
    (reply.buffer = none → after.buffers.live = before.buffers.live) ∧
    (reply.buffer ≠ none → ∃ storage, malloc = some storage ∧
      after.buffers.live = storage.place :: before.buffers.live)

/-- Reading into a buffer with its content. -/
theorem readInto_content {order : ByteOrder} {address : Address} {sender : Sender}
    {storage : Storage} {stale : List Byte} {source : Source} {ret : Int} {reply : Reply}
    (nonzero : sender.message.retsize ≠ 0) (apart : storage.place ≠ address)
    (read : emiMsgReadRetdata order (atStorage address storage sender.message) stale source =
      some (ret, reply)) :
    ∃ after, readInto address sender storage.place source =
        some ((finishRead ret reply).1, after) ∧
      Holding sender after (some storage) (finishRead ret reply).2 := by
  obtain ⟨status, same, present⟩ := emiMsgReadRetdata_status read
  have bytes : ret = readStatus source sender.message.retsize.toNat := status
  rw [readInto_exact, finishRead, bytes]
  by_cases failed : readStatus source sender.message.retsize.toNat = 0
  · refine ⟨sender.obtain address storage.place, ?_⟩
    rw [if_neg (not_not.mpr failed), if_neg (not_not.mpr failed)]
    exact ⟨rfl, same.symm, fun none => absurd none present, fun _ => ⟨storage, rfl, rfl⟩⟩
  · refine ⟨emiMsgFreeData address (sender.obtain address storage.place), ?_⟩
    rw [if_pos failed, if_pos failed]
    refine ⟨rfl, ?_, fun _ => ?_, fun none => absurd rfl none⟩
    · rw [emiMsgFreeData_message, same]
      rfl
    · rw [emiMsgFreeData_buffers, obtain_first nonzero apart]
      exact (Ledger.free_allocate sender.buffers storage.place).1

/-- Where `emi_msg_read_ret` with the content of its buffer has a result, it is this
one: the same status and message, and a buffer is live where the other one has it. -/
theorem emiMsgReadRet_content {order : ByteOrder} {address : Address} {sender : Sender}
    {malloc : Option Storage} {source : Source} {ret : Int} {reply : Reply}
    (apart : ∀ storage, malloc = some storage → storage.place ≠ address)
    (read : Replies.emiMsgReadRet order address sender.message malloc source =
      some (ret, reply)) :
    ∃ after, emiMsgReadRet order address sender (malloc.map Storage.place) source =
        some (ret, after) ∧
      Holding sender after malloc reply := by
  obtain ⟨rest, payload, _⟩ := emiMsgReadPayload_exact order source sender.message
  simp only [Replies.emiMsgReadRet, payload, Option.bind_eq_bind, Option.bind_some,
    Option.pure_def] at read
  simp only [emiMsgReadRet, payload, Option.bind_eq_bind, Option.bind_some, Option.pure_def]
  by_cases failed : readStatus source payloadSize = 0
  · rw [if_neg (not_not.mpr failed)] at read ⊢
    by_cases announced : (recorded order source sender.message).retsize.toNat > 0
    · have positive := announced
      rw [recorded] at positive
      rw [if_pos positive] at read ⊢
      cases malloc with
      | none =>
        cases read
        exact ⟨_, rfl, rfl, fun _ => rfl, fun present => absurd rfl present⟩
      | some storage =>
        have nonzero : (recorded order source sender.message).retsize ≠ 0 := by
          intro zero
          rw [zero] at announced
          cases announced
        obtain ⟨⟨status, inner⟩, data, finished⟩ := Option.bind_eq_some_iff.mp read
        obtain ⟨after, filled, holding⟩ := @readInto_content order address
          { sender with message := recorded order source sender.message } storage _ rest status
          inner nonzero (apart storage rfl) data
        have same := Option.some.inj finished
        simp only [same] at filled holding
        exact ⟨after, filled, holding⟩
    · have zero := announced
      rw [recorded] at zero
      rw [if_neg zero] at read ⊢
      cases read
      exact ⟨_, rfl, rfl, fun _ => rfl, fun present => absurd rfl present⟩
  · rw [if_pos failed] at read ⊢
    cases read
    exact ⟨_, rfl, rfl, fun _ => rfl, fun present => absurd rfl present⟩

/-- Freed return data leave the invariant. -/
theorem Owned.cleared {address : Address} {sender : Sender} (owned : Owned address sender)
    (unreleased : sender.released = false) : Owned address (emiMsgFreeData address sender) := by
  obtain ⟨honest, none⟩ := owned.freeData unreleased
  constructor
  · exact honest
  · intro _
    rw [none, emiMsgFreeData_none]
    rfl
  · exact fun _ => none

/-- A payload read over the message keeps the invariant when it does not change
whether the message has return data. -/
theorem Owned.answered {order : ByteOrder} {address : Address} {sender : Sender}
    {attempt : Attempt} (owned : Owned address sender)
    (same : getNextRetdata address (sender.answered order attempt).message none =
      getNextRetdata address sender.message none) :
    Owned address (sender.answered order attempt) := by
  constructor
  · exact owned.honest
  · intro unreleased
    rw [same]
    exact owned.found unreleased
  · exact owned.returned

/-- A new buffer keeps the invariant when the message had none. -/
theorem Owned.obtained {address : Address} {sender : Sender} {data : Address}
    (honest : sender.buffers.stray = []) (none : sender.buffers.live = [])
    (unreleased : sender.released = false) (nonzero : sender.message.retsize ≠ 0)
    (apart : data ≠ address) : Owned address (sender.obtain address data) := by
  constructor
  · exact honest
  · intro _
    rw [obtain_first nonzero apart]
    exact congrArg (List.cons data) none
  · intro released
    have still : sender.released = true := released
    rw [unreleased] at still
    cases still

/-- A careful call of `emi_msg_send` keeps the invariant. -/
theorem Owned.sent {order : ByteOrder} {address : Address} {sender after : Sender}
    {attempt : Attempt} (owned : Owned address sender) (unreleased : sender.released = false)
    (careful : Careful order address sender (.send attempt))
    (legal : attempt.Legal address sender)
    (sent : (emiMsgSend order address sender attempt).map Prod.snd = some after) :
    Owned address after := by
  by_cases replied : attempt.Replied order address sender
  · have allowed := careful replied
    rw [emiMsgSend_replied replied] at sent
    obtain ⟨ret, result, read, kept⟩ := emiMsgReadRet_cases order address sender attempt
    rw [read] at sent
    obtain rfl : result = after := Option.some.inj sent
    by_cases holding : getNextRetdata address sender.message none = none
    · rw [if_neg (not_not.mpr holding)] at allowed
      rcases kept with ⟨without, rfl⟩ | ⟨data, obtains, found, kept⟩
      · apply owned.answered
        rw [holding]
        apply getNextRetdata_none.mpr
        exact allowed.resolve_left without
      · have none : sender.buffers.live = [] := by
          rw [owned.found unreleased, holding]
          rfl
        have apart : data ≠ address := by
          rintro rfl
          exact legal.1 found
        have obtained : Owned address ((sender.answered order attempt).obtain address data) :=
          Owned.obtained owned.honest none unreleased obtains.2.1 apart
        rcases kept with rfl | rfl
        · exact obtained
        · exact obtained.cleared unreleased
    · rw [if_pos holding] at allowed
      rcases kept with ⟨_, rfl⟩ | ⟨_, obtains, _⟩
      · rw [getNextRetdata_none, not_or] at holding
        have still : getNextRetdata address (sender.answered order attempt).message none =
            some (getAddr address sender.message.retdataOffset) :=
          getNextRetdata_first allowed.2 holding.2
        apply owned.answered
        rw [still, getNextRetdata_first holding.1 holding.2]
      · exact absurd obtains allowed.1
  · rw [emiMsgSend_unreplied replied sent]
    exact owned

/-- Every careful step keeps the invariant. -/
theorem perform_owned {order : ByteOrder} {address : Address} {sender after : Sender}
    {action : Action} (owned : Owned address sender)
    (careful : Careful order address sender action)
    (taken : perform order address sender action = some after) : Owned address after := by
  obtain ⟨unreleased, taken⟩ := Option.ite_none_left_eq_some.mp taken
  rw [Bool.not_eq_true] at unreleased
  cases action with
  | assign flag msg cmd size =>
    obtain rfl := Option.some.inj taken
    exact ⟨owned.honest, owned.found, owned.returned⟩
  | send attempt =>
    obtain ⟨legal, sent⟩ := Option.ite_none_right_eq_some.mp taken
    exact owned.sent unreleased careful legal sent
  | freeData =>
    obtain rfl := Option.some.inj taken
    exact owned.cleared unreleased
  | free =>
    obtain rfl := Option.some.inj taken
    obtain ⟨honest, none⟩ := owned.freeData unreleased
    exact ⟨honest, by rintro ⟨⟩, fun _ => none⟩

/-- In every careful run, each buffer is freed once and nothing else is freed. -/
theorem buffers_freed_once (order : ByteOrder) (address : Address) (sender : Sender)
    (reached : (sending order address).ReachedUnder (Careful order address) sender) :
    FreedOnce sender := by
  have owned : Owned address sender := by
    apply reached.invariant
    · rintro start ⟨size, rfl⟩
      exact ⟨rfl, fun _ => rfl, fun _ => rfl⟩
    · intro before action after owned careful taken
      exact perform_owned owned careful taken
  refine ⟨owned.honest, fun released => ?_⟩
  exact (Ledger.settled_iff sender.buffers).mpr ⟨owned.honest, owned.returned released⟩

instance (order : ByteOrder) (address : Address) (sender : Sender) (attempt : Attempt) :
    Decidable (attempt.Replied order address sender) :=
  inferInstanceAs (Decidable (_ ∧ _ ∧ _ = _ ∧ Holds _ _))

instance (order : ByteOrder) (sender : Sender) (attempt : Attempt) :
    Decidable (attempt.Obtains order sender) :=
  inferInstanceAs (Decidable (_ = _ ∧ _ ≠ _ ∧ _ ≠ _))

instance (order : ByteOrder) (address : Address) (sender : Sender) (action : Action) :
    Decidable (Careful order address sender action) :=
  match action with
  | .send _ => inferInstanceAs (Decidable (_ → ite _ _ _))
  | .assign .. | .freeData | .free => .isTrue trivial

/-- A reply with one return block without data. -/
def shortReply : Source :=
  let payload : EmiMsg := ⟨modeBlock ||| retSucceeded, 7, 0, 0, 16, 0, 0⟩
  ⟨payloadBytes .little payload ++ retdataBytes .little ⟨0, 0, 0, []⟩, .closed, []⟩

/-- A call that reads it into a buffer at `data`. -/
def intoBuffer (data : Address) : Attempt :=
  ⟨true, true, fun _ => 0, ⟨[], none, []⟩, shortReply, some data⟩

theorem emiMsgAlloc_starts (size : BitVec 32) :
    (sending .little 256).start (emiMsgAlloc size) :=
  ⟨size, rfl⟩

/-- The return data of the first call are freed before the second one. -/
def freedBetween : List Action :=
  [.assign modeBlock 7 0 0, .send (intoBuffer 4096), .freeData, .send (intoBuffer 4096), .free]

/-- The message is sent twice and freed. -/
def sentTwice : List Action :=
  [.assign modeBlock 7 0 0, .send (intoBuffer 4096), .send (intoBuffer 8192), .free]

/-- Both buffers are freed once when the return data are freed in between. -/
theorem freed_between_once :
    FreedOnce ((System.follow (perform .little 256) (Careful .little 256) (emiMsgAlloc 0)
      freedBetween).get (by decide)) :=
  buffers_freed_once .little 256 _
    (System.followed_reached freedBetween (.initial (emiMsgAlloc 0) (emiMsgAlloc_starts 0))
      (by decide))

/-- Not in every run is each buffer freed: the second reply takes the place of the
first one, whose buffer is lost. -/
theorem sent_twice_lost :
    ¬ ∀ sender, (sending .little 256).Reached sender → FreedOnce sender := by
  intro always
  have reached : (sending .little 256).Reached
      ((System.follow (perform .little 256) (fun _ _ => True) (emiMsgAlloc 0) sentTwice).get
        (by decide)) :=
    System.followed_reached sentTwice (.initial (emiMsgAlloc 0) (emiMsgAlloc_starts 0)) (by decide)
  have settled := (always _ reached).2 (by decide)
  rw [Ledger.settled_iff] at settled
  revert settled
  decide

/-- The members of a message have to lead to its only live buffer for
`emi_msg_free` to free each once. -/
theorem FreedOnce.found {address : Address} {sender : Sender}
    (once : FreedOnce (emiMsgFree address sender)) :
    sender.buffers.live = (getNextRetdata address sender.message none).toList := by
  obtain ⟨honest, left⟩ := (Ledger.settled_iff _).mp (once.2 rfl)
  have freed : (emiMsgFree address sender).buffers =
      (sender.free (getNextRetdata address sender.message none)).buffers :=
    emiMsgFreeData_buffers address sender
  rw [freed] at honest left
  cases first : getNextRetdata address sender.message none with
  | none =>
    rw [first] at left
    exact left
  | some place =>
    rw [first] at honest left
    exact Ledger.free_last honest left

/-- A buffer that is obtained beside a live one cannot be found again. -/
theorem obtained_lost {address : Address} {sender after : Sender} {data : Address}
    (live : sender.buffers.live ≠ []) (nonzero : sender.message.retsize ≠ 0)
    (apart : data ≠ address)
    (kept : after = sender.obtain address data ∨
      after = emiMsgFreeData address (sender.obtain address data)) :
    after.buffers.live ≠ (getNextRetdata address after.message none).toList := by
  have first := obtain_first nonzero apart
  rcases kept with rfl | rfl
  · rw [first]
    intro single
    exact live (List.cons.inj single).2
  · rw [emiMsgFreeData_none, emiMsgFreeData_buffers, first]
    intro none
    exact live ((Ledger.free_allocate sender.buffers data).1.symm.trans none)

/-- The condition is exact: when a careless call is followed by `emi_msg_free`, a
buffer stays behind or an address that has none is freed. -/
theorem careless_breaks {order : ByteOrder} {address : Address} {sender : Sender}
    {attempt : Attempt} (owned : Owned address sender) (unreleased : sender.released = false)
    (legal : attempt.Legal address sender)
    (careless : ¬ Careful order address sender (.send attempt)) :
    ∃ after, perform order address sender (.send attempt) = some after ∧
      ¬ FreedOnce (emiMsgFree address after) := by
  rw [Careful, Classical.not_imp] at careless
  obtain ⟨replied, careless⟩ := careless
  obtain ⟨ret, after, read, kept⟩ := emiMsgReadRet_cases order address sender attempt
  refine ⟨after, ?_, fun once => ?_⟩
  · rw [perform, unreleased, if_neg Bool.false_ne_true]
    simp only [if_pos legal, emiMsgSend_replied replied, read]
    rfl
  have before := owned.found unreleased
  have behind := once.found
  by_cases holding : getNextRetdata address sender.message none = none
  · rw [if_neg (not_not.mpr holding), not_or, not_or] at careless
    obtain ⟨without, announced, away⟩ := careless
    rcases kept with ⟨_, rfl⟩ | ⟨_, obtains, _⟩
    · have first : getNextRetdata address (sender.answered order attempt).message none =
          some (getAddr address sender.message.retdataOffset) :=
        getNextRetdata_first announced away
      have same : sender.buffers.live = [getAddr address sender.message.retdataOffset] := by
        rw [first] at behind
        exact behind
      rw [before, holding] at same
      cases same
    · exact without obtains
  · rw [if_pos holding] at careless
    have live : sender.buffers.live ≠ [] := by
      rw [before]
      intro none
      exact holding (Option.toList_eq_nil_iff.mp none)
    rcases kept with ⟨without, rfl⟩ | ⟨data, obtains, found, kept⟩
    · have zero : (recorded order attempt.source sender.message).retsize = 0 := by
        by_contra announced
        exact careless ⟨without, announced⟩
      have first : getNextRetdata address (sender.answered order attempt).message none = none :=
        getNextRetdata_none.mpr (.inl zero)
      rw [first] at behind
      exact live behind
    · have apart : data ≠ address := by
        rintro rfl
        exact legal.1 found
      have lost : after.buffers.live ≠ (getNextRetdata address after.message none).toList := by
        exact @obtained_lost address (sender.answered order attempt) after data live
          obtains.2.1 apart kept
      exact lost behind

end Emilib.SenderBuffers
