import Emilib.ReceiveOperation
import Emilib.RegistrationFailures
import Emilib.SenderBuffers
import Emilib.Verdict

/-!
# A block-mode send from end to end

A sender writes its request, `emi_receive_operation` reads it, has the receivers run and
writes its answer, and the sender reads what comes back over the record of its message.
The kernel splits the transfers as it likes, and either stream may end early.

The result of `emi_msg_send` is one bit of the flag word that the sender has in the end.
An end of the stream counts as a complete read, so where the byte of that bit did not
come back, the bit is the one of the send before. The allocation bit comes back in the
same word: it says that the core gave the data a block, and sent again it makes the core
free an address of the sender's making.

Registrations are requests of their own and are not among these. The arena is one whose
blocks stay separate.
-/

namespace Emilib.Exchange

open ByteWords FlagBits Messages Transfers SharedBlocks Requests ReturnData ReceiverCount
open SenderBuffers (Sender Attempt emiMsgSend emiMsgFreeData)
open RegistrationFailures (succeededBit)

/-- The runs of the receivers of a request with this flag word. -/
def answering (flag : BitVec 32) : System Send Action :=
  System.performing (fun send => ∃ entries alive, entries.Nodup ∧ send = begin entries flag alive)
    perform

/-- What receivers leave of a request: they change its flags and its return data. -/
structure Handled (request answered : EmiMsg) (flag : BitVec 32) : Prop where
  flag : answered.flag = flag
  msg : answered.msg = request.msg
  cmd : answered.cmd = request.cmd
  size : answered.size = request.size

/-- What `emi_receive_operation` sends back for a request on a stream that is no
registration, and what its receivers did: nothing when it has no memory or cannot read
the request, or else the message as its receivers left it, as far as that can be
written. No receiver that is done exits before the answer. -/
inductive Answer (order : ByteOrder) (arena : Shm) (request : Source) :
    List Byte → List Action → Prop
  | silent : Answer order arena request [] []
  | reply {opened answered : Shared} {received : Receiving} {send : Send} {history : List Action}
      {fuel : Nat} {ret : Int} {sink written : Sink}
      (allocated : allocSharedMsg arena 0 = .inr opened)
      (read : emiMsgRead order ⟨opened, request⟩ = some (0, received))
      (sends : ¬ Holds received.shared.message.flag cmdRegister)
      (reached : (answering received.shared.message.flag).recording.ReachedUnder
        (fun recorded => StaysUntilReply recorded.1) (send, history))
      (left : send.worker = .left)
      (handled : Handled received.shared.message answered.message send.flag)
      (unsent : sink.sent = [])
      (wrote : emiMsgWriteRet order answered fuel sink = some (ret, written)) :
      Answer order arena request written.sent history

/-- `emi_msg_read_ret` takes what comes back for a complete reply. -/
structure Completes (order : ByteOrder) (sender : Sender) (attempt : Attempt) : Prop where
  payload : readStatus attempt.source payloadSize = 0
  data : (recorded order attempt.source sender.message).retsize ≠ 0 → attempt.malloc ≠ none ∧
    (payloadSize + (recorded order attempt.source sender.message).retsize.toNat ≤
      attempt.source.bytes.length ∨ attempt.source.ending = .closed)

/-- The position of `EMI_MSG_FLAG_ALLOCDATA` in the flag word. -/
def allocdataBit : Nat := 18

/-- A step of the worker or of a receiver changes at most the success bit of the flag word. -/
theorem perform_flag {send after : Send} {action : Action}
    (taken : perform send action = some after) :
    after.flag = send.flag ∨ after.flag = lower send.flag retSucceeded := by
  cases action with
  | work =>
    cases work_moves taken with
    | leave =>
      dsimp only
      split
      · exact .inr rfl
      · exact .inl rfl
    | _ => exact .inl rfl
  | take pid =>
    obtain ⟨_, taken⟩ := Option.ite_none_right_eq_some.mp taken
    exact Option.some.inj taken ▸ .inl rfl
  | allocFails pid =>
    obtain ⟨_, taken⟩ := Option.ite_none_right_eq_some.mp taken
    exact Option.some.inj taken ▸ .inr rfl
  | finish pid result =>
    obtain ⟨_, taken⟩ := Option.ite_none_right_eq_some.mp taken
    rw [← Option.some.inj taken, ReceiverCount.finish]
    dsimp only
    split
    · exact .inr rfl
    · exact .inl rfl
  | exit pid =>
    obtain ⟨_, taken⟩ := Option.ite_none_right_eq_some.mp taken
    exact Option.some.inj taken ▸ .inl rfl

/-- Every flag word of a run is that of the request but for the success bit. -/
theorem answering_flag {flag : BitVec 32} {send : Send} {history : List Action}
    (reached : (answering flag).recording.ReachedUnder
      (fun recorded => StaysUntilReply recorded.1) (send, history))
    {mask : BitVec 32} (apart : retSucceeded &&& mask = 0) :
    Holds send.flag mask ↔ Holds flag mask := by
  apply System.recorded_invariant ?_ ?_ reached
  · rintro start ⟨entries, alive, _, rfl⟩
    rw [begin]
    dsimp only
    split
    · exact holds_raise_apart flag retSucceeded mask apart
    · exact holds_lower_apart flag retSucceeded mask apart
  · intro before _ action after held _ taken
    rcases perform_flag taken with same | lowered
    · rw [same, held]
    · rw [lowered, holds_lower_apart before.flag retSucceeded mask apart, held]

/-- A loop over return blocks that ends has only added to what was sent. -/
theorem writeRetdataLoop_sent (order : ByteOrder) (shared : Shared) (fuel : Nat) (sink : Sink)
    (data : Option EmiRetdata) {ret : Int} {written : Sink}
    (wrote : writeRetdataLoop order shared fuel sink data = some (ret, written)) :
    ∃ body, written.sent = sink.sent ++ body := by
  induction fuel generalizing sink data with
  | zero => cases wrote
  | succ fuel inductionHypothesis =>
    rw [writeRetdataLoop] at wrote
    cases next : getNextRetdata shared.address shared.message data with
    | none =>
      simp only [next] at wrote
      cases wrote
      exact ⟨[], (List.append_nil _).symm⟩
    | some place =>
      simp only [next] at wrote
      obtain ⟨block, loaded, continued⟩ := Option.bind_eq_some_iff.mp wrote
      obtain ⟨⟨status, sent⟩, wroteBlock, finished⟩ := Option.bind_eq_some_iff.mp continued
      obtain ⟨body, extended⟩ : ∃ body, sent.sent = sink.sent ++ body := by
        rw [writeBlock] at wroteBlock
        obtain ⟨_, wroteBlock⟩ := Option.ite_none_right_eq_some.mp wroteBlock
        obtain ⟨rest, exact, extended, _⟩ := emiWrite_exact sink
          ((retdataBytes order block).take (block.size + BitVec.ofNat 32 sizeofRetdata).toNat)
        rw [exact] at wroteBlock
        cases wroteBlock
        exact ⟨_, extended⟩
      by_cases failed : status ≠ 0
      · rw [if_pos failed] at finished
        cases finished
        exact ⟨body, extended⟩
      · rw [if_neg failed] at finished
        obtain ⟨more, onward⟩ := inductionHypothesis sent _ finished
        exact ⟨body ++ more, by rw [onward, extended, List.append_assoc]⟩

/-- What `emi_msg_write_ret` gets written begins with the payload, as far as it goes. -/
theorem emiMsgWriteRet_sent {order : ByteOrder} {shared : Shared} {fuel : Nat} {sink written : Sink}
    {ret : Int} (wrote : emiMsgWriteRet order shared fuel sink = some (ret, written)) :
    ∃ body, written.sent <+: sink.sent ++ (payloadBytes order shared.message ++ body) := by
  obtain ⟨headed, head, sent, _⟩ := emiWrite_exact sink (payloadBytes order shared.message)
  simp only [emiMsgWriteRet, emiMsgWritePayload, head, Option.bind_eq_bind, Option.bind_some,
    Option.pure_def, checked_writeStatus] at wrote
  by_cases failed : writeStatus sink (payloadBytes order shared.message).length ≠ 0
  · rw [if_pos failed] at wrote
    cases wrote
    refine ⟨[], ?_⟩
    rw [sent, List.append_nil, List.prefix_append_right_inj]
    exact List.take_prefix _ _
  · rw [if_neg failed] at wrote
    have whole : sink.accepts (payloadBytes order shared.message).length =
        (payloadBytes order shared.message).length := by
      by_contra short
      exact failed (by rw [writeStatus, if_neg short]; decide)
    rw [whole, List.take_length] at sent
    by_cases announced : shared.message.retsize.toNat > 0
    · rw [if_pos announced] at wrote
      obtain ⟨body, onward⟩ := writeRetdataLoop_sent order shared fuel headed none wrote
      exact ⟨body, by rw [onward, sent, List.append_assoc]⟩
    · rw [if_neg announced] at wrote
      cases wrote
      exact ⟨[], by rw [sent, List.append_nil]⟩

/-- A request that was written without an error is on the wire as a whole. -/
theorem emiMsgWrite_complete {order : ByteOrder} {sink written : Sink} {memory : Address → Byte}
    {address : Address} {message : EmiMsg}
    (wrote : emiMsgWrite order sink memory address message = some (0, written)) :
    written.sent = sink.sent ++ wireBytes order memory address message := by
  have whole (sink : Sink) (count : Nat) (ok : ¬ writeStatus sink count ≠ 0) :
      sink.accepts count = count := by
    by_contra short
    exact ok (by rw [writeStatus, if_neg short]; decide)
  obtain ⟨headed, head, sent, _⟩ := emiWrite_exact sink (payloadBytes order message)
  simp only [emiMsgWrite, emiMsgWritePayload, head, Option.bind_eq_bind, Option.bind_some,
    Option.pure_def, checked_writeStatus] at wrote
  by_cases failed : writeStatus sink (payloadBytes order message).length ≠ 0
  · rw [if_pos failed] at wrote
    cases wrote
  rw [if_neg failed] at wrote
  rw [whole sink _ failed, List.take_length] at sent
  by_cases empty : message.size.toNat > 0
  · rw [if_pos empty] at wrote
    obtain ⟨last, data, sentData, _⟩ := emiWrite_exact headed
      (readBytes memory (getAddr address message.dataOffset) message.size.toNat)
    simp only [emiMsgWriteData, data, Option.bind_eq_bind, Option.bind_some, Option.pure_def,
      checked_writeStatus] at wrote
    obtain ⟨status, rfl⟩ := Prod.mk.inj (Option.some.inj wrote)
    rw [whole headed _ (not_not.mpr status), List.take_length] at sentData
    rw [sentData, sent, wireBytes, List.append_assoc]
  · rw [if_neg empty] at wrote
    cases wrote
    have zero : message.size.toNat = 0 := by omega
    rw [sent, wireBytes, zero]
    simp [readBytes]

/-- A part of an answer that comes back is a part of a payload and of bytes behind it. -/
theorem arrived_recorded {order : ByteOrder} {source : Source} {answered message : EmiMsg}
    {body : List Byte} (arrived : source.bytes <+: payloadBytes order answered ++ body) :
    recorded order source message =
      overwritePayload order message ((payloadBytes order answered).take source.bytes.length) := by
  have bytes := List.prefix_iff_eq_take.mp arrived
  rw [recorded]
  congr 1
  calc source.bytes.take payloadSize
      = ((payloadBytes order answered ++ body).take source.bytes.length).take payloadSize := by
        rw [← bytes]
    _ = ((payloadBytes order answered ++ body).take payloadSize).take source.bytes.length := by
        rw [List.take_take, List.take_take, Nat.min_comm]
    _ = (payloadBytes order answered).take source.bytes.length := by
        rw [← payloadBytes_length order answered, List.take_left]

/-- A flag of the sender's message after a reply: that of the answer if its byte came
back, and otherwise the one it had. -/
theorem recorded_flag {order : ByteOrder} {source : Source} {answered message : EmiMsg}
    {body : List Byte} (arrived : source.bytes <+: payloadBytes order answered ++ body)
    {bit : Nat} (inside : bit < 32) :
    Holds (recorded order source message).flag (BitVec.twoPow 32 bit) ↔
      if byteOf order bit < source.bytes.length then Holds answered.flag (BitVec.twoPow 32 bit)
      else Holds message.flag (BitVec.twoPow 32 bit) := by
  rw [holds_twoPow _ bit inside, holds_twoPow _ bit inside, holds_twoPow _ bit inside,
    arrived_recorded arrived, overwritePayload_flag order message answered _ bit inside]
  split <;> rfl

/-- Without an answer the sender keeps its record. -/
theorem nothing_recorded (order : ByteOrder) {source : Source} (message : EmiMsg)
    (nothing : source.bytes = []) : recorded order source message = message := by
  rw [recorded, nothing, List.take_nil, overwritePayload, List.nil_append, List.length_nil,
    List.drop_zero, withPayload_payloadBytes]
  rfl

/-- When `emi_msg_read_ret` succeeds, and the flag word it leaves. -/
theorem emiMsgReadRet_result (order : ByteOrder) (address : Address) (sender : Sender)
    (attempt : Attempt) :
    ∃ ret after, SenderBuffers.emiMsgReadRet order address sender attempt.malloc attempt.source =
        some (ret, after) ∧
      (ret = 0 ↔ Completes order sender attempt) ∧
      after.message.flag = (recorded order attempt.source sender.message).flag := by
  obtain ⟨rest, read, bytes, ending⟩ :=
    emiMsgReadPayload_exact order attempt.source sender.message
  simp only [SenderBuffers.emiMsgReadRet, read, Option.bind_eq_bind, Option.bind_some,
    Option.pure_def]
  by_cases failed : readStatus attempt.source payloadSize = 0
  · rw [if_neg (not_not.mpr failed)]
    by_cases announced : (recorded order attempt.source sender.message).retsize.toNat > 0
    · have nonzero : (recorded order attempt.source sender.message).retsize ≠ 0 := by
        intro zero
        rw [zero] at announced
        cases announced
      cases found : attempt.malloc with
      | none =>
        refine ⟨-1, _, if_pos announced, ?_, rfl⟩
        exact iff_of_false (by decide) fun completes => (completes.data nonzero).1 found
      | some data =>
        have filled := SenderBuffers.readInto_exact address
          (sender.answered order attempt) data rest
        have status : readStatus rest
            (recorded order attempt.source sender.message).retsize.toNat = 0 ↔
              Completes order sender attempt := by
          rw [readStatus_zero, bytes, ending, List.length_drop]
          constructor
          · intro enough
            refine ⟨failed, fun _ => ⟨by rw [found]; exact Option.some_ne_none data, ?_⟩⟩
            exact enough.imp (by omega) id
          · intro completes
            exact (completes.data nonzero).2.imp (by omega) id
        split at filled
        case isTrue short =>
          refine ⟨-1, _, (if_pos announced).trans filled, ?_, ?_⟩
          · exact iff_of_false (by decide) fun completes => short (status.mpr completes)
          · rw [SenderBuffers.emiMsgFreeData_message]
            rfl
        case isFalse enough =>
          exact ⟨0, _, (if_pos announced).trans filled,
            iff_of_true rfl (status.mp (not_not.mp enough)), rfl⟩
    · refine ⟨0, _, if_neg announced, iff_of_true rfl ⟨failed, fun nonzero => ?_⟩, rfl⟩
      exact absurd (Nat.pos_of_ne_zero fun zero => nonzero (BitVec.eq_of_toNat_eq zero)) announced
  · rw [if_pos failed]
    exact ⟨-1, _, rfl, iff_of_false (by decide) fun completes => failed completes.payload, rfl⟩

/-- The core gives the data of a request that it has read a block of their own exactly
when they do not fit behind the message. -/
theorem read_moved {order : ByteOrder} {arena : Shm} {opened : Shared} {request : Source}
    {memory : Address → Byte} {address : Address} {sent : EmiMsg} {received : Receiving}
    (allocated : allocSharedMsg arena 0 = .inr opened)
    (whole : request.bytes = wireBytes order memory address sent)
    (plain : ¬ Holds sent.flag flagAllocdata) (small : sent.size.toNat + sizeofMsg < 2 ^ 31)
    (read : emiMsgRead order ⟨opened, request⟩ = some (0, received)) :
    Holds received.shared.message.flag flagAllocdata ↔ ¬ FitsInline sent.size := by
  obtain ⟨held, _, fresh⟩ := allocSharedMsg_inline arena opened allocated
  obtain ⟨after, readPayload, remaining⟩ := payload_received order emptyMsg sent request _ whole
  by_cases empty : sent.size.toNat > 0
  · have nonempty : 0 < (carry emptyMsg sent).size.toNat := empty
    by_cases room : ¬ FitsInline sent.size → (emiAlloc opened.shm sent.size.toNat).1 ≠ none
    · obtain ⟨placed, dataOffset, reallocated, message⟩ :=
        realloc_places { opened with message := carry emptyMsg sent } held small room
      obtain ⟨final, readData, _, delivered⟩ := data_received sent _ [] placed dataOffset after
        plain message (readBytes_length memory _ _) (by rw [remaining, List.append_nil])
      have result : emiMsgRead order ⟨opened, request⟩ = some (0, final) := by
        simp [emiMsgRead, fresh, readPayload, nonempty, reallocated, readData]
      obtain ⟨_, rfl⟩ := Prod.mk.inj (Option.some.inj (read.symm.trans result))
      exact delivered.moved
    · obtain ⟨long, refused⟩ := Classical.not_imp.mp room
      have outgrown : ¬ oldsize 0 ≥ newsize (carry emptyMsg sent).size :=
        fun enough => long ((inline_iff sent.size small).mp enough)
      cases taken : emiAlloc opened.shm sent.size.toNat with
      | mk data shm =>
        rw [taken, not_not] at refused
        obtain rfl : data = none := refused
        have failed := reallocSharedMsg_refused
          { opened with message := carry emptyMsg sent } 0 shm held outgrown taken
        have result : emiMsgRead order ⟨opened, request⟩ = some (-1,
            ⟨refuse { opened with message := carry emptyMsg sent } shm, after⟩) := by
          simp [emiMsgRead, fresh, readPayload, nonempty, failed]
        cases read.symm.trans result
  · have nothing : ¬ 0 < (carry emptyMsg sent).size.toNat := empty
    have fits : FitsInline sent.size := by
      rw [FitsInline]
      simp only [sizeofMsg, buddyShift, addrBufOffset]
      omega
    have result : emiMsgRead order ⟨opened, request⟩ =
        some (0, ⟨{ opened with message := carry emptyMsg sent }, after⟩) := by
      simp [emiMsgRead, fresh, readPayload, nothing]
    obtain ⟨_, rfl⟩ := Prod.mk.inj (Option.some.inj (read.symm.trans result))
    simp [carry, fits, plain]

/-- The allocation bit of a message after a send in block mode: it is set exactly when
its byte came back and the core gave the data a block of their own. -/
theorem allocation_comes_back {order : ByteOrder} {arena : Shm} {address : Address}
    {sender : Sender} {attempt : Attempt} {request : Source} {reply : List Byte}
    {history : List Action} (plain : ¬ Holds sender.message.flag flagAllocdata)
    (small : sender.message.size.toNat + sizeofMsg < 2 ^ 31)
    (whole : request.bytes = wireBytes order attempt.memory address sender.message)
    (answer : Answer order arena request reply history)
    (arrived : attempt.source.bytes <+: reply) :
    Holds (recorded order attempt.source sender.message).flag flagAllocdata ↔
      byteOf order allocdataBit < attempt.source.bytes.length ∧
        ¬ FitsInline sender.message.size := by
  cases answer with
  | silent =>
    have nothing := List.prefix_nil.mp arrived
    rw [nothing_recorded order sender.message nothing, nothing]
    simp [plain]
  | reply allocated read _ reached _ handled unsent wroteBack =>
    obtain ⟨body, began⟩ := emiMsgWriteRet_sent wroteBack
    rw [unsent, List.nil_append] at began
    have came := @recorded_flag order attempt.source _ sender.message body
      (arrived.trans began) allocdataBit (by decide)
    change Holds _ flagAllocdata ↔ _ at came
    rw [came]
    split
    case isTrue came =>
      rw [handled.flag]
      change Holds _ flagAllocdata ↔ _
      rw [answering_flag reached retSucceeded_apart_flagAllocdata,
        read_moved allocated whole plain small read]
      exact (and_iff_right came).symm
    case isFalse missing => exact iff_of_false plain fun both => missing both.1

/-- Handling a request without return data frees only what was granted for it, exactly
when there is no message for it or its allocation bit is clear. -/
theorem handles_own_iff (order : ByteOrder) (arena : Shm) (request : Source)
    (circumstances : ReceiveOperation.Circumstances)
    (noReturn : (recorded order request emptyMsg).retsize = 0) :
    ∃ obtained final, ReceiveOperation.emiReceiveOperation order
        (ReceiveOperation.unlogged arena) request circumstances = some (obtained, final) ∧
      (ReceiveOperation.FreesItsOwn final ↔
        (emiAlloc (ReceiveOperation.unlogged arena) sizeofMsg).1 = none ∨
          ¬ Holds (recorded order request emptyMsg).flag flagAllocdata) := by
  rcases ReceiveOperation.opened_cases arena with
    ⟨offers, nothing, refused⟩ | ⟨own, available, offers, memory, something, allocated⟩
  · refine ⟨[], _, ReceiveOperation.emiReceiveOperation_unopened order arena request circumstances
      offers refused, iff_of_true ⟨List.nodup_nil, ?_⟩ (.inl nothing)⟩
    exact fun addr member => absurd member List.not_mem_nil
  · rw [or_iff_right something]
    by_cases flagged : Holds (recorded order request emptyMsg).flag flagAllocdata
    · obtain ⟨obtained, shared, ran, misled⟩ := ReceiveOperation.emiReceiveOperation_misled order
        arena request circumstances own available offers memory allocated flagged
      exact ⟨obtained, _, ran, iff_of_false misled.frees (not_not.mpr flagged)⟩
    · obtain ⟨data, obtained, shared, ran, holding⟩ :=
        ReceiveOperation.emiReceiveOperation_holding order arena request circumstances own
          available offers memory allocated flagged
      exact ⟨obtained, _, ran, iff_of_true (holding.frees_iff.mpr (.inl noReturn)) flagged⟩

/-- A message that was sent in block mode and answered, and had a clear allocation bit
then, can be sent again if and only if its data fit behind it in the core, or its
allocation bit did not come back: otherwise the core frees an address that it did not
allocate, whatever its receivers do. Return data are no matter, when they were freed in
between.

Proof: the reply carries the core's own allocation bit into the sender's record, and the
next request carries it back. -/
theorem resent_frees_its_own_iff (order : ByteOrder) (arena later : Shm) (address : Address)
    (sender after : Sender) (attempt : Attempt) (request again : Source) (reply rest : List Byte)
    (history : List Action) (memory : Address → Byte) (ret : Int)
    (circumstances : ReceiveOperation.Circumstances)
    (plain : ¬ Holds sender.message.flag flagAllocdata)
    (small : sender.message.size.toNat + sizeofMsg < 2 ^ 31)
    (replied : attempt.Replied order address sender)
    (requested : ∀ written, emiMsgWrite order attempt.sink attempt.memory address sender.message =
      some (0, written) → written.sent = attempt.sink.sent ++ request.bytes)
    (answer : Answer order arena request reply history)
    (arrived : attempt.source.bytes <+: reply)
    (sent : emiMsgSend order address sender attempt = some (ret, after))
    (resent : again.bytes =
      wireBytes order memory address (emiMsgFreeData address after).message ++ rest) :
    ∃ obtained final, ReceiveOperation.emiReceiveOperation order
        (ReceiveOperation.unlogged later) again circumstances = some (obtained, final) ∧
      (ReceiveOperation.FreesItsOwn final ↔
        (emiAlloc (ReceiveOperation.unlogged later) sizeofMsg).1 = none ∨
          FitsInline sender.message.size ∨
            attempt.source.bytes.length ≤ byteOf order allocdataBit) := by
  obtain ⟨_, read, got, _, flag⟩ := emiMsgReadRet_result order address sender attempt
  obtain ⟨⟨_, sink⟩, wrote, rfl⟩ := Option.map_eq_some_iff.mp replied.2.2.1
  have whole : request.bytes = wireBytes order attempt.memory address sender.message :=
    List.append_cancel_left ((requested sink wrote).symm.trans (emiMsgWrite_complete wrote))
  have same : read = after := by
    have results := SenderBuffers.emiMsgSend_replied replied
    rw [sent, got] at results
    exact (Option.some.inj results).symm
  have carried : recorded order again emptyMsg =
      carry emptyMsg (emiMsgFreeData address after).message := by
    rw [recorded, resent, wireBytes, List.append_assoc, ← payloadBytes_length order, List.take_left,
      overwritePayload_complete order _ _ (payloadBytes_length order _), withPayload_payloadBytes]
  have flagged : (recorded order again emptyMsg).flag =
      (recorded order attempt.source sender.message).flag := by
    rw [carried, SenderBuffers.emiMsgFreeData_message, ← flag, same]
    rfl
  have noReturn : (recorded order again emptyMsg).retsize = 0 := by
    rw [carried, SenderBuffers.emiMsgFreeData_message]
    rfl
  obtain ⟨obtained, final, ran, own⟩ := handles_own_iff order later again circumstances noReturn
  refine ⟨obtained, final, ran, own.trans (or_congr_right ?_)⟩
  rw [flagged, allocation_comes_back plain small whole answer arrived, not_and_or, not_not,
    not_lt, or_comm]

/-- A sender of a message with more data than fit behind it in the core. -/
def asker : Sender := ⟨longRequest, .empty, false⟩

/-- Its request on the wire. -/
def question : Source := ⟨wireBytes .little (fun _ => 9) 0 longRequest, .closed, []⟩

/-- The request as the core has read it. -/
@[irreducible] def heard : Int × Receiving :=
  (emiMsgRead .little ⟨firstMessage, question⟩).get (by decide +kernel)

/-- One receiver takes the message and returns zero. -/
def oneSucceeds : List Action :=
  [.work, .take firstPid, .work, .work, .finish firstPid (some 0), .work]

/-- The counting pass finds that receiver. -/
def counted : Send := begin [firstPid] heard.2.shared.message.flag fun _ => true

/-- The send to it at the answer. -/
@[irreducible] def settled : Send :=
  (System.follow perform StaysUntilReply counted oneSucceeds).get (by decide +kernel)

/-- The message as it is answered, and the answer on the wire. -/
def answered : Shared :=
  { heard.2.shared with message := { heard.2.shared.message with flag := settled.flag } }

@[irreducible] def replied : Int × Sink :=
  (emiMsgWriteRet .little answered 0 ⟨[], none, []⟩).get (by decide +kernel)

theorem one_answers :
    Answer .little emptyArena question replied.2.sent oneSucceeds.reverse := by
  have read : emiMsgRead .little ⟨firstMessage, question⟩ = some heard := by
    unfold heard
    exact (Option.some_get _).symm
  have status : heard.1 = 0 := by decide +kernel
  have received : emiMsgRead .little ⟨firstMessage, question⟩ = some (0, heard.2) := by
    rw [read, ← status]
  have starts : (answering heard.2.shared.message.flag).start counted := ⟨_, _, by decide, rfl⟩
  have completed : System.follow perform StaysUntilReply counted oneSucceeds = some settled := by
    unfold settled
    exact (Option.some_get _).symm
  have reached := System.follow_recorded oneSucceeds (.initial (_, []) ⟨starts, rfl⟩) completed
  rw [List.append_nil] at reached
  have handled : Handled heard.2.shared.message answered.message settled.flag :=
    ⟨rfl, rfl, rfl, rfl⟩
  have wrote : emiMsgWriteRet .little answered 0 ⟨[], none, []⟩ = some replied := by
    unfold replied
    exact (Option.some_get _).symm
  exact .reply rfl received (by decide +kernel) reached (by decide +kernel) handled rfl wrote

/-- The send of that message. -/
def asking : Attempt where
  opened := true
  connected := true
  memory := fun _ => 9
  sink := ⟨[], none, []⟩
  source := ⟨replied.2.sent, .closed, []⟩
  malloc := none

/-- The request of the sender is what the core reads. -/
theorem question_asked (written : Sink)
    (wrote : emiMsgWrite .little asking.sink asking.memory 0 asker.message = some (0, written)) :
    written.sent = asking.sink.sent ++ question.bytes :=
  emiMsgWrite_complete wrote

/-- The sender after it was answered, and its next request. -/
@[irreducible] def afterwards : Int × Sender :=
  (emiMsgSend .little 0 asker asking).get (by decide +kernel)

def questionAgain : Source where
  bytes := wireBytes .little (fun _ => 9) 0 (emiMsgFreeData 0 afterwards.2).message
  ending := .closed
  splits := []

/-- Sent again, that message makes the core free what is not its own. -/
theorem question_again_frees :
    ∃ obtained final, ReceiveOperation.emiReceiveOperation .little
        (ReceiveOperation.unlogged emptyArena) questionAgain ReceiveOperation.nobody =
          some (obtained, final) ∧
      (ReceiveOperation.FreesItsOwn final ↔
        (emiAlloc (ReceiveOperation.unlogged emptyArena) sizeofMsg).1 = none ∨
          FitsInline longRequest.size ∨ replied.2.sent.length ≤ byteOf .little allocdataBit) := by
  have met : asking.Replied .little 0 asker := ⟨rfl, rfl, by decide +kernel, by decide⟩
  have sent : emiMsgSend .little 0 asker asking = some afterwards := by
    unfold afterwards
    exact (Option.some_get _).symm
  exact resent_frees_its_own_iff .little emptyArena emptyArena 0 asker afterwards.2 asking question
    questionAgain replied.2.sent [] oneSucceeds.reverse (fun _ => 9) afterwards.1
    ReceiveOperation.nobody (by decide) (by decide) met question_asked one_answers
    List.prefix_rfl sent (List.append_nil _).symm

end Emilib.Exchange
