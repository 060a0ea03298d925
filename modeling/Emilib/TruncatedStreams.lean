import Emilib.Replies

/-!
# Streams that end early

`emi_read` returns what the last `read` returned, so it returns zero both when all
the bytes are there and when the peer closed before. Its callers take zero for
success. This module settles what `emi_msg_read` and `emi_msg_read_ret` return on
every stream, and when that tells a truncated stream from a complete one.
-/

namespace Emilib.TruncatedStreams

open Messages Transfers SharedBlocks Requests ReturnData Replies

/-- The stream has the payload and all the data that its size announces. -/
def CompleteRequest (order : ByteOrder) (receiving : Receiving) : Prop :=
  payloadSize + (stored order receiving).message.size.toNat ≤ receiving.source.bytes.length

instance (order : ByteOrder) (receiving : Receiving) :
    Decidable (CompleteRequest order receiving) := inferInstanceAs (Decidable (_ ≤ _))

/-- Data are announced, and the arena has no room for them. -/
def NoRoomForData (order : ByteOrder) (receiving : Receiving) (blockOrder : Nat) : Prop :=
  (stored order receiving).message.size.toNat > 0 ∧ NoRoom (stored order receiving) blockOrder

instance (order : ByteOrder) (receiving : Receiving) (blockOrder : Nat) :
    Decidable (NoRoomForData order receiving blockOrder) :=
  inferInstanceAs (Decidable (_ ∧ _))

/-- `emi_msg_read` accepts complete streams only, and returns an error for all others. -/
def RejectsTruncatedRequest (order : ByteOrder) (receiving : Receiving) : Prop :=
  (∀ final, emiMsgRead order receiving = some (0, final) → CompleteRequest order receiving) ∧
    (¬ CompleteRequest order receiving → ∃ final, emiMsgRead order receiving = some (-1, final))

/-- What `emi_msg_read` returns. A header that is cut off counts as one whose
missing bytes are those of the record before, and is then treated like any other. -/
def requestStatus (order : ByteOrder) (receiving : Receiving) (blockOrder : Nat) : Int :=
  if NoRoomForData order receiving blockOrder then -1
  else if CompleteRequest order receiving ∨ receiving.source.ending = .closed then 0 else -1

/-- A payload that was not refused is there, or its stream was closed. -/
theorem headed_of_status (source : Source) (accepted : ¬ readStatus source payloadSize ≠ 0) :
    payloadSize ≤ source.bytes.length ∨ source.ending = .closed :=
  (readStatus_zero source payloadSize).mp (not_not.mp accepted)

/-- `emi_msg_read` returns that status on every stream. -/
theorem emiMsgRead_status (order : ByteOrder) (receiving : Receiving) (blockOrder : Nat)
    (held : receiving.shared.shm.blockOrder receiving.shared.address = some blockOrder) :
    ∃ final, emiMsgRead order receiving =
      some (requestStatus order receiving blockOrder, final) := by
  obtain ⟨after, read, advanced, ending⟩ :=
    emiMsgReadPayload_exact order receiving.source receiving.shared.message
  rw [emiMsgRead_stored order receiving after read]
  by_cases failed : readStatus receiving.source payloadSize ≠ 0
  · have cut : ¬ (payloadSize ≤ receiving.source.bytes.length ∨
        receiving.source.ending = .closed) := by
      intro whole
      exact failed (if_pos whole)
    have status : requestStatus order receiving blockOrder = -1 := by
      rw [requestStatus]
      split
      · rfl
      · rw [if_neg]
        rintro (complete | closed)
        · exact cut (Or.inl (Nat.le_trans (Nat.le_add_right _ _) complete))
        · exact cut (Or.inr closed)
    rw [if_pos failed, status]
    exact ⟨_, rfl⟩
  rw [if_neg failed]
  have headed := headed_of_status receiving.source failed
  by_cases empty : (stored order receiving).message.size.toNat > 0
  · rw [if_pos empty]
    obtain ⟨placed, reallocated, size⟩ :=
      reallocSharedMsg_status (stored order receiving) blockOrder held
    rw [reallocated, Option.bind_some]
    by_cases full : NoRoom (stored order receiving) blockOrder
    · have status : requestStatus order receiving blockOrder = -1 := if_pos ⟨empty, full⟩
      rw [decide_eq_false (not_not_intro full), status]
      exact ⟨_, rfl⟩
    · obtain ⟨rest, readData, _⟩ := emiMsgReadData_exact ⟨placed, after⟩
      have status : requestStatus order receiving blockOrder =
          readStatus after placed.message.size.toNat := by
        rw [requestStatus, if_neg (fun none => full none.2), readStatus, size, advanced, ending,
          List.length_drop]
        congr 1
        apply propext
        constructor
        · rintro (complete | closed)
          · rw [CompleteRequest] at complete
            exact Or.inl (by omega)
          · exact Or.inr closed
        · rintro (complete | closed)
          · rw [CompleteRequest]
            exact Or.inl (by omega)
          · exact Or.inr closed
      rw [decide_eq_true full, status]
      exact ⟨_, readData⟩
  · have status : requestStatus order receiving blockOrder = 0 := by
      rw [requestStatus, if_neg (fun none => empty none.1), if_pos]
      rcases headed with whole | closed
      · refine Or.inl ?_
        rw [CompleteRequest]
        omega
      · exact Or.inr closed
    rw [if_neg empty, status]
    exact ⟨_, rfl⟩

/-- `emi_msg_read` tells a truncated request from a complete one exactly when there
is nothing to tell, or the stream ends with an error, or there is no room anyway. -/
theorem rejects_request_iff (order : ByteOrder) (receiving : Receiving) (blockOrder : Nat)
    (held : receiving.shared.shm.blockOrder receiving.shared.address = some blockOrder) :
    RejectsTruncatedRequest order receiving ↔
      CompleteRequest order receiving ∨ receiving.source.ending = .failed ∨
        NoRoomForData order receiving blockOrder := by
  obtain ⟨final, read⟩ := emiMsgRead_status order receiving blockOrder held
  by_cases complete : CompleteRequest order receiving
  · exact ⟨fun _ => Or.inl complete, fun _ => ⟨fun _ _ => complete, fun cut => absurd complete cut⟩⟩
  by_cases full : NoRoomForData order receiving blockOrder
  · rw [requestStatus, if_pos full] at read
    refine ⟨fun _ => Or.inr (Or.inr full), fun _ => ⟨?_, fun _ => ⟨final, read⟩⟩⟩
    intro other accepted
    rw [read] at accepted
    cases accepted
  rw [requestStatus, if_neg full] at read
  cases ended : receiving.source.ending with
  | failed =>
    rw [if_neg (by simp [complete, ended])] at read
    refine ⟨fun _ => Or.inr (Or.inl rfl), fun _ => ⟨?_, fun _ => ⟨final, read⟩⟩⟩
    intro other accepted
    rw [read] at accepted
    cases accepted
  | closed =>
    rw [if_pos (Or.inr ended)] at read
    constructor
    · intro rejects
      exact absurd (rejects.1 final read) complete
    · rintro (whole | failed | none)
      · exact absurd whole complete
      · cases failed
      · exact absurd none full

/-- The stream has the payload and all the return data that its size announces. -/
def CompleteReply (order : ByteOrder) (message : EmiMsg) (source : Source) : Prop :=
  payloadSize + (recorded order source message).retsize.toNat ≤ source.bytes.length

/-- Return data are announced, and `malloc` returns NULL. -/
def NoStorage (order : ByteOrder) (message : EmiMsg) (malloc : Option Storage)
    (source : Source) : Prop :=
  (recorded order source message).retsize.toNat > 0 ∧ malloc = none

/-- `emi_msg_read_ret` accepts complete streams only, and returns an error for all others. -/
def RejectsTruncatedReply (order : ByteOrder) (address : Address) (message : EmiMsg)
    (malloc : Option Storage) (source : Source) : Prop :=
  (∀ reply, emiMsgReadRet order address message malloc source = some (0, reply) →
    CompleteReply order message source) ∧
    (¬ CompleteReply order message source →
      ∃ reply, emiMsgReadRet order address message malloc source = some (-1, reply))

/-- `emi_msg_read_ret` after the payload was read over the record. -/
theorem emiMsgReadRet_recorded (order : ByteOrder) (address : Address) (message : EmiMsg)
    (malloc : Option Storage) (source : Source) :
    ∃ after, source.Advanced after payloadSize ∧
      emiMsgReadRet order address message malloc source =
        if readStatus source payloadSize ≠ 0 then
          some (-1, ⟨recorded order source message, none, after⟩)
        else if (recorded order source message).retsize.toNat > 0 then
          match malloc with
          | none => some (-1, ⟨recorded order source message, none, after⟩)
          | some storage =>
              (emiMsgReadRetdata order (atStorage address storage (recorded order source message))
                (storage.bytes (recorded order source message).retsize.toNat) after).bind
                fun result => some (finishRead result.1 result.2)
        else some (0, ⟨recorded order source message, none, after⟩) := by
  obtain ⟨after, read, advanced⟩ := emiMsgReadPayload_exact order source message
  refine ⟨after, advanced, ?_⟩
  rw [emiMsgReadRet, read]
  cases malloc <;> rfl

/-- `emi_msg_read_retdata` fails when the stream does, and else returns zero or nothing. -/
theorem emiMsgReadRetdata_outcome (order : ByteOrder) (message : EmiMsg) (stale : List Byte)
    (source : Source) :
    (¬ message.retsize.toNat ≤ source.bytes.length ∧ source.ending = .failed ∧
        ∃ reply, emiMsgReadRetdata order message stale source = some (-1, reply)) ∨
      ((message.retsize.toNat ≤ source.bytes.length ∨ source.ending = .closed) ∧
        ∀ ret reply, emiMsgReadRetdata order message stale source = some (ret, reply) →
          ret = 0) := by
  obtain ⟨after, read, _⟩ := emiRead_exact source message.retsize
  by_cases whole : message.retsize.toNat ≤ source.bytes.length ∨ source.ending = .closed
  · refine Or.inr ⟨whole, ?_⟩
    intro ret reply result
    rw [readStatus, if_pos whole] at read
    simp only [emiMsgReadRetdata, read, Option.bind_eq_bind, Option.bind_some, ne_eq, not_true,
      if_false] at result
    obtain ⟨linked, _, returned⟩ := Option.bind_eq_some_iff.1 result
    exact (Prod.mk.inj (Option.some.inj returned)).1.symm
  · rw [readStatus, if_neg whole] at read
    refine Or.inl ⟨fun enough => whole (Or.inl enough), ?_, ?_⟩
    · cases ended : source.ending with
      | closed => exact absurd (Or.inr ended) whole
      | failed => rfl
    · simp only [emiMsgReadRetdata, read]
      exact ⟨_, rfl⟩

/-- A reply whose stream fails early, or whose data find no storage, is refused. -/
theorem reply_refused (order : ByteOrder) (address : Address) (message : EmiMsg)
    (malloc : Option Storage) (source : Source)
    (short : NoStorage order message malloc source ∨
      ¬ CompleteReply order message source ∧ source.ending = .failed) :
    ∃ reply, emiMsgReadRet order address message malloc source = some (-1, reply) := by
  obtain ⟨after, ⟨bytes, ending⟩, result⟩ :=
    emiMsgReadRet_recorded order address message malloc source
  rw [result]
  by_cases failed : readStatus source payloadSize ≠ 0
  · rw [if_pos failed]
    exact ⟨_, rfl⟩
  rw [if_neg failed]
  by_cases announced : (recorded order source message).retsize.toNat > 0
  · rw [if_pos announced]
    cases malloc with
    | none => exact ⟨_, rfl⟩
    | some storage =>
      rcases short with ⟨_, none⟩ | ⟨cut, ended⟩
      · cases none
      rcases emiMsgReadRetdata_outcome order
          (atStorage address storage (recorded order source message))
          (storage.bytes (recorded order source message).retsize.toNat) after with
        ⟨_, _, reply, read⟩ | ⟨whole, _⟩
      · simp only [read, Option.bind_some]
        exact ⟨_, rfl⟩
      · rcases whole with enough | closed
        · have headed := headed_of_status source failed
          simp only [atStorage, bytes, List.length_drop] at enough
          rw [CompleteReply] at cut
          rw [ended] at headed
          rcases headed with head | closed
          · omega
          · cases closed
        · rw [ending, ended] at closed
          cases closed
  · rcases short with ⟨some, _⟩ | ⟨cut, ended⟩
    · exact absurd some announced
    · have headed := headed_of_status source failed
      rw [CompleteReply] at cut
      rw [ended] at headed
      rcases headed with head | closed
      · omega
      · cases closed

/-- A reply whose stream is closed is never refused, if its data find storage. -/
theorem closed_reply_not_refused (order : ByteOrder) (address : Address) (message : EmiMsg)
    (malloc : Option Storage) (source : Source) (closed : source.ending = .closed)
    (room : ¬ NoStorage order message malloc source) (ret : Int) (reply : Reply)
    (result : emiMsgReadRet order address message malloc source = some (ret, reply)) :
    ret = 0 := by
  obtain ⟨after, ⟨_, ending⟩, outcome⟩ :=
    emiMsgReadRet_recorded order address message malloc source
  rw [outcome, if_neg (by rw [readStatus, if_pos (Or.inr closed)]; decide)] at result
  by_cases announced : (recorded order source message).retsize.toNat > 0
  · rw [if_pos announced] at result
    cases malloc with
    | none => exact absurd ⟨announced, rfl⟩ room
    | some storage =>
      obtain ⟨⟨status, received⟩, read, finished⟩ := Option.bind_eq_some_iff.1 result
      rcases emiMsgReadRetdata_outcome order
          (atStorage address storage (recorded order source message))
          (storage.bytes (recorded order source message).retsize.toNat) after with
        ⟨_, failed, _⟩ | ⟨_, accepts⟩
      · rw [ending, closed] at failed
        cases failed
      · have zero := accepts status received read
        simp only [zero, finishRead, ne_eq, not_true, if_false] at finished
        exact (Prod.mk.inj (Option.some.inj finished)).1.symm
  · rw [if_neg announced] at result
    exact (Prod.mk.inj (Option.some.inj result)).1.symm

/-- `emi_msg_read_ret` tells a truncated reply from a complete one exactly when there
is nothing to tell, or the stream ends with an error, or there is no storage anyway. -/
theorem rejects_reply_iff (order : ByteOrder) (address : Address) (message : EmiMsg)
    (malloc : Option Storage) (source : Source) :
    RejectsTruncatedReply order address message malloc source ↔
      CompleteReply order message source ∨ source.ending = .failed ∨
        NoStorage order message malloc source := by
  by_cases complete : CompleteReply order message source
  · exact ⟨fun _ => Or.inl complete, fun _ => ⟨fun _ _ => complete, fun cut => absurd complete cut⟩⟩
  constructor
  · rintro ⟨_, rejects⟩
    obtain ⟨reply, refused⟩ := rejects complete
    by_cases room : NoStorage order message malloc source
    · exact Or.inr (Or.inr room)
    · cases ended : source.ending with
      | failed => exact Or.inr (Or.inl rfl)
      | closed =>
        have accepted := closed_reply_not_refused order address message malloc source ended room
          (-1) reply refused
        cases accepted
  · rintro (whole | short)
    · exact absurd whole complete
    · obtain ⟨reply, refused⟩ := reply_refused order address message malloc source
        (short.symm.imp id (fun ended => ⟨complete, ended⟩))
      refine ⟨?_, fun _ => ⟨reply, refused⟩⟩
      intro other accepted
      rw [refused] at accepted
      cases accepted

/-- Both readers reject truncated streams exactly under these conditions: where
nothing is missing, where the stream ends with an error rather than a close, and
where memory is missing for what was announced. -/
theorem rejects_truncated_iff (order : ByteOrder) (receiving : Receiving) (blockOrder : Nat)
    (held : receiving.shared.shm.blockOrder receiving.shared.address = some blockOrder)
    (address : Address) (message : EmiMsg) (malloc : Option Storage) (source : Source) :
    (RejectsTruncatedRequest order receiving ↔
      CompleteRequest order receiving ∨ receiving.source.ending = .failed ∨
        NoRoomForData order receiving blockOrder) ∧
    (RejectsTruncatedReply order address message malloc source ↔
      CompleteReply order message source ∨ source.ending = .failed ∨
        NoStorage order message malloc source) :=
  ⟨rejects_request_iff order receiving blockOrder held,
    rejects_reply_iff order address message malloc source⟩

/-- A stream that is closed before it delivered a byte. -/
def silentStream : Source := ⟨[], .closed, []⟩

/-- The conditions, for that stream on both sides. -/
theorem silent_stream_rejected_iff :
    (RejectsTruncatedRequest .little ⟨firstMessage, silentStream⟩ ↔
      CompleteRequest .little ⟨firstMessage, silentStream⟩ ∨ silentStream.ending = .failed ∨
        NoRoomForData .little ⟨firstMessage, silentStream⟩ 0) ∧
    (RejectsTruncatedReply .little 0 emptyMsg none silentStream ↔
      CompleteReply .little emptyMsg silentStream ∨ silentStream.ending = .failed ∨
        NoStorage .little emptyMsg none silentStream) :=
  rejects_truncated_iff .little ⟨firstMessage, silentStream⟩ 0 (by decide) 0 emptyMsg none
    silentStream

/-- Neither side rejects it: the core takes it for a message without data, and the
sender takes it for a reply without return data. -/
theorem silent_stream_accepted :
    (∃ final, emiMsgRead .little ⟨firstMessage, silentStream⟩ = some (0, final)) ∧
      ¬ RejectsTruncatedRequest .little ⟨firstMessage, silentStream⟩ ∧
      (∃ reply, emiMsgReadRet .little 0 emptyMsg none silentStream = some (0, reply)) ∧
      ¬ RejectsTruncatedReply .little 0 emptyMsg none silentStream := by
  refine ⟨⟨_, rfl⟩, ?_, ⟨_, rfl⟩, ?_⟩
  · intro rejects
    exact absurd (rejects.1 _ rfl) (by decide)
  · intro rejects
    have complete : CompleteReply .little emptyMsg silentStream := rejects.1 _ rfl
    revert complete
    unfold CompleteReply
    decide

end Emilib.TruncatedStreams
