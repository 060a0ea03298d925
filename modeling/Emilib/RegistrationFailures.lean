import Emilib.Registration
import Emilib.Requests
import Emilib.UniqueEntries

/-!
# What a failed registration leaves behind

One call of `emi_msg_register` and the worker of `emi_core` that serves it. The two
sides commit one after the other: the core inserts its entry before it replies, and
the process adds its function once it has read the reply. Every step of either side
may fail in its own way, and each direction of the connection may lose the end of
what was sent.

A failure behind the insertion leaves the entry without a function, and a retry is
then refused. The other way round, `emi_read` takes the end of the stream for a
complete reply. The call then tests the flag word that it had on its own stack, where
`emi_msg_init` only raises bits, and it may add a function without an entry.
-/

namespace Emilib.RegistrationFailures

open ByteWords FlagBits Messages Transfers SharedBlocks Requests MsgTable TablePasses
open Registration (FuncList)

/-- One direction of a connection: how many bytes the writer gets rid of, and how many
of these arrive, if not all. What was delivered in part ends with an error, and
everything else with the end of the stream. -/
structure Line where
  room : Option Nat
  delivered : Option Nat
  writes : List Nat
  reads : List Nat
deriving DecidableEq, Repr

/-- The end of the line that is written to. -/
def Line.sink (line : Line) : Sink := ⟨[], line.room, line.writes⟩

/-- The end of the line that is read from, once these bytes were sent. -/
def Line.source (line : Line) (sent : List Byte) : Source :=
  match line.delivered with
  | none => ⟨sent, .closed, line.reads⟩
  | some count => ⟨sent.take count, .failed, line.reads⟩

/-- What one call meets: whether it gets a socket and a connection, what its stack held,
the arena and the memory of `emi_core`, the processes that were alive at each sweep, the
two directions of the connection, and whether `malloc` finds memory for the function. -/
structure Circumstances where
  order : ByteOrder
  opened : Bool
  connected : Bool
  stale : EmiMsg
  request : Line
  arena : Shm
  mapFound : Bool
  sweeps : List (BitVec 32 → Bool)
  reply : Line
  funcFound : Bool

/-- `msg_table` of the core and `__func_list` of the process. -/
structure Tables (Func : Type) where
  table : Table
  funcList : List (FuncList Func)

/-- `cmd` behind `emi_msg_init`. -/
def Circumstances.cmd (circumstances : Circumstances) (msgNum pid : BitVec 32) : EmiMsg :=
  { circumstances.stale with
    flag := raise circumstances.stale.flag cmdRegister
    msg := msgNum
    cmd := pid
    size := 0 }

/-- The sweeps of the wait loop of a send. -/
def sweepAll (sweeps : List (BitVec 32 → Bool)) (msg : BitVec 32) (table : Table) : Table :=
  sweeps.foldl (fun table alive => (sweep alive (entriesOf table msg) table ⟨0, []⟩).1) table

/-- The two branches of `emi_receive_operation`: the table, and the reply to a request for
registration. A request that lost its flag is served as a send, and whoever sent it has
given up by then, so a reply to that is left out. -/
def serve (circumstances : Circumstances) (table : Table) (message : EmiMsg) :
    Table × Option EmiMsg :=
  if Holds message.flag cmdRegister then
    if circumstances.mapFound then
      if scanRefuses table message.msg message.cmd then
        (table, some { message with flag := lower message.flag retSucceeded })
      else
        (emiHinsert table message.msg message.cmd,
          some { message with flag := raise message.flag retSucceeded })
    else (table, none)
  else (sweepAll circumstances.sweeps message.msg table, none)

/-- `emi_receive_operation`: the table, and the payload it writes, if it writes one. -/
def emiReceiveOperation (circumstances : Circumstances) (table : Table) (source : Source) :
    Option (Table × Option EmiMsg) :=
  match allocSharedMsg circumstances.arena 0 with
  | .inl _ => some (table, none)
  | .inr msgPos => do
      let (ret, received) ← emiMsgRead circumstances.order ⟨msgPos, source⟩
      if ret < 0 then return (table, none)
      else return serve circumstances table received.shared.message

/-- What the core writes back. -/
def writeReply (circumstances : Circumstances) (answer : Option EmiMsg) : Option (Int × Sink) :=
  match answer with
  | none => some (0, circumstances.reply.sink)
  | some message => emiMsgWritePayload circumstances.order circumstances.reply.sink message

/-- `emi_msg_register`, with the worker that serves it. -/
def emiMsgRegister {Func : Type} (circumstances : Circumstances) (msgNum pid : BitVec 32)
    (func : Func) (tables : Tables Func) : Option (Int × Tables Func) :=
  let cmd := circumstances.cmd msgNum pid
  if ¬ circumstances.opened then some (-1, tables)
  else if ¬ circumstances.connected then some (-1, tables)
  else do
    let (written, upstream) ← emiMsgWritePayload circumstances.order circumstances.request.sink cmd
    let (table, answer) ← emiReceiveOperation circumstances tables.table
      (circumstances.request.source upstream.sent)
    let tables := { tables with table := table }
    if written ≠ 0 then return (-1, tables)
    else
      let (_, downstream) ← writeReply circumstances answer
      let (read, cmd, _) ← emiMsgReadPayload circumstances.order
        (circumstances.reply.source downstream.sent) cmd
      if read ≠ 0 then return (-1, tables)
      else if ¬ Holds cmd.flag retSucceeded then return (-1, tables)
      else if ¬ circumstances.funcFound then return (-1, tables)
      else return (0, { tables with funcList := ⟨msgNum, func⟩ :: tables.funcList })

/-- The table has an entry of a process for a msg. -/
def Registered (table : Table) (msg pid : BitVec 32) : Prop :=
  ∃ map ∈ entriesOf table msg, map.pid = pid

/-- A call that fails changes neither table, and a call that succeeds enters both. -/
def FailureChangesNothing {Func : Type} (circumstances : Circumstances)
    (msgNum pid : BitVec 32) (func : Func) (tables : Tables Func) : Prop :=
  ∃ ret after, emiMsgRegister circumstances msgNum pid func tables = some (ret, after) ∧
    (ret = -1 → (Registered after.table msgNum pid → Registered tables.table msgNum pid) ∧
      after.funcList = tables.funcList) ∧
    (ret = 0 → Registered after.table msgNum pid ∧ ⟨msgNum, func⟩ ∈ after.funcList)

/-- How many of some bytes get through a line. -/
def Line.passed (line : Line) (count : Nat) : Nat :=
  match line.delivered with
  | none => line.sink.accepts count
  | some delivered => min delivered (line.sink.accepts count)

/-- The position of `EMI_MSG_RET_SUCCEEDED` in the flag word. -/
def succeededBit : Nat := 16

namespace Circumstances

/-- What the core is sent. -/
def upstream (circumstances : Circumstances) (msgNum pid : BitVec 32) : Source :=
  circumstances.request.source
    ((payloadBytes circumstances.order (circumstances.cmd msgNum pid)).take
      (circumstances.request.sink.accepts payloadSize))

/-- The request as the core has it, if it has a message for it and the stream does not fail. -/
def heard (circumstances : Circumstances) (msgNum pid : BitVec 32) : Option EmiMsg :=
  match allocSharedMsg circumstances.arena 0 with
  | .inl _ => none
  | .inr _ =>
      if readStatus (circumstances.upstream msgNum pid) payloadSize = 0 then
        some (recorded circumstances.order (circumstances.upstream msgNum pid) emptyMsg)
      else none

/-- The core has an entry to insert for this msg and this process, and no reason to refuse. -/
def Commits (circumstances : Circumstances) (msgNum pid : BitVec 32) (table : Table) : Prop :=
  circumstances.opened ∧ circumstances.connected ∧ circumstances.mapFound ∧
    scanRefuses table msgNum pid = false ∧
    ∃ message ∈ circumstances.heard msgNum pid,
      Holds message.flag cmdRegister ∧ message.msg = msgNum ∧ message.cmd = pid

/-- How many bytes of a reply come back. Without a request and an entry there is none. -/
def replied (circumstances : Circumstances) (msgNum pid : BitVec 32) : Nat :=
  if (circumstances.heard msgNum pid).isSome ∧ circumstances.mapFound then
    circumstances.reply.passed payloadSize
  else 0

/-- The process takes what comes back for a success, and has memory for the function. The
bit that tells is the one of the stack until its byte has come. -/
def Completes (circumstances : Circumstances) (msgNum pid : BitVec 32) (table : Table) : Prop :=
  circumstances.opened ∧ circumstances.connected ∧
    circumstances.request.sink.accepts payloadSize = payloadSize ∧
    (payloadSize ≤ circumstances.replied msgNum pid ∨ circumstances.reply.delivered = none) ∧
    (if byteOf circumstances.order succeededBit < circumstances.replied msgNum pid then
      scanRefuses table msgNum pid = false
    else Holds circumstances.stale.flag retSucceeded) ∧
    circumstances.funcFound

end Circumstances

/-- What a line delivers of the bytes that its writer got rid of. -/
theorem Line.source_exact (line : Line) (bytes : List Byte) :
    (line.source (bytes.take (line.sink.accepts bytes.length))).bytes =
        bytes.take (line.passed bytes.length) ∧
      ((line.source (bytes.take (line.sink.accepts bytes.length))).ending = .closed ↔
        line.delivered = none) := by
  cases delivered : line.delivered with
  | none => simp [Line.source, Line.passed, delivered]
  | some count => simp [Line.source, Line.passed, delivered, List.take_take]

/-- No more gets through than was sent. -/
theorem Line.passed_le (line : Line) (count : Nat) : line.passed count ≤ count := by
  have accepted := line.sink.accepts_le count
  cases delivered : line.delivered with
  | none => simpa [Line.passed, delivered] using accepted
  | some limit =>
    simp only [Line.passed, delivered]
    omega

/-- Reading a payload behind a line: what is stored, and when it counts as complete. -/
theorem Line.payload_read (line : Line) (order : ByteOrder) (sent message : EmiMsg) :
    recorded order (line.source ((payloadBytes order sent).take
        (line.sink.accepts payloadSize))) message =
        overwritePayload order message ((payloadBytes order sent).take
          (line.passed payloadSize)) ∧
      (readStatus (line.source ((payloadBytes order sent).take
          (line.sink.accepts payloadSize))) payloadSize = 0 ↔
        payloadSize ≤ line.passed payloadSize ∨ line.delivered = none) := by
  have exact := line.source_exact (payloadBytes order sent)
  rw [payloadBytes_length] at exact
  obtain ⟨bytes, ending⟩ := exact
  have bound := line.passed_le payloadSize
  constructor
  · rw [recorded, bytes, List.take_take, Nat.min_eq_right bound]
  · have length : ((payloadBytes order sent).take (line.passed payloadSize)).length =
        line.passed payloadSize := by
      rw [List.length_take, payloadBytes_length, Nat.min_eq_left bound]
    rw [readStatus_zero, bytes, length, ending]

/-- Without a reply nothing is stored, and only the end of the stream counts as complete. -/
theorem Line.nothing_read (line : Line) (order : ByteOrder) (message : EmiMsg) :
    recorded order (line.source []) message = message ∧
      (readStatus (line.source []) payloadSize = 0 ↔ line.delivered = none) := by
  have unchanged : overwritePayload order message [] = message := by
    rw [overwritePayload, List.nil_append, List.length_nil, List.drop_zero,
      withPayload_payloadBytes]
    rfl
  cases delivered : line.delivered with
  | none => simp [Line.source, delivered, recorded, unchanged, readStatus]
  | some count => simp [Line.source, delivered, recorded, unchanged, readStatus, payloadSize]

/-- What is written to a line, and whether that is all. -/
theorem Line.payload_written (line : Line) (order : ByteOrder) (message : EmiMsg) :
    ∃ written, emiMsgWritePayload order line.sink message =
        some (writeStatus line.sink payloadSize, written) ∧
      written.sent = (payloadBytes order message).take (line.sink.accepts payloadSize) := by
  obtain ⟨written, wrote, sent, _⟩ := emiWrite_exact line.sink (payloadBytes order message)
  rw [payloadBytes_length] at wrote sent
  refine ⟨written, ?_, ?_⟩
  · rw [emiMsgWritePayload, wrote]
    simp only [Option.bind_eq_bind, Option.bind_some, Option.pure_def, checked_writeStatus]
  · rw [sent]
    exact List.nil_append _

section Tables

variable {table : Table} {msg pid : BitVec 32}

/-- A registered process is refused. -/
theorem Registered.refused (registered : Registered table msg pid) :
    scanRefuses table msg pid = true := by
  obtain ⟨map, member, same⟩ := registered
  exact List.any_eq_true.mpr ⟨map, (mem_entriesOf.mp member).1, decide_eq_true same⟩

/-- An insertion registers its process and no other. -/
theorem registered_insert {newMsg newPid : BitVec 32} :
    Registered (emiHinsert table newMsg newPid) msg pid ↔
      newMsg = msg ∧ newPid = pid ∨ Registered table msg pid := by
  by_cases same : newMsg = msg
  · subst same
    simp [Registered, entriesOf_insert, Table.newMap]
  · simp [Registered, entriesOf_insert_other same, same]

/-- Sweeps register nobody. -/
theorem registered_of_sweepAll {sweeps : List (BitVec 32 → Bool)} {swept : BitVec 32}
    (registered : Registered (sweepAll sweeps swept table) msg pid) :
    Registered table msg pid := by
  induction sweeps generalizing table with
  | nil => exact registered
  | cons alive rest inductionHypothesis =>
    obtain ⟨map, member, same⟩ := inductionHypothesis registered
    obtain ⟨inside, found⟩ := mem_entriesOf.mp member
    exact ⟨map, mem_entriesOf.mpr ⟨mem_of_mem_sweep inside, found⟩, same⟩

end Tables

section Exchange

variable {Func : Type} {circumstances : Circumstances} {msgNum pid : BitVec 32} {table : Table}

/-- The table of the core behind the request, and its reply. -/
def Circumstances.outcome (circumstances : Circumstances) (msgNum pid : BitVec 32)
    (table : Table) : Table × Option EmiMsg :=
  match circumstances.heard msgNum pid with
  | none => (table, none)
  | some message => serve circumstances table message

/-- What the process is sent back. -/
def Circumstances.downstream (circumstances : Circumstances) (answer : Option EmiMsg) : Source :=
  circumstances.reply.source (match answer with
    | none => []
    | some message => (payloadBytes circumstances.order message).take
        (circumstances.reply.sink.accepts payloadSize))

/-- `alloc_shared_msg` leaves an empty record. -/
theorem allocSharedMsg_empty {arena : Shm} {shared : Shared}
    (allocated : allocSharedMsg arena 0 = .inr shared) : shared.message = emptyMsg := by
  rw [allocSharedMsg] at allocated
  split at allocated
  · cases allocated
  · cases allocated
    rfl

/-- A request for registration announces no data, not even where it is cut off. -/
theorem heard_size : (recorded circumstances.order (circumstances.upstream msgNum pid)
    emptyMsg).size = 0 := by
  have read := circumstances.request.payload_read circumstances.order
    (circumstances.cmd msgNum pid) emptyMsg
  rw [Circumstances.upstream, read.1]
  exact overwritePayload_size circumstances.order emptyMsg _ _ rfl

/-- The core serves what it heard. -/
theorem emiReceiveOperation_exact : emiReceiveOperation circumstances table
    (circumstances.upstream msgNum pid) = some (circumstances.outcome msgNum pid table) := by
  rw [emiReceiveOperation, Circumstances.outcome, Circumstances.heard]
  cases allocated : allocSharedMsg circumstances.arena 0 with
  | inl arena => rfl
  | inr msgPos =>
    have empty := allocSharedMsg_empty allocated
    obtain ⟨after, read, _⟩ := emiMsgReadPayload_exact circumstances.order
      (circumstances.upstream msgNum pid) msgPos.message
    have received := emiMsgRead_stored circumstances.order
      ⟨msgPos, circumstances.upstream msgNum pid⟩ after read
    have record : (stored circumstances.order
        ⟨msgPos, circumstances.upstream msgNum pid⟩).message =
        recorded circumstances.order (circumstances.upstream msgNum pid) emptyMsg := by
      rw [stored, empty]
    have small : ¬ (stored circumstances.order
        ⟨msgPos, circumstances.upstream msgNum pid⟩).message.size.toNat > 0 := by
      rw [record, heard_size]
      decide
    by_cases whole : readStatus (circumstances.upstream msgNum pid) payloadSize = 0
    · rw [if_neg (not_not_intro whole), if_neg small] at received
      simp only [received, if_pos whole]
      exact congrArg (fun message => some (serve circumstances table message)) record
    · rw [if_pos whole] at received
      simp only [received, if_neg whole]
      rfl

/-- A request that was sent whole is heard whole or not at all. -/
theorem heard_whole
    (sent : circumstances.request.sink.accepts payloadSize = payloadSize) {message : EmiMsg}
    (heard : circumstances.heard msgNum pid = some message) :
    message = carry emptyMsg (circumstances.cmd msgNum pid) := by
  rw [Circumstances.heard] at heard
  split at heard
  · cases heard
  obtain ⟨complete, recorded⟩ := Option.ite_none_right_eq_some.mp heard
  obtain ⟨stored, status⟩ := circumstances.request.payload_read circumstances.order
    (circumstances.cmd msgNum pid) emptyMsg
  have bound := circumstances.request.passed_le payloadSize
  have passed : circumstances.request.passed payloadSize = payloadSize := by
    rcases status.mp complete with whole | undisturbed
    · exact Nat.le_antisymm bound whole
    · rw [Line.passed, undisturbed]
      exact sent
  have whole := List.take_of_length_le
    (Nat.le_of_eq (payloadBytes_length circumstances.order (circumstances.cmd msgNum pid)))
  rw [← Option.some.inj recorded, Circumstances.upstream, stored, passed, whole,
    overwritePayload_complete _ _ _ (payloadBytes_length _ _), withPayload_payloadBytes]

/-- A request that was sent whole is for registration. -/
theorem carried_register : Holds (carry emptyMsg (circumstances.cmd msgNum pid)).flag cmdRegister :=
  holds_raise _ _ (by decide)

/-- The process goes through with the call: what it reads tells of success. -/
def Circumstances.Told (circumstances : Circumstances) (msgNum pid : BitVec 32)
    (table : Table) : Prop :=
  circumstances.request.sink.accepts payloadSize = payloadSize ∧
    readStatus (circumstances.downstream (circumstances.outcome msgNum pid table).2)
      payloadSize = 0 ∧
    Holds (recorded circumstances.order
      (circumstances.downstream (circumstances.outcome msgNum pid table).2)
      (circumstances.cmd msgNum pid)).flag retSucceeded ∧
    circumstances.funcFound

/-- What the core writes back arrives as the stream of the process. -/
theorem writeReply_exact (circumstances : Circumstances) (answer : Option EmiMsg) :
    ∃ ret written, writeReply circumstances answer = some (ret, written) ∧
      circumstances.reply.source written.sent = circumstances.downstream answer := by
  cases answer with
  | none => exact ⟨0, circumstances.reply.sink, rfl, rfl⟩
  | some message =>
    obtain ⟨written, wrote, sent⟩ := circumstances.reply.payload_written circumstances.order message
    exact ⟨_, written, wrote, congrArg circumstances.reply.source sent⟩

/-- The result of a call that gets a connection. -/
theorem emiMsgRegister_exact (opened : circumstances.opened) (connected : circumstances.connected)
    (func : Func) (tables : Tables Func) :
    ∃ ret funcList, emiMsgRegister circumstances msgNum pid func tables =
        some (ret, ⟨(circumstances.outcome msgNum pid tables.table).1, funcList⟩) ∧
      (circumstances.Told msgNum pid tables.table ∧ ret = 0 ∧
          funcList = ⟨msgNum, func⟩ :: tables.funcList ∨
        ¬ circumstances.Told msgNum pid tables.table ∧ ret = -1 ∧
          funcList = tables.funcList) := by
  obtain ⟨upstream, written, sent⟩ := circumstances.request.payload_written circumstances.order
    (circumstances.cmd msgNum pid)
  obtain ⟨_, downstream, replied, arrives⟩ :=
    writeReply_exact circumstances (circumstances.outcome msgNum pid tables.table).2
  obtain ⟨rest, read, _⟩ := emiMsgReadPayload_exact circumstances.order
    (circumstances.downstream (circumstances.outcome msgNum pid tables.table).2)
    (circumstances.cmd msgNum pid)
  have served := @emiReceiveOperation_exact circumstances msgNum pid tables.table
  have same : circumstances.request.source upstream.sent = circumstances.upstream msgNum pid :=
    congrArg circumstances.request.source sent
  rw [emiMsgRegister, if_neg (not_not_intro opened), if_neg (not_not_intro connected)]
  simp only [written, same, served, replied, arrives, read, Option.bind_eq_bind, Option.bind_some,
    Option.pure_def]
  by_cases unsent : writeStatus circumstances.request.sink payloadSize ≠ 0
  · rw [if_pos unsent]
    refine ⟨-1, _, rfl, Or.inr ⟨?_, rfl, rfl⟩⟩
    intro told
    exact unsent (if_pos told.1)
  rw [if_neg unsent]
  by_cases cut : readStatus (circumstances.downstream
      (circumstances.outcome msgNum pid tables.table).2) payloadSize ≠ 0
  · rw [if_pos cut]
    exact ⟨-1, _, rfl, Or.inr ⟨fun told => cut told.2.1, rfl, rfl⟩⟩
  rw [if_neg cut]
  by_cases failed : ¬ Holds (recorded circumstances.order (circumstances.downstream
      (circumstances.outcome msgNum pid tables.table).2)
      (circumstances.cmd msgNum pid)).flag retSucceeded
  · rw [recorded] at failed
    rw [if_pos failed]
    exact ⟨-1, _, rfl, Or.inr ⟨fun told => failed told.2.2.1, rfl, rfl⟩⟩
  by_cases full : ¬ circumstances.funcFound
  · rw [recorded] at failed
    rw [if_neg failed, if_pos full]
    exact ⟨-1, _, rfl, Or.inr ⟨fun told => full told.2.2.2, rfl, rfl⟩⟩
  have told : circumstances.Told msgNum pid tables.table :=
    ⟨Decidable.byContradiction fun short => unsent (by rw [writeStatus, if_neg short]; decide),
      Decidable.not_not.mp cut, Decidable.not_not.mp failed, Decidable.not_not.mp full⟩
  rw [recorded] at failed
  rw [if_neg failed, if_neg full]
  exact ⟨0, _, rfl, Or.inl ⟨told, rfl, rfl⟩⟩

/-- The bit that tells, behind a reply that may be cut off. -/
theorem told_bit (answer : EmiMsg) : Holds (recorded circumstances.order
    (circumstances.downstream (some answer)) (circumstances.cmd msgNum pid)).flag retSucceeded ↔
      if byteOf circumstances.order succeededBit < circumstances.reply.passed payloadSize then
        Holds answer.flag retSucceeded
      else Holds circumstances.stale.flag retSucceeded := by
  have bit (flag : BitVec 32) : Holds flag retSucceeded ↔ flag.getLsbD succeededBit = true :=
    holds_twoPow flag succeededBit (by decide)
  have own : Holds (circumstances.cmd msgNum pid).flag retSucceeded ↔
      Holds circumstances.stale.flag retSucceeded := holds_raise_apart _ _ _ (by decide)
  have stored := (circumstances.reply.payload_read circumstances.order answer
    (circumstances.cmd msgNum pid)).1
  rw [Circumstances.downstream, stored, bit,
    overwritePayload_flag _ _ _ _ succeededBit (by decide)]
  split
  · exact (bit answer.flag).symm
  · rw [← bit, own]

/-- What the core answers to a request that it heard whole. -/
theorem outcome_whole (heard : circumstances.heard msgNum pid =
    some (carry emptyMsg (circumstances.cmd msgNum pid))) (found : circumstances.mapFound) :
    ∃ answer, (circumstances.outcome msgNum pid table).2 = some answer ∧
      (Holds answer.flag retSucceeded ↔ scanRefuses table msgNum pid = false) := by
  rw [Circumstances.outcome, heard]
  simp only [serve, if_pos carried_register, if_pos found]
  change ∃ answer, (if scanRefuses table msgNum pid then _ else _ : Table × Option EmiMsg).2 =
    some answer ∧ _
  cases refused : scanRefuses table msgNum pid with
  | true =>
    refine ⟨_, rfl, iff_of_false ?_ Bool.noConfusion⟩
    exact not_holds_lower _ _
  | false =>
    refine ⟨_, rfl, iff_of_true ?_ rfl⟩
    exact holds_raise _ _ (by decide)

/-- Without a request that the core can serve there is no answer. -/
theorem outcome_silent
    (sent : circumstances.request.sink.accepts payloadSize = payloadSize)
    (silent : ¬ ((circumstances.heard msgNum pid).isSome ∧ circumstances.mapFound)) :
    circumstances.outcome msgNum pid table = (table, none) := by
  rw [Circumstances.outcome]
  cases heard : circumstances.heard msgNum pid with
  | none => rfl
  | some message =>
    have missing : ¬ circumstances.mapFound := fun found => silent ⟨by rw [heard]; rfl, found⟩
    rw [heard_whole sent heard]
    simp only [serve, if_pos carried_register, if_neg missing]

/-- The call goes through just when it takes what comes back for a success. -/
theorem completes_iff (opened : circumstances.opened) (connected : circumstances.connected) :
    circumstances.Completes msgNum pid table ↔ circumstances.Told msgNum pid table := by
  rw [Circumstances.Completes, Circumstances.Told]
  simp only [opened, connected, true_and]
  refine and_congr_right fun sent => ?_
  rw [← and_assoc, ← and_assoc]
  refine and_congr_left fun _ => ?_
  by_cases answered : (circumstances.heard msgNum pid).isSome ∧ circumstances.mapFound
  · obtain ⟨message, heard⟩ := Option.isSome_iff_exists.mp answered.1
    rw [heard_whole sent heard] at heard
    obtain ⟨answer, replies, success⟩ :=
      @outcome_whole circumstances msgNum pid table heard answered.2
    rw [replies, told_bit, success, Circumstances.replied, if_pos answered]
    apply and_congr_left
    intro _
    exact ((circumstances.reply.payload_read circumstances.order answer answer).2).symm
  · obtain ⟨unchanged, status⟩ := circumstances.reply.nothing_read circumstances.order
      (circumstances.cmd msgNum pid)
    have own : Holds (circumstances.cmd msgNum pid).flag retSucceeded ↔
        Holds circumstances.stale.flag retSucceeded := holds_raise_apart _ _ _ (by decide)
    rw [outcome_silent sent answered, Circumstances.replied, if_neg answered]
    simp only [Circumstances.downstream, unchanged, status, own]
    simp [payloadSize]

/-- Where the core has an entry to insert, it is there behind the request. -/
theorem Circumstances.Commits.registered (commits : circumstances.Commits msgNum pid table) :
    Registered (circumstances.outcome msgNum pid table).1 msgNum pid := by
  obtain ⟨_, _, found, unrefused, message, heard, register, rfl, rfl⟩ := commits
  rw [Circumstances.outcome, heard]
  simp only [serve, if_pos register, if_pos found, unrefused]
  exact registered_insert.mpr (Or.inl ⟨rfl, rfl⟩)

/-- An entry that is there behind the request was there before, or the core had it to
insert. -/
theorem registered_behind (opened : circumstances.opened) (connected : circumstances.connected)
    (registered : Registered (circumstances.outcome msgNum pid table).1 msgNum pid) :
    circumstances.Commits msgNum pid table ∨ Registered table msgNum pid := by
  rw [Circumstances.outcome] at registered
  cases heard : circumstances.heard msgNum pid with
  | none =>
    rw [heard] at registered
    exact Or.inr registered
  | some message =>
    rw [heard] at registered
    simp only [serve] at registered
    by_cases register : Holds message.flag cmdRegister
    · by_cases found : circumstances.mapFound
      · simp only [if_pos register, if_pos found] at registered
        cases refused : scanRefuses table message.msg message.cmd with
        | true =>
          rw [refused] at registered
          exact Or.inr registered
        | false =>
          rw [refused] at registered
          rcases registered_insert.mp registered with ⟨rfl, rfl⟩ | before
          · exact Or.inl ⟨opened, connected, found, refused, message, heard, register, rfl, rfl⟩
          · exact Or.inr before
      · simp only [if_pos register, if_neg found] at registered
        exact Or.inr registered
    · simp only [if_neg register] at registered
      exact Or.inr (registered_of_sweepAll registered)

/-- An entry that was there is still there behind a request that was sent whole. -/
theorem Registered.behind (registered : Registered table msgNum pid)
    (sent : circumstances.request.sink.accepts payloadSize = payloadSize) :
    Registered (circumstances.outcome msgNum pid table).1 msgNum pid := by
  by_cases answered : (circumstances.heard msgNum pid).isSome ∧ circumstances.mapFound
  · obtain ⟨message, heard⟩ := Option.isSome_iff_exists.mp answered.1
    rw [heard_whole sent heard] at heard
    rw [Circumstances.outcome, heard]
    simp only [serve, if_pos carried_register, if_pos answered.2]
    split
    · exact registered
    · exact registered_insert.mpr (Or.inr registered)
  · rw [outcome_silent sent answered]
    exact registered

end Exchange

/-- A failed call changes nothing, and a successful one enters both, just when the core
has an entry to insert only where the call then completes, and the call completes
only where there is such an entry or was one before. -/
theorem failure_changes_nothing_iff {Func : Type} (circumstances : Circumstances)
    (msgNum pid : BitVec 32) (func : Func) (tables : Tables Func) :
    FailureChangesNothing circumstances msgNum pid func tables ↔
      (circumstances.Commits msgNum pid tables.table →
        circumstances.Completes msgNum pid tables.table) ∧
      (circumstances.Completes msgNum pid tables.table →
        circumstances.Commits msgNum pid tables.table ∨ Registered tables.table msgNum pid) := by
  by_cases connection : circumstances.opened ∧ circumstances.connected
  · obtain ⟨opened, connected⟩ := connection
    have behind := @registered_behind circumstances msgNum pid tables.table opened connected
    obtain ⟨ret, funcList, called, ⟨told, rfl, rfl⟩ | ⟨untold, rfl, rfl⟩⟩ :=
      @emiMsgRegister_exact Func circumstances msgNum pid opened connected func tables
    · have completes := (completes_iff opened connected).mpr told
      constructor
      · rintro ⟨ret, after, result, _, entered⟩
        obtain ⟨rfl, rfl⟩ := Prod.mk.inj (Option.some.inj (called.symm.trans result))
        exact ⟨fun _ => completes, fun _ => behind (entered rfl).1⟩
      · rintro ⟨_, entered⟩
        refine ⟨0, _, called, fun failed => absurd failed (by decide), fun _ => ?_⟩
        refine ⟨?_, List.mem_cons_self⟩
        rcases entered completes with commits | before
        · exact commits.registered
        · exact before.behind told.1
    · have incomplete := mt (completes_iff opened connected).mp untold
      constructor
      · rintro ⟨ret, after, result, unchanged, _⟩
        obtain ⟨rfl, rfl⟩ := Prod.mk.inj (Option.some.inj (called.symm.trans result))
        refine ⟨fun commits => ?_, fun completes => absurd completes incomplete⟩
        have before := ((unchanged rfl).1 commits.registered).refused
        rw [commits.2.2.2.1] at before
        cases before
      · rintro ⟨harmless, _⟩
        refine ⟨-1, _, called, fun _ => ⟨fun registered => ?_, rfl⟩,
          fun succeeded => absurd succeeded (by decide)⟩
        rcases behind registered with commits | before
        · exact absurd (harmless commits) incomplete
        · exact before
  · have called : emiMsgRegister circumstances msgNum pid func tables = some (-1, tables) := by
      rw [emiMsgRegister]
      by_cases opened : circumstances.opened
      · have unconnected : ¬ circumstances.connected := fun connected =>
          connection ⟨opened, connected⟩
        rw [if_neg (not_not_intro opened), if_pos unconnected]
      · rw [if_pos opened]
    apply iff_of_true
    · exact ⟨-1, tables, called, fun _ => ⟨id, rfl⟩, fun succeeded => absurd succeeded (by decide)⟩
    · exact ⟨fun commits => absurd ⟨commits.1, commits.2.1⟩ connection,
        fun completes => absurd ⟨completes.1, completes.2.1⟩ connection⟩

/-- Everything goes well until `malloc` finds no memory for the function. -/
def withoutMemory : Circumstances where
  order := .little
  opened := true
  connected := true
  stale := emptyMsg
  request := ⟨none, none, [], []⟩
  arena := { emptyArena with offers := [some 0] }
  mapFound := true
  sweeps := []
  reply := ⟨none, none, [], []⟩
  funcFound := false

/-- The call fails, and the entry stays. -/
theorem failed_call_stays : ¬ ∀ (circumstances : Circumstances) (tables : Tables Nat),
    FailureChangesNothing circumstances 1 7 0 tables := by
  intro claimed
  obtain ⟨ret, after, result, unchanged, _⟩ := claimed withoutMemory ⟨initMsgTable, []⟩
  have called : emiMsgRegister withoutMemory 1 7 0 ⟨initMsgTable, []⟩ =
      some (-1, ⟨emiHinsert initMsgTable 1 7, []⟩) := rfl
  obtain ⟨rfl, rfl⟩ := Prod.mk.inj (Option.some.inj (called.symm.trans result))
  have registered : Registered (emiHinsert initMsgTable 1 7) 1 7 :=
    registered_insert.mpr (Or.inl ⟨rfl, rfl⟩)
  obtain ⟨map, member, _⟩ := (unchanged rfl).1 registered
  cases member

end Emilib.RegistrationFailures
