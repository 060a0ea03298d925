import Emilib.ReceiverCount
import Emilib.ReturnData

/-!
# The verdict of a block-mode send

The reply of a block-mode send carries one bit of success. The worker raises it
before it signals the receivers. A handler that does not return zero lowers it,
and so does a failing `emi_retdata_alloc`. The worker lowers it once more when it
swept every receiver. Nothing raises it again.

Read off the history of the run, the bit at the reply says that somebody
finished, that everybody who finished returned zero, and that no allocation
failed. The invariant carries the last two along as long as the worker waits. The
first is decided at the last test of the count. Then every receiver finished or
was swept, and the receivers left to sweep are those that finished.
-/

namespace Emilib.ReceiverCount

open CountDown FlagBits Messages

/-- A call of `emi_retdata_alloc` lowers the success bit exactly when it was
asked for something and returns NULL, which is the step `allocFails`. -/
theorem emiRetdataAlloc_flag (shared : SharedBlocks.Shared) (size : BitVec 32) :
    (ReturnData.emiRetdataAlloc shared size).2.message.flag =
      if size ≠ 0 ∧ (ReturnData.emiRetdataAlloc shared size).1 = none then
        lower shared.message.flag retSucceeded
      else shared.message.flag := by
  by_cases zero : size = 0
  · have answer : ReturnData.emiRetdataAlloc shared size = (none, shared) := if_pos zero
    rw [answer, if_neg (fun asked => asked.1 zero)]
  by_cases blocking : Holds shared.message.flag modeBlock
  · cases found : SharedBlocks.emiAlloc shared.shm (size.toNat + sizeofRetdata) with
    | mk address shm =>
      cases address with
      | none =>
        have answer : ReturnData.emiRetdataAlloc shared size =
            (none, ReturnData.failReply { shared with shm := shm }) := by
          simp only [ReturnData.emiRetdataAlloc, if_neg zero, blocking, not_true, if_false, found]
        rw [answer, if_pos ⟨zero, rfl⟩]
        rfl
      | some addr =>
        have answer : ReturnData.emiRetdataAlloc shared size =
            (some addr, ReturnData.pushRetdata { shared with shm := shm } addr size) := by
          simp only [ReturnData.emiRetdataAlloc, if_neg zero, blocking, not_true, if_false, found]
        rw [answer, if_neg (fun asked => Option.some_ne_none addr asked.2)]
        rfl
  · have answer : ReturnData.emiRetdataAlloc shared size = (none, ReturnData.failReply shared) := by
      simp only [ReturnData.emiRetdataAlloc, if_neg zero, blocking, not_false_eq_true, if_true]
    rw [answer, if_pos ⟨zero, rfl⟩]
    rfl

/-- A receiver that has decremented the count does not exit before the reply. -/
def StaysUntilReply (send : Send) : Action → Prop
  | .exit pid => send.stage pid ≠ .finished
  | _ => True

instance (send : Send) (action : Action) : Decidable (StaysUntilReply send action) :=
  match action with
  | .exit _ => inferInstanceAs (Decidable (_ ≠ _))
  | .work | .take _ | .allocFails _ | .finish _ _ => inferInstanceAs (Decidable True)

/-- Everybody who finished returned zero, and every allocation succeeded. A
process without a function for the message counts as returning -1. -/
def Unblemished (history : List Action) : Prop :=
  (∀ pid result, .finish pid result ∈ history → result.getD (-1) = 0) ∧
    ∀ pid, .allocFails pid ∉ history

/-- Somebody finished, and nothing went wrong. -/
def Unanimous (history : List Action) : Prop :=
  (∃ pid result, .finish pid result ∈ history) ∧ Unblemished history

/-- The invariant of the recorded runs of a send. The receivers not swept are
counted by `max_exit_receiver`, and in block mode the success bit follows the
history, at the reply also in that somebody finished. -/
structure Judged (send : Send) (history : List Action) : Prop where
  sound : Sound send
  staying : ∀ pid, send.stage pid = .finished → send.alive pid = true
  recorded : ∀ pid, send.stage pid = .finished ↔ ∃ result, .finish pid result ∈ history
  unswept : send.maxExitReceiver = BitVec.ofNat 32 send.entries.length
  judged : Holds send.flag modeBlock → (Holds send.flag retSucceeded ↔
    (send.worker = .left → ∃ pid, send.stage pid = .finished) ∧ Unblemished history)

/-- Steps that report nothing leave a history unblemished. -/
theorem unblemished_cons {action : Action} (history : List Action)
    (finished : ∀ pid result, action ≠ .finish pid result)
    (failed : ∀ pid, action ≠ .allocFails pid) :
    Unblemished (action :: history) ↔ Unblemished history := by
  simp [Unblemished, (finished _ _).symm, (failed _).symm]

/-- A handler that returned zero leaves a history unblemished. -/
theorem unblemished_finish (history : List Action) (pid : Pid) {result : Option (BitVec 32)}
    (zero : result.getD (-1) = 0) :
    Unblemished (.finish pid result :: history) ↔ Unblemished history := by
  constructor
  · intro unblemished
    constructor
    · exact fun other earlier member => unblemished.1 other earlier (List.mem_cons_of_mem _ member)
    · exact fun other member => unblemished.2 other (List.mem_cons_of_mem _ member)
  · intro unblemished
    constructor
    · intro other earlier member
      rcases List.mem_cons.mp member with same | before
      · cases same
        exact zero
      · exact unblemished.1 other earlier before
    · intro other member
      rcases List.mem_cons.mp member with same | before
      · cases same
      · exact unblemished.2 other before

/-- The counting pass, whatever the request's flags were. -/
theorem begin_judged {entries : List Pid} (distinct : entries.Nodup) (flag : BitVec 32)
    (alive : Pid → Bool) : Judged (begin entries flag alive) [] where
  sound := begin_sound distinct flag alive
  staying pid finished := by cases finished
  recorded pid := by simp [begin]
  unswept := by simp [begin, countUp_exact]
  judged _ := by
    have unblemished : Unblemished [] := by simp [Unblemished]
    by_cases nobody : (countUp entries 0 : BitVec 32) = 0
    · have flagged : (begin entries flag alive).flag = lower flag retSucceeded :=
        if_neg (fun counted => counted nobody)
      have left : (begin entries flag alive).worker = .left :=
        if_neg (fun counted => counted nobody)
      rw [flagged]
      refine iff_of_false (not_holds_lower _ _) fun verdict => ?_
      obtain ⟨pid, finished⟩ := verdict.1 left
      cases finished
    · have flagged : (begin entries flag alive).flag = raise flag retSucceeded := if_pos nobody
      have place : (begin entries flag alive).worker = .signalling entries := if_pos nobody
      rw [flagged]
      refine iff_of_true (holds_raise _ _ (by decide)) ⟨fun left => ?_, unblemished⟩
      rw [place] at left
      cases left

/-- A step of the worker behind which it is still in its loop: it changes neither
the flag nor who is alive or finished. -/
theorem Judged.waiting {send after : Send} {history : List Action} (judged : Judged send history)
    (sound : Sound after) (alive : after.alive = send.alive)
    (finished : ∀ pid, after.stage pid = .finished ↔ send.stage pid = .finished)
    (unswept : after.maxExitReceiver = BitVec.ofNat 32 after.entries.length)
    (flag : after.flag = send.flag) (before : send.worker ≠ .left) (waits : after.worker ≠ .left) :
    Judged after (.work :: history) where
  sound := sound
  staying pid done := by
    rw [alive]
    exact judged.staying pid ((finished pid).mp done)
  recorded pid := by simpa [finished pid] using judged.recorded pid
  unswept := unswept
  judged blocking := by
    rw [flag] at blocking ⊢
    rw [unblemished_cons history (by simp) (by simp), judged.judged blocking]
    simp [before, waits]

/-- Such is a step that only goes on to another place of the loop. -/
theorem Judged.moving {send : Send} {history : List Action} (judged : Judged send history)
    {worker : Worker} (sound : Sound { send with worker := worker })
    (before : send.worker ≠ .left) (waits : worker ≠ .left) :
    Judged { send with worker := worker } (.work :: history) :=
  judged.waiting sound rfl (fun _ => Iff.rfl) judged.unswept rfl before waits

/-- The receivers that the sweeps left are those that finished, once the count
is zero. -/
theorem Judged.unswept_finished {send : Send} {history : List Action}
    (judged : Judged send history) (zero : send.tally.count = 0) (pid : Pid) :
    pid ∈ send.entries ↔ send.stage pid = .finished := by
  constructor
  · intro listed
    have member := judged.sound.listed pid listed
    have settled := judged.sound.balanced.settled zero member
    exact ((judged.sound.subtracted pid member).mp settled).resolve_right (fun out => out listed)
  · intro finished
    have member := judged.sound.active pid (by simp [finished])
    by_contra missing
    have dead := judged.sound.removed pid member missing
    rw [judged.staying pid finished] at dead
    cases dead

/-- Once the count is zero, `max_exit_receiver` is zero exactly when nobody
finished. -/
theorem Judged.all_swept {send : Send} {history : List Action} (judged : Judged send history)
    (zero : send.tally.count = 0) :
    send.maxExitReceiver = 0 ↔ ¬ ∃ pid, send.stage pid = .finished := by
  have few := pids_few judged.sound.distinct
  have counts : send.maxExitReceiver = 0 ↔ send.entries.length = 0 := by
    rw [judged.unswept]
    constructor
    · intro same
      have value := congrArg BitVec.toNat same
      rw [BitVec.toNat_ofNat, Nat.mod_eq_of_lt few] at value
      exact value
    · intro none
      rw [none]
      rfl
  rw [counts, List.length_eq_zero_iff, List.eq_nil_iff_forall_not_mem, not_exists]
  exact forall_congr' fun pid => not_congr (judged.unswept_finished zero pid)

/-- The last test of the count, behind which the reply is sent. -/
theorem leave_judged {send : Send} {history : List Action} (judged : Judged send history)
    (place : send.worker = .testing) (zero : send.tally.count = 0)
    (sound : Sound { send with
      flag := if send.maxExitReceiver = 0 then lower send.flag retSucceeded else send.flag
      worker := .left }) :
    Judged { send with
      flag := if send.maxExitReceiver = 0 then lower send.flag retSucceeded else send.flag
      worker := .left } (.work :: history) where
  sound := sound
  staying := judged.staying
  recorded pid := by simpa using judged.recorded pid
  unswept := judged.unswept
  judged blocking := by
    rw [unblemished_cons history (by simp) (by simp)]
    by_cases swept : send.maxExitReceiver = 0
    · simp only [swept, if_true]
      refine iff_of_false (not_holds_lower _ _) fun verdict => ?_
      exact (judged.all_swept zero).mp swept (verdict.1 trivial)
    · simp only [swept, if_false] at blocking ⊢
      have somebody := not_not.mp (mt (judged.all_swept zero).mpr swept)
      rw [judged.judged blocking]
      simp [place, somebody]

/-- Receivers that stay until the reply are not found gone after they finished. -/
theorem Judged.goneBeforeFinished {send : Send} {history : List Action}
    (judged : Judged send history) (action : Action) : GoneBeforeFinished send action := by
  intro _ pid _ dead finished
  rw [judged.staying pid finished] at dead
  cases dead

/-- Every step of the worker keeps the invariant. -/
theorem work_judged {send after : Send} {history : List Action} (judged : Judged send history)
    (worked : work send = some after) : Judged after (.work :: history) := by
  have sound := work_sound judged.sound (judged.goneBeforeFinished .work) worked
  have placed := judged.sound.placed
  rw [Placed] at placed
  cases work_moves worked with
  | signalled place | skip _ _ place | taken _ _ place | check place | swept place
  | keep _ _ place | find _ _ place =>
    exact judged.moving sound (by simp [place]) (by simp)
  | signal pid rest place =>
    rw [place] at placed
    have waits := (placed.2 pid List.mem_cons_self).2
    have finished (other : Pid) : Function.update send.stage pid .signalled other = .finished ↔
        send.stage other = .finished := by
      rcases eq_or_ne other pid with rfl | different
      · simp [waits]
      · simp [different]
    exact judged.waiting sound rfl finished judged.unswept rfl (by simp [place]) (by simp)
  | leave place zero => exact leave_judged judged place zero sound
  | remove gone rest place =>
    rw [place] at placed
    have listed : gone ∈ send.entries := placed.2.1 gone List.mem_cons_self
    have unswept : send.maxExitReceiver - 1 =
        BitVec.ofNat 32 (send.entries.erase gone).length := by
      have counted : send.entries.length = (send.entries.erase gone).length + 1 := by
        have nonempty := List.length_pos_of_mem listed
        rw [List.length_erase_of_mem listed]
        omega
      rw [judged.unswept, counted, BitVec.ofNat_add]
      exact BitVec.add_sub_cancel _ _
    exact judged.waiting sound rfl (fun _ => Iff.rfl) unswept rfl (by simp [place]) (by simp)

/-- A live receiver that has not finished holds up the worker. -/
theorem Judged.unfinished_waits {send : Send} {history : List Action}
    (judged : Judged send history) {pid : Pid} (alive : send.alive pid = true)
    (running : send.stage pid = .running) : send.worker ≠ .left := by
  intro left
  have member := judged.sound.active pid (by simp [running])
  have finished := judged.sound.accountedOnce.2 left pid member alive
  rw [running] at finished
  cases finished

/-- The end of a handler keeps the invariant: the flag is lowered unless the
handler returned zero. -/
theorem finish_judged {send : Send} {history : List Action} (judged : Judged send history)
    {pid : Pid} (alive : send.alive pid = true) (running : send.stage pid = .running)
    (result : Option (BitVec 32)) :
    Judged (finish send pid result) (.finish pid result :: history) where
  sound := finish_sound judged.sound alive running result
  staying other finished := by
    rcases eq_or_ne other pid with rfl | different
    · exact alive
    · exact judged.staying other (by simpa [finish, different] using finished)
  recorded other := by
    rcases eq_or_ne other pid with rfl | different
    · simp [finish]
    · simpa [finish, different] using judged.recorded other
  unswept := judged.unswept
  judged blocking := by
    have waits := judged.unfinished_waits alive running
    by_cases zero : result.getD (-1) = 0
    · have flagged : (finish send pid result).flag = send.flag :=
        if_neg (fun lowered => lowered.2 zero)
      rw [flagged] at blocking ⊢
      rw [judged.judged blocking, unblemished_finish history pid zero]
      simp [finish, waits]
    · have mode : Holds send.flag modeBlock := by
        by_contra other
        have flagged : (finish send pid result).flag = send.flag :=
          if_neg (fun lowered => other lowered.1)
        rw [flagged] at blocking
        exact other blocking
      have flagged : (finish send pid result).flag = lower send.flag retSucceeded :=
        if_pos ⟨mode, zero⟩
      rw [flagged]
      refine iff_of_false (not_holds_lower _ _) fun verdict => ?_
      exact zero (verdict.2.1 pid result List.mem_cons_self)

/-- Every step keeps the invariant as long as receivers stay until the reply. -/
theorem perform_judged {send after : Send} {history : List Action} {action : Action}
    (judged : Judged send history) (stays : StaysUntilReply send action)
    (taken : perform send action = some after) : Judged after (action :: history) := by
  have sound := perform_sound judged.sound (judged.goneBeforeFinished action) taken
  cases action with
  | work => exact work_judged judged taken
  | take pid =>
    obtain ⟨⟨alive, signalled⟩, taken⟩ := Option.ite_none_right_eq_some.mp taken
    obtain rfl := Option.some.inj taken
    have finished (other : Pid) : Function.update send.stage pid .running other = .finished ↔
        send.stage other = .finished := by
      rcases eq_or_ne other pid with rfl | different
      · simp [signalled]
      · simp [different]
    refine ⟨sound, ?_, ?_, judged.unswept, ?_⟩
    · exact fun other done => judged.staying other ((finished other).mp done)
    · exact fun other => by simpa [finished other] using judged.recorded other
    · intro blocking
      rw [unblemished_cons history (by simp) (by simp), judged.judged blocking]
      simp only [finished]
  | allocFails pid =>
    obtain ⟨⟨alive, running⟩, taken⟩ := Option.ite_none_right_eq_some.mp taken
    obtain rfl := Option.some.inj taken
    refine ⟨sound, judged.staying, fun other => by simpa using judged.recorded other,
      judged.unswept, fun _ => ?_⟩
    refine iff_of_false (not_holds_lower _ _) fun verdict => ?_
    exact verdict.2.2 pid List.mem_cons_self
  | finish pid result =>
    obtain ⟨⟨alive, running⟩, taken⟩ := Option.ite_none_right_eq_some.mp taken
    exact Option.some.inj taken ▸ finish_judged judged alive running result
  | exit pid =>
    obtain ⟨_, taken⟩ := Option.ite_none_right_eq_some.mp taken
    obtain rfl := Option.some.inj taken
    refine ⟨sound, ?_, fun other => by simpa using judged.recorded other, judged.unswept, ?_⟩
    · intro other finished
      have different : other ≠ pid := fun same => stays (same ▸ finished)
      change Function.update send.alive pid false other = true
      rw [Function.update_of_ne different]
      exact judged.staying other finished
    · intro blocking
      rw [unblemished_cons history (by simp) (by simp)]
      exact judged.judged blocking

/-- The verdict of a block-mode send is the conjunction of all handlers: in every
run in which nobody exits between its decrement and the reply, the reply's success
bit is set exactly when somebody finished, everybody who finished returned zero
and no allocation failed. -/
theorem verdict_unanimous (send : Send) (history : List Action)
    (reached : handling.recording.ReachedUnder (fun recorded => StaysUntilReply recorded.1)
      (send, history))
    (left : send.worker = .left) (blocking : Holds send.flag modeBlock) :
    Holds send.flag retSucceeded ↔ Unanimous history := by
  have judged : Judged send history := by
    apply System.recorded_invariant _ _ reached
    · rintro start ⟨entries, flag, alive, distinct, rfl⟩
      exact begin_judged distinct flag alive
    · intro before past action after judged stays taken
      exact perform_judged judged stays taken
  have somebody : (∃ pid, send.stage pid = .finished) ↔
      ∃ pid result, .finish pid result ∈ history := exists_congr judged.recorded
  rw [judged.judged blocking, Unanimous, ← somebody]
  simp [left]

/-- A receiver that returns zero and one that dies in its handler, and what the
worker does about them. -/
def oneDies : List Action :=
  [.work, .take firstPid, .work, .work, .take secondPid, .work, .work, .finish firstPid (some 0),
    .exit secondPid, .work, .work, .work, .work, .work, .work]

/-- The reply to `oneDies` reports success. -/
theorem oneDies_verdict :
    Holds ((System.follow perform StaysUntilReply toBoth oneDies).get (by decide)).flag
      retSucceeded ↔ Unanimous oneDies.reverse := by
  have completed : (System.follow perform StaysUntilReply toBoth oneDies).isSome := by decide
  have recorded := System.follow_recorded oneDies (.initial (toBoth, []) ⟨toBoth_starts, rfl⟩)
    (Option.some_get completed).symm
  rw [List.append_nil] at recorded
  exact verdict_unanimous _ _ recorded (by decide) (by decide)

end Emilib.ReceiverCount
