import Mathlib.Data.Fintype.EquivFin
import Emilib.CountDown
import Emilib.Messages
import Emilib.Runs

/-!
# One send and its receivers

`emi_receive_operation` counts the receivers of a message, signals them one by
one, and then waits for the count to reach zero. Each receiver decrements the
count when its handler is done. The worker decrements it for every receiver that
`kill(pid, 0)` reports gone, and removes that entry. Both happen under locks, so
they are single steps here, and they interleave in any order.

No other worker changes the entries of this message during the send. A receiver
is a process, and `emi_hinsert_unique_lock` keeps one entry for each process and
message, so the counted pids are distinct. The transfer of the offset through
`pididx` is one step of the receiver, `func_sterotype`; the worker waits for it.

Nothing records who has already decremented the count. A receiver that decrements
it and exits is decremented for once more by the next sweep that finds it gone.
-/

namespace Emilib.ReceiverCount

open CountDown FlagBits Messages

/-- A `pid_t` that names a process. -/
structure Pid where
  value : BitVec 32
  positive : 0 < value.toInt
deriving DecidableEq

/-- What a receiver has done for the message. -/
inductive Stage where
  | waiting
  | signalled
  | running
  | finished
deriving DecidableEq, Repr

/-- Where the worker is: in the signal pass, in its wait for the offset to be
taken, at the test of the count, in a sweep, or past the wait loop. -/
inductive Worker where
  | signalling (rest : List Pid)
  | spinning (pid : Pid) (rest : List Pid)
  | testing
  | sweeping (rest : List Pid)
  | removing (gone : Pid) (rest : List Pid)
  | left
deriving DecidableEq

/-- A send after its counting pass. The entries are those of the table for this
message, in the order of their chain, and a process is alive as long as `kill`
finds it. -/
structure Send where
  counted : List Pid
  entries : List Pid
  tally : Tally 32 Pid
  maxExitReceiver : BitVec 32
  flag : BitVec 32
  stage : Pid → Stage
  alive : Pid → Bool
  worker : Worker

/-- A step of the worker, or of one receiver. A handler ends with its return
value, or with none when the process has no function for the message. -/
inductive Action where
  | work
  | take (pid : Pid)
  | allocFails (pid : Pid)
  | finish (pid : Pid) (result : Option (BitVec 32))
  | exit (pid : Pid)
deriving DecidableEq

/-- The counting pass of `emi_receive_operation` and the branch behind it. -/
def begin (entries : List Pid) (flag : BitVec 32) (alive : Pid → Bool) : Send :=
  let count : BitVec 32 := countUp entries 0
  { counted := entries
    entries := entries
    tally := ⟨count, []⟩
    maxExitReceiver := count
    flag := if count ≠ 0 then raise flag retSucceeded else lower flag retSucceeded
    stage := fun _ => .waiting
    alive := alive
    worker := if count ≠ 0 then .signalling entries else .left }

/-- The next step of the worker. It has none while it spins on an offset that
was not taken, or after it left the wait loop. -/
def work (send : Send) : Option Send :=
  match send.worker with
  | .signalling [] => some { send with worker := .testing }
  | .signalling (pid :: rest) =>
      if send.alive pid then
        some { send with
          stage := Function.update send.stage pid .signalled
          worker := .spinning pid rest }
      else some { send with worker := .signalling rest }
  | .spinning pid rest =>
      if send.stage pid = .signalled then none
      else some { send with worker := .signalling rest }
  | .testing =>
      if send.tally.count = 0 then
        some { send with
          flag := if send.maxExitReceiver = 0 then lower send.flag retSucceeded else send.flag
          worker := .left }
      else some { send with worker := .sweeping send.entries }
  | .sweeping [] => some { send with worker := .testing }
  | .sweeping (pid :: rest) =>
      if send.alive pid then some { send with worker := .sweeping rest }
      else some { send with worker := .removing pid rest }
  | .removing gone rest =>
      some { send with
        tally := send.tally.subtract gone
        maxExitReceiver := send.maxExitReceiver - 1
        entries := send.entries.erase gone
        worker := .sweeping rest }
  | .left => none

/-- The end of `__func_sterotype`. -/
def finish (send : Send) (pid : Pid) (result : Option (BitVec 32)) : Send :=
  { send with
    flag := if Holds send.flag modeBlock ∧ result.getD (-1) ≠ 0 then lower send.flag retSucceeded
      else send.flag
    tally := send.tally.subtract pid
    stage := Function.update send.stage pid .finished }

/-- The step an action names, if it can be taken. -/
def perform (send : Send) : Action → Option Send
  | .work => work send
  | .take pid =>
      if send.alive pid ∧ send.stage pid = .signalled then
        some { send with stage := Function.update send.stage pid .running }
      else none
  | .allocFails pid =>
      if send.alive pid ∧ send.stage pid = .running then
        some { send with flag := lower send.flag retSucceeded }
      else none
  | .finish pid result =>
      if send.alive pid ∧ send.stage pid = .running then some (finish send pid result) else none
  | .exit pid =>
      if send.alive pid then some { send with alive := Function.update send.alive pid false }
      else none

/-- The runs of one send, from its counting pass on. -/
def handling : System Send Action :=
  System.performing
    (fun send => ∃ entries flag alive, entries.Nodup ∧ send = begin entries flag alive) perform

/-- Every counted receiver was subtracted at most once, the count reads how many
were not, and the worker has left the wait loop only when every receiver that is
still alive has done its own decrement. -/
def AccountedOnce (send : Send) : Prop :=
  Balanced send.counted send.tally ∧
    (send.worker = .left → ∀ pid ∈ send.counted, send.alive pid → send.stage pid = .finished)

instance (send : Send) : Decidable (AccountedOnce send) := inferInstanceAs (Decidable (_ ∧ (_ → _)))

/-- The receiver that the next step of the worker checks with `kill(pid, 0)`. -/
def Worker.checks : Worker → Option Pid
  | .sweeping (pid :: _) => some pid
  | _ => none

/-- A check of the sweep that finds a receiver gone does so before that receiver
has decremented the count. -/
def GoneBeforeFinished (send : Send) (action : Action) : Prop :=
  action = .work → ∀ pid ∈ send.worker.checks, send.alive pid = false → send.stage pid ≠ .finished

instance (send : Send) (action : Action) : Decidable (GoneBeforeFinished send action) :=
  inferInstanceAs (Decidable (_ → ∀ _ ∈ _, _))

/-- Distinct processes are fewer than the count has values. -/
theorem pids_few {pids : List Pid} (distinct : pids.Nodup) : pids.length < 2 ^ 32 := by
  have injective : Function.Injective fun pid : Pid => pid.value.toFin := by
    rintro ⟨left, _⟩ ⟨right, _⟩ same
    have equal : left = right := BitVec.eq_of_toFin_eq same
    subst equal
    rfl
  have words : (0 :: pids.map fun pid => pid.value.toFin).Nodup := by
    refine List.nodup_cons.mpr ⟨?_, List.Nodup.map injective distinct⟩
    intro member
    obtain ⟨pid, _, zero⟩ := List.mem_map.mp member
    have nothing : pid.value = 0 := BitVec.eq_of_toFin_eq zero
    have positive := pid.positive
    rw [nothing] at positive
    exact absurd positive (by decide)
  have bound := List.Nodup.length_le_card words
  rw [List.length_cons, List.length_map, Fintype.card_fin] at bound
  omega

/-- What the worker relies on at its place. Receivers still to be signalled have
done nothing; those still to be checked have an entry; one that was found gone
had not decremented the count. -/
def Placed (send : Send) : Prop :=
  match send.worker with
  | .signalling rest | .spinning _ rest =>
      rest.Nodup ∧ ∀ pid ∈ rest, pid ∈ send.counted ∧ send.stage pid = .waiting
  | .testing => True
  | .sweeping rest => rest.Nodup ∧ ∀ pid ∈ rest, pid ∈ send.entries
  | .removing gone rest =>
      (gone :: rest).Nodup ∧ (∀ pid ∈ gone :: rest, pid ∈ send.entries) ∧
        send.alive gone = false ∧ send.stage gone ≠ .finished
  | .left => ∀ pid ∈ send.counted, pid ∈ send.tally.subtracted

/-- The invariant of the runs in which every receiver found gone had not
decremented the count. The subtracted receivers are exactly those that finished
and those whose entry was removed, and a removed receiver is gone. -/
structure Sound (send : Send) : Prop where
  balanced : Balanced send.counted send.tally
  subtracted : ∀ pid ∈ send.counted,
    pid ∈ send.tally.subtracted ↔ send.stage pid = .finished ∨ pid ∉ send.entries
  active : ∀ pid, send.stage pid ≠ .waiting → pid ∈ send.counted
  distinct : send.entries.Nodup
  listed : ∀ pid ∈ send.entries, pid ∈ send.counted
  removed : ∀ pid ∈ send.counted, pid ∉ send.entries → send.alive pid = false
  placed : Placed send

theorem begin_sound {entries : List Pid} (distinct : entries.Nodup) (flag : BitVec 32)
    (alive : Pid → Bool) : Sound (begin entries flag alive) where
  balanced := balanced_start entries (pids_few distinct)
  subtracted pid member := by simpa [begin] using member
  active pid started := absurd rfl started
  distinct := distinct
  listed pid member := member
  removed pid member missing := absurd member missing
  placed := by
    by_cases none : (countUp entries 0 : BitVec 32) = 0
    · have place : (begin entries flag alive).worker = .left :=
        if_neg (fun counted => counted none)
      have exact := @countUp_toNat 32 Pid entries (pids_few distinct)
      rw [none] at exact
      have nobody : entries = [] := List.length_eq_zero_iff.mp exact.symm
      rw [Placed, place]
      intro pid member
      change pid ∈ entries at member
      rw [nobody] at member
      cases member
    · have place : (begin entries flag alive).worker = .signalling entries :=
        if_pos none
      rw [Placed, place]
      exact ⟨distinct, fun pid member => ⟨member, rfl⟩⟩

/-- A live receiver that has not finished was not subtracted. -/
theorem Sound.unsubtracted {send : Send} (sound : Sound send) {pid : Pid}
    (member : pid ∈ send.counted) (alive : send.alive pid = true)
    (unfinished : send.stage pid ≠ .finished) : pid ∉ send.tally.subtracted := by
  intro already
  rcases (sound.subtracted pid member).mp already with finished | missing
  · exact unfinished finished
  · rw [sound.removed pid member missing] at alive
    cases alive

/-- A step of a live receiver that was signalled leaves the worker's place
sound: no other receiver is affected, and a receiver to be signalled or removed
is another one. -/
theorem Placed.receiver {send : Send} (placed : Placed send) {pid : Pid}
    (alive : send.alive pid = true) (started : send.stage pid ≠ .waiting) (stage : Stage)
    (flag : BitVec 32) (tally : Tally 32 Pid)
    (grown : send.tally.subtracted ⊆ tally.subtracted) :
    Placed { send with
      flag := flag, tally := tally, stage := Function.update send.stage pid stage } := by
  have unsignalled (rest : List Pid)
      (waiting : ∀ other ∈ rest, other ∈ send.counted ∧ send.stage other = .waiting) :
      ∀ other ∈ rest, other ∈ send.counted ∧
        Function.update send.stage pid stage other = .waiting := by
    intro other member
    obtain ⟨counted, waits⟩ := waiting other member
    have different : other ≠ pid := fun same => started (same ▸ waits)
    exact ⟨counted, by rw [Function.update_of_ne different]; exact waits⟩
  rw [Placed] at placed ⊢
  cases place : send.worker with
  | signalling rest | spinning _ rest =>
    rw [place] at placed
    exact ⟨placed.1, unsignalled rest placed.2⟩
  | testing => trivial
  | sweeping rest =>
    rw [place] at placed
    exact placed
  | removing gone rest =>
    rw [place] at placed
    obtain ⟨distinct, listed, dead, unfinished⟩ := placed
    have different : gone ≠ pid := by
      rintro rfl
      rw [alive] at dead
      cases dead
    exact ⟨distinct, listed, dead, by
      change Function.update send.stage pid stage gone ≠ .finished
      rw [Function.update_of_ne different]
      exact unfinished⟩
  | left =>
    rw [place] at placed
    exact fun other member => grown (placed other member)

theorem take_sound {send : Send} (sound : Sound send) {pid : Pid} (alive : send.alive pid = true)
    (signalled : send.stage pid = .signalled) :
    Sound { send with stage := Function.update send.stage pid .running } := by
  have started : send.stage pid ≠ .waiting := by simp [signalled]
  refine { sound with subtracted := ?_, active := ?_, placed := ?_ }
  · intro other member
    rcases eq_or_ne other pid with rfl | different
    · simpa [signalled] using sound.subtracted other member
    · simpa [different] using sound.subtracted other member
  · intro other
    rcases eq_or_ne other pid with rfl | different
    · exact fun _ => sound.active other started
    · simpa [different] using sound.active other
  · exact sound.placed.receiver alive started .running send.flag send.tally (fun _ member => member)

theorem finish_sound {send : Send} (sound : Sound send) {pid : Pid} (alive : send.alive pid = true)
    (running : send.stage pid = .running) (result : Option (BitVec 32)) :
    Sound (finish send pid result) := by
  have started : send.stage pid ≠ .waiting := by simp [running]
  have member := sound.active pid started
  have fresh := sound.unsubtracted member alive (by simp [running])
  refine { sound with
    balanced := sound.balanced.subtract member fresh, subtracted := ?_, active := ?_, placed := ?_ }
  · intro other counted
    rcases eq_or_ne other pid with rfl | different
    · simp [finish, Tally.subtract]
    · simpa [finish, Tally.subtract, different] using sound.subtracted other counted
  · intro other
    rcases eq_or_ne other pid with rfl | different
    · exact fun _ => member
    · simpa [finish, different] using sound.active other
  · exact sound.placed.receiver alive started .finished _ _ (List.subset_cons_self _ _)

theorem exit_sound {send : Send} (sound : Sound send) (pid : Pid) :
    Sound { send with alive := Function.update send.alive pid false } := by
  have gone (other : Pid) (dead : send.alive other = false) :
      Function.update send.alive pid false other = false := by
    rcases eq_or_ne other pid with rfl | different
    · simp
    · simpa [different] using dead
  refine { sound with
    removed := fun other member missing => gone other (sound.removed other member missing)
    placed := ?_ }
  have placed := sound.placed
  rw [Placed] at placed ⊢
  cases place : send.worker with
  | removing found rest =>
    rw [place] at placed
    obtain ⟨distinct, listed, dead, unfinished⟩ := placed
    exact ⟨distinct, listed, gone found dead, unfinished⟩
  | signalling rest | spinning _ rest | testing | sweeping rest | left =>
    rw [place] at placed
    exact placed

/-- Signalling a waiting receiver. -/
theorem signal_sound {send : Send} (sound : Sound send) {pid : Pid} {rest : List Pid}
    (place : send.worker = .signalling (pid :: rest)) :
    Sound { send with
      stage := Function.update send.stage pid .signalled, worker := .spinning pid rest } := by
  have placed := sound.placed
  rw [Placed, place] at placed
  obtain ⟨distinct, waiting⟩ := placed
  obtain ⟨fresh, distinctRest⟩ := List.nodup_cons.mp distinct
  obtain ⟨member, waits⟩ := waiting pid List.mem_cons_self
  refine { sound with subtracted := ?_, active := ?_, placed := ?_ }
  · intro other counted
    rcases eq_or_ne other pid with rfl | different
    · simpa [waits] using sound.subtracted other counted
    · simpa [different] using sound.subtracted other counted
  · intro other
    rcases eq_or_ne other pid with rfl | different
    · exact fun _ => member
    · simpa [different] using sound.active other
  · refine ⟨distinctRest, fun other listed => ?_⟩
    obtain ⟨counted, still⟩ := waiting other (List.mem_cons_of_mem pid listed)
    have different : other ≠ pid := fun same => fresh (same ▸ listed)
    exact ⟨counted, (Function.update_of_ne different ..).trans still⟩

/-- Decrementing the count for a receiver that is gone and had not done so. -/
theorem remove_sound {send : Send} (sound : Sound send) {gone : Pid} {rest : List Pid}
    (place : send.worker = .removing gone rest) :
    Sound { send with
      tally := send.tally.subtract gone
      maxExitReceiver := send.maxExitReceiver - 1
      entries := send.entries.erase gone
      worker := .sweeping rest } := by
  have placed := sound.placed
  rw [Placed, place] at placed
  obtain ⟨distinct, listed, dead, unfinished⟩ := placed
  obtain ⟨fresh, distinctRest⟩ := List.nodup_cons.mp distinct
  have present := listed gone List.mem_cons_self
  have member := sound.listed gone present
  have unsubtracted : gone ∉ send.tally.subtracted := fun already =>
    ((sound.subtracted gone member).mp already).elim unfinished (fun missing => missing present)
  have erased (other : Pid) :
      other ∈ send.entries.erase gone ↔ other ≠ gone ∧ other ∈ send.entries :=
    sound.distinct.mem_erase_iff
  refine {
    balanced := sound.balanced.subtract member unsubtracted
    subtracted := ?_
    active := sound.active
    distinct := sound.distinct.erase gone
    listed := fun other kept => sound.listed other ((erased other).mp kept).2
    removed := ?_
    placed := ⟨distinctRest, fun other rested => (erased other).mpr
      ⟨fun same => fresh (same ▸ rested), listed other (List.mem_cons_of_mem gone rested)⟩⟩ }
  · intro other counted
    rcases eq_or_ne other gone with rfl | different
    · simp [Tally.subtract, erased]
    · simpa [Tally.subtract, erased, different] using sound.subtracted other counted
  · intro other counted missing
    rcases eq_or_ne other gone with rfl | different
    · exact dead
    · exact sound.removed other counted fun kept => missing ((erased other).mpr ⟨different, kept⟩)

/-- What a step of the worker can be, by the place it is taken from. -/
inductive WorkMoves (send : Send) : Send → Prop
  | signalled (place : send.worker = .signalling []) :
      WorkMoves send { send with worker := .testing }
  | signal (pid : Pid) (rest : List Pid) (place : send.worker = .signalling (pid :: rest))
      (alive : send.alive pid = true) :
      WorkMoves send { send with
        stage := Function.update send.stage pid .signalled, worker := .spinning pid rest }
  | skip (pid : Pid) (rest : List Pid) (place : send.worker = .signalling (pid :: rest))
      (dead : send.alive pid = false) : WorkMoves send { send with worker := .signalling rest }
  | taken (pid : Pid) (rest : List Pid) (place : send.worker = .spinning pid rest)
      (reacted : send.stage pid ≠ .signalled) :
      WorkMoves send { send with worker := .signalling rest }
  | leave (place : send.worker = .testing) (zero : send.tally.count = 0) :
      WorkMoves send { send with
        flag := if send.maxExitReceiver = 0 then lower send.flag retSucceeded else send.flag
        worker := .left }
  | check (place : send.worker = .testing) (nonzero : send.tally.count ≠ 0) :
      WorkMoves send { send with worker := .sweeping send.entries }
  | swept (place : send.worker = .sweeping []) : WorkMoves send { send with worker := .testing }
  | keep (pid : Pid) (rest : List Pid) (place : send.worker = .sweeping (pid :: rest))
      (alive : send.alive pid = true) : WorkMoves send { send with worker := .sweeping rest }
  | find (pid : Pid) (rest : List Pid) (place : send.worker = .sweeping (pid :: rest))
      (dead : send.alive pid = false) : WorkMoves send { send with worker := .removing pid rest }
  | remove (gone : Pid) (rest : List Pid) (place : send.worker = .removing gone rest) :
      WorkMoves send { send with
        tally := send.tally.subtract gone
        maxExitReceiver := send.maxExitReceiver - 1
        entries := send.entries.erase gone
        worker := .sweeping rest }

/-- A step of the worker is one of its moves. -/
theorem work_moves {send after : Send} (worked : work send = some after) :
    WorkMoves send after := by
  rw [work] at worked
  cases place : send.worker with
  | signalling rest =>
    cases rest with
    | nil =>
      simp only [place] at worked
      exact Option.some.inj worked ▸ .signalled place
    | cons pid rest =>
      simp only [place] at worked
      by_cases alive : send.alive pid = true
      · rw [if_pos alive] at worked
        exact Option.some.inj worked ▸ .signal pid rest place alive
      · rw [if_neg alive] at worked
        exact Option.some.inj worked ▸ .skip pid rest place (Bool.eq_false_iff.mpr alive)
  | spinning pid rest =>
    simp only [place] at worked
    obtain ⟨reacted, worked⟩ := Option.ite_none_left_eq_some.mp worked
    exact Option.some.inj worked ▸ .taken pid rest place reacted
  | testing =>
    simp only [place] at worked
    by_cases zero : send.tally.count = 0
    · rw [if_pos zero] at worked
      exact Option.some.inj worked ▸ .leave place zero
    · rw [if_neg zero] at worked
      exact Option.some.inj worked ▸ .check place zero
  | sweeping rest =>
    cases rest with
    | nil =>
      simp only [place] at worked
      exact Option.some.inj worked ▸ .swept place
    | cons pid rest =>
      simp only [place] at worked
      by_cases alive : send.alive pid = true
      · rw [if_pos alive] at worked
        exact Option.some.inj worked ▸ .keep pid rest place alive
      · rw [if_neg alive] at worked
        exact Option.some.inj worked ▸ .find pid rest place (Bool.eq_false_iff.mpr alive)
  | removing gone rest =>
    simp only [place] at worked
    exact Option.some.inj worked ▸ .remove gone rest place
  | left =>
    simp only [place] at worked
    cases worked

/-- The worker keeps the invariant, as long as every receiver it finds gone had
not decremented the count. -/
theorem work_sound {send after : Send} (sound : Sound send)
    (checked : GoneBeforeFinished send .work) (worked : work send = some after) : Sound after := by
  have placed := sound.placed
  rw [Placed] at placed
  cases work_moves worked with
  | signalled | swept => exact { sound with placed := trivial }
  | signal pid rest place => exact signal_sound sound place
  | skip pid rest place | keep pid rest place =>
    rw [place] at placed
    exact { sound with
      placed := ⟨(List.nodup_cons.mp placed.1).2,
        fun other member => placed.2 other (List.mem_cons_of_mem pid member)⟩ }
  | taken pid rest place =>
    rw [place] at placed
    exact { sound with placed := placed }
  | leave place zero =>
    exact { sound with placed := fun pid member => sound.balanced.settled zero member }
  | check place =>
    exact { sound with placed := ⟨sound.distinct, fun pid member => member⟩ }
  | find pid rest place dead =>
    rw [place] at placed
    have found : pid ∈ send.worker.checks := by rw [place]; rfl
    exact { sound with placed := ⟨placed.1, placed.2, dead, checked rfl pid found dead⟩ }
  | remove gone rest place => exact remove_sound sound place

theorem perform_sound {send after : Send} {action : Action} (sound : Sound send)
    (checked : GoneBeforeFinished send action) (taken : perform send action = some after) :
    Sound after := by
  cases action with
  | work => exact work_sound sound checked taken
  | take pid =>
    obtain ⟨⟨alive, signalled⟩, taken⟩ := Option.ite_none_right_eq_some.mp taken
    exact Option.some.inj taken ▸ take_sound sound alive signalled
  | allocFails pid =>
    obtain ⟨_, taken⟩ := Option.ite_none_right_eq_some.mp taken
    exact Option.some.inj taken ▸ { sound with placed := sound.placed }
  | finish pid result =>
    obtain ⟨⟨alive, running⟩, taken⟩ := Option.ite_none_right_eq_some.mp taken
    exact Option.some.inj taken ▸ finish_sound sound alive running result
  | exit pid =>
    obtain ⟨_, taken⟩ := Option.ite_none_right_eq_some.mp taken
    exact Option.some.inj taken ▸ exit_sound sound pid

theorem Sound.accountedOnce {send : Send} (sound : Sound send) : AccountedOnce send := by
  refine ⟨sound.balanced, fun place pid member alive => ?_⟩
  have placed := sound.placed
  rw [Placed, place] at placed
  rcases (sound.subtracted pid member).mp (placed pid member) with finished | missing
  · exact finished
  · rw [sound.removed pid member missing] at alive
    cases alive

/-- Along every run in which each receiver a sweep finds gone has not yet
decremented the count, every receiver is accounted for exactly once. -/
theorem receivers_accounted_once (send : Send)
    (reached : handling.ReachedUnder GoneBeforeFinished send) : AccountedOnce send := by
  have sound : Sound send := by
    apply reached.invariant
    · rintro start ⟨entries, flag, alive, distinct, rfl⟩
      exact begin_sound distinct flag alive
    · intro before action after sound checked taken
      exact perform_sound sound checked taken
  exact sound.accountedOnce

/-- Two receivers of the examples. -/
def firstPid : Pid := ⟨1, by decide⟩

def secondPid : Pid := ⟨2, by decide⟩

/-- A send to both, alive and in block mode. -/
def toBoth : Send := begin [firstPid, secondPid] modeBlock (fun _ => true)

theorem toBoth_starts : handling.start toBoth := ⟨_, _, _, by decide, rfl⟩

/-- The first receiver finishes and stays; the second exits in its handler. -/
def secondExits : List Action :=
  [.work, .take firstPid, .work, .work, .take secondPid, .work, .work, .finish firstPid (some 0),
    .exit secondPid, .work, .work, .work, .work, .work, .work]

/-- The first receiver finishes and exits before the worker tests the count; the
second stays in its handler. -/
def firstExits : List Action :=
  [.work, .take firstPid, .work, .work, .take secondPid, .work, .work, .finish firstPid (some 0),
    .exit firstPid, .work, .work, .work, .work, .work, .work]

/-- The receiver that exits in its handler is accounted for by the sweep. -/
theorem exit_accounted_once :
    AccountedOnce ((System.follow perform GoneBeforeFinished toBoth secondExits).get (by decide)) :=
  receivers_accounted_once _
    (System.followed_reached secondExits (.initial toBoth toBoth_starts) (by decide))

/-- Not every run accounts for each receiver once. The first receiver decrements
the count and exits; the sweep finds it gone and decrements the count again, so
the worker leaves while the second receiver still runs its handler. -/
theorem finished_receiver_subtracted_again :
    ¬ ∀ send, handling.Reached send → AccountedOnce send := by
  intro always
  have reached : handling.Reached
      ((System.follow perform (fun _ _ => True) toBoth firstExits).get (by decide)) :=
    System.followed_reached firstExits (.initial toBoth toBoth_starts) (by decide)
  have accounted := always _ reached
  revert accounted
  decide

/-- The condition is exact: from a sound state, a check that finds a receiver gone
after it decremented the count leads in two steps of the worker to a receiver
that was subtracted twice. -/
theorem unchecked_subtracts_again {send : Send} (sound : Sound send)
    (unchecked : ¬ GoneBeforeFinished send .work) :
    ∃ after, System.follow perform (fun _ _ => True) send [.work, .work] = some after ∧
      ¬ AccountedOnce after := by
  simp only [GoneBeforeFinished, forall_const, not_forall, not_not] at unchecked
  obtain ⟨pid, found, dead, finished⟩ := unchecked
  obtain ⟨rest, place⟩ : ∃ rest, send.worker = .sweeping (pid :: rest) := by
    cases place : send.worker with
    | sweeping rest =>
      rw [place] at found
      cases rest with
      | nil => cases found
      | cons head tail =>
        obtain rfl := Option.some.inj found
        exact ⟨tail, rfl⟩
    | signalling rest | spinning _ rest | testing | removing _ rest | left =>
      rw [place] at found
      cases found
  have member : pid ∈ send.counted := sound.active pid (by simp [finished])
  have already := (sound.subtracted pid member).mpr (.inl finished)
  refine ⟨{ send with
    tally := send.tally.subtract pid
    maxExitReceiver := send.maxExitReceiver - 1
    entries := send.entries.erase pid
    worker := .sweeping rest }, ?_, fun accounted => subtract_again already accounted.1⟩
  simp [System.follow, perform, work, place, dead]

/-- A sweep during which no receiver takes a step subtracts the receivers that are
gone, in the order of their entries, and returns to the test. -/
theorem sweep_uninterrupted (rest : List Pid) (send : Send) (place : send.worker = .sweeping rest) :
    ∃ steps after, System.follow perform (fun _ _ => True) send (List.replicate steps .work) =
        some after ∧ after.worker = .testing ∧
      after.tally = send.tally.subtractAll (rest.filter fun pid => !send.alive pid) := by
  induction rest generalizing send with
  | nil =>
    refine ⟨1, { send with worker := .testing }, ?_, rfl, rfl⟩
    simp [System.follow, perform, work, place]
  | cons pid rest inductionHypothesis =>
    cases found : send.alive pid with
    | true =>
      obtain ⟨steps, after, followed, tests, tally⟩ :=
        inductionHypothesis { send with worker := .sweeping rest } rfl
      refine ⟨steps + 1, after, ?_, tests, ?_⟩
      · simpa [List.replicate_succ, System.follow, perform, work, place, found] using followed
      · simpa [found] using tally
    | false =>
      obtain ⟨steps, after, followed, tests, tally⟩ := inductionHypothesis { send with
        tally := send.tally.subtract pid
        maxExitReceiver := send.maxExitReceiver - 1
        entries := send.entries.erase pid
        worker := .sweeping rest } rfl
      refine ⟨steps + 2, after, ?_, tests, ?_⟩
      · simpa [List.replicate_succ, System.follow, perform, work, place, found] using followed
      · simpa [found, Tally.subtractAll] using tally

end Emilib.ReceiverCount
