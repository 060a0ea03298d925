import Mathlib.Data.Fintype.Basic
import Emilib.MsgTable
import Emilib.Runs

/-!
# Registering a function

`emi_msg_register` sends a request to `emi_core`, which enters the process into its
table and replies; only then does the process put the function into its own list.
A message is delivered as soon as the table has the entry, and its handler thread
looks for the function in the list. Between the insertion and `list_add` it finds
none. When the reply is lost or `malloc` fails, the call returns without a function
and the entry stays. The entry also comes when the request was cut off behind the pid,
although the call has failed then.

This follows one process, any number of its calls, and the deliveries of any number
of sends. Other processes enter and leave the table as they like, and the table may
hold entries that a process with the same pid left when it died. A lookup finds a
function as long as no call for its msg is half done and no such entry was there for
it, unless a call for that msg has put a function into the list.
-/

namespace Emilib.Registration

open MsgTable

/-- `struct func_list`: the arguments of a call, and what it puts into the list. -/
structure FuncList (Func : Type) where
  msg : BitVec 32
  func : Func
deriving DecidableEq

/-- Where a call of `emi_msg_register` is: before its request was sent, in the hands
of `emi_core` before and behind the scan, before the reply to a refusal or an
insertion, before the reply is read, before `malloc`, before `list_add`, or
returned with 0 or -1. A request that was cut off is in the hands of `emi_core`
although its call is not awaiting the reply any more. -/
inductive Stage where
  | calling
  | requested (awaited : Bool)
  | inserting (awaited : Bool)
  | refused
  | inserted
  | answered (succeeded : Bool)
  | allocating
  | adding
  | registered
  | failed (inserted : Bool)
deriving DecidableEq, Repr

/-- The call has an entry in the table and no function in the list. -/
def Stage.halfDone : Stage → Bool
  | .inserted | .answered true | .allocating | .adding | .failed true => true
  | _ => false

/-- `msg_table`, the msgs of the entries that an earlier process with the same pid left
in it, `__func_list`, the calls, the messages delivered to the process and not yet looked
up, and what each lookup found. -/
structure Process (ρ Func : Type) where
  table : Table
  inherited : List (BitVec 32)
  funcList : List (FuncList Func)
  stage : ρ → Stage
  delivered : List (BitVec 32)
  lookups : List (BitVec 32 × Option Func)

/-- A step of a call on either side, with its outcome where it has two; a delivery
through an entry; a lookup; an entry of another process that comes or goes. -/
inductive Action (ρ : Type) where
  | request (call : ρ) (sent : Bool)
  | scan (call : ρ) (allocated : Bool)
  | insert (call : ρ)
  | reply (call : ρ) (sent : Bool)
  | read (call : ρ) (complete : Bool)
  | malloc (call : ρ) (found : Bool)
  | add (call : ρ)
  | deliver (map : MsgMap)
  | lookup (msg : BitVec 32)
  | enter (msg pid : BitVec 32)
  | leave (map : MsgMap)
deriving DecidableEq

/-- The loop of `__func_sterotype` over `__func_list`. -/
def findFunc {Func : Type} (funcList : List (FuncList Func)) (msg : BitVec 32) : Option Func :=
  (funcList.find? fun entry => entry.msg = msg).map FuncList.func

variable {ρ Func : Type}

section Steps

variable [DecidableEq ρ]

/-- Move a call to its next stage. -/
def Process.advance (process : Process ρ Func) (call : ρ) (stage : Stage) : Process ρ Func :=
  { process with stage := Function.update process.stage call stage }

/-- The step an action names, if it can be taken by the process with this pid, whose
calls have these arguments. -/
def perform (pid : BitVec 32) (arguments : ρ → FuncList Func) (process : Process ρ Func) :
    Action ρ → Option (Process ρ Func)
  | .request call sent =>
      if process.stage call = .calling then some (process.advance call (.requested sent)) else none
  | .scan call allocated =>
      match process.stage call with
      | .requested awaited => some (process.advance call
          (if ¬ allocated then .failed false
            else if scanRefuses process.table (arguments call).msg pid then
              if awaited then .refused else .failed false
            else .inserting awaited))
      | _ => none
  | .insert call =>
      match process.stage call with
      | .inserting awaited =>
          some ({ process with table := emiHinsert process.table (arguments call).msg pid }.advance
            call (if awaited then .inserted else .failed true))
      | _ => none
  | .reply call sent =>
      match process.stage call with
      | .refused => some (process.advance call (if sent then .answered false else .failed false))
      | .inserted => some (process.advance call (if sent then .answered true else .failed true))
      | _ => none
  | .read call complete =>
      match process.stage call with
      | .answered succeeded => some (process.advance call
          (if complete ∧ succeeded then .allocating else .failed succeeded))
      | _ => none
  | .malloc call found =>
      if process.stage call = .allocating then
        some (process.advance call (if found then .adding else .failed true))
      else none
  | .add call =>
      if process.stage call = .adding then
        some ({ process with funcList := arguments call :: process.funcList }.advance call
          .registered)
      else none
  | .deliver map =>
      if map ∈ entriesOf process.table map.msg ∧ map.pid = pid then
        some { process with delivered := map.msg :: process.delivered }
      else none
  | .lookup msg =>
      if process.delivered.contains msg then
        some { process with
          delivered := process.delivered.erase msg
          lookups := (msg, findFunc process.funcList msg) :: process.lookups }
      else none
  | .enter msg other =>
      if other ≠ pid then some { process with table := emiHinsert process.table msg other }
      else none
  | .leave map =>
      if map.pid ≠ pid then some { process with table := emiHdelete process.table map } else none

/-- The runs of a process that has no function yet, whatever the table holds. -/
def registering (pid : BitVec 32) (arguments : ρ → FuncList Func) :
    System (Process ρ Func) (Action ρ) :=
  System.performing (fun process =>
    (∀ msg, msg ∈ process.inherited ↔
      ∃ map, Holds process.table map ∧ map.pid = pid ∧ map.msg = msg) ∧
      process.funcList = [] ∧ (∀ call, process.stage call = .calling) ∧
      process.delivered = [] ∧ process.lookups = [])
    (perform pid arguments)

end Steps

/-- Every lookup for a delivered message found a function. -/
def HandlersFound (process : Process ρ Func) : Prop :=
  ∀ lookup ∈ process.lookups, lookup.2 ≠ none

/-- A lookup that is made behind the end of a call for its msg, or while no such call is
half done and no entry for it was inherited. -/
def Completed (arguments : ρ → FuncList Func) (process : Process ρ Func) : Action ρ → Prop
  | .lookup msg => (∃ call, (arguments call).msg = msg ∧ process.stage call = .registered) ∨
      msg ∉ process.inherited ∧
        ∀ call, (arguments call).msg = msg → (process.stage call).halfDone = false
  | _ => True

/-- A msg comes to the process through a call that is half done or registered, or through
an inherited entry. -/
def Comes (arguments : ρ → FuncList Func) (process : Process ρ Func) (msg : BitVec 32) : Prop :=
  msg ∈ process.inherited ∨ ∃ call, (arguments call).msg = msg ∧
    ((process.stage call).halfDone = true ∨ process.stage call = .registered)

/-- The invariant of the registrations. Every entry of the process, and every
message delivered to it, comes from a call that is half done or registered, or was
inherited, and the list holds the functions of the registered calls. -/
structure Coherent (pid : BitVec 32) (arguments : ρ → FuncList Func) (process : Process ρ Func) :
    Prop where
  entered : ∀ map, Holds process.table map → map.pid = pid → Comes arguments process map.msg
  delivered : ∀ msg ∈ process.delivered, Comes arguments process msg
  listed : ∀ call, process.stage call = .registered → arguments call ∈ process.funcList
  known : ∀ entry ∈ process.funcList, ∃ call, process.stage call = .registered ∧
    arguments call = entry

/-- A lookup finds a function exactly when the list has one for its msg. -/
theorem findFunc_isSome {funcList : List (FuncList Func)} {msg : BitVec 32} :
    findFunc funcList msg ≠ none ↔ ∃ entry ∈ funcList, entry.msg = msg := by
  simp [findFunc]

/-- A delivered message that comes neither through a half-done call nor through an inherited
entry has a function. -/
theorem Coherent.lookup_finds {pid : BitVec 32} {arguments : ρ → FuncList Func}
    {process : Process ρ Func}
    (coherent : Coherent pid arguments process) {msg : BitVec 32}
    (delivered : msg ∈ process.delivered)
    (completed : Completed arguments process (.lookup msg)) :
    findFunc process.funcList msg ≠ none := by
  rw [findFunc_isSome]
  rcases completed with ⟨call, same, done⟩ | ⟨fresh, complete⟩
  · exact ⟨arguments call, coherent.listed call done, same⟩
  · obtain ⟨call, same, entered⟩ := (coherent.delivered msg delivered).resolve_left fresh
    rcases entered with half | done
    · rw [complete call same] at half
      cases half
    · exact ⟨arguments call, coherent.listed call done, same⟩

section Runs

variable [DecidableEq ρ] {pid : BitVec 32} {arguments : ρ → FuncList Func}

/-- What comes through a call still does when the call moves on, if a half-done call does
not fall back. -/
theorem Comes.advance {process : Process ρ Func} {msg : BitVec 32}
    (comes : Comes arguments process msg) {call : ρ} {next : Stage}
    (stays : (process.stage call).halfDone = true ∨ process.stage call = .registered →
      next.halfDone = true ∨ next = .registered) :
    Comes arguments (process.advance call next) msg := by
  rcases comes with inherited | ⟨other, same, entered⟩
  · exact .inl inherited
  · refine .inr ⟨other, same, ?_⟩
    simp only [Process.advance]
    rcases eq_or_ne other call with rfl | different
    · rw [Function.update_self]
      exact stays entered
    · rwa [Function.update_of_ne different]

/-- A call that moves on without inserting or adding keeps the invariant: what is
half done stays so. -/
theorem Coherent.advance {process : Process ρ Func} (coherent : Coherent pid arguments process)
    {call : ρ} {next : Stage} (stays : (process.stage call).halfDone = true → next.halfDone = true)
    (before : process.stage call ≠ .registered) (after : next ≠ .registered) :
    Coherent pid arguments (process.advance call next) := by
  have kept {msg : BitVec 32} (comes : Comes arguments process msg) :
      Comes arguments (process.advance call next) msg :=
    comes.advance fun entered => .inl (stays (entered.resolve_right before))
  have registered (other : ρ) : Function.update process.stage call next other = .registered ↔
      process.stage other = .registered := by
    rcases eq_or_ne other call with rfl | different
    · rw [Function.update_self]
      exact iff_of_false after before
    · rw [Function.update_of_ne different]
  constructor
  · exact fun map holds own => kept (coherent.entered map holds own)
  · exact fun msg member => kept (coherent.delivered msg member)
  · exact fun other done => coherent.listed other ((registered other).mp done)
  · intro entry member
    obtain ⟨other, done, same⟩ := coherent.known entry member
    exact ⟨other, (registered other).mpr done, same⟩

/-- An insertion is the start of a half-done call. -/
theorem Coherent.insert {process : Process ρ Func} (coherent : Coherent pid arguments process)
    {call : ρ} {awaited : Bool} (place : process.stage call = .inserting awaited) {next : Stage}
    (half : next.halfDone = true) :
    Coherent pid arguments
      ({ process with table := emiHinsert process.table (arguments call).msg pid }.advance call
        next) := by
  have moved : Coherent pid arguments (process.advance call next) := by
    apply coherent.advance (fun _ => half)
    · rw [place]
      nofun
    · rintro rfl
      cases half
  refine { moved with entered := ?_ }
  rintro map ⟨bucket, member⟩ own
  rcases mem_insert.mp member with older | ⟨rfl, _⟩
  · exact moved.entered map ⟨bucket, older⟩ own
  · exact .inr ⟨call, rfl, .inl (by simp [Process.advance, half])⟩

/-- `list_add` is the end of a half-done call. -/
theorem Coherent.add {process : Process ρ Func} (coherent : Coherent pid arguments process)
    {call : ρ} (place : process.stage call = .adding) :
    Coherent pid arguments
      ({ process with funcList := arguments call :: process.funcList }.advance call
        .registered) := by
  have kept {msg : BitVec 32} (comes : Comes arguments process msg) :
      Comes arguments (process.advance call .registered) msg := comes.advance fun _ => .inr rfl
  constructor
  · exact fun map holds own => kept (coherent.entered map holds own)
  · exact fun msg member => kept (coherent.delivered msg member)
  · intro other done
    rcases eq_or_ne other call with rfl | different
    · exact List.mem_cons_self
    · simp only [Process.advance, ne_eq, different, not_false_eq_true, Function.update_of_ne]
        at done
      exact List.mem_cons_of_mem _ (coherent.listed other done)
  · intro entry member
    rcases List.mem_cons.mp member with rfl | older
    · exact ⟨call, Function.update_self .., rfl⟩
    · obtain ⟨other, done, same⟩ := coherent.known entry older
      have different : other ≠ call := by
        rintro rfl
        rw [place] at done
        cases done
      exact ⟨other, (Function.update_of_ne different ..).trans done, same⟩

/-- Every step keeps the invariant. -/
theorem perform_coherent {process after : Process ρ Func} {action : Action ρ}
    (coherent : Coherent pid arguments process)
    (taken : perform pid arguments process action = some after) :
    Coherent pid arguments after := by
  cases action with
  | request call sent =>
    obtain ⟨place, taken⟩ := Option.ite_none_right_eq_some.mp taken
    obtain rfl := Option.some.inj taken
    apply coherent.advance
    · rw [place]; nofun
    · rw [place]; nofun
    · nofun
  | scan call allocated =>
    cases place : process.stage call <;> simp only [perform, place] at taken
    case requested awaited =>
      obtain rfl := Option.some.inj taken
      apply coherent.advance
      · rw [place]; nofun
      · rw [place]; nofun
      · split_ifs <;> nofun
    all_goals cases taken
  | insert call =>
    cases place : process.stage call <;> simp only [perform, place] at taken
    case inserting awaited =>
      obtain rfl := Option.some.inj taken
      apply coherent.insert place
      cases awaited <;> rfl
    all_goals cases taken
  | reply call sent =>
    cases place : process.stage call <;> simp only [perform, place] at taken
    case refused =>
      obtain rfl := Option.some.inj taken
      apply coherent.advance
      · rw [place]; nofun
      · rw [place]; nofun
      · split <;> nofun
    case inserted =>
      obtain rfl := Option.some.inj taken
      apply coherent.advance
      · split <;> exact fun _ => rfl
      · rw [place]; nofun
      · split <;> nofun
    all_goals cases taken
  | read call complete =>
    cases place : process.stage call <;> simp only [perform, place] at taken
    case answered succeeded =>
      obtain rfl := Option.some.inj taken
      apply coherent.advance
      · rw [place]
        cases succeeded
        · nofun
        · split <;> exact fun _ => rfl
      · rw [place]; nofun
      · split <;> nofun
    all_goals cases taken
  | malloc call found =>
    obtain ⟨place, taken⟩ := Option.ite_none_right_eq_some.mp taken
    obtain rfl := Option.some.inj taken
    apply coherent.advance
    · split <;> exact fun _ => rfl
    · rw [place]; nofun
    · split <;> nofun
  | add call =>
    obtain ⟨place, taken⟩ := Option.ite_none_right_eq_some.mp taken
    exact Option.some.inj taken ▸ coherent.add place
  | deliver map =>
    obtain ⟨⟨present, own⟩, taken⟩ := Option.ite_none_right_eq_some.mp taken
    obtain rfl := Option.some.inj taken
    refine { coherent with delivered := ?_ }
    intro msg member
    rcases List.mem_cons.mp member with rfl | older
    · exact coherent.entered map ⟨_, (mem_entriesOf.mp present).1⟩ own
    · exact coherent.delivered msg older
  | lookup msg =>
    obtain ⟨_, taken⟩ := Option.ite_none_right_eq_some.mp taken
    obtain rfl := Option.some.inj taken
    exact { coherent with
      delivered := fun other member => coherent.delivered other (List.mem_of_mem_erase member) }
  | enter msg other =>
    obtain ⟨different, taken⟩ := Option.ite_none_right_eq_some.mp taken
    obtain rfl := Option.some.inj taken
    refine { coherent with entered := ?_ }
    rintro map ⟨bucket, member⟩ own
    rcases mem_insert.mp member with older | ⟨rfl, _⟩
    · exact coherent.entered map ⟨bucket, older⟩ own
    · exact absurd own different
  | leave map =>
    obtain ⟨_, taken⟩ := Option.ite_none_right_eq_some.mp taken
    obtain rfl := Option.some.inj taken
    refine { coherent with entered := ?_ }
    rintro other ⟨bucket, member⟩ own
    exact coherent.entered other ⟨bucket, mem_of_mem_delete member⟩ own

/-- Lookups change only by a lookup, which adds what it found. -/
theorem perform_lookups {process after : Process ρ Func} {action : Action ρ}
    (taken : perform pid arguments process action = some after) :
    after.lookups = process.lookups ∨ ∃ msg ∈ process.delivered, action = .lookup msg ∧
      after.lookups = (msg, findFunc process.funcList msg) :: process.lookups := by
  cases action with
  | lookup msg =>
    obtain ⟨delivered, taken⟩ := Option.ite_none_right_eq_some.mp taken
    obtain rfl := Option.some.inj taken
    exact .inr ⟨msg, List.contains_iff_mem.mp delivered, rfl, rfl⟩
  | scan call sent | insert call | reply call sent | read call sent =>
    left
    cases place : process.stage call <;> simp only [perform, place] at taken <;> cases taken <;> rfl
  | request | malloc | add | deliver | enter | leave =>
    left
    obtain ⟨_, taken⟩ := Option.ite_none_right_eq_some.mp taken
    exact Option.some.inj taken ▸ rfl

/-- Along every run whose lookups are made behind the end of a call for their msg, or while
none is half done and no entry for it was inherited, every delivered message finds a
function. -/
theorem handlers_found (pid : BitVec 32) (arguments : ρ → FuncList Func) (process : Process ρ Func)
    (reached : (registering pid arguments).ReachedUnder (Completed arguments) process) :
    HandlersFound process := by
  have both : Coherent pid arguments process ∧ HandlersFound process := by
    apply reached.invariant
    · rintro start ⟨inherited, funcs, calls, delivered, lookups⟩
      constructor
      · constructor
        · exact fun map holds own => .inl ((inherited map.msg).mpr ⟨map, holds, own, rfl⟩)
        · simp [delivered]
        · simp [calls]
        · simp [funcs]
      · simp [HandlersFound, lookups]
    · rintro before action after ⟨coherent, found⟩ completed taken
      refine ⟨perform_coherent coherent taken, ?_⟩
      rcases perform_lookups taken with same | ⟨msg, delivered, rfl, same⟩
      · rwa [HandlersFound, same]
      · rw [HandlersFound, same]
        exact List.forall_mem_cons.mpr ⟨coherent.lookup_finds delivered completed, found⟩
  exact both.2

instance [Fintype ρ] (arguments : ρ → FuncList Func) (process : Process ρ Func)
    (action : Action ρ) : Decidable (Completed arguments process action) :=
  match action with
  | .lookup _ => inferInstanceAs (Decidable ((∃ _, _) ∨ _ ∧ ∀ _, _))
  | .request .. | .scan .. | .insert _ | .reply .. | .read .. | .malloc .. | .add _ | .deliver _
  | .enter .. | .leave _ => .isTrue trivial

/-- A process before its only call, which registers a function for msg seven. An earlier
process with the same pid has left its entry for msg nine. -/
def oneCall : Process (Fin 1) Nat :=
  ⟨emiHinsert initMsgTable 9 1, [9], [], fun _ => .calling, [], []⟩

/-- The arguments of that call. -/
def forSeven : Fin 1 → FuncList Nat := fun _ => ⟨7, 0⟩

theorem oneCall_starts : (registering 1 forSeven).start oneCall := by
  refine ⟨?_, rfl, fun _ => rfl, rfl, rfl⟩
  intro msg
  rw [show oneCall.inherited = [9] from rfl, List.mem_singleton]
  constructor
  · rintro rfl
    exact ⟨⟨9, 1, 0⟩, ⟨hash32 9, by decide⟩, rfl, rfl⟩
  · rintro ⟨map, ⟨bucket, member⟩, _, rfl⟩
    rcases mem_insert.mp member with earlier | ⟨rfl, _⟩
    · cases earlier
    · rfl

/-- The call up to the insertion of its entry. -/
def upToInsertion : List (Action (Fin 1)) := [.request 0 true, .scan 0 true, .insert 0]

/-- The rest of the call. -/
def fromReply : List (Action (Fin 1)) := [.reply 0 true, .read 0 true, .malloc 0 true, .add 0]

/-- A message is delivered to the process and looked up. -/
def receive : List (Action (Fin 1)) := [.deliver ⟨7, 1, 1⟩, .lookup 7]

/-- A message delivered behind the call finds its function. -/
theorem received_behind :
    HandlersFound ((System.follow (perform 1 forSeven) (Completed forSeven) oneCall
      (upToInsertion ++ fromReply ++ receive)).get (by decide)) :=
  handlers_found 1 forSeven _
    (System.followed_reached (upToInsertion ++ fromReply ++ receive)
      (.initial oneCall oneCall_starts) (by decide))

/-- Not in every run does a delivered message find a function: one that is delivered
between the insertion and the reply finds none. -/
theorem received_between :
    ¬ ∀ process, (registering 1 forSeven).Reached process → HandlersFound process := by
  intro always
  have reached : (registering 1 forSeven).Reached
      ((System.follow (perform 1 forSeven) (fun _ _ => True) oneCall
        (upToInsertion ++ receive)).get (by decide)) :=
    System.followed_reached (upToInsertion ++ receive) (.initial oneCall oneCall_starts)
      (by decide)
  exact always _ reached (7, none) (by decide) rfl

/-- A message that comes through the inherited entry finds no function either, and neither
does one that comes through the entry of a request that was cut off. -/
example : ((System.follow (perform 1 forSeven) (fun _ _ => True) oneCall
    [.deliver ⟨9, 1, 0⟩, .lookup 9, .request 0 false, .scan 0 true, .insert 0,
      .deliver ⟨7, 1, 1⟩, .lookup 7]).map Process.lookups) = some [(7, none), (9, none)] := by
  decide

/-- The condition is exact: a lookup that does not meet it finds no function. -/
theorem Coherent.uncompleted_misses {process : Process ρ Func}
    (coherent : Coherent pid arguments process) {msg : BitVec 32}
    (delivered : msg ∈ process.delivered)
    (uncompleted : ¬ Completed arguments process (.lookup msg)) :
    ∃ after, perform pid arguments process (.lookup msg) = some after ∧ ¬ HandlersFound after := by
  have missing : findFunc process.funcList msg = none := by
    by_contra found
    obtain ⟨entry, member, same⟩ := findFunc_isSome.mp found
    obtain ⟨call, done, rfl⟩ := coherent.known entry member
    exact uncompleted (.inl ⟨call, same, done⟩)
  refine ⟨_, if_pos (List.contains_iff_mem.mpr delivered), fun found => ?_⟩
  exact found (msg, findFunc process.funcList msg) List.mem_cons_self missing

end Runs

end Emilib.Registration
