import Mathlib.Logic.Function.Basic

/-!
# Programs over a memory and what they touch

A program reads and writes addresses, and may leave marks that only say where it is.
Its run on a memory ends with a result and another memory, and lists all of these
events in their order.

A judgment over all replies takes every read for one that may return anything. What it
says of the result and of the events holds on every memory, and it is found from the
program alone. The memory behind a run is the replay of the writes of its list, so an
address that is not written keeps its value.
-/

namespace Emilib

/-- What a program does to a memory, or says of itself. -/
inductive Event (Address Value Mark : Type) where
  | read (address : Address)
  | write (address : Address) (value : Value)
  | mark (mark : Mark)
deriving DecidableEq, Repr

/-- A program: what it does next, and how it goes on with a value that was read. -/
inductive Prog (Address Value Mark Result : Type) where
  | done (result : Result)
  | read (address : Address) (next : Value → Prog Address Value Mark Result)
  | write (address : Address) (value : Value) (next : Prog Address Value Mark Result)
  | mark (mark : Mark) (next : Prog Address Value Mark Result)

/-- The end of a run. -/
structure Outcome (Address Value Mark Result : Type) where
  result : Result
  memory : Address → Value
  log : List (Event Address Value Mark)

/-- The same end behind other events. -/
def Outcome.after {Address Value Mark Result : Type}
    (outcome : Outcome Address Value Mark Result) (log : List (Event Address Value Mark)) :
    Outcome Address Value Mark Result :=
  { outcome with log := log ++ outcome.log }

/-- The memory after the writes of a list, one after the other. -/
def replay {Address Value Mark : Type} [DecidableEq Address] :
    List (Event Address Value Mark) → (Address → Value) → Address → Value
  | [], memory => memory
  | .write address value :: log, memory => replay log (Function.update memory address value)
  | .read _ :: log, memory => replay log memory
  | .mark _ :: log, memory => replay log memory

section Ends

variable {Address Value Mark Result : Type}

@[simp] theorem after_result (outcome : Outcome Address Value Mark Result)
    (log : List (Event Address Value Mark)) : (outcome.after log).result = outcome.result := rfl

@[simp] theorem after_memory (outcome : Outcome Address Value Mark Result)
    (log : List (Event Address Value Mark)) : (outcome.after log).memory = outcome.memory := rfl

@[simp] theorem after_log (outcome : Outcome Address Value Mark Result)
    (log : List (Event Address Value Mark)) : (outcome.after log).log = log ++ outcome.log := rfl

end Ends

namespace Prog

variable {Address Value Mark Result Next : Type}

/-- One program after the other. -/
protected def bind (program : Prog Address Value Mark Result)
    (next : Result → Prog Address Value Mark Next) : Prog Address Value Mark Next :=
  match program with
  | .done result => next result
  | .read address rest => .read address fun value => (rest value).bind next
  | .write address value rest => .write address value (rest.bind next)
  | .mark label rest => .mark label (rest.bind next)

instance : Monad (Prog Address Value Mark) where
  pure := .done
  bind := Prog.bind

/-- Read an address. -/
def load (address : Address) : Prog Address Value Mark Value := .read address .done

/-- Write an address. -/
def store (address : Address) (value : Value) : Prog Address Value Mark Unit :=
  .write address value (.done ())

/-- Leave a mark. -/
def note (label : Mark) : Prog Address Value Mark Unit := .mark label (.done ())

/-- A loop over `0, …, count - 1`. -/
def forRange : Nat → (Nat → Prog Address Value Mark Unit) → Prog Address Value Mark Unit
  | 0, _ => pure ()
  | count + 1, body => do
      forRange count body
      body count

/-- Loops with the same iterations are the same. -/
theorem forRange_congr {count : Nat} {body other : Nat → Prog Address Value Mark Unit}
    (same : ∀ index, index < count → body index = other index) :
    forRange count body = forRange count other := by
  induction count with
  | zero => rfl
  | succ count inductionHypothesis =>
    rw [forRange, forRange, same count (Nat.lt_succ_self count),
      inductionHypothesis fun index bound => same index (Nat.lt_succ_of_lt bound)]

/-- The run of a program on a memory. -/
def run [DecidableEq Address] :
    Prog Address Value Mark Result → (Address → Value) → Outcome Address Value Mark Result
  | .done result, memory => ⟨result, memory, []⟩
  | .read address next, memory => ((next (memory address)).run memory).after [.read address]
  | .write address value next, memory =>
      (next.run (Function.update memory address value)).after [.write address value]
  | .mark label next, memory => (next.run memory).after [.mark label]

/-- Whatever the reads return, the result and the events are as said. -/
def Always :
    Prog Address Value Mark Result → (Result → List (Event Address Value Mark) → Prop) → Prop
  | .done result, holds => holds result []
  | .read address next, holds =>
      ∀ value, (next value).Always fun result log => holds result (.read address :: log)
  | .write address value next, holds =>
      next.Always fun result log => holds result (.write address value :: log)
  | .mark label next, holds => next.Always fun result log => holds result (.mark label :: log)

section Judgment

variable {holds other : Result → List (Event Address Value Mark) → Prop}

@[simp] theorem always_pure (result : Result) :
    (pure result : Prog Address Value Mark Result).Always holds ↔ holds result [] := Iff.rfl

@[simp] theorem always_load {holds : Value → List (Event Address Value Mark) → Prop}
    (address : Address) : (load address).Always holds ↔ ∀ value, holds value [.read address] :=
  Iff.rfl

@[simp] theorem always_store {holds : Unit → List (Event Address Value Mark) → Prop}
    (address : Address) (value : Value) :
    (store address value).Always holds ↔ holds () [.write address value] := Iff.rfl

@[simp] theorem always_note {holds : Unit → List (Event Address Value Mark) → Prop}
    (label : Mark) : (note label).Always holds ↔ holds () [.mark label] := Iff.rfl

/-- The events of one program come before those of the next. -/
@[simp] theorem always_bind {holds : Next → List (Event Address Value Mark) → Prop}
    (program : Prog Address Value Mark Result) (next : Result → Prog Address Value Mark Next) :
    (program >>= next).Always holds ↔
      program.Always fun result log => (next result).Always fun final more =>
        holds final (log ++ more) := by
  change (program.bind next).Always holds ↔ _
  induction program generalizing holds with
  | done result => exact Iff.rfl
  | read address rest inductionHypothesis =>
    exact forall_congr' fun value => inductionHypothesis value
  | write address value rest inductionHypothesis => exact inductionHypothesis
  | mark label rest inductionHypothesis => exact inductionHypothesis

@[simp] theorem always_ite {condition : Prop} [Decidable condition]
    (program alternative : Prog Address Value Mark Result) :
    (if condition then program else alternative).Always holds ↔
      if condition then program.Always holds else alternative.Always holds := by
  split <;> exact Iff.rfl

/-- The rule of consequence. -/
theorem Always.weaken {program : Prog Address Value Mark Result} (always : program.Always holds)
    (enough : ∀ result log, holds result log → other result log) : program.Always other := by
  induction program generalizing holds other with
  | done result => exact enough result [] always
  | read address rest inductionHypothesis =>
    exact fun value => inductionHypothesis value (always value) fun result log =>
      enough result (.read address :: log)
  | write address value rest inductionHypothesis =>
    exact inductionHypothesis always fun result log => enough result (.write address value :: log)
  | mark label rest inductionHypothesis =>
    exact inductionHypothesis always fun result log => enough result (.mark label :: log)

/-- The rule for one program after the other. -/
theorem Always.bind {middle : Next → List (Event Address Value Mark) → Prop}
    {program : Prog Address Value Mark Next} {next : Next → Prog Address Value Mark Result}
    (first : program.Always middle)
    (second : ∀ result log, middle result log →
      (next result).Always fun final more => holds final (log ++ more)) :
    (program >>= next).Always holds :=
  (always_bind program next).mpr (first.weaken second)

/-- The rule for a loop: what holds before an iteration holds behind it, with its
events. -/
theorem always_forRange (invariant : Nat → List (Event Address Value Mark) → Prop) (count : Nat)
    (body : Nat → Prog Address Value Mark Unit) (initially : invariant 0 [])
    (carried : ∀ index log, index < count → invariant index log →
      (body index).Always fun _ more => invariant (index + 1) (log ++ more)) :
    (forRange count body).Always fun _ log => invariant count log := by
  induction count with
  | zero => exact initially
  | succ count inductionHypothesis =>
    have looped := inductionHypothesis fun index log bound =>
      carried index log (Nat.lt_succ_of_lt bound)
    exact looped.bind fun _ log held => carried count log (Nat.lt_succ_self count) held

end Judgment

section Runs

variable [DecidableEq Address]

/-- What the judgment says holds of every run. -/
theorem Always.run {holds : Result → List (Event Address Value Mark) → Prop}
    {program : Prog Address Value Mark Result} (always : program.Always holds)
    (memory : Address → Value) : holds (program.run memory).result (program.run memory).log := by
  induction program generalizing holds memory with
  | done result => exact always
  | read address rest inductionHypothesis =>
    exact inductionHypothesis (memory address) (always (memory address)) memory
  | write address value rest inductionHypothesis =>
    exact inductionHypothesis always (Function.update memory address value)
  | mark label rest inductionHypothesis => exact inductionHypothesis always memory

/-- The memory behind a run is what its writes make of the one before. -/
theorem run_memory (program : Prog Address Value Mark Result) (memory : Address → Value) :
    (program.run memory).memory = replay (program.run memory).log memory := by
  induction program generalizing memory with
  | done result => rfl
  | read address rest inductionHypothesis => exact inductionHypothesis (memory address) memory
  | write address value rest inductionHypothesis =>
    exact inductionHypothesis (Function.update memory address value)
  | mark label rest inductionHypothesis => exact inductionHypothesis memory

@[simp] theorem run_pure (result : Result) (memory : Address → Value) :
    (pure result : Prog Address Value Mark Result).run memory = ⟨result, memory, []⟩ := rfl

@[simp] theorem run_load (address : Address) (memory : Address → Value) :
    (load address : Prog Address Value Mark Value).run memory =
      ⟨memory address, memory, [.read address]⟩ := by
  simp only [load, Prog.run, Outcome.after, List.append_nil]

@[simp] theorem run_store (address : Address) (value : Value) (memory : Address → Value) :
    (store address value : Prog Address Value Mark Unit).run memory =
      ⟨(), Function.update memory address value, [.write address value]⟩ := rfl

@[simp] theorem run_note (label : Mark) (memory : Address → Value) :
    (note label : Prog Address Value Mark Unit).run memory = ⟨(), memory, [.mark label]⟩ := rfl

@[simp] theorem run_ite {condition : Prop} [Decidable condition]
    (program alternative : Prog Address Value Mark Result) (memory : Address → Value) :
    (if condition then program else alternative).run memory =
      if condition then program.run memory else alternative.run memory := by
  split <;> rfl

/-- A program runs on what the one before it leaves. -/
@[simp] theorem run_bind (program : Prog Address Value Mark Result)
    (next : Result → Prog Address Value Mark Next) (memory : Address → Value) :
    (program >>= next).run memory =
      ((next (program.run memory).result).run (program.run memory).memory).after
        (program.run memory).log := by
  change (program.bind next).run memory = _
  induction program generalizing memory with
  | done result => rfl
  | read address rest inductionHypothesis =>
    rw [Prog.bind, Prog.run, inductionHypothesis]
    rfl
  | write address value rest inductionHypothesis =>
    rw [Prog.bind, Prog.run, inductionHypothesis]
    rfl
  | mark label rest inductionHypothesis =>
    rw [Prog.bind, Prog.run, inductionHypothesis]
    rfl

end Runs

end Prog

section Replays

variable {Address Value Mark : Type} [DecidableEq Address]
  {log : List (Event Address Value Mark)} {address : Address} {memory : Address → Value}

/-- An address that is not written keeps its value. -/
theorem replay_unwritten (unwritten : ∀ value, Event.write address value ∉ log) :
    replay log memory address = memory address := by
  induction log generalizing memory with
  | nil => rfl
  | cons event log inductionHypothesis =>
    have later := fun memory => @inductionHypothesis memory fun value member =>
      unwritten value (List.mem_cons_of_mem event member)
    cases event with
    | read place => exact later memory
    | mark label => exact later memory
    | write place value =>
      have apart : address ≠ place := by
        rintro rfl
        exact unwritten value List.mem_cons_self
      rw [replay, later, Function.update_of_ne apart]

/-- An address that is written, and always with one value, has that value. -/
theorem replay_written {value : Value} (written : Event.write address value ∈ log)
    (alone : ∀ other, Event.write address other ∈ log → other = value) :
    replay log memory address = value := by
  induction log generalizing memory with
  | nil => cases written
  | cons event log inductionHypothesis =>
    by_cases later : Event.write address value ∈ log
    · have rest := fun memory => @inductionHypothesis memory later fun other member =>
        alone other (List.mem_cons_of_mem event member)
      cases event with
      | read place => exact rest memory
      | mark label => exact rest memory
      | write place stored => exact rest _
    · obtain rfl : Event.write address value = event :=
        (List.mem_cons.mp written).resolve_right later
      have last : ∀ other, Event.write address other ∉ log := by
        intro other member
        obtain rfl := alone other (List.mem_cons_of_mem _ member)
        exact later member
      rw [replay, replay_unwritten last, Function.update_self]

/-- What a run changes it writes. -/
theorem Prog.written_of_changed {Result : Type} {program : Prog Address Value Mark Result}
    (changed : (program.run memory).memory address ≠ memory address) :
    ∃ value, Event.write address value ∈ (program.run memory).log := by
  by_contra unwritten
  apply changed
  rw [Prog.run_memory]
  exact replay_unwritten (not_exists.mp unwritten)

end Replays

end Emilib
