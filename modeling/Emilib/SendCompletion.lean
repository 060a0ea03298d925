import Emilib.Verdict

/-!
# When a send can still be completed

The worker leaves its wait loop when the count is zero. Until then it spins on an
offset that a receiver has not taken, and sweeps the table again and again. It has no
timeout, and while it spins it looks at nothing but the offset: it does not notice
that the receiver it signalled is gone.

So a receiver that exits between the signal and its handler leaves the worker spinning
for good. In any other state of a run some continuation completes the send, as long as
receivers stay until the reply. This is so while no other worker takes a step: the sweep
of another send may free the entry that the worker has counted, and another worker that
signals or registers the same process may change the slot that it spins on.
-/

namespace Emilib.ReceiverCount

open CountDown

/-- Some continuation in which receivers stay until the reply takes the worker out of
its wait loop. -/
def CanLeave (send : Send) : Prop :=
  ∃ actions final, System.follow perform StaysUntilReply send actions = some final ∧
    final.worker = .left

/-- The receivers that the worker has not finished signalling. -/
def Worker.ahead : Worker → List Pid
  | .signalling rest => rest
  | .spinning pid rest => pid :: rest
  | .testing | .sweeping _ | .removing _ _ | .left => []

/-- The invariant of runs in which receivers stay until the reply: a live receiver
that the worker has finished signalling has taken its message. -/
structure Attended (send : Send) : Prop where
  sound : Sound send
  distinct : send.counted.Nodup
  staying : ∀ pid, send.stage pid = .finished → send.alive pid = true
  spun : ∀ pid rest, send.worker = .spinning pid rest → send.stage pid ≠ .waiting
  taken : ∀ pid ∈ send.counted, send.alive pid = true → pid ∉ send.worker.ahead →
    send.stage pid = .running ∨ send.stage pid = .finished

/-- A step that can be taken leaves no less to continue with. -/
theorem CanLeave.step {send after : Send} (action : Action) (stays : StaysUntilReply send action)
    (taken : perform send action = some after) (leaves : CanLeave after) : CanLeave send := by
  obtain ⟨actions, final, completed, left⟩ := leaves
  refine ⟨action :: actions, final, ?_, left⟩
  rw [System.follow, if_pos stays, taken]
  exact completed

/-- Receivers that stay are not found gone after they finished. -/
theorem Attended.goneBeforeFinished {send : Send} (attended : Attended send) (action : Action) :
    GoneBeforeFinished send action := by
  intro _ pid _ dead finished
  rw [attended.staying pid finished] at dead
  cases dead

/-- A step of the worker to a place with the same receivers ahead, at which nobody is
spun on. -/
theorem Attended.moving {send : Send} (attended : Attended send) {worker : Worker}
    (sound : Sound { send with worker := worker })
    (spins : ∀ pid rest, worker ≠ .spinning pid rest)
    (ahead : ∀ pid ∈ send.worker.ahead, send.alive pid = true → pid ∉ worker.ahead →
      send.stage pid = .running ∨ send.stage pid = .finished) :
    Attended { send with worker := worker } where
  sound := sound
  distinct := attended.distinct
  staying := attended.staying
  spun pid rest place := absurd place (spins pid rest)
  taken pid member alive behind := by
    by_cases before : pid ∈ send.worker.ahead
    · exact ahead pid before alive behind
    · exact attended.taken pid member alive before

/-- A step of a receiver to a later stage keeps the invariant. -/
theorem Attended.onward {send after : Send} (attended : Attended send) (sound : Sound after)
    {pid : Pid} {stage : Stage} (alive : send.alive pid = true)
    (onward : stage = .running ∨ stage = .finished)
    (stages : after.stage = Function.update send.stage pid stage)
    (lives : after.alive = send.alive) (counted : after.counted = send.counted)
    (place : after.worker = send.worker) : Attended after where
  sound := sound
  distinct := counted ▸ attended.distinct
  staying other finished := by
    rw [lives]
    rcases eq_or_ne other pid with rfl | different
    · exact alive
    · rw [stages, Function.update_of_ne different] at finished
      exact attended.staying other finished
  spun other rest spinning := by
    rw [stages]
    rcases eq_or_ne other pid with rfl | different
    · rw [Function.update_self]
      rcases onward with rfl | rfl
      · simp
      · simp
    · rw [Function.update_of_ne different]
      exact attended.spun other rest (place ▸ spinning)
  taken other member living behind := by
    rw [stages]
    rcases eq_or_ne other pid with rfl | different
    · rw [Function.update_self]
      exact onward
    · rw [Function.update_of_ne different]
      exact attended.taken other (counted ▸ member) (lives ▸ living) (place ▸ behind)

/-- A step of the worker leaves no less to continue with. -/
theorem CanLeave.work {send after : Send} (worked : work send = some after)
    (leaves : CanLeave after) : CanLeave send := leaves.step .work True.intro worked

end Emilib.ReceiverCount
