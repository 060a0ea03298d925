import Emilib.PoolAssignments

/-!
# The jobs of the thread pool

A job given to a pool thread should run once, with its own argument. A submit
gives it by two writes and sends the signal after them, and never holds the lock
of the thread. So the thread may test `func` before the first write and begin its
wait after the signal, and then it sleeps on a job that nobody will wake it for.
And it may test `func` between the two writes, and then it calls the new function
with the old argument.

Along the runs in which neither happens every job is served. Nothing is
overwritten and nothing is called twice in any run.
-/

namespace Emilib.ThreadPool

variable {ι σ Arg : Type}

/-- Every job handed to a pool thread runs exactly once with the argument of its
own submit. What ran was given to a pool thread, ran once and got its own argument.
A job that was given is in the record of its thread until it runs, and that thread
is not asleep unless somebody is going to signal it. When nobody can take a step
any more, every job that was given has run. -/
structure JobsServed [DecidableEq ι] [DecidableEq σ] (argument : σ → Arg) (pool : Pool ι σ Arg) :
    Prop where
  once : (pool.ran.map Prod.fst).Nodup
  own : ∀ call ∈ pool.ran, call.2 = argument call.1 ∧ (pool.submit call.1).given ≠ none
  kept : ∀ submit, ∀ thread ∈ (pool.submit submit).given,
    submit ∈ pool.ran.map Prod.fst ∨ (pool.thread thread).func = some submit
  awake : ∀ thread, (pool.thread thread).func ≠ none → (pool.thread thread).place = .asleep →
    ∃ submit, (pool.submit submit).due = some thread
  finished : (∀ thread, threadStep pool thread = none) →
    (∀ submit, submitStep argument pool submit = none) →
    ∀ submit, (pool.submit submit).given ≠ none → submit ∈ pool.ran.map Prod.fst

/-- No thread falls asleep with a job whose signal has already been sent, and no
thread reads `args` for a job between the two writes that give it. -/
def Punctual (pool : Pool ι σ Arg) : Action ι σ → Prop
  | .thread thread =>
      ((pool.thread thread).place = .parking → (pool.thread thread).func ≠ none →
        ∃ submit, (pool.submit submit).due = some thread) ∧
      ∀ job, (pool.thread thread).place = .passing job → pool.submit job ≠ .passing thread
  | _ => True

/-- No lock is held for `emi_thread_pool_destroy`. -/
def Pool.Undestroyed (pool : Pool ι σ Arg) : Prop :=
  pool.spinlock ≠ some .destroyer ∧ ∀ thread, (pool.thread thread).lock ≠ some .destroyer

/-- The invariant of the punctual runs. No job is called before its argument is
written, so a job that waits in a record has its argument there, and a thread that
is asleep with a job will be signalled. -/
structure Served (argument : σ → Arg) (pool : Pool ι σ Arg) : Prop where
  exclusive : Exclusive pool
  assigned : Assigned pool
  listed : pool.order ≠ []
  undestroyed : pool.Undestroyed
  stays : ∀ thread, (pool.thread thread).status ≠ .exit ∧
    (pool.thread thread).place ≠ .leaving ∧ (pool.thread thread).place ≠ .ended
  unread : ∀ submit thread, pool.submit submit = .passing thread → ¬ pool.Called submit
  written : ∀ thread, ∀ job ∈ (pool.thread thread).func, pool.submit job ≠ .passing thread →
    (pool.thread thread).args = argument job
  right : ∀ call ∈ pool.ran, call.2 = argument call.1
  awake : ∀ thread, (pool.thread thread).func ≠ none → (pool.thread thread).place = .asleep →
    ∃ submit, (pool.submit submit).due = some thread

section Threads

variable [DecidableEq ι]

/-- A pool thread writes `func` only to clear it, never `args`, and falls asleep
only from the place before its wait. -/
theorem threadStep_record {pool after : Pool ι σ Arg} {thread : ι}
    (taken : threadStep pool thread = some after) (other : ι) :
    (after.thread other).args = (pool.thread other).args ∧
      ((after.thread other).func = (pool.thread other).func ∨ (after.thread other).func = none) ∧
      ((after.thread other).place = .asleep →
        (pool.thread other).place = .asleep ∨
          other = thread ∧ (pool.thread thread).place = .parking) := by
  rcases eq_or_ne other thread with rfl | different
  · cases threadStep_moves taken with
    | lock next _ place | unlock next place =>
      rcases place with ⟨place, rfl⟩ | ⟨place, rfl⟩ <;> simp [place]
    | park | find | leave | resume | call | run | finish | clear | idle | enter | move | release =>
      simp
  · cases threadStep_moves taken with
    | lock | unlock | clear | idle => simp +contextual [setThread_other pool _ different]
    | park | find | leave | resume | call | run | finish | enter | move | release =>
      simp +contextual [goto_other pool _ different]

/-- A pool thread takes locks for itself only. -/
theorem threadStep_undestroyed {pool after : Pool ι σ Arg} {thread : ι}
    (undestroyed : pool.Undestroyed) (taken : threadStep pool thread = some after) :
    after.Undestroyed := by
  obtain ⟨spinlock, locks⟩ := undestroyed
  constructor
  · cases threadStep_moves taken with
    | enter | release => simp
    | _ => exact spinlock
  · intro other
    have lock := locks other
    rcases eq_or_ne other thread with rfl | different
    · cases threadStep_moves taken with
      | lock | unlock => simp
      | _ => simpa using lock
    · cases threadStep_moves taken with
      | lock | unlock | clear | idle => rwa [setThread_other pool _ different]
      | park | find | leave | resume | call | run | finish | enter | move | release =>
        simpa only [goto_other pool _ different] using lock

/-- A pool thread leaves the submits alone. -/
theorem threadStep_submit {pool after : Pool ι σ Arg} {thread : ι}
    (taken : threadStep pool thread = some after) : after.submit = pool.submit := by
  cases threadStep_moves taken <;> rfl

/-- A punctual step of a pool thread keeps the invariant. -/
theorem threadStep_served {argument : σ → Arg} {pool after : Pool ι σ Arg}
    (served : Served argument pool) {thread : ι} (punctual : Punctual pool (.thread thread))
    (taken : threadStep pool thread = some after) : Served argument after where
  exclusive := threadStep_exclusive served.exclusive taken
  assigned := threadStep_assigned served.assigned taken
  listed := by
    have listed := served.listed
    cases threadStep_moves taken with
    | move => exact List.cons_ne_nil _ _
    | _ => exact listed
  undestroyed := threadStep_undestroyed served.undestroyed taken
  stays other := by
    have stays := served.stays other
    rcases eq_or_ne other thread with rfl | different
    · cases threadStep_moves taken with
      | lock next _ place | unlock next place =>
        rcases place with ⟨place, rfl⟩ | ⟨place, rfl⟩ <;> simp_all
      | leave _ exits => exact absurd exits stays.1
      | _ => simp_all
    · cases threadStep_moves taken with
      | lock | unlock | clear | idle => rwa [setThread_other pool _ different]
      | park | find | leave | resume | call | run | finish | enter | move | release =>
        simpa only [goto_other pool _ different] using stays
  unread submit other place := by
    rw [threadStep_submit taken] at place
    have unread := served.unread submit other place
    cases threadStep_moves taken with
    | run job running =>
      rintro called
      rcases List.mem_cons.mp called with same | before
      · have set := (served.assigned.fits thread).carried job running
        have given := served.assigned.stored thread job set
        cases same
        rw [place] at given
        obtain rfl := Option.some.inj given
        exact punctual.2 _ running place
      · exact unread before
    | _ => exact unread
  written other job stored place := by
    rw [threadStep_submit taken] at place
    obtain ⟨args, func, _⟩ := threadStep_record taken other
    rw [args]
    rcases func with same | none
    · rw [same] at stored
      exact served.written other job stored place
    · rw [none] at stored
      cases stored
  right := by
    have right := served.right
    cases threadStep_moves taken with
    | run job place =>
      have set := (served.assigned.fits thread).carried job place
      have argued := served.written thread job set (punctual.2 job place)
      exact List.forall_mem_cons.mpr ⟨argued, right⟩
    | _ => exact right
  awake other set place := by
    obtain ⟨_, func, asleep⟩ := threadStep_record taken other
    have before : (pool.thread other).func ≠ none := by
      rcases func with same | none
      · rwa [same] at set
      · exact absurd none set
    rw [threadStep_submit taken]
    rcases asleep place with already | ⟨rfl, parking⟩
    · exact served.awake other before already
    · exact punctual.1 parking before

end Threads

section Steps

variable [DecidableEq ι] [DecidableEq σ]

/-- A submit writes `func` and `args` only of the thread it gives its job to, and
never puts a thread to sleep. -/
theorem submitStep_record {argument : σ → Arg} {pool after : Pool ι σ Arg} {submit : σ}
    (taken : submitStep argument pool submit = some after) (other : ι) :
    ((after.thread other).func = (pool.thread other).func ∨
        pool.submit submit = .filling other ∧ (after.thread other).func = some submit) ∧
      (after.thread other).args = (if pool.submit submit = .passing other then argument submit
        else (pool.thread other).args) ∧
      ((after.thread other).place = (pool.thread other).place ∧
        (pool.submit submit = .signalling other → (after.thread other).place ≠ .asleep) ∨
          (after.thread other).place = .woken) ∧
      ((after.thread other).status = (pool.thread other).status ∨
        (after.thread other).status = .busy) := by
  cases submitStep_moves taken with
  | claim thread place | fill thread place | pass thread place =>
    rw [proceed_thread]
    rcases eq_or_ne other thread with rfl | different
    · simp [place]
    · simp [setThread_other pool _ different, different.symm, place]
  | signal thread place =>
    rw [proceed_thread]
    obtain ⟨next, record, position⟩ := wake_record pool thread other
    rw [record]
    refine ⟨.inl rfl, by simp [place], ?_, .inl rfl⟩
    rcases position with ⟨same, awake⟩ | woken
    · refine .inl ⟨same, fun signalling => ?_⟩
      rw [place] at signalling
      cases signalling
      exact awake rfl
    · exact .inr woken
  | enter place _ | choose place _ _ | accept _ place _ | refuse _ place | move _ place
  | spawn place =>
    simp [place]
  | release next place =>
    rcases place with ⟨thread, place, rfl⟩ | ⟨place, rfl⟩ <;> simp [place]

/-- Every other submit stays where it is, and this one is still going to signal
its thread unless it has just done so. -/
theorem submitStep_submit {argument : σ → Arg} {pool after : Pool ι σ Arg} {submit : σ}
    (taken : submitStep argument pool submit = some after) :
    (∀ other, other ≠ submit → after.submit other = pool.submit other) ∧
      (∀ thread, after.submit submit = .passing thread ↔ pool.submit submit = .filling thread) ∧
      ∀ thread, (pool.submit submit).due = some thread →
        (after.submit submit).due = some thread ∨ pool.submit submit = .signalling thread := by
  cases submitStep_moves taken with
  | release next place =>
    rcases place with ⟨thread, place, rfl⟩ | ⟨place, rfl⟩ <;>
      simp +contextual [place, proceed_other, Submit.due]
  | enter place _ | choose place _ _ | accept _ place _ | refuse _ place | move _ place
  | spawn place | claim _ place | fill _ place | pass _ place | signal _ place =>
    simp +contextual [place, proceed_other, Submit.due]

/-- Submits call nothing, and leave the list of threads filled. -/
theorem submitStep_ran {argument : σ → Arg} {pool after : Pool ι σ Arg} {submit : σ}
    (taken : submitStep argument pool submit = some after) :
    after.ran = pool.ran ∧ (pool.order ≠ [] → after.order ≠ []) := by
  cases submitStep_moves taken with
  | move thread _ =>
    exact ⟨rfl, fun _ => List.append_ne_nil_of_right_ne_nil _ (List.cons_ne_nil _ _)⟩
  | signal thread _ =>
    exact ⟨wake_ran pool thread, fun listed => (wake_order pool thread).symm ▸ listed⟩
  | _ => exact ⟨rfl, id⟩

/-- A submit takes the spin lock for itself only. -/
theorem submitStep_undestroyed {argument : σ → Arg} {pool after : Pool ι σ Arg} {submit : σ}
    (undestroyed : pool.Undestroyed) (taken : submitStep argument pool submit = some after) :
    after.Undestroyed := by
  obtain ⟨spinlock, locks⟩ := undestroyed
  have kept (thread other : ι) (status : Status) (func : Option σ) (args : Arg) :
      ((pool.setThread thread { pool.thread thread with
        status := status, func := func, args := args }).thread other).lock ≠ some .destroyer := by
    rcases eq_or_ne other thread with rfl | different
    · simpa using locks other
    · rw [setThread_other pool _ different]
      exact locks other
  cases submitStep_moves taken with
  | enter => exact ⟨by simp, locks⟩
  | release => exact ⟨by simp, locks⟩
  | claim thread => exact ⟨spinlock, fun other => kept thread other .busy _ _⟩
  | fill thread => exact ⟨spinlock, fun other => kept thread other _ (some submit) _⟩
  | pass thread => exact ⟨spinlock, fun other => kept thread other _ _ (argument submit)⟩
  | choose | accept | refuse | move | spawn => exact ⟨spinlock, locks⟩
  | signal thread =>
    constructor
    · rw [proceed_spinlock, wake_spinlock]
      exact spinlock
    · intro other
      obtain ⟨place, record, _⟩ := wake_record pool thread other
      rw [proceed_thread, record]
      exact locks other

/-- Every step of a submit keeps the invariant. -/
theorem submitStep_served {argument : σ → Arg} {pool after : Pool ι σ Arg}
    (served : Served argument pool) {submit : σ}
    (taken : submitStep argument pool submit = some after) : Served argument after := by
  obtain ⟨same, passes, signals⟩ := submitStep_submit taken
  obtain ⟨ran, listed⟩ := submitStep_ran taken
  constructor
  · exact submitStep_exclusive served.exclusive taken
  · exact submitStep_assigned served.assigned served.exclusive taken
  · exact listed served.listed
  · exact submitStep_undestroyed served.undestroyed taken
  · intro thread
    obtain ⟨_, _, place, status⟩ := submitStep_record taken thread
    obtain ⟨stays, leaving, ended⟩ := served.stays thread
    refine ⟨?_, ?_⟩
    · rcases status with same | busy
      · rwa [same]
      · simp [busy]
    · rcases place with ⟨same, _⟩ | woken
      · rw [same]
        exact ⟨leaving, ended⟩
      · simp [woken]
  · intro other thread place
    rw [Pool.Called, ran]
    rcases eq_or_ne other submit with rfl | different
    · intro called
      have filling := (passes thread).mp place
      exact served.assigned.called other called (by rw [filling]; rfl)
    · rw [same other different] at place
      exact served.unread other thread place
  · intro thread job stored place
    obtain ⟨func, args, _⟩ := submitStep_record taken thread
    rcases func with kept | ⟨filling, filled⟩
    · rw [kept] at stored
      by_cases passing : pool.submit submit = .passing thread
      · have given : (pool.submit submit).given = some thread := by rw [passing]; rfl
        have unread := served.unread submit thread passing
        rw [served.assigned.progress submit thread given] at unread
        have own := not_not.mp (not_or.mp unread).1
        rw [args, if_pos passing, Option.some.inj (own.symm.trans stored)]
      · rw [args, if_neg passing]
        apply served.written thread job stored
        rcases eq_or_ne job submit with rfl | different
        · exact passing
        · rwa [same job different] at place
    · obtain rfl := Option.some.inj (filled.symm.trans stored)
      exact absurd ((passes thread).mpr filling) place
  · rw [ran]
    exact served.right
  · intro thread set place
    obtain ⟨func, _, position, _⟩ := submitStep_record taken thread
    rcases position with ⟨stays, awake⟩ | woken
    · have asleep := stays.symm.trans place
      have going (other : σ) (due : (pool.submit other).due = some thread) :
          ∃ other, (after.submit other).due = some thread := by
        refine ⟨other, ?_⟩
        rcases eq_or_ne other submit with rfl | different
        · exact (signals thread due).resolve_right (fun now => awake now place)
        · rwa [same other different]
      rcases func with kept | ⟨filling, _⟩
      · rw [kept] at set
        obtain ⟨other, due⟩ := served.awake thread set asleep
        exact going other due
      · exact going submit (by rw [filling]; rfl)
    · rw [woken] at place
      cases place

/-- Every punctual step keeps the invariant. -/
theorem perform_served {argument : σ → Arg} {pool after : Pool ι σ Arg} {action : Action ι σ}
    (served : Served argument pool) (punctual : Punctual pool action)
    (taken : perform argument pool action = some after) : Served argument after := by
  cases action with
  | thread thread => exact threadStep_served served punctual taken
  | submit submit => exact submitStep_served served taken
  | stir thread =>
    have exclusive := perform_exclusive served.exclusive taken
    obtain ⟨place, taken⟩ := Option.ite_none_right_eq_some.mp taken
    obtain rfl := Option.some.inj taken
    have assigned : Assigned (pool.goto thread .woken) :=
      served.assigned.outside _ .woken (by rw [place]; rfl) rfl
    refine ⟨exclusive, assigned, served.listed, ⟨served.undestroyed.1, ?_⟩, ?_, served.unread, ?_,
      served.right, ?_⟩
    · intro other
      rcases eq_or_ne other thread with rfl | different
      · simpa using served.undestroyed.2 other
      · rw [goto_other pool _ different]
        exact served.undestroyed.2 other
    · intro other
      rcases eq_or_ne other thread with rfl | different
      · simpa using (served.stays other).1
      · rw [goto_other pool _ different]
        exact served.stays other
    · intro other
      rcases eq_or_ne other thread with rfl | different
      · rw [goto_same]
        exact served.written other
      · rw [goto_other pool _ different]
        exact served.written other
    · intro other
      rcases eq_or_ne other thread with rfl | different
      · simp
      · rw [goto_other pool _ different]
        exact served.awake other

end Steps

/-- A fresh pool has given and called nothing. -/
theorem fresh_served {argument : σ → Arg} {pool : Pool ι σ Arg} (fresh : Fresh pool) :
    Served argument pool := by
  have exclusive := fresh_exclusive fresh
  obtain ⟨spinlock, listed, _, _, records, submits, ran⟩ := fresh
  have empty (thread : ι) : (pool.thread thread).func = none := by
    obtain ⟨args, record⟩ := records thread
    rw [record]
  have place (thread : ι) : (pool.thread thread).place = .locking := by
    obtain ⟨args, record⟩ := records thread
    rw [record]
  have assigned : Assigned pool := by
    constructor
    · exact fun thread => Thread.fits_outside (fun _ => empty thread) (by rw [place]; rfl)
    · simp [submits]
    · simp [submits]
    · simp [empty]
    · simp [Pool.Called, ran]
    · simp [submits, Submit.given]
    · simp [ran]
  refine ⟨exclusive, assigned, listed, ⟨by simp [spinlock], ?_⟩, ?_, by simp [submits],
    by simp [empty], by simp [ran], by simp [empty]⟩
  · intro thread
    obtain ⟨args, record⟩ := records thread
    simp [record]
  · intro thread
    obtain ⟨args, record⟩ := records thread
    simp [record]

section Steps

variable [DecidableEq ι] [DecidableEq σ]

/-- When nobody can take a step any more, every job that was given has been called.
Nobody holds a lock then, so all threads are asleep, and one that had a job would
still be going to be signalled. -/
theorem Served.finished {argument : σ → Arg} {pool : Pool ι σ Arg} (served : Served argument pool)
    (threads : ∀ thread, threadStep pool thread = none)
    (submits : ∀ submit, submitStep argument pool submit = none) {submit : σ} {thread : ι}
    (given : (pool.submit submit).given = some thread) : pool.Called submit := by
  have quiet (other : σ) := submitStep_stuck served.listed (submits other)
  have unlocked : pool.spinlock = none := by
    cases holder : pool.spinlock with
    | none => rfl
    | some party =>
      cases party with
      | thread other =>
        have spins := (served.exclusive.spinThread other).mpr holder
        rcases threadStep_stuck (threads other) with place | place | ⟨holds, _⟩ | ⟨place, _⟩ |
          ⟨place, _⟩
        · rw [place] at spins
          cases spins
        · rw [place] at spins
          cases spins
        · cases place : (pool.thread other).place <;> simp_all [Place.spins, Place.holds]
        · rw [place] at spins
          cases spins
        · rw [place] at spins
          cases spins
      | submit other =>
        have critical := (served.exclusive.spinSubmit other).mpr holder
        rw [(quiet other).1] at critical
        cases critical
      | destroyer => exact absurd holder served.undestroyed.1
  by_contra waiting
  rw [served.assigned.progress submit thread given] at waiting
  have set := not_not.mp (not_or.mp waiting).1
  have present : (pool.thread thread).func ≠ none := by
    rw [set]
    exact Option.some_ne_none submit
  rcases threadStep_stuck (threads thread) with place | place | ⟨holds, locked⟩ | ⟨_, held⟩ |
    ⟨_, none⟩
  · obtain ⟨other, due⟩ := served.awake thread present place
    rw [(quiet other).2] at due
    cases due
  · exact (served.stays thread).2.2 place
  · obtain ⟨party, owner⟩ := Option.ne_none_iff_exists'.mp locked
    rcases served.exclusive.owned thread party owner with rfl | rfl
    · rw [(served.exclusive.locked thread).mpr owner] at holds
      cases holds
    · exact served.undestroyed.2 thread owner
  · exact held unlocked
  · exact present none

/-- Along every punctual run, every job given to a pool thread is served. -/
theorem punctual_jobs_served (argument : σ → Arg) (pool : Pool ι σ Arg)
    (reached : (working argument).ReachedUnder Punctual pool) : JobsServed argument pool := by
  have served : Served argument pool := by
    apply reached.invariant
    · intro start fresh
      exact fresh_served fresh
    · intro before action after served punctual taken
      exact perform_served served punctual taken
  constructor
  · exact served.assigned.once
  · intro call ran
    exact ⟨served.right call ran, served.assigned.called call.1 (List.mem_map_of_mem ran)⟩
  · intro submit thread given
    have progress := served.assigned.progress submit thread given
    by_cases called : pool.Called submit
    · exact .inl called
    · rw [progress] at called
      exact .inr (not_not.mp (not_or.mp called).1)
  · exact served.awake
  · intro threads submits submit given
    obtain ⟨thread, given⟩ := Option.ne_none_iff_exists'.mp given
    exact served.finished threads submits given

end Steps

instance [Fintype σ] [DecidableEq ι] [DecidableEq σ] (pool : Pool ι σ Arg) (action : Action ι σ) :
    Decidable (Punctual pool action) :=
  match action with
  | .thread _ => inferInstanceAs (Decidable ((_ → _ → ∃ _, _) ∧ ∀ _, _ → _))
  | .stir _ | .submit _ => inferInstanceAs (Decidable True)

/-- A pool of one thread, before its only submit. -/
def onePool : Pool Unit Unit Nat :=
  { spinlock := none
    order := [()]
    thread := fun _ => ⟨none, .idle, none, 0, .locking⟩
    submit := fun _ => .entering
    ran := [] }

/-- The argument of that submit. -/
def seven : Unit → Nat := fun _ => 7

theorem onePool_starts : (working seven).start onePool :=
  ⟨rfl, by decide, by decide, by decide, fun _ => ⟨0, rfl⟩, fun _ => rfl, rfl⟩

/-- All nine steps of a submit to an idle thread. -/
def submitAll : List (Action Unit Unit) := List.replicate 9 (.submit ())

/-- The thread is asleep before the submit begins, and runs the job. -/
def asleepFirst : List (Action Unit Unit) :=
  List.replicate 3 (.thread ()) ++ submitAll ++ List.replicate 5 (.thread ())

/-- The thread has tested `func` before the submit and begins its wait behind it. -/
def waitLast : List (Action Unit Unit) :=
  List.replicate 2 (.thread ()) ++ submitAll ++ [.thread ()]

/-- The job of a submit to a sleeping thread is served. -/
theorem asleepFirst_served :
    JobsServed seven ((System.follow (perform seven) Punctual onePool asleepFirst).get
      (by decide)) :=
  punctual_jobs_served _ _
    (System.followed_reached asleepFirst (.initial onePool onePool_starts) (by decide))

/-- Not every run serves every job: the thread falls asleep on a job whose signal
came before its wait. -/
theorem signal_before_wait_lost :
    ¬ ∀ pool : Pool Unit Unit Nat, (working seven).Reached pool → JobsServed seven pool := by
  intro always
  have reached : (working seven).Reached
      ((System.follow (perform seven) (fun _ _ => True) onePool waitLast).get (by decide)) :=
    System.followed_reached waitLast (.initial onePool onePool_starts) (by decide)
  have awake := (always _ reached).awake () (by decide) (by decide)
  revert awake
  decide

/-- The condition is exact: an unpunctual step leaves the thread asleep on a job
that nobody will signal, or calls a job with what `args` held before its submit
wrote it. -/
theorem unpunctual_breaks [DecidableEq ι] {pool : Pool ι σ Arg} {thread : ι}
    (late : ¬ Punctual pool (.thread thread)) :
    ∃ after, threadStep pool thread = some after ∧
      (((after.thread thread).place = .asleep ∧ (after.thread thread).func ≠ none ∧
          ∀ submit, (after.submit submit).due ≠ some thread) ∨
        ∃ job, (job, (pool.thread thread).args) ∈ after.ran ∧
          after.submit job = .passing thread) := by
  rw [Punctual, not_and_or] at late
  rcases late with missed | early
  · simp only [Classical.not_imp, not_exists] at missed
    obtain ⟨place, set, unsignalled⟩ := missed
    refine ⟨pool.setThread thread { pool.thread thread with lock := none, place := .asleep },
      by simp [threadStep, place], .inl ?_⟩
    rw [setThread_same]
    exact ⟨rfl, set, unsignalled⟩
  · simp only [not_forall, not_not] at early
    obtain ⟨job, place, unwritten⟩ := early
    exact ⟨{ pool.goto thread (.running job) with
      ran := (job, (pool.thread thread).args) :: pool.ran },
      by simp [threadStep, place], .inr ⟨job, List.mem_cons_self, unwritten⟩⟩

end Emilib.ThreadPool
