import Emilib.ThreadPool

/-!
# Who has which job

A submit that finds a thread idle under the spin lock claims it, and gives it the
job by writing `func`. From then on the job is in the record of that thread until
it has been called and cleared. Only then is the thread idle again. So a thread
that is claimed is always empty-handed, nothing that was given is overwritten, and
nothing is called twice. This holds in every run.
-/

namespace Emilib.ThreadPool

variable {ι σ Arg : Type}

/-- What the record of a thread says about its job at each place. -/
structure Thread.Fits (record : Thread ι σ Arg) : Prop where
  idle : record.status = .idle → record.func = none ∧ record.place.busy = false
  found : record.place = .calling → record.func ≠ none
  carried : ∀ job, record.place = .passing job → record.func = some job
  started : ∀ job ∈ record.place.started, record.func = some job
  cleared : record.place = .idling → record.func = none

/-- Only a busy thread has started a job. -/
theorem Place.started_none {place : Place σ} (outside : place.busy = false) :
    place.started = none := by
  cases place <;> first | rfl | cases outside

/-- Outside a job, a record only has to be empty while it is idle. -/
theorem Thread.fits_outside {record : Thread ι σ Arg}
    (idle : record.status = .idle → record.func = none)
    (outside : record.place.busy = false) : record.Fits where
  idle status := ⟨idle status, outside⟩
  found place := by
    rw [place] at outside
    cases outside
  carried job place := by
    rw [place] at outside
    cases outside
  started job started := by
    rw [Place.started_none outside] at started
    cases started
  cleared place := by
    rw [place] at outside
    cases outside

/-- A job has been called. -/
def Pool.Called (pool : Pool ι σ Arg) (submit : σ) : Prop := submit ∈ pool.ran.map Prod.fst

/-- The invariant of the jobs. A submit about to claim a thread finds it idle, and
about to fill it finds it empty-handed. What was given has run, unless it is in
its thread's record and not started, and the other submits' jobs have not run. -/
structure Assigned (pool : Pool ι σ Arg) : Prop where
  fits : ∀ thread, (pool.thread thread).Fits
  claiming : ∀ submit thread, pool.submit submit = .claiming thread →
    (pool.thread thread).status = .idle
  filling : ∀ submit thread, pool.submit submit = .filling thread →
    (pool.thread thread).status = .busy ∧ (pool.thread thread).func = none ∧
      (pool.thread thread).place.busy = false
  stored : ∀ thread, ∀ job ∈ (pool.thread thread).func, (pool.submit job).given = some thread
  called : ∀ submit, pool.Called submit → (pool.submit submit).given ≠ none
  progress : ∀ submit, ∀ thread ∈ (pool.submit submit).given,
    (pool.Called submit ↔ (pool.thread thread).func ≠ some submit ∨
      (pool.thread thread).place.started = some submit)
  once : (pool.ran.map Prod.fst).Nodup

/-- A thread that has a job is not idle. -/
theorem Assigned.unclaimed {pool : Pool ι σ Arg} (assigned : Assigned pool) {thread : ι}
    (set : (pool.thread thread).func ≠ none) : (pool.thread thread).status ≠ .idle :=
  fun idle => set ((assigned.fits thread).idle idle).1

section Threads

variable [DecidableEq ι]

/-- A step that only moves a thread along its job keeps the jobs. The thread may
become idle at the end of its job. -/
theorem Assigned.setThread {pool : Pool ι σ Arg} (assigned : Assigned pool) {thread : ι}
    {record : Thread ι σ Arg} (fits : record.Fits)
    (func : record.func = (pool.thread thread).func)
    (started : record.place.started = (pool.thread thread).place.started)
    (status : record.status = (pool.thread thread).status ∨
      record.status = .idle ∧ (pool.thread thread).place.busy = true)
    (busy : record.place.busy = true → record.func = none →
      (pool.thread thread).place.busy = true) :
    Assigned (pool.setThread thread record) where
  fits other := by
    rcases eq_or_ne other thread with rfl | different
    · rwa [setThread_same]
    · rw [setThread_other pool record different]
      exact assigned.fits other
  claiming submit other place := by
    have idle := assigned.claiming submit other place
    rcases eq_or_ne other thread with rfl | different
    · rw [setThread_same]
      exact status.elim (fun same => same.trans idle) And.left
    · rwa [setThread_other pool record different]
  filling submit other place := by
    have empty := assigned.filling submit other place
    rcases eq_or_ne other thread with rfl | different
    · rw [setThread_same, func]
      refine ⟨?_, empty.2.1, ?_⟩
      · rcases status with same | ⟨_, before⟩
        · rw [same]
          exact empty.1
        · rw [empty.2.2] at before
          cases before
      · rw [Bool.eq_false_iff]
        intro after
        have before := busy after (func.trans empty.2.1)
        rw [empty.2.2] at before
        cases before
    · rwa [setThread_other pool record different]
  stored other := by
    rcases eq_or_ne other thread with rfl | different
    · rw [setThread_same, func]
      exact assigned.stored other
    · rw [setThread_other pool record different]
      exact assigned.stored other
  called := assigned.called
  progress submit other given := by
    have before := assigned.progress submit other given
    rcases eq_or_ne other thread with rfl | different
    · rw [setThread_same, func, started]
      exact before
    · rw [setThread_other pool record different]
      exact before
  once := assigned.once

/-- Calling a job records it. It had not been called, as nothing was started. -/
theorem Assigned.run {pool : Pool ι σ Arg} (assigned : Assigned pool) {thread : ι} {job : σ}
    (place : (pool.thread thread).place = .passing job) :
    Assigned { pool.goto thread (.running job) with
      ran := (job, (pool.thread thread).args) :: pool.ran } := by
  have set := (assigned.fits thread).carried job place
  have given : (pool.submit job).given = some thread := assigned.stored thread job set
  have status := assigned.unclaimed (by rw [set]; exact Option.some_ne_none job)
  have fresh : ¬ pool.Called job := by
    rw [assigned.progress job thread given, place, set]
    simp [Place.started]
  have called (submit : σ) (different : submit ≠ job) :
      Pool.Called { pool.goto thread (.running job) with
        ran := (job, (pool.thread thread).args) :: pool.ran } submit ↔ pool.Called submit := by
    simp [Pool.Called, different]
  constructor
  · intro other
    rcases eq_or_ne other thread with rfl | different
    · rw [goto_same]
      exact ⟨fun idle => absurd idle status, by simp, by simp, by simp [Place.started, set],
        by simp⟩
    · rw [goto_other pool _ different]
      exact assigned.fits other
  · intro submit other claims
    have idle := assigned.claiming submit other claims
    rcases eq_or_ne other thread with rfl | different
    · exact absurd idle status
    · rwa [goto_other pool _ different]
  · intro submit other fills
    have empty := assigned.filling submit other fills
    rcases eq_or_ne other thread with rfl | different
    · rw [set] at empty
      cases empty.2.1
    · rwa [goto_other pool _ different]
  · intro other
    rcases eq_or_ne other thread with rfl | different
    · rw [goto_same]
      exact assigned.stored other
    · rw [goto_other pool _ different]
      exact assigned.stored other
  · intro submit ran
    rcases eq_or_ne submit job with rfl | different
    · exact fun none => Option.some_ne_none thread (given.symm.trans none)
    · exact assigned.called submit ((called submit different).mp ran)
  · intro submit other target
    rcases eq_or_ne submit job with rfl | different
    · obtain rfl := Option.some.inj (given.symm.trans target)
      simp [Pool.Called, Place.started]
    · rw [called submit different, assigned.progress submit other target]
      rcases eq_or_ne other thread with rfl | elsewhere
      · simp [goto_same, set, different.symm]
      · rw [goto_other pool _ elsewhere]
  · exact List.nodup_cons.mpr ⟨fresh, assigned.once⟩

/-- The end of a job clears the record of its thread. -/
theorem Assigned.clear {pool : Pool ι σ Arg} (assigned : Assigned pool) {thread : ι} {job : σ}
    (place : (pool.thread thread).place = .clearing job) :
    Assigned (pool.setThread thread
      { pool.thread thread with func := none, place := .idling }) := by
  have set := (assigned.fits thread).started job (by rw [place]; rfl)
  have given : (pool.submit job).given = some thread := assigned.stored thread job set
  have status := assigned.unclaimed (by rw [set]; exact Option.some_ne_none job)
  constructor
  · intro other
    rcases eq_or_ne other thread with rfl | different
    · rw [setThread_same]
      exact ⟨fun idle => absurd idle status, by simp, by simp, by simp [Place.started], by simp⟩
    · rw [setThread_other pool _ different]
      exact assigned.fits other
  · intro submit other claims
    have idle := assigned.claiming submit other claims
    rcases eq_or_ne other thread with rfl | different
    · exact absurd idle status
    · rwa [setThread_other pool _ different]
  · intro submit other fills
    have empty := assigned.filling submit other fills
    rcases eq_or_ne other thread with rfl | different
    · rw [set] at empty
      cases empty.2.1
    · rwa [setThread_other pool _ different]
  · intro other stored
    rcases eq_or_ne other thread with rfl | different
    · simp
    · rw [setThread_other pool _ different]
      exact assigned.stored other stored
  · exact assigned.called
  · intro submit other target
    have before := assigned.progress submit other target
    rcases eq_or_ne other thread with rfl | different
    · have ran : pool.Called submit := by
        rw [before, place, set]
        rcases eq_or_ne submit job with rfl | other
        · exact .inr rfl
        · exact .inl (by simp [other.symm])
      rw [setThread_same]
      exact iff_of_true ran (.inl (by simp))
    · rwa [setThread_other pool _ different]
  · exact assigned.once

/-- A step between two places outside a job keeps the jobs. -/
theorem Assigned.outside {pool : Pool ι σ Arg} (assigned : Assigned pool) {thread : ι}
    (lock : Option (Party ι σ)) (next : Place σ)
    (before : (pool.thread thread).place.busy = false) (after : next.busy = false) :
    Assigned (pool.setThread thread { pool.thread thread with lock := lock, place := next }) := by
  apply assigned.setThread
  · exact Thread.fits_outside (fun idle => ((assigned.fits thread).idle idle).1) after
  · rfl
  · rw [Place.started_none before, Place.started_none after]
  · exact .inl rfl
  · intro busy
    rw [after] at busy
    cases busy

/-- A step inside a job, with the record unchanged, keeps the jobs. -/
theorem Assigned.inside {pool : Pool ι σ Arg} (assigned : Assigned pool) {thread : ι} {job : σ}
    (set : (pool.thread thread).func = some job) (next : Place σ)
    (started : next.started = (pool.thread thread).place.started)
    (carried : ∀ other, next = .passing other → other = job) (stays : next ≠ .idling) :
    Assigned (pool.goto thread next) := by
  have status := assigned.unclaimed (by rw [set]; exact Option.some_ne_none job)
  apply assigned.setThread
  · refine ⟨fun idle => absurd idle status, fun _ => ?_, ?_, ?_, fun idling => absurd idling stays⟩
    · rw [set]
      exact Option.some_ne_none job
    · intro other place
      rw [carried other place]
      exact set
    · intro other place
      rw [started] at place
      exact (assigned.fits thread).started other place
  · rfl
  · exact started
  · exact .inl rfl
  · intro _ none
    rw [set] at none
    cases none

/-- Every step of a pool thread keeps the jobs. -/
theorem threadStep_assigned {pool after : Pool ι σ Arg} (assigned : Assigned pool) {thread : ι}
    (taken : threadStep pool thread = some after) : Assigned after := by
  cases threadStep_moves taken with
  | lock next _ place | unlock next place =>
    rcases place with ⟨place, rfl⟩ | ⟨place, rfl⟩
    · exact assigned.outside _ _ (by rw [place]; rfl) rfl
    · exact assigned.outside _ _ (by rw [place]; rfl) rfl
  | park place _ | leave place _ | resume place _ =>
    exact assigned.outside _ _ (by rw [place]; rfl) rfl
  | find place job set =>
    exact assigned.inside set .calling (by rw [place]; rfl) (by simp) (by simp)
  | call place job set =>
    exact assigned.inside set (.passing job) (by rw [place]; rfl) (by simp) (by simp)
  | run job place => exact assigned.run place
  | finish job place =>
    have set := (assigned.fits thread).started job (by rw [place]; rfl)
    exact assigned.inside set (.clearing job) (by rw [place]; rfl) (by simp) (by simp)
  | clear job place => exact assigned.clear place
  | idle place =>
    apply assigned.setThread
    · exact Thread.fits_outside (fun _ => (assigned.fits thread).cleared place) rfl
    · rfl
    · rw [place]; rfl
    · exact .inr ⟨rfl, by rw [place]; rfl⟩
    · intro busy
      cases busy
  | enter place _ =>
    have moved : Assigned (pool.goto thread .moving) :=
      assigned.outside _ _ (by rw [place]; rfl) rfl
    exact { moved with }
  | move place =>
    have moved : Assigned (pool.goto thread .releasing) :=
      assigned.outside _ _ (by rw [place]; rfl) rfl
    exact { moved with }
  | release place =>
    have moved : Assigned (pool.goto thread .testing) :=
      assigned.outside _ _ (by rw [place]; rfl) rfl
    exact { moved with }

end Threads

section Submits

variable [DecidableEq σ]

/-- A step of a submit that gives nothing keeps the jobs. -/
theorem Assigned.proceed {pool : Pool ι σ Arg} (assigned : Assigned pool) {submit : σ}
    {place : Submit ι} (given : place.given = (pool.submit submit).given)
    (claims : ∀ thread, place = .claiming thread → (pool.thread thread).status = .idle)
    (fills : ∀ thread, place ≠ .filling thread) : Assigned (pool.proceed submit place) := by
  have same (other : σ) : ((pool.proceed submit place).submit other).given =
      (pool.submit other).given := by
    rcases eq_or_ne other submit with rfl | different
    · rw [proceed_same, given]
    · rw [proceed_other pool _ different]
  constructor
  · exact assigned.fits
  · intro other thread claiming
    rcases eq_or_ne other submit with rfl | different
    · rw [proceed_same] at claiming
      exact claims thread claiming
    · rw [proceed_other pool _ different] at claiming
      exact assigned.claiming other thread claiming
  · intro other thread filling
    rcases eq_or_ne other submit with rfl | different
    · rw [proceed_same] at filling
      exact absurd filling (fills thread)
    · rw [proceed_other pool _ different] at filling
      exact assigned.filling other thread filling
  · intro thread job stored
    rw [same]
    exact assigned.stored thread job stored
  · intro other ran
    rw [same]
    exact assigned.called other ran
  · intro other thread target
    rw [same] at target
    exact assigned.progress other thread target
  · exact assigned.once

end Submits

section Steps

variable [DecidableEq ι] [DecidableEq σ]

/-- Claiming a thread that was found idle. No other submit has chosen one, as
this one holds the spin lock. -/
theorem Assigned.claim {pool : Pool ι σ Arg} (assigned : Assigned pool)
    (exclusive : Exclusive pool) {submit : σ} {thread : ι}
    (place : pool.submit submit = .claiming thread) :
    Assigned ((pool.setThread thread { pool.thread thread with status := .busy }).proceed submit
      (.filling thread)) := by
  obtain ⟨empty, free⟩ := (assigned.fits thread).idle (assigned.claiming submit thread place)
  have alone (other : σ) (critical : (pool.submit other).critical = true) : other = submit :=
    exclusive.alone critical (by rw [place]; rfl)
  have given (other : σ) :
      Submit.given (Function.update pool.submit submit (.filling thread) other) =
        (pool.submit other).given := by
    rcases eq_or_ne other submit with rfl | different
    · rw [Function.update_self, place]
      rfl
    · rw [Function.update_of_ne different]
  constructor
  · intro other
    rw [proceed_thread]
    rcases eq_or_ne other thread with rfl | different
    · rw [setThread_same]
      exact Thread.fits_outside (fun idle => by cases idle) free
    · rw [setThread_other pool _ different]
      exact assigned.fits other
  · intro other target claiming
    rcases eq_or_ne other submit with rfl | different
    · rw [proceed_same] at claiming
      cases claiming
    · rw [proceed_other _ _ different, setThread_submit] at claiming
      exact absurd (alone other (by rw [claiming]; rfl)) different
  · intro other target filling
    rcases eq_or_ne other submit with rfl | different
    · rw [proceed_same] at filling
      cases filling
      rw [proceed_thread, setThread_same]
      exact ⟨rfl, empty, free⟩
    · rw [proceed_other _ _ different, setThread_submit] at filling
      exact absurd (alone other (by rw [filling]; rfl)) different
  · intro other job stored
    refine (given job).trans ?_
    rw [proceed_thread] at stored
    rcases eq_or_ne other thread with rfl | different
    · rw [setThread_same] at stored
      exact assigned.stored other job stored
    · rw [setThread_other pool _ different] at stored
      exact assigned.stored other job stored
  · intro other ran none
    exact assigned.called other ran ((given other).symm.trans none)
  · intro other target given'
    have before := assigned.progress other target ((given other).symm.trans given')
    rw [proceed_thread]
    rcases eq_or_ne target thread with rfl | different
    · rw [setThread_same]
      exact before
    · rw [setThread_other pool _ different]
      exact before
  · exact assigned.once

/-- Storing the function in the record of the claimed thread. -/
theorem Assigned.fill {pool : Pool ι σ Arg} (assigned : Assigned pool)
    (exclusive : Exclusive pool) {submit : σ} {thread : ι}
    (place : pool.submit submit = .filling thread) :
    Assigned ((pool.setThread thread { pool.thread thread with func := some submit }).proceed
      submit (.passing thread)) := by
  obtain ⟨status, empty, free⟩ := assigned.filling submit thread place
  have fresh : ¬ pool.Called submit := fun ran => assigned.called submit ran (by rw [place]; rfl)
  have elsewhere (other : ι) (job : σ) (stored : (pool.thread other).func = some job) :
      job ≠ submit := by
    rintro rfl
    have given := assigned.stored other job stored
    rw [place] at given
    cases given
  constructor
  · intro other
    rw [proceed_thread]
    rcases eq_or_ne other thread with rfl | different
    · rw [setThread_same]
      refine Thread.fits_outside (fun idle => ?_) free
      rw [status] at idle
      cases idle
    · rw [setThread_other pool _ different]
      exact assigned.fits other
  · intro other target claiming
    rcases eq_or_ne other submit with rfl | different
    · rw [proceed_same] at claiming
      cases claiming
    · rw [proceed_other _ _ different, setThread_submit] at claiming
      have idle := assigned.claiming other target claiming
      rw [proceed_thread]
      rcases eq_or_ne target thread with rfl | apart
      · rw [setThread_same]
        exact idle
      · rwa [setThread_other pool _ apart]
  · intro other target filling
    rcases eq_or_ne other submit with rfl | different
    · rw [proceed_same] at filling
      cases filling
    · rw [proceed_other _ _ different, setThread_submit] at filling
      exact absurd (exclusive.alone (by rw [filling]; rfl) (by rw [place]; rfl)) different
  · intro other job stored
    rw [proceed_thread] at stored
    rcases eq_or_ne other thread with rfl | different
    · rw [setThread_same] at stored
      obtain rfl := Option.some.inj stored
      rw [proceed_same]
      rfl
    · rw [setThread_other pool _ different] at stored
      rw [proceed_other _ _ (elsewhere other job stored)]
      exact assigned.stored other job stored
  · intro other ran
    rcases eq_or_ne other submit with rfl | different
    · exact absurd ran fresh
    · rw [proceed_other _ _ different]
      exact assigned.called other ran
  · intro other target given
    rw [proceed_thread]
    rcases eq_or_ne other submit with rfl | different
    · rw [proceed_same] at given
      obtain rfl := Option.some.inj given
      rw [setThread_same]
      refine iff_of_false fresh ?_
      simp [Place.started_none free]
    · rw [proceed_other _ _ different] at given
      have before := assigned.progress other target given
      rcases eq_or_ne target thread with rfl | apart
      · rw [setThread_same]
        refine iff_of_true (before.mpr (.inl ?_)) (.inl ?_)
        · rw [empty]
          exact (Option.some_ne_none other).symm
        · simpa using different.symm
      · rw [setThread_other pool _ apart]
        exact before
  · exact assigned.once

/-- Waking a thread keeps the jobs. -/
theorem Assigned.wake {pool : Pool ι σ Arg} (assigned : Assigned pool) (thread : ι) :
    Assigned (pool.wake thread) := by
  rw [Pool.wake]
  split
  case isTrue place => exact assigned.outside _ .woken (by rw [place]; rfl) rfl
  case isFalse => exact assigned

/-- Every step of a submit keeps the jobs. -/
theorem submitStep_assigned {argument : σ → Arg} {pool after : Pool ι σ Arg}
    (assigned : Assigned pool) (exclusive : Exclusive pool) {submit : σ}
    (taken : submitStep argument pool submit = some after) : Assigned after := by
  cases submitStep_moves taken with
  | enter place _ =>
    have moved : Assigned (pool.proceed submit .choosing) :=
      assigned.proceed (by rw [place]; rfl) (by simp) (by simp)
    exact { moved with }
  | choose place thread _ => exact assigned.proceed (by rw [place]; rfl) (by simp) (by simp)
  | accept thread place idle =>
    apply assigned.proceed
    · rw [place]; rfl
    · intro other same
      cases same
      exact idle
    · simp
  | refuse thread place => exact assigned.proceed (by rw [place]; rfl) (by simp) (by simp)
  | claim thread place => exact assigned.claim exclusive place
  | fill thread place => exact assigned.fill exclusive place
  | pass thread place =>
    have written : Assigned (pool.setThread thread
        { pool.thread thread with args := argument submit }) := by
      have fits := assigned.fits thread
      exact assigned.setThread ⟨fits.idle, fits.found, fits.carried, fits.started, fits.cleared⟩
        rfl rfl (.inl rfl) (fun busy _ => busy)
    exact written.proceed (by rw [setThread_submit, place]; rfl) (by simp) (by simp)
  | move thread place =>
    have moved : Assigned (pool.proceed submit (.releasing thread)) :=
      assigned.proceed (by rw [place]; rfl) (by simp) (by simp)
    exact { moved with }
  | release next place =>
    have moved : Assigned (pool.proceed submit next) := by
      rcases place with ⟨thread, place, rfl⟩ | ⟨place, rfl⟩
      · exact assigned.proceed (by rw [place]; rfl) (by simp) (by simp)
      · exact assigned.proceed (by rw [place]; rfl) (by simp) (by simp)
    exact { moved with }
  | signal thread place =>
    exact (assigned.wake thread).proceed (by rw [wake_submit, place]; rfl) (by simp) (by simp)
  | spawn place => exact assigned.proceed (by rw [place]; rfl) (by simp) (by simp)

end Steps

end Emilib.ThreadPool
