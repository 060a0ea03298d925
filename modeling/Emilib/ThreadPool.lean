import Mathlib.Data.Fintype.Basic
import Mathlib.Logic.Function.Basic
import Emilib.Runs

/-!
# The thread pool of `emi_thread.c`

A pool thread sleeps in `emi_cond_wait` under its own lock until it finds a
function in its record. `emi_thread_pool_submit` takes the first thread of the
list under the spin lock of the pool, and if that thread is idle it writes the
job into its record, gives back the spin lock and signals the thread. It never
takes the lock of the thread.

Every lock and unlock, every wait and signal, and every read or write of `status`,
`func` and `args` is one step, and the steps of all threads and of any number of
submits interleave in any order. A wait may also return without a signal. A job is
identified by the submit that gave it, so the stored function is the name of that
submit, and `ran` records what was called with which argument.
-/

namespace Emilib.ThreadPool

/-- `status` of a pool thread. -/
inductive Status where
  | busy
  | idle
  | exit
deriving DecidableEq, Repr

/-- Who may hold a lock: a pool thread, a submit, or `emi_thread_pool_destroy`. -/
inductive Party (ι σ : Type) where
  | thread (thread : ι)
  | submit (submit : σ)
  | destroyer
deriving DecidableEq

/-- The next step of a pool thread in `thread_func`. A thread that is asleep has
none until it is woken, and then locks its lock again. -/
inductive Place (σ : Type) where
  | locking
  | testing
  | parking
  | asleep
  | woken
  | checking
  | calling
  | passing (job : σ)
  | running (job : σ)
  | clearing (job : σ)
  | idling
  | entering
  | moving
  | releasing
  | leaving
  | ended
deriving DecidableEq

/-- The next step of a submit, with the thread it has chosen. It ends with its job
handed to a pool thread or to a thread of its own. -/
inductive Submit (ι : Type) where
  | entering
  | choosing
  | reading (thread : ι)
  | claiming (thread : ι)
  | filling (thread : ι)
  | passing (thread : ι)
  | moving (thread : ι)
  | releasing (thread : ι)
  | signalling (thread : ι)
  | handed (thread : ι)
  | refusing
  | spawning
  | spawned
deriving DecidableEq

/-- `struct emi_thread`, with the place its thread is at. -/
structure Thread (ι σ Arg : Type) where
  lock : Option (Party ι σ)
  status : Status
  func : Option σ
  args : Arg
  place : Place σ
deriving DecidableEq

/-- `struct emi_thread_pool`, its threads, the submits and what was called. -/
structure Pool (ι σ Arg : Type) where
  spinlock : Option (Party ι σ)
  order : List ι
  thread : ι → Thread ι σ Arg
  submit : σ → Submit ι
  ran : List (σ × Arg)

/-- A step of a pool thread, the return of its wait without a signal, or a step of
a submit. -/
inductive Action (ι σ : Type) where
  | thread (thread : ι)
  | stir (thread : ι)
  | submit (submit : σ)
deriving DecidableEq

variable {ι σ Arg : Type}

/-- The places at which a thread holds the spin lock of the pool. -/
def Place.spins : Place σ → Bool
  | .moving | .releasing => true
  | _ => false

/-- The places at which a thread holds its own lock. -/
def Place.holds : Place σ → Bool
  | .locking | .asleep | .woken | .ended => false
  | _ => true

/-- The places between finding a function and being idle again. -/
def Place.busy : Place σ → Bool
  | .calling | .passing _ | .running _ | .clearing _ | .idling => true
  | _ => false

/-- The job a thread has called and not yet cleared. -/
def Place.started : Place σ → Option σ
  | .running job | .clearing job => some job
  | _ => none

/-- The places at which a submit holds the spin lock. -/
def Submit.critical : Submit ι → Bool
  | .choosing | .reading _ | .claiming _ | .filling _ | .passing _ | .moving _ | .releasing _
  | .refusing => true
  | _ => false

/-- The thread that has been given the job of a submit. -/
def Submit.given : Submit ι → Option ι
  | .passing thread | .moving thread | .releasing thread | .signalling thread | .handed thread =>
      some thread
  | _ => none

/-- The thread a submit is going to signal. -/
def Submit.due : Submit ι → Option ι
  | .claiming thread | .filling thread | .passing thread | .moving thread | .releasing thread
  | .signalling thread => some thread
  | _ => none

/-- The spin lock and the locks of the threads are held where the code holds them. -/
structure Exclusive (pool : Pool ι σ Arg) : Prop where
  spinThread : ∀ thread,
    (pool.thread thread).place.spins = true ↔ pool.spinlock = some (.thread thread)
  spinSubmit : ∀ submit,
    (pool.submit submit).critical = true ↔ pool.spinlock = some (.submit submit)
  locked : ∀ thread,
    (pool.thread thread).place.holds = true ↔ (pool.thread thread).lock = some (.thread thread)
  owned : ∀ thread, ∀ party ∈ (pool.thread thread).lock, party = .thread thread ∨ party = .destroyer

/-- At most one submit is in its critical section. -/
theorem Exclusive.alone {pool : Pool ι σ Arg} (exclusive : Exclusive pool) {left right : σ}
    (first : (pool.submit left).critical = true) (second : (pool.submit right).critical = true) :
    left = right := by
  have holder := (exclusive.spinSubmit left).mp first
  rw [(exclusive.spinSubmit right).mp second] at holder
  cases holder
  rfl

section Threads

variable [DecidableEq ι]

/-- Assign the record of a thread. -/
def Pool.setThread (pool : Pool ι σ Arg) (thread : ι) (record : Thread ι σ Arg) : Pool ι σ Arg :=
  { pool with thread := Function.update pool.thread thread record }

/-- Move a thread to its next place. -/
def Pool.goto (pool : Pool ι σ Arg) (thread : ι) (place : Place σ) : Pool ι σ Arg :=
  pool.setThread thread { pool.thread thread with place := place }

/-- One step of `thread_func`. -/
def threadStep (pool : Pool ι σ Arg) (thread : ι) : Option (Pool ι σ Arg) :=
  let record := pool.thread thread
  match record.place with
  | .locking =>
      if record.lock = none then
        some (pool.setThread thread
          { record with lock := some (.thread thread), place := .testing })
      else none
  | .testing => some (pool.goto thread (if record.func = none then .parking else .calling))
  | .parking => some (pool.setThread thread { record with lock := none, place := .asleep })
  | .asleep => none
  | .woken =>
      if record.lock = none then
        some (pool.setThread thread
          { record with lock := some (.thread thread), place := .checking })
      else none
  | .checking => some (pool.goto thread (if record.status = .exit then .leaving else .testing))
  | .calling => record.func.map fun job => pool.goto thread (.passing job)
  | .passing job =>
      some { pool.goto thread (.running job) with ran := (job, record.args) :: pool.ran }
  | .running job => some (pool.goto thread (.clearing job))
  | .clearing _ => some (pool.setThread thread { record with func := none, place := .idling })
  | .idling => some (pool.setThread thread { record with status := .idle, place := .entering })
  | .entering =>
      if pool.spinlock = none then
        some { pool.goto thread .moving with spinlock := some (.thread thread) }
      else none
  | .moving =>
      some { pool.goto thread .releasing with order := thread :: pool.order.erase thread }
  | .releasing => some { pool.goto thread .testing with spinlock := none }
  | .leaving => some (pool.setThread thread { record with lock := none, place := .ended })
  | .ended => none

@[simp] theorem setThread_same (pool : Pool ι σ Arg) (thread : ι) (record : Thread ι σ Arg) :
    (pool.setThread thread record).thread thread = record := Function.update_self ..

theorem setThread_other (pool : Pool ι σ Arg) {thread other : ι} (record : Thread ι σ Arg)
    (different : other ≠ thread) :
    (pool.setThread thread record).thread other = pool.thread other :=
  Function.update_of_ne different ..

@[simp] theorem setThread_setThread (pool : Pool ι σ Arg) (thread : ι)
    (record later : Thread ι σ Arg) :
    (pool.setThread thread record).setThread thread later = pool.setThread thread later := by
  simp [Pool.setThread]

@[simp] theorem setThread_submit (pool : Pool ι σ Arg) (thread : ι) (record : Thread ι σ Arg) :
    (pool.setThread thread record).submit = pool.submit := rfl

@[simp] theorem setThread_spinlock (pool : Pool ι σ Arg) (thread : ι) (record : Thread ι σ Arg) :
    (pool.setThread thread record).spinlock = pool.spinlock := rfl

@[simp] theorem setThread_ran (pool : Pool ι σ Arg) (thread : ι) (record : Thread ι σ Arg) :
    (pool.setThread thread record).ran = pool.ran := rfl

@[simp] theorem goto_same (pool : Pool ι σ Arg) (thread : ι) (place : Place σ) :
    (pool.goto thread place).thread thread = { pool.thread thread with place := place } :=
  setThread_same ..

theorem goto_other (pool : Pool ι σ Arg) {thread other : ι} (place : Place σ)
    (different : other ≠ thread) :
    (pool.goto thread place).thread other = pool.thread other :=
  setThread_other pool _ different

@[simp] theorem goto_submit (pool : Pool ι σ Arg) (thread : ι) (place : Place σ) :
    (pool.goto thread place).submit = pool.submit := rfl

@[simp] theorem goto_ran (pool : Pool ι σ Arg) (thread : ι) (place : Place σ) :
    (pool.goto thread place).ran = pool.ran := rfl

/-- What a step of a pool thread can be, by the place it is taken from. -/
inductive ThreadMoves (pool : Pool ι σ Arg) (thread : ι) : Pool ι σ Arg → Prop
  | lock (next : Place σ) (free : (pool.thread thread).lock = none)
      (place : ((pool.thread thread).place = .locking ∧ next = .testing) ∨
        ((pool.thread thread).place = .woken ∧ next = .checking)) :
      ThreadMoves pool thread (pool.setThread thread
        { pool.thread thread with lock := some (.thread thread), place := next })
  | unlock (next : Place σ)
      (place : ((pool.thread thread).place = .parking ∧ next = .asleep) ∨
        ((pool.thread thread).place = .leaving ∧ next = .ended)) :
      ThreadMoves pool thread (pool.setThread thread
        { pool.thread thread with lock := none, place := next })
  | park (place : (pool.thread thread).place = .testing)
      (unset : (pool.thread thread).func = none) :
      ThreadMoves pool thread (pool.goto thread .parking)
  | find (place : (pool.thread thread).place = .testing) (job : σ)
      (set : (pool.thread thread).func = some job) :
      ThreadMoves pool thread (pool.goto thread .calling)
  | leave (place : (pool.thread thread).place = .checking)
      (exits : (pool.thread thread).status = .exit) :
      ThreadMoves pool thread (pool.goto thread .leaving)
  | resume (place : (pool.thread thread).place = .checking)
      (stays : (pool.thread thread).status ≠ .exit) :
      ThreadMoves pool thread (pool.goto thread .testing)
  | call (place : (pool.thread thread).place = .calling) (job : σ)
      (set : (pool.thread thread).func = some job) :
      ThreadMoves pool thread (pool.goto thread (.passing job))
  | run (job : σ) (place : (pool.thread thread).place = .passing job) :
      ThreadMoves pool thread { pool.goto thread (.running job) with
        ran := (job, (pool.thread thread).args) :: pool.ran }
  | finish (job : σ) (place : (pool.thread thread).place = .running job) :
      ThreadMoves pool thread (pool.goto thread (.clearing job))
  | clear (job : σ) (place : (pool.thread thread).place = .clearing job) :
      ThreadMoves pool thread (pool.setThread thread
        { pool.thread thread with func := none, place := .idling })
  | idle (place : (pool.thread thread).place = .idling) :
      ThreadMoves pool thread (pool.setThread thread
        { pool.thread thread with status := .idle, place := .entering })
  | enter (place : (pool.thread thread).place = .entering) (free : pool.spinlock = none) :
      ThreadMoves pool thread { pool.goto thread .moving with spinlock := some (.thread thread) }
  | move (place : (pool.thread thread).place = .moving) :
      ThreadMoves pool thread { pool.goto thread .releasing with
        order := thread :: pool.order.erase thread }
  | release (place : (pool.thread thread).place = .releasing) :
      ThreadMoves pool thread { pool.goto thread .testing with spinlock := none }

/-- A step of a pool thread is one of its moves. -/
theorem threadStep_moves {pool after : Pool ι σ Arg} {thread : ι}
    (taken : threadStep pool thread = some after) : ThreadMoves pool thread after := by
  rw [threadStep] at taken
  cases place : (pool.thread thread).place with
  | locking =>
    simp only [place] at taken
    obtain ⟨free, taken⟩ := Option.ite_none_right_eq_some.mp taken
    exact Option.some.inj taken ▸ .lock .testing free (.inl ⟨place, rfl⟩)
  | testing =>
    simp only [place] at taken
    cases set : (pool.thread thread).func with
    | none =>
      rw [set, if_pos rfl] at taken
      exact Option.some.inj taken ▸ .park place set
    | some job =>
      rw [set, if_neg (Option.some_ne_none job)] at taken
      exact Option.some.inj taken ▸ .find place job set
  | parking =>
    simp only [place] at taken
    exact Option.some.inj taken ▸ .unlock .asleep (.inl ⟨place, rfl⟩)
  | asleep | ended =>
    simp only [place] at taken
    cases taken
  | woken =>
    simp only [place] at taken
    obtain ⟨free, taken⟩ := Option.ite_none_right_eq_some.mp taken
    exact Option.some.inj taken ▸ .lock .checking free (.inr ⟨place, rfl⟩)
  | checking =>
    simp only [place] at taken
    by_cases exits : (pool.thread thread).status = .exit
    · rw [if_pos exits] at taken
      exact Option.some.inj taken ▸ .leave place exits
    · rw [if_neg exits] at taken
      exact Option.some.inj taken ▸ .resume place exits
  | calling =>
    simp only [place] at taken
    obtain ⟨job, set, rfl⟩ := Option.map_eq_some_iff.mp taken
    exact .call place job set
  | passing job =>
    simp only [place] at taken
    exact Option.some.inj taken ▸ .run job place
  | running job =>
    simp only [place] at taken
    exact Option.some.inj taken ▸ .finish job place
  | clearing job =>
    simp only [place] at taken
    exact Option.some.inj taken ▸ .clear job place
  | idling =>
    simp only [place] at taken
    exact Option.some.inj taken ▸ .idle place
  | entering =>
    simp only [place] at taken
    obtain ⟨free, taken⟩ := Option.ite_none_right_eq_some.mp taken
    exact Option.some.inj taken ▸ .enter place free
  | moving =>
    simp only [place] at taken
    exact Option.some.inj taken ▸ .move place
  | releasing =>
    simp only [place] at taken
    exact Option.some.inj taken ▸ .release place
  | leaving =>
    simp only [place] at taken
    exact Option.some.inj taken ▸ .unlock .ended (.inr ⟨place, rfl⟩)

/-- Changing the record of a thread keeps the locks sound if the thread stays on
the same side of the spin lock and its own lock follows its place. -/
theorem Exclusive.setThread {pool : Pool ι σ Arg} (exclusive : Exclusive pool) {thread : ι}
    {record : Thread ι σ Arg} (spins : record.place.spins = (pool.thread thread).place.spins)
    (locked : record.place.holds = true ↔ record.lock = some (.thread thread))
    (owned : ∀ party ∈ record.lock, party = .thread thread ∨ party = .destroyer) :
    Exclusive (pool.setThread thread record) where
  spinThread other := by
    rcases eq_or_ne other thread with rfl | different
    · rw [setThread_same, spins]
      exact exclusive.spinThread other
    · rw [setThread_other pool record different]
      exact exclusive.spinThread other
  spinSubmit := exclusive.spinSubmit
  locked other := by
    rcases eq_or_ne other thread with rfl | different
    · rw [setThread_same]
      exact locked
    · rw [setThread_other pool record different]
      exact exclusive.locked other
  owned other := by
    rcases eq_or_ne other thread with rfl | different
    · rw [setThread_same]
      exact owned
    · rw [setThread_other pool record different]
      exact exclusive.owned other

/-- Moving a thread between two places with the same locks. -/
theorem Exclusive.goto {pool : Pool ι σ Arg} (exclusive : Exclusive pool) {thread : ι}
    {place : Place σ} (spins : place.spins = (pool.thread thread).place.spins)
    (holds : place.holds = (pool.thread thread).place.holds) :
    Exclusive (pool.goto thread place) :=
  exclusive.setThread spins (by rw [holds]; exact exclusive.locked thread) (exclusive.owned thread)

/-- A pool thread has no next step only when it is asleep or has ended, waits for a
lock, or would call a function that is not there. -/
theorem threadStep_stuck {pool : Pool ι σ Arg} {thread : ι}
    (stuck : threadStep pool thread = none) :
    (pool.thread thread).place = .asleep ∨ (pool.thread thread).place = .ended ∨
      (pool.thread thread).place.holds = false ∧ (pool.thread thread).lock ≠ none ∨
      (pool.thread thread).place = .entering ∧ pool.spinlock ≠ none ∨
      (pool.thread thread).place = .calling ∧ (pool.thread thread).func = none := by
  rw [threadStep] at stuck
  cases place : (pool.thread thread).place <;> simp_all [Place.holds]

/-- Taking the spin lock, by a thread that finishes a job. -/
theorem Exclusive.grab {pool : Pool ι σ Arg} (exclusive : Exclusive pool) {thread : ι}
    (place : (pool.thread thread).place = .entering) (free : pool.spinlock = none) :
    Exclusive { pool.goto thread .moving with spinlock := some (.thread thread) } where
  spinThread other := by
    have outside := exclusive.spinThread other
    rcases eq_or_ne other thread with rfl | different
    · simp [Place.spins]
    · simpa [goto_other, different, different.symm, free] using outside
  spinSubmit submit := by simpa [free] using exclusive.spinSubmit submit
  locked other := by
    have own := exclusive.locked other
    rcases eq_or_ne other thread with rfl | different
    · simpa [place, Place.holds] using own
    · simpa [goto_other, different] using own
  owned other := by
    have own := exclusive.owned other
    rcases eq_or_ne other thread with rfl | different
    · simpa using own
    · simpa [goto_other, different] using own

/-- Giving back the spin lock, by the thread that holds it. -/
theorem Exclusive.drop {pool : Pool ι σ Arg} (exclusive : Exclusive pool) {thread : ι}
    (place : (pool.thread thread).place = .releasing) :
    Exclusive { pool.goto thread .testing with spinlock := none } where
  spinThread other := by
    have holder := (exclusive.spinThread thread).mp (by rw [place]; rfl)
    have outside := exclusive.spinThread other
    rcases eq_or_ne other thread with rfl | different
    · simp [Place.spins]
    · simpa [goto_other, different, different.symm, holder] using outside
  spinSubmit submit := by
    have holder := (exclusive.spinThread thread).mp (by rw [place]; rfl)
    simpa [holder] using exclusive.spinSubmit submit
  locked other := by
    have own := exclusive.locked other
    rcases eq_or_ne other thread with rfl | different
    · simpa [place, Place.holds] using own
    · simpa [goto_other, different] using own
  owned other := by
    have own := exclusive.owned other
    rcases eq_or_ne other thread with rfl | different
    · simpa using own
    · simpa [goto_other, different] using own

/-- A step of `thread_func` keeps the locks sound. -/
theorem threadStep_exclusive {pool after : Pool ι σ Arg} (exclusive : Exclusive pool) {thread : ι}
    (taken : threadStep pool thread = some after) : Exclusive after := by
  have locked := exclusive.locked thread
  have owned := exclusive.owned thread
  cases threadStep_moves taken with
  | lock next free place =>
    rcases place with ⟨place, rfl⟩ | ⟨place, rfl⟩
    · exact exclusive.setThread (by rw [place]; rfl) (by simp [Place.holds]) (by simp)
    · exact exclusive.setThread (by rw [place]; rfl) (by simp [Place.holds]) (by simp)
  | unlock next place =>
    rcases place with ⟨place, rfl⟩ | ⟨place, rfl⟩
    · exact exclusive.setThread (by rw [place]; rfl) (by simp [Place.holds]) (by simp)
    · exact exclusive.setThread (by rw [place]; rfl) (by simp [Place.holds]) (by simp)
  | park place _ | find place _ _ | leave place _ | resume place _ | call place _ _
  | finish _ place =>
    exact exclusive.goto (by rw [place]; rfl) (by rw [place]; rfl)
  | run job place =>
    have moved : Exclusive (pool.goto thread (.running job)) :=
      exclusive.goto (by rw [place]; rfl) (by rw [place]; rfl)
    exact { moved with }
  | clear _ place | idle place =>
    rw [place] at locked
    exact exclusive.setThread (by rw [place]; rfl) locked owned
  | enter place free => exact exclusive.grab place free
  | move place =>
    have moved : Exclusive (pool.goto thread .releasing) :=
      exclusive.goto (by rw [place]; rfl) (by rw [place]; rfl)
    exact { moved with }
  | release place => exact exclusive.drop place

end Threads

section Submits

variable [DecidableEq σ]

/-- Move a submit to its next place. -/
def Pool.proceed (pool : Pool ι σ Arg) (submit : σ) (place : Submit ι) : Pool ι σ Arg :=
  { pool with submit := Function.update pool.submit submit place }

@[simp] theorem proceed_same (pool : Pool ι σ Arg) (submit : σ) (place : Submit ι) :
    (pool.proceed submit place).submit submit = place := Function.update_self ..

theorem proceed_other (pool : Pool ι σ Arg) {submit other : σ} (place : Submit ι)
    (different : other ≠ submit) :
    (pool.proceed submit place).submit other = pool.submit other :=
  Function.update_of_ne different ..

@[simp] theorem proceed_thread (pool : Pool ι σ Arg) (submit : σ) (place : Submit ι) :
    (pool.proceed submit place).thread = pool.thread := rfl

@[simp] theorem proceed_spinlock (pool : Pool ι σ Arg) (submit : σ) (place : Submit ι) :
    (pool.proceed submit place).spinlock = pool.spinlock := rfl

@[simp] theorem proceed_ran (pool : Pool ι σ Arg) (submit : σ) (place : Submit ι) :
    (pool.proceed submit place).ran = pool.ran := rfl

/-- Moving a submit between two places on the same side of the spin lock. -/
theorem Exclusive.proceed {pool : Pool ι σ Arg} (exclusive : Exclusive pool) {submit : σ}
    {place : Submit ι} (critical : place.critical = (pool.submit submit).critical) :
    Exclusive (pool.proceed submit place) where
  spinThread := exclusive.spinThread
  spinSubmit other := by
    rcases eq_or_ne other submit with rfl | different
    · have own := exclusive.spinSubmit other
      rw [← critical] at own
      simpa [Pool.proceed] using own
    · simpa [Pool.proceed, different] using exclusive.spinSubmit other
  locked := exclusive.locked
  owned := exclusive.owned

/-- Taking the spin lock, by a submit that begins. -/
theorem Exclusive.enter {pool : Pool ι σ Arg} (exclusive : Exclusive pool) {submit : σ}
    (free : pool.spinlock = none) :
    Exclusive { pool.proceed submit .choosing with spinlock := some (.submit submit) } where
  spinThread thread := by simpa [free] using exclusive.spinThread thread
  spinSubmit other := by
    have outside := exclusive.spinSubmit other
    rcases eq_or_ne other submit with rfl | different
    · simp [Submit.critical]
    · simpa [proceed_other, different, different.symm, free] using outside
  locked := exclusive.locked
  owned := exclusive.owned

/-- Giving back the spin lock, by the submit that holds it. -/
theorem Exclusive.release {pool : Pool ι σ Arg} (exclusive : Exclusive pool) {submit : σ}
    (held : (pool.submit submit).critical = true) {next : Submit ι}
    (outside : next.critical = false) :
    Exclusive { pool.proceed submit next with spinlock := none } where
  spinThread thread := by
    have holder := (exclusive.spinSubmit submit).mp held
    simpa [holder] using exclusive.spinThread thread
  spinSubmit other := by
    have holder := (exclusive.spinSubmit submit).mp held
    have before := exclusive.spinSubmit other
    rcases eq_or_ne other submit with rfl | different
    · simp [outside]
    · simpa [proceed_other, different, different.symm, holder] using before
  locked := exclusive.locked
  owned := exclusive.owned

end Submits

section Steps

variable [DecidableEq ι] [DecidableEq σ]

/-- `emi_cond_signal`, or a wait that returns by itself: a sleeping thread is woken. -/
def Pool.wake (pool : Pool ι σ Arg) (thread : ι) : Pool ι σ Arg :=
  if (pool.thread thread).place = .asleep then pool.goto thread .woken else pool

@[simp] theorem wake_submit (pool : Pool ι σ Arg) (thread : ι) :
    (pool.wake thread).submit = pool.submit := by
  rw [Pool.wake]
  split <;> rfl

@[simp] theorem wake_spinlock (pool : Pool ι σ Arg) (thread : ι) :
    (pool.wake thread).spinlock = pool.spinlock := by
  rw [Pool.wake]
  split <;> rfl

@[simp] theorem wake_ran (pool : Pool ι σ Arg) (thread : ι) :
    (pool.wake thread).ran = pool.ran := by
  rw [Pool.wake]
  split <;> rfl

@[simp] theorem wake_order (pool : Pool ι σ Arg) (thread : ι) :
    (pool.wake thread).order = pool.order := by
  rw [Pool.wake]
  split <;> rfl

/-- Waking a thread changes at most its place, and leaves it awake. -/
theorem wake_record (pool : Pool ι σ Arg) (thread other : ι) :
    ∃ place, ((pool.wake thread).thread other) = { pool.thread other with place := place } ∧
      (place = (pool.thread other).place ∧ (other = thread → place ≠ .asleep) ∨
        place = .woken) := by
  rw [Pool.wake]
  split
  case isTrue asleep =>
    rcases eq_or_ne other thread with rfl | different
    · exact ⟨.woken, goto_same .., .inr rfl⟩
    · exact ⟨(pool.thread other).place, goto_other pool _ different,
        .inl ⟨rfl, fun same => absurd same different⟩⟩
  case isFalse awake =>
    exact ⟨(pool.thread other).place, rfl, .inl ⟨rfl, by rintro rfl; exact awake⟩⟩

/-- One step of `emi_thread_pool_submit`, with the argument each submit gives. -/
def submitStep (argument : σ → Arg) (pool : Pool ι σ Arg) (submit : σ) : Option (Pool ι σ Arg) :=
  match pool.submit submit with
  | .entering =>
      if pool.spinlock = none then
        some { pool.proceed submit .choosing with spinlock := some (.submit submit) }
      else none
  | .choosing => pool.order.head?.map fun thread => pool.proceed submit (.reading thread)
  | .reading thread =>
      some (pool.proceed submit
        (if (pool.thread thread).status = .idle then .claiming thread else .refusing))
  | .claiming thread =>
      some ((pool.setThread thread { pool.thread thread with status := .busy }).proceed submit
        (.filling thread))
  | .filling thread =>
      some ((pool.setThread thread { pool.thread thread with func := some submit }).proceed submit
        (.passing thread))
  | .passing thread =>
      some ((pool.setThread thread
        { pool.thread thread with args := argument submit }).proceed submit (.moving thread))
  | .moving thread =>
      some { pool.proceed submit (.releasing thread) with
        order := pool.order.erase thread ++ [thread] }
  | .releasing thread =>
      some { pool.proceed submit (.signalling thread) with spinlock := none }
  | .signalling thread => some ((pool.wake thread).proceed submit (.handed thread))
  | .handed _ => none
  | .refusing => some { pool.proceed submit .spawning with spinlock := none }
  | .spawning => some (pool.proceed submit .spawned)
  | .spawned => none

/-- The step an action names, if it can be taken. -/
def perform (argument : σ → Arg) (pool : Pool ι σ Arg) : Action ι σ → Option (Pool ι σ Arg)
  | .thread thread => threadStep pool thread
  | .stir thread =>
      if (pool.thread thread).place = .asleep then some (pool.goto thread .woken) else none
  | .submit submit => submitStep argument pool submit

/-- A pool as `emi_thread_pool_init` leaves it, when no thread has taken a step and
nothing was submitted: all threads are in the list, and there is one. -/
def Fresh (pool : Pool ι σ Arg) : Prop :=
  pool.spinlock = none ∧ pool.order ≠ [] ∧ pool.order.Nodup ∧ (∀ thread, thread ∈ pool.order) ∧
    (∀ thread, ∃ args, pool.thread thread = ⟨none, .idle, none, args, .locking⟩) ∧
    (∀ submit, pool.submit submit = .entering) ∧ pool.ran = []

/-- The runs of a pool and its submits. -/
def working (argument : σ → Arg) : System (Pool ι σ Arg) (Action ι σ) :=
  System.performing Fresh (perform argument)

/-- What a step of a submit can be. -/
inductive SubmitMoves (argument : σ → Arg) (pool : Pool ι σ Arg) (submit : σ) :
    Pool ι σ Arg → Prop
  | enter (place : pool.submit submit = .entering) (free : pool.spinlock = none) :
      SubmitMoves argument pool submit
        { pool.proceed submit .choosing with spinlock := some (.submit submit) }
  | choose (place : pool.submit submit = .choosing) (thread : ι)
      (first : pool.order.head? = some thread) :
      SubmitMoves argument pool submit (pool.proceed submit (.reading thread))
  | accept (thread : ι) (place : pool.submit submit = .reading thread)
      (idle : (pool.thread thread).status = .idle) :
      SubmitMoves argument pool submit (pool.proceed submit (.claiming thread))
  | refuse (thread : ι) (place : pool.submit submit = .reading thread) :
      SubmitMoves argument pool submit (pool.proceed submit .refusing)
  | claim (thread : ι) (place : pool.submit submit = .claiming thread) :
      SubmitMoves argument pool submit ((pool.setThread thread
        { pool.thread thread with status := .busy }).proceed submit (.filling thread))
  | fill (thread : ι) (place : pool.submit submit = .filling thread) :
      SubmitMoves argument pool submit ((pool.setThread thread
        { pool.thread thread with func := some submit }).proceed submit (.passing thread))
  | pass (thread : ι) (place : pool.submit submit = .passing thread) :
      SubmitMoves argument pool submit ((pool.setThread thread
        { pool.thread thread with args := argument submit }).proceed submit (.moving thread))
  | move (thread : ι) (place : pool.submit submit = .moving thread) :
      SubmitMoves argument pool submit { pool.proceed submit (.releasing thread) with
        order := pool.order.erase thread ++ [thread] }
  | release (next : Submit ι) (place : (∃ thread, pool.submit submit = .releasing thread ∧
        next = .signalling thread) ∨ (pool.submit submit = .refusing ∧ next = .spawning)) :
      SubmitMoves argument pool submit { pool.proceed submit next with spinlock := none }
  | signal (thread : ι) (place : pool.submit submit = .signalling thread) :
      SubmitMoves argument pool submit ((pool.wake thread).proceed submit (.handed thread))
  | spawn (place : pool.submit submit = .spawning) :
      SubmitMoves argument pool submit (pool.proceed submit .spawned)

/-- A step of a submit is one of its moves. -/
theorem submitStep_moves {argument : σ → Arg} {pool after : Pool ι σ Arg} {submit : σ}
    (taken : submitStep argument pool submit = some after) :
    SubmitMoves argument pool submit after := by
  rw [submitStep] at taken
  cases place : pool.submit submit with
  | entering =>
    simp only [place] at taken
    obtain ⟨free, taken⟩ := Option.ite_none_right_eq_some.mp taken
    exact Option.some.inj taken ▸ .enter place free
  | choosing =>
    simp only [place] at taken
    obtain ⟨thread, first, rfl⟩ := Option.map_eq_some_iff.mp taken
    exact .choose place thread first
  | reading thread =>
    simp only [place] at taken
    by_cases idle : (pool.thread thread).status = .idle
    · rw [if_pos idle] at taken
      exact Option.some.inj taken ▸ .accept thread place idle
    · rw [if_neg idle] at taken
      exact Option.some.inj taken ▸ .refuse thread place
  | claiming thread =>
    simp only [place] at taken
    exact Option.some.inj taken ▸ .claim thread place
  | filling thread =>
    simp only [place] at taken
    exact Option.some.inj taken ▸ .fill thread place
  | passing thread =>
    simp only [place] at taken
    exact Option.some.inj taken ▸ .pass thread place
  | moving thread =>
    simp only [place] at taken
    exact Option.some.inj taken ▸ .move thread place
  | releasing thread =>
    simp only [place] at taken
    exact Option.some.inj taken ▸ .release (.signalling thread) (.inl ⟨thread, place, rfl⟩)
  | signalling thread =>
    simp only [place] at taken
    exact Option.some.inj taken ▸ .signal thread place
  | refusing =>
    simp only [place] at taken
    exact Option.some.inj taken ▸ .release .spawning (.inr ⟨place, rfl⟩)
  | spawning =>
    simp only [place] at taken
    exact Option.some.inj taken ▸ .spawn place
  | handed _ | spawned =>
    simp only [place] at taken
    cases taken

/-- A submit that has no next step holds no lock and signals nobody. -/
theorem submitStep_stuck {argument : σ → Arg} {pool : Pool ι σ Arg} {submit : σ}
    (listed : pool.order ≠ []) (stuck : submitStep argument pool submit = none) :
    (pool.submit submit).critical = false ∧ (pool.submit submit).due = none := by
  rw [submitStep] at stuck
  cases place : pool.submit submit with
  | choosing =>
    simp only [place, Option.map_eq_none_iff, List.head?_eq_none_iff] at stuck
    exact absurd stuck listed
  | _ => simp_all [Submit.critical, Submit.due]

/-- Waking a thread keeps the locks sound. -/
theorem Exclusive.wake {pool : Pool ι σ Arg} (exclusive : Exclusive pool) (thread : ι) :
    Exclusive (pool.wake thread) := by
  rw [Pool.wake]
  split
  case isTrue place => exact exclusive.goto (by rw [place]; rfl) (by rw [place]; rfl)
  case isFalse => exact exclusive

/-- A step of a submit keeps the locks sound. -/
theorem submitStep_exclusive {argument : σ → Arg} {pool after : Pool ι σ Arg}
    (exclusive : Exclusive pool) {submit : σ}
    (taken : submitStep argument pool submit = some after) : Exclusive after := by
  have assigned (thread : ι) (status : Status) (func : Option σ) (args : Arg) :
      Exclusive (pool.setThread thread
        { pool.thread thread with status := status, func := func, args := args }) :=
    exclusive.setThread rfl (exclusive.locked thread) (exclusive.owned thread)
  cases submitStep_moves taken with
  | enter place free => exact exclusive.enter free
  | choose place _ _ | accept _ place _ | refuse _ place | spawn place =>
    exact exclusive.proceed (by rw [place]; rfl)
  | claim thread place =>
    exact (assigned thread .busy (pool.thread thread).func (pool.thread thread).args).proceed
      (by rw [setThread_submit, place]; rfl)
  | fill thread place =>
    exact (assigned thread (pool.thread thread).status (some submit)
      (pool.thread thread).args).proceed (by rw [setThread_submit, place]; rfl)
  | pass thread place =>
    exact (assigned thread (pool.thread thread).status (pool.thread thread).func
      (argument submit)).proceed (by rw [setThread_submit, place]; rfl)
  | move thread place =>
    have moved : Exclusive (pool.proceed submit (.releasing thread)) :=
      exclusive.proceed (by rw [place]; rfl)
    exact { moved with }
  | release next place =>
    rcases place with ⟨thread, place, rfl⟩ | ⟨place, rfl⟩
    · exact exclusive.release (by rw [place]; rfl) rfl
    · exact exclusive.release (by rw [place]; rfl) rfl
  | signal thread place =>
    exact (exclusive.wake thread).proceed (by rw [wake_submit, place]; rfl)

/-- Every step keeps the locks sound. -/
theorem perform_exclusive {argument : σ → Arg} {pool after : Pool ι σ Arg} {action : Action ι σ}
    (exclusive : Exclusive pool) (taken : perform argument pool action = some after) :
    Exclusive after := by
  cases action with
  | thread thread => exact threadStep_exclusive exclusive taken
  | stir thread =>
    obtain ⟨place, taken⟩ := Option.ite_none_right_eq_some.mp taken
    exact Option.some.inj taken ▸ exclusive.goto (by rw [place]; rfl) (by rw [place]; rfl)
  | submit submit => exact submitStep_exclusive exclusive taken

end Steps

/-- The locks of a fresh pool are free. -/
theorem fresh_exclusive {pool : Pool ι σ Arg} (fresh : Fresh pool) : Exclusive pool := by
  obtain ⟨spinlock, _, _, _, records, submits, _⟩ := fresh
  constructor
  · intro thread
    obtain ⟨args, record⟩ := records thread
    simp [record, spinlock, Place.spins]
  · intro submit
    simp [submits submit, spinlock, Submit.critical]
  · intro thread
    obtain ⟨args, record⟩ := records thread
    simp [record, Place.holds]
  · intro thread
    obtain ⟨args, record⟩ := records thread
    simp [record]

end Emilib.ThreadPool
