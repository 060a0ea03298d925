import Emilib.PoolJobs

/-!
# Submits that are signal handlers

In a receiver every submit to `__recv_pool` is made by `func_sterotype`, the handler of
SIGUSR2. The kernel runs it on top of some thread of the process, which may be a thread
of the pool, and that thread takes no step before the handler has returned. The mask of
`emi_init` is full, so one thread never has two handlers on top of it.

A pool thread takes the spin lock to go back to the list. A handler that finds this
thread inside waits for a lock that only the thread below it can give back.
-/

namespace Emilib.PoolSignals

open ThreadPool

/-- A pool, the submits whose handlers have begun, and the submit whose handler runs on
top of each pool thread. -/
structure Signalled (ι σ Arg : Type) where
  pool : Pool ι σ Arg
  begun : σ → Bool
  handler : ι → Option σ

/-- A signal that begins a handler on top of a pool thread or of another thread of the
process, the return of the handler on top of a pool thread, or a step of the pool. -/
inductive Move (ι σ : Type) where
  | deliver (submit : σ) (host : Option ι)
  | resume (thread : ι)
  | pool (action : Action ι σ)
deriving DecidableEq

variable {ι σ Arg : Type}

/-- Where `emi_thread_pool_submit` has returned. -/
def returned : Submit ι → Bool
  | .handed _ | .spawned => true
  | _ => false

/-- A thread under a handler takes no step, and neither does a submit before its signal. -/
def Free (state : Signalled ι σ Arg) : Action ι σ → Prop
  | .thread thread | .stir thread => state.handler thread = none
  | .submit submit => state.begun submit = true

instance [DecidableEq σ] (state : Signalled ι σ Arg) (action : Action ι σ) :
    Decidable (Free state action) :=
  match action with
  | .thread thread | .stir thread => inferInstanceAs (Decidable (state.handler thread = none))
  | .submit submit => inferInstanceAs (Decidable (state.begun submit = true))

/-- No signal is delivered on top of a pool thread that holds the spin lock. -/
def Outside (state : Signalled ι σ Arg) : Move ι σ → Prop
  | .deliver _ (some thread) => (state.pool.thread thread).place.spins = false
  | .deliver _ none | .resume _ | .pool _ => True

instance (state : Signalled ι σ Arg) (move : Move ι σ) : Decidable (Outside state move) :=
  match move with
  | .deliver _ (some thread) =>
      inferInstanceAs (Decidable ((state.pool.thread thread).place.spins = false))
  | .deliver _ none | .resume _ | .pool _ => .isTrue trivial

section Steps

variable [DecidableEq ι] [DecidableEq σ]

/-- The step a move names, if it can be taken. -/
def perform (argument : σ → Arg) (state : Signalled ι σ Arg) :
    Move ι σ → Option (Signalled ι σ Arg)
  | .deliver submit host =>
      if state.begun submit then none
      else match host with
        | none => some { state with begun := Function.update state.begun submit true }
        | some thread =>
            if state.handler thread = none then
              some { state with
                begun := Function.update state.begun submit true
                handler := Function.update state.handler thread (some submit) }
            else none
  | .resume thread =>
      match state.handler thread with
      | none => none
      | some submit =>
          if returned (state.pool.submit submit) then
            some { state with handler := Function.update state.handler thread none }
          else none
  | .pool action =>
      if Free state action then
        (ThreadPool.perform argument state.pool action).map fun pool => { state with pool := pool }
      else none

/-- The runs of the pool of a receiver and of its signal handlers. -/
def signalling (argument : σ → Arg) : System (Signalled ι σ Arg) (Move ι σ) :=
  System.performing (fun state => Fresh state.pool ∧ (∀ submit, state.begun submit = false) ∧
    ∀ thread, state.handler thread = none) (perform argument)

/-- Whoever holds the spin lock can take its next step. -/
structure HolderSteps (argument : σ → Arg) (state : Signalled ι σ Arg) : Prop where
  thread : ∀ thread, state.pool.spinlock = some (.thread thread) →
    (perform argument state (.pool (.thread thread))).isSome
  submit : ∀ submit, state.pool.spinlock = some (.submit submit) →
    (perform argument state (.pool (.submit submit))).isSome

end Steps

/-- The invariant of every run. -/
structure Sound (state : Signalled ι σ Arg) : Prop where
  exclusive : Exclusive state.pool
  listed : state.pool.order ≠ []
  undestroyed : state.pool.Undestroyed
  unbegun : ∀ submit, state.begun submit = false → state.pool.submit submit = .entering
  hosted : ∀ thread, ∀ submit ∈ state.handler thread, state.begun submit = true

/-- No thread under a handler holds the spin lock. -/
def Clear (state : Signalled ι σ Arg) : Prop :=
  ∀ thread, state.handler thread ≠ none → (state.pool.thread thread).place.spins = false

/-- A handler on top of the thread that holds the spin lock, before it has taken it. -/
structure Stuck (state : Signalled ι σ Arg) (submit : σ) (thread : ι) : Prop where
  sound : Sound state
  handler : state.handler thread = some submit
  spins : (state.pool.thread thread).place.spins = true
  waits : state.pool.submit submit = .entering

section Threads

variable [DecidableEq ι]

/-- A pool thread leaves the records of the others alone. -/
theorem threadStep_other {pool after : Pool ι σ Arg} {thread other : ι}
    (taken : threadStep pool thread = some after) (different : other ≠ thread) :
    after.thread other = pool.thread other := by
  cases threadStep_moves taken with
  | lock | unlock | clear | idle => exact setThread_other pool _ different
  | park | find | leave | resume | call | run | finish | enter | move | release =>
    exact goto_other pool _ different

/-- A pool thread leaves the list filled. -/
theorem threadStep_listed {pool after : Pool ι σ Arg} {thread : ι} (listed : pool.order ≠ [])
    (taken : threadStep pool thread = some after) : after.order ≠ [] := by
  cases threadStep_moves taken with
  | move => exact List.cons_ne_nil _ _
  | _ => exact listed

/-- A thread in its critical section has a next step. -/
theorem critical_steps {pool : Pool ι σ Arg} {thread : ι}
    (spins : (pool.thread thread).place.spins = true) : (threadStep pool thread).isSome := by
  rw [threadStep]
  cases place : (pool.thread thread).place <;> rw [place] at spins <;>
    first | rfl | cases spins

end Threads

/-- A handler that begins leaves the invariant, whatever it runs on top of. -/
theorem Sound.begin [DecidableEq σ] {state : Signalled ι σ Arg} (sound : Sound state) (submit : σ)
    {handler : ι → Option σ}
    (hosted : ∀ thread, ∀ other ∈ handler thread, other = submit ∨ other ∈ state.handler thread) :
    Sound { state with begun := Function.update state.begun submit true, handler := handler } := by
  refine { sound with unbegun := ?_, hosted := ?_ }
  · intro other unbegun
    change Function.update state.begun submit true other = false at unbegun
    rcases eq_or_ne other submit with rfl | different
    · rw [Function.update_self] at unbegun
      cases unbegun
    · rw [Function.update_of_ne different] at unbegun
      exact sound.unbegun other unbegun
  · intro thread other runs
    change Function.update state.begun submit true other = true
    rcases eq_or_ne other submit with rfl | different
    · exact Function.update_self ..
    · rw [Function.update_of_ne different]
      exact sound.hosted thread other ((hosted thread other runs).resolve_left different)

section Steps

variable [DecidableEq ι] [DecidableEq σ] {argument : σ → Arg}

/-- Only its own steps take a thread into or out of its critical section. -/
theorem perform_spins {pool after : Pool ι σ Arg} {action : Action ι σ} {thread : ι}
    (taken : ThreadPool.perform argument pool action = some after)
    (others : action ≠ .thread thread) :
    (after.thread thread).place.spins = (pool.thread thread).place.spins := by
  cases action with
  | thread other =>
    have different : thread ≠ other := fun same => others (by rw [same])
    rw [threadStep_other taken different]
  | stir other =>
    obtain ⟨place, taken⟩ := Option.ite_none_right_eq_some.mp taken
    obtain rfl := Option.some.inj taken
    rcases eq_or_ne thread other with rfl | different
    · simp [place, Place.spins]
    · rw [goto_other pool _ different]
  | submit submit =>
    cases submitStep_moves taken with
    | claim other | fill other | pass other =>
      rw [proceed_thread]
      rcases eq_or_ne thread other with rfl | different
      · rw [setThread_same]
      · rw [setThread_other pool _ different]
    | signal other =>
      rw [proceed_thread, Pool.wake]
      split
      case isTrue place =>
        rcases eq_or_ne thread other with rfl | different
        · simp [place, Place.spins]
        · rw [goto_other pool _ different]
      case isFalse => rfl
    | enter | choose | accept | refuse | move | release | spawn => rfl

/-- A step of the pool keeps the invariant. -/
theorem Sound.pool {state : Signalled ι σ Arg} (sound : Sound state) {action : Action ι σ}
    (free : Free state action) {pool : Pool ι σ Arg}
    (taken : ThreadPool.perform argument state.pool action = some pool) :
    Sound { state with pool := pool } := by
  have exclusive := perform_exclusive sound.exclusive taken
  cases action with
  | thread thread =>
    refine ⟨exclusive, threadStep_listed sound.listed taken,
      threadStep_undestroyed sound.undestroyed taken, ?_, sound.hosted⟩
    intro submit unbegun
    rw [threadStep_submit taken]
    exact sound.unbegun submit unbegun
  | stir thread =>
    obtain ⟨_, taken⟩ := Option.ite_none_right_eq_some.mp taken
    obtain rfl := Option.some.inj taken
    refine ⟨exclusive, sound.listed, ⟨sound.undestroyed.1, fun other => ?_⟩, sound.unbegun,
      sound.hosted⟩
    rcases eq_or_ne other thread with rfl | different
    · simpa using sound.undestroyed.2 other
    · simpa [goto_other state.pool _ different] using sound.undestroyed.2 other
  | submit submit =>
    refine ⟨exclusive, (submitStep_ran taken).2 sound.listed,
      submitStep_undestroyed sound.undestroyed taken, ?_, sound.hosted⟩
    intro other unbegun
    have different : other ≠ submit := by
      rintro rfl
      rw [free] at unbegun
      cases unbegun
    exact ((submitStep_submit taken).1 other different).trans (sound.unbegun other unbegun)

/-- A step of the pool takes no thread under a handler into its critical section. -/
theorem Clear.pool {state : Signalled ι σ Arg} (clear : Clear state) {action : Action ι σ}
    (free : Free state action) {pool : Pool ι σ Arg}
    (taken : ThreadPool.perform argument state.pool action = some pool) :
    Clear { state with pool := pool } := by
  intro thread under
  have others : action ≠ .thread thread := by
    rintro rfl
    exact under free
  exact (perform_spins taken others).trans (clear thread under)

/-- What a move can be. -/
inductive Moves (argument : σ → Arg) (state : Signalled ι σ Arg) :
    Move ι σ → Signalled ι σ Arg → Prop
  | elsewhere (submit : σ) (unbegun : state.begun submit = false) :
      Moves argument state (.deliver submit none)
        { state with begun := Function.update state.begun submit true }
  | onTop (submit : σ) (thread : ι) (unbegun : state.begun submit = false)
      (nobody : state.handler thread = none) :
      Moves argument state (.deliver submit (some thread)) { state with
        begun := Function.update state.begun submit true
        handler := Function.update state.handler thread (some submit) }
  | resume (submit : σ) (thread : ι) (runs : state.handler thread = some submit)
      (done : returned (state.pool.submit submit) = true) :
      Moves argument state (.resume thread)
        { state with handler := Function.update state.handler thread none }
  | pool (action : Action ι σ) (free : Free state action) (pool : Pool ι σ Arg)
      (stepped : ThreadPool.perform argument state.pool action = some pool) :
      Moves argument state (.pool action) { state with pool := pool }

theorem perform_moves {state after : Signalled ι σ Arg} {move : Move ι σ}
    (taken : perform argument state move = some after) : Moves argument state move after := by
  cases move with
  | deliver submit host =>
    obtain ⟨begun, taken⟩ := Option.ite_none_left_eq_some.mp taken
    have unbegun := Bool.eq_false_iff.mpr begun
    cases host with
    | none => exact Option.some.inj taken ▸ .elsewhere submit unbegun
    | some thread =>
      obtain ⟨nobody, taken⟩ := Option.ite_none_right_eq_some.mp taken
      exact Option.some.inj taken ▸ .onTop submit thread unbegun nobody
  | resume thread =>
    rw [perform] at taken
    cases runs : state.handler thread with
    | none =>
      rw [runs] at taken
      cases taken
    | some submit =>
      simp only [runs] at taken
      obtain ⟨done, taken⟩ := Option.ite_none_right_eq_some.mp taken
      exact Option.some.inj taken ▸ .resume submit thread runs done
  | pool action =>
    obtain ⟨free, taken⟩ := Option.ite_none_right_eq_some.mp taken
    obtain ⟨pool, stepped, rfl⟩ := Option.map_eq_some_iff.mp taken
    exact .pool action free pool stepped

/-- Every move keeps the invariant. -/
theorem perform_sound {state after : Signalled ι σ Arg} {move : Move ι σ} (sound : Sound state)
    (taken : perform argument state move = some after) : Sound after := by
  cases perform_moves taken with
  | elsewhere submit => exact sound.begin submit fun _ _ runs => .inr runs
  | onTop submit host =>
    apply sound.begin submit
    intro thread other runs
    rcases eq_or_ne thread host with rfl | different
    · rw [Function.update_self] at runs
      exact .inl (Option.some.inj runs).symm
    · rw [Function.update_of_ne different] at runs
      exact .inr runs
  | resume submit host =>
    refine { sound with hosted := ?_ }
    intro thread other runs
    change other ∈ Function.update state.handler host none thread at runs
    rcases eq_or_ne thread host with rfl | different
    · rw [Function.update_self] at runs
      cases runs
    · rw [Function.update_of_ne different] at runs
      exact sound.hosted thread other runs
  | pool action free pool stepped => exact sound.pool free stepped

/-- Signals delivered outside leave the threads under handlers outside. -/
theorem perform_clear {state after : Signalled ι σ Arg} {move : Move ι σ} (clear : Clear state)
    (outside : Outside state move) (taken : perform argument state move = some after) :
    Clear after := by
  cases perform_moves taken with
  | elsewhere => exact clear
  | onTop submit host =>
    intro thread under
    rcases eq_or_ne thread host with rfl | different
    · exact outside
    · exact clear thread (by simpa [different] using under)
  | resume submit host =>
    intro thread under
    rcases eq_or_ne thread host with rfl | different
    · simp at under
    · exact clear thread (by simpa [different] using under)
  | pool action free pool stepped => exact clear.pool free stepped

/-- What holds in every state of the runs with signals outside. -/
theorem reached_clear {state : Signalled ι σ Arg}
    (reached : (signalling argument).ReachedUnder Outside state) : Sound state ∧ Clear state := by
  apply reached.invariant
  · rintro start ⟨fresh, unbegun, nobody⟩
    have served : Served argument start.pool := fresh_served fresh
    refine ⟨⟨served.exclusive, served.listed, served.undestroyed, ?_, ?_⟩, ?_⟩
    · exact fun submit _ => fresh.2.2.2.2.2.1 submit
    · intro thread submit runs
      rw [nobody] at runs
      cases runs
    · exact fun thread under => absurd (nobody thread) under
  · rintro before move after ⟨sound, clear⟩ outside taken
    exact ⟨perform_sound sound taken, perform_clear clear outside taken⟩

/-- A submit that has not returned has a next step, unless it waits for the spin lock. -/
theorem submit_steps {pool : Pool ι σ Arg} {submit : σ} (listed : pool.order ≠ [])
    (unfinished : returned (pool.submit submit) = false)
    (free : pool.submit submit = .entering → pool.spinlock = none) :
    (submitStep argument pool submit).isSome := by
  rw [submitStep]
  cases place : pool.submit submit with
  | entering => simp [free place]
  | choosing =>
    obtain ⟨thread, rest, order⟩ := List.exists_cons_of_ne_nil listed
    simp [order]
  | handed | spawned =>
    rw [place] at unfinished
    cases unfinished
  | _ => rfl

/-- As long as no signal is delivered on top of a pool thread in its critical section,
whoever holds the spin lock can take its next step. -/
theorem holders_step (argument : σ → Arg) (state : Signalled ι σ Arg)
    (reached : (signalling argument).ReachedUnder Outside state) :
    HolderSteps argument state := by
  obtain ⟨sound, clear⟩ := reached_clear reached
  constructor
  · intro thread holds
    have spins := (sound.exclusive.spinThread thread).mpr holds
    have free : Free state (.thread thread) := by
      by_contra under
      rw [clear thread under] at spins
      cases spins
    rw [perform, if_pos free, Option.isSome_map]
    exact critical_steps spins
  · intro submit holds
    have critical := (sound.exclusive.spinSubmit submit).mpr holds
    have begun : Free state (.submit submit) := by
      cases begun : state.begun submit with
      | true => exact begun
      | false =>
        rw [sound.unbegun submit begun] at critical
        cases critical
    have unfinished : returned (state.pool.submit submit) = false := by
      cases place : state.pool.submit submit <;> rw [place] at critical <;>
        first | rfl | cases critical
    rw [perform, if_pos begun, Option.isSome_map]
    apply submit_steps sound.listed unfinished
    intro place
    rw [place] at critical
    cases critical

/-- No move frees a thread from a handler that waits for it. -/
theorem Stuck.move {state after : Signalled ι σ Arg} {submit : σ} {thread : ι} {move : Move ι σ}
    (stuck : Stuck state submit thread) (taken : perform argument state move = some after) :
    Stuck after submit thread := by
  have sound := perform_sound stuck.sound taken
  have holder := (stuck.sound.exclusive.spinThread thread).mp stuck.spins
  obtain ⟨_, handler, spins, waits⟩ := stuck
  cases perform_moves taken with
  | elsewhere => exact ⟨sound, handler, spins, waits⟩
  | onTop other host _ nobody =>
    have different : thread ≠ host := by
      rintro rfl
      rw [handler] at nobody
      cases nobody
    exact ⟨sound, by simpa [different] using handler, spins, waits⟩
  | resume other host runs done =>
    have different : thread ≠ host := by
      rintro rfl
      rw [handler] at runs
      obtain rfl := Option.some.inj runs
      rw [waits] at done
      cases done
    exact ⟨sound, by simpa [different] using handler, spins, waits⟩
  | pool action free pool stepped =>
    have others : action ≠ .thread thread := by
      rintro rfl
      rw [Free, handler] at free
      cases free
    refine ⟨sound, handler, (perform_spins stepped others).trans spins, ?_⟩
    cases action with
    | thread other => exact (congrFun (threadStep_submit stepped) submit).trans waits
    | stir other =>
      obtain ⟨_, stepped⟩ := Option.ite_none_right_eq_some.mp stepped
      obtain rfl := Option.some.inj stepped
      exact waits
    | submit other =>
      -- the spin lock is not free, so this submit does not begin
      have different : submit ≠ other := by
        rintro rfl
        have stopped : submitStep argument state.pool submit = none := by
          simp [submitStep, waits, holder]
        exact Option.some_ne_none _ (stepped.symm.trans stopped)
      exact ((submitStep_submit stepped).1 submit different).trans waits

/-- The steps a submit has left at most. -/
def stepsLeft : Submit ι → Nat
  | .entering => 11
  | .choosing => 10
  | .reading _ => 9
  | .claiming _ => 8
  | .filling _ => 7
  | .passing _ => 6
  | .moving _ => 5
  | .releasing _ | .refusing => 4
  | .signalling _ | .spawning => 3
  | .handed _ | .spawned => 0

/-- The steps until the spin lock is given back. -/
def holderLeft (pool : Pool ι σ Arg) : Nat :=
  match pool.spinlock with
  | some (.thread thread) => if (pool.thread thread).place = .moving then 2 else 1
  | some (.submit submit) => stepsLeft (pool.submit submit)
  | some .destroyer | none => 0

/-- The steps until a submit has returned, when nobody gets in between. -/
def waiting (pool : Pool ι σ Arg) (submit : σ) : Nat :=
  stepsLeft (pool.submit submit) +
    if pool.submit submit = .entering then holderLeft pool else 0

/-- Each step of a submit leaves it fewer, and gives back the spin lock or keeps it. -/
theorem submitStep_lowers {pool after : Pool ι σ Arg} {submit : σ}
    (taken : submitStep argument pool submit = some after) :
    stepsLeft (after.submit submit) < stepsLeft (pool.submit submit) ∧
      after.submit submit ≠ .entering ∧
      ((pool.submit submit).critical = true →
        after.spinlock = none ∨ after.spinlock = pool.spinlock) := by
  cases submitStep_moves taken with
  | release next place =>
    rcases place with ⟨thread, place, rfl⟩ | ⟨place, rfl⟩ <;> simp [place, stepsLeft]
  | enter place | choose place | accept _ place | refuse _ place | claim _ place | fill _ place
  | pass _ place | move _ place | signal _ place | spawn place =>
    simp [place, stepsLeft, Submit.critical]

/-- The holder of the spin lock brings its release nearer, and a waiting submit with it. -/
theorem holder_lowers {pool : Pool ι σ Arg} {submit : σ} {thread : ι}
    (spins : (pool.thread thread).place.spins = true)
    (holder : pool.spinlock = some (.thread thread)) (waits : pool.submit submit = .entering) :
    ∃ after, threadStep pool thread = some after ∧ waiting after submit < waiting pool submit := by
  cases place : (pool.thread thread).place with
  | moving =>
    refine ⟨_, by rw [threadStep, place], ?_⟩
    simp [waiting, holderLeft, waits, holder, place, Pool.goto]
  | releasing =>
    refine ⟨_, by rw [threadStep, place], ?_⟩
    simp [waiting, holderLeft, waits, holder, place]
  | _ =>
    rw [place] at spins
    cases spins

/-- While a handler has not returned, some step of the pool brings its return nearer. -/
theorem Sound.advances {state : Signalled ι σ Arg} (sound : Sound state) (clear : Clear state)
    {submit : σ} (begun : state.begun submit = true)
    (unfinished : returned (state.pool.submit submit) = false) :
    ∃ action pool, Free state action ∧
      ThreadPool.perform argument state.pool action = some pool ∧
      waiting pool submit < waiting state.pool submit := by
  by_cases alone : state.pool.submit submit = .entering → state.pool.spinlock = none
  · obtain ⟨pool, stepped⟩ :=
      Option.isSome_iff_exists.mp (submit_steps sound.listed unfinished alone)
    obtain ⟨lower, past, _⟩ := submitStep_lowers stepped
    refine ⟨.submit submit, pool, begun, stepped, ?_⟩
    rw [waiting, waiting, if_neg past]
    omega
  · obtain ⟨waits, held⟩ := Classical.not_imp.mp alone
    obtain ⟨party, holder⟩ := Option.ne_none_iff_exists'.mp held
    cases party with
    | destroyer => exact absurd holder sound.undestroyed.1
    | thread thread =>
      have spins := (sound.exclusive.spinThread thread).mpr holder
      have free : state.handler thread = none := by
        by_contra under
        rw [clear thread under] at spins
        cases spins
      obtain ⟨pool, stepped, lower⟩ := holder_lowers spins holder waits
      exact ⟨.thread thread, pool, free, stepped, lower⟩
    | submit other =>
      have critical := (sound.exclusive.spinSubmit other).mpr holder
      have active : state.begun other = true := by
        cases active : state.begun other with
        | true => rfl
        | false =>
          rw [sound.unbegun other active] at critical
          cases critical
      have running : returned (state.pool.submit other) = false := by
        cases place : state.pool.submit other <;> rw [place] at critical <;>
          first | rfl | cases critical
      have inside : state.pool.submit other = .entering → state.pool.spinlock = none := by
        intro place
        rw [place] at critical
        cases critical
      obtain ⟨pool, stepped⟩ :=
        Option.isSome_iff_exists.mp (submit_steps sound.listed running inside)
      obtain ⟨lower, _, lock⟩ := submitStep_lowers stepped
      have different : submit ≠ other := by
        rintro rfl
        rw [waits] at critical
        cases critical
      have still : pool.submit submit = .entering :=
        ((submitStep_submit stepped).1 submit different).trans waits
      refine ⟨.submit other, pool, active, stepped, ?_⟩
      rw [waiting, waiting, if_pos still, if_pos waits, still, waits]
      rcases lock critical with none | same
      · simp only [holderLeft, none, holder]
        omega
      · simp only [holderLeft, same, holder]
        omega

/-- A handler that begins on top of a pool thread can return if and only if that thread
is not in its critical section.

Proof: inside it, every move leaves the handler waiting for the thread below it. Outside,
whoever holds the spin lock can give it back, and the submit then goes through. -/
theorem handler_returns_iff (argument : σ → Arg) {state after : Signalled ι σ Arg} {submit : σ}
    {thread : ι} (reached : (signalling argument).ReachedUnder Outside state)
    (delivered : perform argument state (.deliver submit (some thread)) = some after) :
    (∃ moves final, System.follow (perform argument) (fun _ _ => True) after moves = some final ∧
      final.handler thread = none) ↔ (state.pool.thread thread).place.spins = false := by
  obtain ⟨sound, clear⟩ := reached_clear reached
  have began := perform_sound sound delivered
  constructor
  · rintro ⟨moves, final, followed, free⟩
    by_contra spins
    have inside : (state.pool.thread thread).place.spins = true := by simpa using spins
    have stuck : Stuck after submit thread := by
      cases perform_moves delivered with
      | onTop _ _ unbegun _ =>
        exact ⟨began, by simp, inside, sound.unbegun submit unbegun⟩
    have still := System.follow_invariant (fun _ _ _ held _ taken => Stuck.move held taken) moves
      stuck followed
    rw [still.handler] at free
    cases free
  · intro outside
    have allowed : Outside state (.deliver submit (some thread)) := outside
    have apart := perform_clear clear allowed delivered
    have runs : after.handler thread = some submit := by
      cases perform_moves delivered
      simp
    let holds (state : Signalled ι σ Arg) : Prop := Sound state ∧ Clear state ∧
      (state.handler thread = some submit ∨ state.handler thread = none)
    let left (state : Signalled ι σ Arg) : Nat :=
      waiting state.pool submit + if state.handler thread = none then 0 else 1
    have advances (state : Signalled ι σ Arg) (held : holds state)
        (under : ¬ state.handler thread = none) : ∃ move next, True ∧
          perform argument state move = some next ∧ holds next ∧ left next < left state := by
      obtain ⟨sound, clear, runs⟩ := held
      have runs := runs.resolve_right under
      cases unfinished : returned (state.pool.submit submit) with
      | false =>
        obtain ⟨action, pool, free, stepped, lower⟩ :=
          @Sound.advances _ _ _ _ _ argument _ sound clear _ (sound.hosted thread submit runs)
            unfinished
        refine ⟨.pool action, { state with pool := pool }, trivial, ?_, ?_, ?_⟩
        · rw [perform, if_pos free, stepped]
          rfl
        · exact ⟨sound.pool free stepped, clear.pool free stepped, .inl runs⟩
        · exact Nat.add_lt_add_right lower _
      | true =>
        have taken : perform argument state (.resume thread) =
            some { state with handler := Function.update state.handler thread none } := by
          simp [perform, runs, unfinished]
        have allowed : Outside state (.resume thread) := trivial
        refine ⟨.resume thread, _, trivial, taken, ?_, ?_⟩
        · exact ⟨perform_sound sound taken, perform_clear clear allowed taken, .inr (by simp)⟩
        · simp [left, runs]
    obtain ⟨moves, final, followed, _, free⟩ :=
      System.follow_progress left advances (⟨began, apart, .inl runs⟩ : holds after)
    exact ⟨moves, final, followed, free⟩

end Steps

/-- The pool of one thread and its two handlers, before any signal. -/
def quiet : Signalled Unit Bool Nat where
  pool := {
    spinlock := none
    order := [()]
    thread := fun _ => ⟨none, .idle, none, 0, .locking⟩
    submit := fun _ => .entering
    ran := [] }
  begun := fun _ => false
  handler := fun _ => none

def arguments : Bool → Nat := fun _ => 7

theorem quiet_starts : (signalling arguments).start quiet :=
  ⟨⟨rfl, by decide, by decide, by decide, fun _ => ⟨0, rfl⟩, fun _ => rfl, rfl⟩, fun _ => rfl,
    fun _ => rfl⟩

/-- A message arrives elsewhere, and the thread runs its job and enters its critical
section to go back to the list. -/
def backToList : List (Move Unit Bool) :=
  .deliver false none :: (List.replicate 9 (.pool (.submit false)) ++
    List.replicate 8 (.pool (.thread ())))

theorem back_to_list_steps :
    HolderSteps arguments
      ((System.follow (perform arguments) Outside quiet backToList).get (by decide)) :=
  holders_step arguments _
    (System.followed_reached backToList (.initial quiet quiet_starts) (by decide))

/-- A second message whose handler begins on top of it there never returns. -/
theorem handler_inside_never_returns :
    ¬ ∃ moves final, System.follow (perform arguments) (fun _ _ => True)
        ((System.follow (perform arguments) (fun _ _ => True) quiet
          (backToList ++ [.deliver true (some ())])).get (by decide)) moves = some final ∧
      final.handler () = none := by
  have reached := System.followed_reached backToList (.initial quiet quiet_starts)
    (by decide : (System.follow (perform arguments) Outside quiet backToList).isSome)
  have delivered : perform arguments
      ((System.follow (perform arguments) Outside quiet backToList).get (by decide))
      (.deliver true (some ())) =
      some ((System.follow (perform arguments) (fun _ _ => True) quiet
        (backToList ++ [.deliver true (some ())])).get (by decide)) := rfl
  rw [handler_returns_iff arguments reached delivered]
  decide

end Emilib.PoolSignals
