import Mathlib.Data.List.TakeWhile
import Emilib.CircularLists
import Emilib.PoolSignals

/-!
# The list of the thread pool as pointers

The threads of the pool hang in a circular list whose head is in the pool. A submit
looks behind the head and moves the thread it takes to the tail, a thread that is
done moves itself to the front, and each move is nine accesses to memory. Other
threads take steps between any two of them.

The spin lock makes a move one step: the pool over its pointers refines the pool
over a list of threads, so whatever holds of the list in every run holds of the
circle. The pointers form that circle whenever nobody is inside a move. The loop of
the teardown reads the next pointer of a thread before it frees the thread. Whether it
gets past a thread is up to that thread, which it joins; as far as it gets, it takes
out the threads of the circle in order.
-/

namespace Emilib.PoolRing

open ThreadPool CircularLists

/-- `struct emi_thread_pool` with its head and the links of its threads, its threads,
its submits and what was called. The head is `none`. For each party it has what is
left of the move it is in, if it is in one. -/
structure RingPool (ι σ Arg : Type) where
  spinlock : Option (Party ι σ)
  links : Links (Option ι)
  relink : Party ι σ → Links.Relink (Option ι)
  thread : ι → Thread ι σ Arg
  submit : σ → Submit ι
  ran : List (σ × Arg)

variable {ι σ Arg : Type}

/-- The pool with a list of threads in the place of the pointers. -/
def RingPool.view (pool : RingPool ι σ Arg) (order : List ι) : Pool ι σ Arg :=
  ⟨pool.spinlock, order, pool.thread, pool.submit, pool.ran⟩

/-- The pool after a step that is not about the list. -/
def RingPool.adopt (pool : RingPool ι σ Arg) (after : Pool ι σ Arg) : RingPool ι σ Arg :=
  { pool with
    spinlock := after.spinlock
    thread := after.thread
    submit := after.submit
    ran := after.ran }

/-- The move a party is in: a thread moves itself to the front, a submit moves the
thread it has claimed to the tail. -/
def moving (pool : Pool ι σ Arg) : Party ι σ → Option (Side × ι)
  | .thread thread =>
      match (pool.thread thread).place with
      | .moving => some (.front, thread)
      | _ => none
  | .submit submit =>
      match pool.submit submit with
      | .moving thread => some (.back, thread)
      | _ => none
  | .destroyer => none

/-- Whoever is inside a move holds the spin lock. -/
theorem moving_holds {pool : Pool ι σ Arg} (exclusive : Exclusive pool) {party : Party ι σ}
    {side : Side} {thread : ι} (moves : moving pool party = some (side, thread)) :
    pool.spinlock = some party := by
  cases party with
  | thread mover =>
    apply (exclusive.spinThread mover).mp
    rw [moving] at moves
    cases place : (pool.thread mover).place <;> rw [place] at moves <;> first | rfl | cases moves
  | submit mover =>
    apply (exclusive.spinSubmit mover).mp
    rw [moving] at moves
    cases place : pool.submit mover <;> rw [place] at moves <;> first | rfl | cases moves
  | destroyer => cases moves

/-- So at most one party is inside a move. -/
theorem moving_alone {pool : Pool ι σ Arg} (exclusive : Exclusive pool) {party other : Party ι σ}
    {side : Side} {thread : ι} (moves : moving pool party = some (side, thread))
    (different : other ≠ party) : moving pool other = none := by
  cases elsewhere : moving pool other with
  | none => rfl
  | some move =>
    have holder := moving_holds exclusive moves
    rw [moving_holds exclusive elsewhere] at holder
    exact absurd (Option.some.inj holder) different

section Lists

variable [DecidableEq ι]

/-- The list that `emi_thread_pool_init` makes of the threads it creates in turn. -/
def initPool (links : Links (Option ι)) (threads : List ι) : Links (Option ι) :=
  threads.foldl (fun links thread => (links.initListHead (some thread)).listAdd (some thread) none)
    (links.initListHead none)

/-- A thread is given links of its own and added in front of those created before. -/
theorem ring_created {links : Links (Option ι)} {created : List ι} {thread : ι}
    (ring : links.Ring none (created.map some)) (fresh : thread ∉ created) :
    ((links.initListHead (some thread)).listAdd (some thread) none).Ring none
      ((thread :: created).map some) := by
  have absent : some thread ∉ none :: created.map some := by simpa using fresh
  have kept : (links.initListHead (some thread)).Ring none (created.map some) :=
    ring.elsewhere absent
      (fun other apart => by
        simp [Links.initListHead, Links.setNext, Links.setPrev, Function.update_of_ne apart])
      (fun other apart => by
        simp [Links.initListHead, Links.setNext, Links.setPrev, Function.update_of_ne apart])
  exact kept.addAt .front absent

/-- The list of a new pool has the threads in it, the one created last in front. -/
theorem initPool_ring (links : Links (Option ι)) {threads : List ι} (distinct : threads.Nodup) :
    (initPool links threads).Ring none (threads.reverse.map some) := by
  suffices whole : ∀ (created : List ι) (links : Links (Option ι)),
      links.Ring none (created.map some) → (threads ++ created).Nodup →
      (threads.foldl (fun links thread =>
        (links.initListHead (some thread)).listAdd (some thread) none) links).Ring none
        ((threads.reverse ++ created).map some) by
    have made := whole [] (links.initListHead none) (Links.ring_initListHead links none)
      (by simpa using distinct)
    simpa [initPool] using made
  clear distinct
  induction threads with
  | nil => exact fun created links ring _ => ring
  | cons thread threads inductionHypothesis =>
    intro created links ring apart
    have split := List.nodup_cons.mp apart
    have fresh : thread ∉ created := fun inside => split.1 (List.mem_append_right _ inside)
    have moved : (threads ++ thread :: created).Nodup :=
      List.perm_middle.nodup_iff.mpr apart
    have added := inductionHypothesis (thread :: created) _ (ring_created ring fresh) moved
    simpa using added

/-- The pointers of a pool represent the list of another: they form its circle
unless somebody is inside a move, and then what is left of that move brings about
the move of a circle that they formed. -/
structure Represents (ring : RingPool ι σ Arg) (pool : Pool ι σ Arg) : Prop where
  same : ring.view pool.order = pool
  listed : ∀ thread, thread ∈ pool.order
  resting : ∀ party, moving pool party = none → ring.relink party = .readPrev
  still : (∀ party, moving pool party = none) → ring.links.Ring none (pool.order.map some)
  partway : ∀ party side thread, moving pool party = some (side, thread) →
    ∃ origin : Links (Option ι), origin.Ring none (pool.order.map some) ∧
      ring.links.finish side (some thread) none (ring.relink party) =
        origin.moveTo side (some thread) none

/-- Moving a thread moves its node. -/
theorem move_nodes (side : Side) (thread : ι) (order : List ι) :
    side.move (some thread) (order.map some) = (side.move thread order).map some := by
  have erased := @List.map_erase ι (Option ι) _ _ instBEqOfDecidableEq _ some
    (Option.some_injective ι) thread order
  rw [Side.move, ← erased]
  cases side with
  | front => rfl
  | back =>
    rw [Side.move, Side.add, Side.add, List.map_append]
    rfl

/-- A thread that is moved stays in the list, and so do the others. -/
theorem listed_move (side : Side) {thread other : ι} {order : List ι} (member : other ∈ order) :
    other ∈ side.move thread order := by
  rcases eq_or_ne other thread with rfl | different
  · cases side <;> simp [Side.move, Side.add]
  · have kept := (List.mem_erase_of_ne different).mpr member
    cases side <;> simp [Side.move, Side.add, kept]

/-- Outside a move, a step of a thread does not depend on the list. -/
theorem threadStep_order (pool : Pool ι σ Arg) (order : List ι) {thread : ι}
    (outside : (pool.thread thread).place ≠ .moving) :
    ThreadPool.threadStep { pool with order } thread =
      (ThreadPool.threadStep pool thread).map fun after => { after with order } := by
  rw [ThreadPool.threadStep, ThreadPool.threadStep]
  cases place : (pool.thread thread).place with
  | moving => exact absurd place outside
  | locking | woken =>
    simp only
    by_cases free : (pool.thread thread).lock = none
    · rw [if_pos free, if_pos free]; rfl
    · rw [if_neg free, if_neg free]; rfl
  | entering =>
    simp only
    by_cases free : pool.spinlock = none
    · rw [if_pos free, if_pos free]; rfl
    · rw [if_neg free, if_neg free]; rfl
  | calling => simp only [Option.map_map]; rfl
  | _ => rfl

/-- A step of a thread leaves the moves of the others. -/
theorem threadStep_moving {pool next : Pool ι σ Arg} {thread : ι}
    (taken : ThreadPool.threadStep pool thread = some next) (other : Party ι σ)
    (different : other ≠ .thread thread) : moving next other = moving pool other := by
  cases other with
  | thread other =>
    have apart : other ≠ thread := fun same => different (congrArg Party.thread same)
    rw [moving, moving, PoolSignals.threadStep_other taken apart]
  | submit other => rw [moving, moving, threadStep_submit taken]
  | destroyer => rfl

section Carried

variable {ring after : RingPool ι σ Arg} {pool next : Pool ι σ Arg} {party : Party ι σ}

/-- A step of a party that is not inside a move, and leaves the pointers. -/
theorem Represents.carry (represents : Represents ring pool) (exclusive : Exclusive next)
    (outside : moving pool party = none)
    (others : ∀ other, other ≠ party → moving next other = moving pool other)
    (links : after.links = ring.links) (relink : after.relink = ring.relink)
    (order : next.order = pool.order) (same : after.view next.order = next) :
    Represents after next where
  same := same
  listed := order ▸ represents.listed
  resting other rests := by
    rw [relink]
    rcases eq_or_ne other party with rfl | different
    · exact represents.resting other outside
    · exact represents.resting other ((others other different).symm.trans rests)
  still rest := by
    rw [links, order]
    apply represents.still
    intro other
    rcases eq_or_ne other party with rfl | different
    · exact outside
    · exact (others other different).symm.trans (rest other)
  partway mover side thread moves := by
    rw [links, relink, order]
    rcases eq_or_ne mover party with rfl | different
    · have rest (other : Party ι σ) : moving pool other = none := by
        rcases eq_or_ne other mover with rfl | different
        · exact outside
        · exact (others other different).symm.trans (moving_alone exclusive moves different)
      exact ⟨ring.links, represents.still rest, by rw [represents.resting mover outside]; rfl⟩
    · exact represents.partway mover side thread ((others mover different).symm.trans moves)

end Carried

/-- No thread stands twice in the list. -/
theorem Represents.distinct {ring : RingPool ι σ Arg} {pool : Pool ι σ Arg}
    (represents : Represents ring pool) : pool.order.Nodup := by
  have formed : ∃ links : Links (Option ι), links.Ring none (pool.order.map some) := by
    by_cases rest : ∀ party, moving pool party = none
    · exact ⟨ring.links, represents.still rest⟩
    · obtain ⟨party, inside⟩ := not_forall.mp rest
      obtain ⟨⟨side, thread⟩, moves⟩ := Option.ne_none_iff_exists'.mp inside
      obtain ⟨origin, ring, _⟩ := represents.partway party side thread moves
      exact ⟨origin, ring⟩
  obtain ⟨links, ring⟩ := formed
  exact (List.nodup_cons.mp ring.distinct).2.of_map

/-- While a submit looks behind the head nobody is inside a move, so it finds the
first thread of the list. -/
theorem Represents.chooses {ring : RingPool ι σ Arg} {pool : Pool ι σ Arg} {submit : σ}
    (represents : Represents ring pool) (exclusive : Exclusive pool)
    (place : pool.submit submit = .choosing) : ring.links.next none = pool.order.head? := by
  have holder : pool.spinlock = some (.submit submit) :=
    (exclusive.spinSubmit submit).mp (by rw [place]; rfl)
  have rest (party : Party ι σ) : moving pool party = none := by
    cases moves : moving pool party with
    | none => rfl
    | some move =>
      have same := moving_holds exclusive moves
      rw [holder] at same
      cases same
      simp [moving, place] at moves
  rw [(represents.still rest).next_head, List.head?_map]
  cases pool.order.head? <;> rfl

/-- The circle of a new pool is its list. -/
theorem init_represents {ring : RingPool ι σ Arg} {threads : List ι}
    (made : ∃ links, ring.links = initPool links threads)
    (fresh : ThreadPool.Fresh (ring.view threads.reverse))
    (relink : ∀ party, ring.relink party = .readPrev) :
    Represents ring (ring.view threads.reverse) := by
  obtain ⟨links, made⟩ := made
  obtain ⟨_, _, distinct, listed, records, submits, _⟩ := fresh
  have rest (party : Party ι σ) : moving (ring.view threads.reverse) party = none := by
    cases party with
    | thread thread =>
      obtain ⟨args, record⟩ := records thread
      simp [moving, record]
    | submit submit => simp [moving, submits submit]
    | destroyer => rfl
  refine ⟨rfl, listed, fun party _ => relink party, fun _ => ?_, ?_⟩
  · rw [made]
    exact initPool_ring links (List.nodup_reverse.mp distinct)
  · intro party side thread moves
    rw [rest party] at moves
    cases moves

end Lists

section Steps

variable [DecidableEq ι] [DecidableEq σ]

/-- One access of the move a party is in. The last one ends the move. -/
def RingPool.relinkStep (pool : RingPool ι σ Arg) (party : Party ι σ) (side : Side) (thread : ι)
    (ended : RingPool ι σ Arg → RingPool ι σ Arg) : RingPool ι σ Arg :=
  match pool.links.access side (some thread) none (pool.relink party) with
  | (links, some stage) =>
      { pool with links, relink := Function.update pool.relink party stage }
  | (links, none) =>
      ended { pool with links, relink := Function.update pool.relink party .readPrev }

/-- One step of `thread_func` over the pointers. -/
def threadStep (pool : RingPool ι σ Arg) (thread : ι) : Option (RingPool ι σ Arg) :=
  match (pool.thread thread).place with
  | .moving => some (pool.relinkStep (.thread thread) .front thread fun pool =>
      pool.adopt ((pool.view []).goto thread .releasing))
  | _ => (ThreadPool.threadStep (pool.view []) thread).map pool.adopt

/-- One step of `emi_thread_pool_submit` over the pointers. -/
def submitStep (argument : σ → Arg) (pool : RingPool ι σ Arg) (submit : σ) :
    Option (RingPool ι σ Arg) :=
  match pool.submit submit with
  | .choosing => (pool.links.next none).map fun thread =>
      pool.adopt ((pool.view []).proceed submit (.reading thread))
  | .moving thread => some (pool.relinkStep (.submit submit) .back thread fun pool =>
      pool.adopt ((pool.view []).proceed submit (.releasing thread)))
  | _ => (ThreadPool.submitStep argument (pool.view []) submit).map pool.adopt

/-- The step an action names, if it can be taken. -/
def perform (argument : σ → Arg) (pool : RingPool ι σ Arg) :
    Action ι σ → Option (RingPool ι σ Arg)
  | .thread thread => threadStep pool thread
  | .stir thread => (ThreadPool.perform argument (pool.view []) (.stir thread)).map pool.adopt
  | .submit submit => submitStep argument pool submit

/-- A pool as `emi_thread_pool_init` leaves it. -/
def Fresh (pool : RingPool ι σ Arg) : Prop :=
  ∃ threads links, pool.links = initPool links threads ∧
    ThreadPool.Fresh (pool.view threads.reverse) ∧ ∀ party, pool.relink party = .readPrev

/-- The runs of a pool over its pointers. -/
def working (argument : σ → Arg) : System (RingPool ι σ Arg) (Action ι σ) :=
  System.performing Fresh (perform argument)

section Carried

variable {ring after : RingPool ι σ Arg} {pool next : Pool ι σ Arg} {party : Party ι σ}
  {side : Side} {thread : ι}

/-- An access in the middle of a move. -/
theorem Represents.going (represents : Represents ring pool) (exclusive : Exclusive pool)
    (moves : moving pool party = some (side, thread)) {links : Links (Option ι)}
    {stage : Links.Relink (Option ι)}
    (accessed : ring.links.access side (some thread) none (ring.relink party) =
      (links, some stage)) :
    Represents { ring with links, relink := Function.update ring.relink party stage } pool where
  same := represents.same
  listed := represents.listed
  resting other rests := by
    rcases eq_or_ne other party with rfl | different
    · rw [moves] at rests
      cases rests
    · simpa [Function.update_of_ne different] using represents.resting other rests
  still rest := by
    have rests := rest party
    rw [moves] at rests
    cases rests
  partway mover moverSide moved mid := by
    rcases eq_or_ne mover party with rfl | different
    · rw [moves] at mid
      cases mid
      obtain ⟨origin, ring', brings⟩ := represents.partway mover side thread moves
      refine ⟨origin, ring', ?_⟩
      have left := Links.finish_access ring.links side (some thread) none (ring.relink mover)
      rw [accessed] at left
      simpa using left.trans brings
    · rw [moving_alone exclusive moves different] at mid
      cases mid

/-- The last access of a move. -/
theorem Represents.ended (represents : Represents ring pool) (exclusive : Exclusive pool)
    (moves : moving pool party = some (side, thread)) {links : Links (Option ι)}
    (accessed : ring.links.access side (some thread) none (ring.relink party) = (links, none))
    (outside : moving next party = none)
    (others : ∀ other, other ≠ party → moving next other = moving pool other)
    (linked : after.links = links)
    (relink : after.relink = Function.update ring.relink party .readPrev)
    (order : next.order = side.move thread pool.order) (same : after.view next.order = next) :
    Represents after next := by
  have rest (other : Party ι σ) : moving next other = none := by
    rcases eq_or_ne other party with rfl | different
    · exact outside
    · rw [others other different]
      exact moving_alone exclusive moves different
  obtain ⟨origin, formed, brings⟩ := represents.partway party side thread moves
  have left := Links.finish_access ring.links side (some thread) none (ring.relink party)
  rw [accessed, brings] at left
  have moved := formed.moveTo side (List.mem_map_of_mem (represents.listed thread))
  rw [← left, move_nodes] at moved
  refine ⟨same, ?_, ?_, ?_, ?_⟩
  · intro other
    rw [order]
    exact listed_move side (represents.listed other)
  · intro other _
    rw [relink]
    rcases eq_or_ne other party with rfl | different
    · exact Function.update_self ..
    · rw [Function.update_of_ne different]
      exact represents.resting other (moving_alone exclusive moves different)
  · intro _
    rw [linked, order]
    exact moved
  · intro mover moverSide mid moving
    rw [rest mover] at moving
    cases moving

end Carried

/-- Outside its list operations, a step of a submit does not depend on the list. -/
theorem submitStep_order (argument : σ → Arg) (pool : Pool ι σ Arg) (order : List ι) {submit : σ}
    (looks : pool.submit submit ≠ .choosing)
    (outside : ∀ thread, pool.submit submit ≠ .moving thread) :
    ThreadPool.submitStep argument { pool with order } submit =
      (ThreadPool.submitStep argument pool submit).map fun after => { after with order } := by
  rw [ThreadPool.submitStep, ThreadPool.submitStep]
  cases place : pool.submit submit with
  | choosing => exact absurd place looks
  | moving thread => exact absurd place (outside thread)
  | entering =>
    simp only
    by_cases free : pool.spinlock = none
    · rw [if_pos free, if_pos free]; rfl
    · rw [if_neg free, if_neg free]; rfl
  | signalling thread =>
    simp only [Option.map_some, Pool.wake]
    by_cases asleep : (pool.thread thread).place = .asleep
    · rw [if_pos asleep, if_pos asleep]; rfl
    · rw [if_neg asleep, if_neg asleep]; rfl
  | _ => rfl

/-- Waking a thread leaves all moves. -/
theorem wake_moving (pool : Pool ι σ Arg) (thread : ι) (party : Party ι σ) :
    moving (pool.wake thread) party = moving pool party := by
  cases party with
  | thread other =>
    rw [Pool.wake]
    split
    case isTrue asleep =>
      rcases eq_or_ne other thread with rfl | different
      · simp [moving, asleep]
      · rw [moving, moving, goto_other pool _ different]
    case isFalse => rfl
  | submit other => rw [moving, moving, wake_submit]
  | destroyer => rfl

/-- A step of a submit leaves the moves of the others. -/
theorem submitStep_moving {argument : σ → Arg} {pool next : Pool ι σ Arg} {submit : σ}
    (taken : ThreadPool.submitStep argument pool submit = some next) (other : Party ι σ)
    (different : other ≠ .submit submit) : moving next other = moving pool other := by
  cases other with
  | thread other =>
    cases submitStep_moves taken with
    | signal thread _ => exact wake_moving pool thread (.thread other)
    | claim thread _ | fill thread _ | pass thread _ =>
      rcases eq_or_ne other thread with rfl | apart
      · simp [moving]
      · rw [moving, moving, proceed_thread, setThread_other pool _ apart]
    | _ => rfl
  | submit other =>
    have apart : other ≠ submit := fun same => different (congrArg Party.submit same)
    rw [moving, moving, (submitStep_submit taken).1 other apart]
  | destroyer => rfl

/-- Outside its move, a thread takes its step as over a list. -/
theorem threadStep_off {ring : RingPool ι σ Arg} {thread : ι}
    (outside : (ring.thread thread).place ≠ .moving) :
    threadStep ring thread = (ThreadPool.threadStep (ring.view []) thread).map ring.adopt := by
  rw [threadStep]
  cases place : (ring.thread thread).place with
  | moving => exact absurd place outside
  | _ => rfl

/-- Outside its list operations, a submit takes its step as over a list. -/
theorem submitStep_off {argument : σ → Arg} {ring : RingPool ι σ Arg} {submit : σ}
    (looks : ring.submit submit ≠ .choosing)
    (outside : ∀ thread, ring.submit submit ≠ .moving thread) :
    submitStep argument ring submit =
      (ThreadPool.submitStep argument (ring.view []) submit).map ring.adopt := by
  rw [submitStep]
  cases place : ring.submit submit with
  | choosing => exact absurd place looks
  | moving thread => exact absurd place (outside thread)
  | _ => rfl

/-- A step of a thread over the pointers is a step over the list, or an access inside
its move. -/
theorem threadStep_represents {ring after : RingPool ι σ Arg} {pool : Pool ι σ Arg} {thread : ι}
    (represents : Represents ring pool) (exclusive : Exclusive pool)
    (taken : threadStep ring thread = some after) :
    Represents after pool ∨
      ∃ next, ThreadPool.threadStep pool thread = some next ∧ Represents after next := by
  obtain ⟨order, rfl⟩ : ∃ order, pool = ring.view order := ⟨_, represents.same.symm⟩
  by_cases place : (ring.thread thread).place = .moving
  · have moves : moving (ring.view order) (.thread thread) = some (.front, thread) := by
      simp [moving, RingPool.view, place]
    simp only [threadStep, place, RingPool.relinkStep, Option.some.injEq] at taken
    cases accessed : ring.links.access .front (some thread) none (ring.relink (.thread thread)) with
    | mk links stage =>
      rw [accessed] at taken
      subst taken
      cases stage with
      | some stage => exact .inl (represents.going exclusive moves accessed)
      | none =>
        have stepped : ThreadPool.threadStep (ring.view order) thread =
            some { (ring.view order).goto thread .releasing with
              order := Side.front.move thread order } := by
          have there : ((ring.view order).thread thread).place = .moving := place
          rw [ThreadPool.threadStep]
          simp only [there]
          rfl
        have rests : moving { (ring.view order).goto thread .releasing with
            order := Side.front.move thread order } (.thread thread) = none := by simp [moving]
        exact .inr ⟨_, stepped, represents.ended exclusive moves accessed rests
          (threadStep_moving stepped) rfl rfl rfl rfl⟩
  · have rests : moving (ring.view order) (.thread thread) = none := by
      simp only [moving, RingPool.view]
    rw [threadStep_off place] at taken
    obtain ⟨bare, moved, rfl⟩ := Option.map_eq_some_iff.mp taken
    have stepped : ThreadPool.threadStep (ring.view order) thread = some { bare with order } := by
      have carried := threadStep_order (ring.view []) order place
      rw [moved] at carried
      exact carried
    exact .inr ⟨_, stepped, represents.carry (threadStep_exclusive exclusive stepped) rests
      (threadStep_moving stepped) rfl rfl rfl rfl⟩

/-- A step of a submit over the pointers is a step over the list, or an access inside
its move. -/
theorem submitStep_represents {argument : σ → Arg} {ring after : RingPool ι σ Arg}
    {pool : Pool ι σ Arg} {submit : σ} (represents : Represents ring pool)
    (exclusive : Exclusive pool) (taken : submitStep argument ring submit = some after) :
    Represents after pool ∨
      ∃ next, ThreadPool.submitStep argument pool submit = some next ∧
        Represents after next := by
  obtain ⟨order, rfl⟩ : ∃ order, pool = ring.view order := ⟨_, represents.same.symm⟩
  by_cases looks : ring.submit submit = .choosing
  · have first := represents.chooses exclusive looks
    have rests : moving (ring.view order) (.submit submit) = none := by
      simp [moving, RingPool.view, looks]
    simp only [submitStep, looks] at taken
    obtain ⟨thread, found, rfl⟩ := Option.map_eq_some_iff.mp taken
    rw [first] at found
    have stepped : ThreadPool.submitStep argument (ring.view order) submit =
        some ((ring.view order).proceed submit (.reading thread)) := by
      have there : (ring.view order).submit submit = .choosing := looks
      rw [ThreadPool.submitStep]
      simp only [there, found, Option.map_some]
    exact .inr ⟨_, stepped, represents.carry (submitStep_exclusive exclusive stepped) rests
      (submitStep_moving stepped) rfl rfl rfl rfl⟩
  · by_cases inside : ∃ thread, ring.submit submit = .moving thread
    · obtain ⟨thread, place⟩ := inside
      have moves : moving (ring.view order) (.submit submit) = some (.back, thread) := by
        simp [moving, RingPool.view, place]
      simp only [submitStep, place, RingPool.relinkStep, Option.some.injEq] at taken
      cases accessed :
        ring.links.access .back (some thread) none (ring.relink (.submit submit)) with
      | mk links stage =>
        rw [accessed] at taken
        subst taken
        cases stage with
        | some stage => exact .inl (represents.going exclusive moves accessed)
        | none =>
          have stepped : ThreadPool.submitStep argument (ring.view order) submit =
              some { (ring.view order).proceed submit (.releasing thread) with
                order := Side.back.move thread order } := by
            have there : (ring.view order).submit submit = .moving thread := place
            rw [ThreadPool.submitStep]
            simp only [there]
            rfl
          have rests : moving { (ring.view order).proceed submit (.releasing thread) with
              order := Side.back.move thread order } (.submit submit) = none := by simp [moving]
          exact .inr ⟨_, stepped, represents.ended exclusive moves accessed rests
            (submitStep_moving stepped) rfl rfl rfl rfl⟩
    · have outside := not_exists.mp inside
      have rests : moving (ring.view order) (.submit submit) = none := by
        simp only [moving, RingPool.view]
      rw [submitStep_off looks outside] at taken
      obtain ⟨bare, moved, rfl⟩ := Option.map_eq_some_iff.mp taken
      have stepped : ThreadPool.submitStep argument (ring.view order) submit =
          some { bare with order } := by
        have carried := submitStep_order argument (ring.view []) order looks outside
        rw [moved] at carried
        exact carried
      exact .inr ⟨_, stepped, represents.carry (submitStep_exclusive exclusive stepped) rests
        (submitStep_moving stepped) rfl rfl rfl rfl⟩

/-- Every step over the pointers is a step over the list, or an access inside a move. -/
theorem perform_represents {argument : σ → Arg} {ring after : RingPool ι σ Arg}
    {pool : Pool ι σ Arg} {action : Action ι σ} (represents : Represents ring pool)
    (exclusive : Exclusive pool) (taken : perform argument ring action = some after) :
    Represents after pool ∨
      ∃ next, ThreadPool.perform argument pool action = some next ∧ Represents after next := by
  cases action with
  | thread thread => exact threadStep_represents represents exclusive taken
  | submit submit => exact submitStep_represents represents exclusive taken
  | stir thread =>
    obtain ⟨order, rfl⟩ : ∃ order, pool = ring.view order := ⟨_, represents.same.symm⟩
    obtain ⟨bare, stirred, rfl⟩ := Option.map_eq_some_iff.mp taken
    obtain ⟨asleep, woken⟩ := Option.ite_none_right_eq_some.mp stirred
    have there : ((ring.view order).thread thread).place = .asleep := asleep
    have wakes : (ring.view order).wake thread = { bare with order } := by
      rw [Pool.wake, if_pos there, ← Option.some.inj woken]
      rfl
    have stepped : ThreadPool.perform argument (ring.view order) (.stir thread) =
        some { bare with order } := by
      rw [ThreadPool.perform, if_pos there, ← Option.some.inj woken]
      rfl
    have others (other : Party ι σ) :
        moving { bare with order } other = moving (ring.view order) other :=
      wakes ▸ wake_moving (ring.view order) thread other
    have outside : moving (ring.view order) .destroyer = none := rfl
    exact .inr ⟨_, stepped, represents.carry (perform_exclusive exclusive stepped) outside
      (fun other _ => others other) rfl rfl rfl rfl⟩

/-- The locks of the pool are sound in every run. -/
theorem reached_exclusive {argument : σ → Arg} {guard : Pool ι σ Arg → Action ι σ → Prop}
    {pool : Pool ι σ Arg} (reached : (ThreadPool.working argument).ReachedUnder guard pool) :
    Exclusive pool := by
  apply reached.invariant
  · exact fun start fresh => fresh_exclusive fresh
  · intro before action after exclusive _ taken
    exact perform_exclusive exclusive taken

/-- Every run over the pointers has an image over a list. A guard that does not look
at the list carries over. -/
theorem reached_represents {argument : σ → Arg} {guard : Pool ι σ Arg → Action ι σ → Prop}
    (blind : ∀ pool order action, guard pool action → guard { pool with order } action)
    {ring : RingPool ι σ Arg} (reached : (working argument).ReachedUnder
      (fun ring action => guard (ring.view []) action) ring) :
    ∃ pool, (ThreadPool.working argument).ReachedUnder guard pool ∧ Represents ring pool := by
  apply reached.simulated
  · intro start ⟨threads, links, made, fresh, relink⟩
    exact ⟨_, fresh, init_represents ⟨links, made⟩ fresh relink⟩
  · intro before action after pool represents abstractly allowed taken
    rcases perform_represents represents (reached_exclusive abstractly) taken with
      stays | ⟨next, moved, follows⟩
    · exact .inl stays
    · refine .inr ⟨action, next, ?_, moved, follows⟩
      rw [← represents.same]
      exact blind _ pool.order action allowed

/-- In every run the pool over its pointers is a pool over a list of all its threads.
Nobody else comes between the accesses of a move, and the pointers form the circle
of that list whenever nobody is inside one, as when a submit looks for its first
thread. A guard that does not look at the list carries over.

Proof: an access inside a move leaves what the move will bring about, and its last
access is the move of the list. Everybody else leaves the pointers, and whoever
begins a move holds the spin lock, so it finds the circle. -/
theorem ring_refines (argument : σ → Arg) (guard : Pool ι σ Arg → Action ι σ → Prop)
    (blind : ∀ pool order action, guard pool action → guard { pool with order } action)
    (ring : RingPool ι σ Arg) (reached : (working argument).ReachedUnder
      (fun ring action => guard (ring.view []) action) ring) :
    ∃ order, (ThreadPool.working argument).ReachedUnder guard (ring.view order) ∧
      order.Nodup ∧ (∀ thread, thread ∈ order) ∧
      ((∀ party, moving (ring.view order) party = none) →
        ring.links.Ring none (order.map some)) ∧
      ∀ submit, ring.submit submit = .choosing → ring.links.next none = order.head? := by
  obtain ⟨pool, abstractly, represents⟩ := reached_represents blind reached
  refine ⟨pool.order, represents.same.symm ▸ abstractly, represents.distinct, represents.listed,
    ?_, ?_⟩
  · rw [represents.same]
    exact represents.still
  · intro submit place
    apply represents.chooses (reached_exclusive abstractly)
    rw [← represents.same]
    exact place

/-- The loop of `emi_thread_pool_destroy` over the links, from the first thread on.
`joins` says for which threads `emi_thread_destroy`, which takes the lock of the thread,
marks and wakes it, and joins it, returns. -/
def destroyThreads (joins : ι → Bool) (freed : Option ι → Option ι × Option ι) (fuel : Nat)
    (links : Links (Option ι)) : Option (List (Option ι) × Links (Option ι)) :=
  Links.takeDown (fun node => node.any joins) freed none fuel links (links.next none)
    (links.next (links.next none))

/-- Whenever the spin lock is free, as when `emi_thread_pool_destroy` takes it, its loop
over the pointers takes out and frees the threads of the pool in the order of the list,
each once, up to the first that it cannot join, whatever is written over the links of a
thread once it is freed. The threads behind that one are still a circle; if every thread
is joined, all are freed and the circle is empty. -/
theorem ring_taken_down (argument : σ → Arg) (ring : RingPool ι σ Arg)
    (reached : (working argument).Reached ring) (free : ring.spinlock = none)
    (joins : ι → Bool) (freed : Option ι → Option ι × Option ι) :
    ∃ order, (ThreadPool.working argument).Reached (ring.view order) ∧ order.Nodup ∧
      (∀ thread, thread ∈ order) ∧ ∀ fuel, order.length < fuel → ∃ final,
        destroyThreads joins freed fuel ring.links =
          some ((order.takeWhile joins).map some, final) ∧
        final.Ring none ((order.dropWhile joins).tail.map some) ∧
        ((∀ thread, joins thread) → (order.takeWhile joins) = order ∧ final.Ring none []) := by
  have blind (pool : Pool ι σ Arg) (order : List ι) (action : Action ι σ) : True → True := id
  obtain ⟨pool, abstractly, represents⟩ := reached_represents blind reached
  have exclusive := reached_exclusive abstractly
  have rest (party : Party ι σ) : moving pool party = none := by
    cases moves : moving pool party with
    | none => rfl
    | some move =>
      have holder := moving_holds exclusive moves
      rw [← represents.same] at holder
      rw [show (ring.view pool.order).spinlock = ring.spinlock from rfl, free] at holder
      cases holder
  refine ⟨pool.order, represents.same.symm ▸ abstractly, represents.distinct, represents.listed, ?_⟩
  intro fuel enough
  obtain ⟨final, gone, left⟩ := (represents.still rest).takeDown (fun node => node.any joins) freed
    (by rwa [List.length_map] : (pool.order.map some).length < fuel)
  rw [List.takeWhile_map] at gone
  rw [List.dropWhile_map, ← List.map_tail] at left
  refine ⟨final, gone, left, fun all => ?_⟩
  have none (thread : ι) (_ : thread ∈ pool.order) : joins thread = true := all thread
  refine ⟨List.takeWhile_eq_self_iff.mpr none, ?_⟩
  have emptied : pool.order.dropWhile ((fun node => node.any joins) ∘ some) = [] :=
    List.dropWhile_eq_nil_iff.mpr none
  rwa [emptied] at left

end Steps

/-- A pool of one thread over its pointers, before its only submit. -/
def oneRing : RingPool Unit Unit Nat where
  spinlock := none
  links := initPool ⟨id, id⟩ [()]
  relink := fun _ => .readPrev
  thread := onePool.thread
  submit := onePool.submit
  ran := []

theorem oneRing_starts : (working seven).start oneRing :=
  ⟨[()], _, rfl, onePool_starts, fun _ => rfl⟩

/-- The thread falls asleep, and the submit is halfway through its move. -/
def halfway : RingPool Unit Unit Nat :=
  (System.follow (perform seven) (fun ring action => Punctual (ring.view []) action) oneRing
    (List.replicate 3 (.thread ()) ++ List.replicate 10 (.submit ()))).get (by decide)

/-- Halfway through a move the pool is still one over a list. -/
theorem halfway_refines :
    ∃ order, (ThreadPool.working seven).ReachedUnder Punctual (halfway.view order) ∧
      order.Nodup ∧ (∀ thread, thread ∈ order) ∧
      ((∀ party, moving (halfway.view order) party = none) →
        halfway.links.Ring none (order.map some)) ∧
      ∀ submit, halfway.submit submit = .choosing → halfway.links.next none = order.head? :=
  ring_refines seven Punctual
    (fun pool order action punctual => by cases action <;> exact punctual) halfway
    (System.followed_reached _ (.initial oneRing oneRing_starts) (by decide))

/-- A pool of two threads over its pointers. -/
def pairRing : RingPool Bool Unit Nat where
  spinlock := none
  links := initPool ⟨id, id⟩ [true, false]
  relink := fun _ => .readPrev
  thread := fun _ => ⟨none, .idle, none, 0, .locking⟩
  submit := fun _ => .entering
  ran := []

/-- Its threads have gone to sleep, as `emi_thread_destroy` finds threads it can join. -/
def asleepPair : RingPool Bool Unit Nat :=
  (System.follow (perform seven) (fun _ _ => True) pairRing
    (List.replicate 3 (.thread true) ++ List.replicate 3 (.thread false))).get (by decide)

/-- The loop of the teardown joins and frees them both. -/
theorem asleepPair_taken_down :
    (∀ thread, (asleepPair.thread thread).place = .asleep) ∧
    ∃ order, (ThreadPool.working seven).Reached (asleepPair.view order) ∧ order.Nodup ∧
      (∀ thread, thread ∈ order) ∧ ∀ fuel, order.length < fuel → ∃ final,
        destroyThreads (fun _ => true) (fun _ => (some true, none)) fuel asleepPair.links =
          some ((order.takeWhile fun _ => true).map some, final) ∧
        final.Ring none ((order.dropWhile fun _ => true).tail.map some) ∧
        ((∀ _ : Bool, true) → (order.takeWhile fun _ => true) = order ∧ final.Ring none []) :=
  have starts : (working seven).start pairRing :=
    ⟨[true, false], _, rfl, ⟨rfl, by decide, by decide, by decide, fun _ => ⟨0, rfl⟩,
      fun _ => rfl, rfl⟩, fun _ => rfl⟩
  ⟨by decide, ring_taken_down seven asleepPair
    (System.followed_reached _ (.initial pairRing starts) (by decide)) (by decide)
    (fun _ => true) fun _ => (some true, none)⟩

end Emilib.PoolRing
