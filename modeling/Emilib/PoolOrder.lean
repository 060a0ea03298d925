import Emilib.PoolSignals

/-!
# Idle threads come first

A submit looks at the first thread of the list only. If that one is busy it starts a
thread of its own, whatever the others do. So the list has to have its idle threads
in front: a submit moves the thread it takes to the tail, and a thread that is done
moves itself to the front.

A thread becomes idle before it moves. A submit may take it in between, and then the
move puts a busy thread in front of idle ones. Along the runs in which no thread is
taken on its way back, the list stays in order, and a submit is refused only when no
thread of the pool rests idle.
-/

namespace Emilib.PoolOrder

open ThreadPool

variable {ι σ Arg : Type}

/-- A thread is idle and back in the list. -/
def Rests (record : Thread ι σ Arg) : Prop :=
  record.status = .idle ∧ record.place ≠ .entering ∧ record.place ≠ .moving

instance [DecidableEq σ] (record : Thread ι σ Arg) : Decidable (Rests record) :=
  inferInstanceAs (Decidable (_ ∧ _ ∧ _))

/-- The thread that a submit has claimed and not yet moved. -/
def Submit.claimed : Submit ι → Option ι
  | .filling thread | .passing thread | .moving thread => some thread
  | _ => none

/-- A submit has claimed the thread and not yet moved it. -/
def Claimed (pool : Pool ι σ Arg) (thread : ι) : Prop :=
  ∃ submit, Submit.claimed (pool.submit submit) = some thread

/-- The thread that a submit is about to claim. -/
def Submit.wanted : Submit ι → Option ι
  | .claiming thread => some thread
  | _ => none

/-- No thread is claimed on its way back to the list. -/
def Unhurried (pool : Pool ι σ Arg) : Action ι σ → Prop
  | .submit submit =>
      ∀ thread ∈ Submit.wanted (pool.submit submit), (pool.thread thread).place ≠ .entering
  | .thread _ | .stir _ => True

instance [DecidableEq σ] (pool : Pool ι σ Arg) (action : Action ι σ) :
    Decidable (Unhurried pool action) :=
  match action with
  | .submit submit => inferInstanceAs (Decidable (∀ thread ∈ Submit.wanted (pool.submit submit),
      (pool.thread thread).place ≠ .entering))
  | .thread _ | .stir _ => .isTrue trivial

/-- The threads that rest come before those that do not, except for one that has been
claimed and is about to be moved. -/
def InOrder (pool : Pool ι σ Arg) : Prop :=
  pool.order.Pairwise fun first second =>
    Rests (pool.thread second) → Rests (pool.thread first) ∨ Claimed pool first

/-- Two records of a thread that agree on its status and on whether it rests or is on its
way back. -/
structure Alike (after before : Thread ι σ Arg) : Prop where
  rests : Rests after ↔ Rests before
  back : after.place = .entering ∨ after.place = .moving →
    before.place = .entering ∨ before.place = .moving
  status : after.status = before.status

/-- The invariant of the unhurried runs. -/
structure Ordered (pool : Pool ι σ Arg) : Prop where
  exclusive : Exclusive pool
  assigned : Assigned pool
  distinct : pool.order.Nodup
  listed : ∀ thread, thread ∈ pool.order
  returning : ∀ thread, (pool.thread thread).place = .entering ∨
    (pool.thread thread).place = .moving → (pool.thread thread).status = .idle
  inOrder : InOrder pool
  first : ∀ submit thread, pool.submit submit = .reading thread → pool.order.head? = some thread
  taken : ∀ thread, Claimed pool thread → ¬ Rests (pool.thread thread)
  refused : ∀ submit, pool.submit submit = .refusing → ∀ thread, ¬ Rests (pool.thread thread)

/-- A submit that has claimed a thread is in its critical section. -/
theorem claimed_critical {place : Submit ι} {thread : ι}
    (claimed : Submit.claimed place = some thread) : place.critical = true := by
  cases place <;> first | rfl | cases claimed

/-- While a submit is in its critical section, no other has claimed a thread. -/
theorem claimed_alone {pool : Pool ι σ Arg} (exclusive : Exclusive pool) {submit : σ} {thread : ι}
    (critical : (pool.submit submit).critical = true) (claimed : Claimed pool thread) :
    Submit.claimed (pool.submit submit) = some thread := by
  obtain ⟨other, claims⟩ := claimed
  exact exclusive.alone critical (claimed_critical claims) ▸ claims

/-- While a submit is in its critical section, no thread moves itself. -/
theorem moving_outside {pool : Pool ι σ Arg} (exclusive : Exclusive pool) {submit : σ} {thread : ι}
    (critical : (pool.submit submit).critical = true) : (pool.thread thread).place ≠ .moving := by
  intro place
  have holder := (exclusive.spinThread thread).mp (by rw [place]; rfl)
  rw [(exclusive.spinSubmit submit).mp critical] at holder
  cases holder

/-- While a thread is in its critical section, no submit is. -/
theorem submits_outside {pool : Pool ι σ Arg} (exclusive : Exclusive pool) {thread : ι}
    (spins : (pool.thread thread).place.spins = true) (submit : σ) :
    (pool.submit submit).critical = false := by
  by_contra critical
  have holder := (exclusive.spinSubmit submit).mp (by simpa using critical)
  rw [(exclusive.spinThread thread).mp spins] at holder
  cases holder

/-- The order is kept by a step that changes neither the list, nor who rests, nor who
has been claimed. -/
theorem Ordered.kept {pool after : Pool ι σ Arg} (ordered : Ordered pool)
    (exclusive : Exclusive after) (assigned : Assigned after) (order : after.order = pool.order)
    (returning : ∀ thread, (after.thread thread).place = .entering ∨
      (after.thread thread).place = .moving → (after.thread thread).status = .idle)
    (rests : ∀ thread, Rests (after.thread thread) ↔ Rests (pool.thread thread))
    (claimed : ∀ submit,
      Submit.claimed (after.submit submit) = Submit.claimed (pool.submit submit))
    (first : ∀ submit thread, after.submit submit = .reading thread →
      pool.order.head? = some thread)
    (refused : ∀ submit, after.submit submit = .refusing →
      ∀ thread, ¬ Rests (pool.thread thread)) : Ordered after := by
  have claims (thread : ι) : Claimed after thread ↔ Claimed pool thread := by
    simp only [Claimed, claimed]
  constructor
  · exact exclusive
  · exact assigned
  · exact order ▸ ordered.distinct
  · exact order ▸ ordered.listed
  · exact returning
  · rw [InOrder, order]
    apply ordered.inOrder.imp
    intro left right holds restsToo
    rw [rests, claims]
    exact holds ((rests right).mp restsToo)
  · exact order ▸ first
  · intro thread takenUp
    rw [rests]
    exact ordered.taken thread ((claims thread).mp takenUp)
  · intro submit refusing thread
    rw [rests]
    exact refused submit refusing thread

/-- While a submit is in its critical section, no other is. -/
theorem others_outside {pool : Pool ι σ Arg} (exclusive : Exclusive pool) {submit other : σ}
    (critical : (pool.submit submit).critical = true) (different : other ≠ submit) :
    (pool.submit other).critical = false := by
  by_contra inside
  exact different (exclusive.alone critical (by simpa using inside)).symm

/-- If any thread of the pool rests, the first one does, which is the one a submit reads. -/
theorem Ordered.first_rests {pool : Pool ι σ Arg} (ordered : Ordered pool) {submit : σ} {thread : ι}
    (place : pool.submit submit = .reading thread) {other : ι}
    (rests : Rests (pool.thread other)) : Rests (pool.thread thread) := by
  obtain ⟨rest, order⟩ := List.head?_eq_some_iff.mp (ordered.first submit thread place)
  have listed := ordered.listed other
  have inOrder := ordered.inOrder
  rw [InOrder, order, List.pairwise_cons] at inOrder
  rw [order] at listed
  rcases List.mem_cons.mp listed with rfl | later
  · exact rests
  · rcases inOrder.1 other later rests with restsToo | claimed
    · exact restsToo
    · have alone := claimed_alone ordered.exclusive (by rw [place]; rfl) claimed
      rw [place] at alone
      cases alone

/-- A submit keeps the order by a step to another place that changes neither the list
nor who rests, if it is right about the thread it reads and about being refused. -/
theorem Ordered.proceed [DecidableEq σ] {pool after : Pool ι σ Arg} {submit : σ}
    (ordered : Ordered pool) (exclusive : Exclusive after) (assigned : Assigned after)
    {place : Submit ι} (submits : after.submit = Function.update pool.submit submit place)
    (order : after.order = pool.order)
    (alike : ∀ thread, Alike (after.thread thread) (pool.thread thread))
    (claimed : Submit.claimed place = Submit.claimed (pool.submit submit))
    (first : ∀ thread, place = .reading thread → pool.order.head? = some thread)
    (refused : place = .refusing → ∀ thread, ¬ Rests (pool.thread thread)) : Ordered after := by
  have cases (other : σ) : other = submit ∧ after.submit other = place ∨
      after.submit other = pool.submit other := by
    rcases eq_or_ne other submit with rfl | different
    · exact .inl ⟨rfl, by rw [submits, Function.update_self]⟩
    · exact .inr (by rw [submits, Function.update_of_ne different])
  apply ordered.kept exclusive assigned order
  · intro thread back
    rw [(alike thread).status]
    exact ordered.returning thread ((alike thread).back back)
  · exact fun thread => (alike thread).rests
  · intro other
    rcases cases other with ⟨rfl, moved⟩ | same
    · rw [moved, claimed]
    · rw [same]
  · intro other thread reading
    rcases cases other with ⟨rfl, moved⟩ | same
    · exact first thread (moved.symm.trans reading)
    · exact ordered.first other thread (same.symm.trans reading)
  · intro other refusing
    rcases cases other with ⟨rfl, moved⟩ | same
    · exact refused (moved.symm.trans refusing)
    · exact ordered.refused other (same.symm.trans refusing)

/-- In a fresh pool every thread rests. -/
theorem fresh_ordered (argument : σ → Arg) {pool : Pool ι σ Arg} (fresh : Fresh pool) :
    Ordered pool := by
  have served : Served argument pool := fresh_served fresh
  obtain ⟨_, _, distinct, listed, records, submits, _⟩ := fresh
  have rests (thread : ι) : Rests (pool.thread thread) := by
    obtain ⟨args, record⟩ := records thread
    simp [Rests, record]
  constructor
  · exact served.exclusive
  · exact served.assigned
  · exact distinct
  · exact listed
  · exact fun thread _ => (rests thread).1
  · exact List.pairwise_of_forall fun first _ _ => .inl (rests first)
  · simp [submits]
  · rintro thread ⟨submit, claims⟩
    rw [submits] at claims
    cases claims
  · simp [submits]

section Threads

variable [DecidableEq ι]

/-- A thread that does not move itself leaves the list. -/
theorem threadStep_order {pool after : Pool ι σ Arg} {thread : ι}
    (still : (pool.thread thread).place ≠ .moving) (taken : threadStep pool thread = some after) :
    after.order = pool.order := by
  cases threadStep_moves taken with
  | move place => exact absurd place still
  | _ => rfl

/-- A thread that does not move itself rests after its step if and only if it did
before. -/
theorem threadStep_rests {pool after : Pool ι σ Arg} {thread : ι} (assigned : Assigned pool)
    (still : (pool.thread thread).place ≠ .moving) (taken : threadStep pool thread = some after)
    (other : ι) : Rests (after.thread other) ↔ Rests (pool.thread other) := by
  rcases eq_or_ne other thread with rfl | different
  · have occupied (busy : (pool.thread other).place.busy = true) :
        (pool.thread other).status ≠ .idle := by
      intro idle
      rw [((assigned.fits other).idle idle).2] at busy
      cases busy
    cases threadStep_moves taken with
    | lock next _ place | unlock next place =>
      rcases place with ⟨place, rfl⟩ | ⟨place, rfl⟩ <;> simp [Rests, place]
    | move place => exact absurd place still
    | idle place => simp [Rests, occupied (by rw [place]; rfl)]
    | clear _ place => simp [Rests, occupied (by rw [place]; rfl)]
    | park place | find place | leave place | resume place | call place | run _ place
    | finish _ place | enter place | release place =>
      simp [Rests, place]
  · rw [PoolSignals.threadStep_other taken different]

/-- A thread on its way back is idle after a step, too. -/
theorem threadStep_returning {pool after : Pool ι σ Arg} {thread : ι}
    (returning : ∀ thread, (pool.thread thread).place = .entering ∨
      (pool.thread thread).place = .moving → (pool.thread thread).status = .idle)
    (taken : threadStep pool thread = some after) (other : ι)
    (place : (after.thread other).place = .entering ∨ (after.thread other).place = .moving) :
    (after.thread other).status = .idle := by
  rcases eq_or_ne other thread with rfl | different
  · have before := returning other
    cases threadStep_moves taken with
    | lock next _ from' | unlock next from' =>
      rcases from' with ⟨_, rfl⟩ | ⟨_, rfl⟩ <;> simp at place
    | idle => simp
    | enter from' => simpa using before (.inl from')
    | _ => simp at place
  · rw [PoolSignals.threadStep_other taken different] at place ⊢
    exact returning other place

/-- A thread that moves itself is idle and holds the spin lock, and comes to rest in
front of all others. -/
theorem Ordered.comeBack {pool : Pool ι σ Arg} (ordered : Ordered pool) {thread : ι}
    (place : (pool.thread thread).place = .moving)
    (taken : threadStep pool thread =
      some { pool.goto thread .releasing with order := thread :: pool.order.erase thread }) :
    Ordered { pool.goto thread .releasing with order := thread :: pool.order.erase thread } := by
  have idle := ordered.returning thread (.inr place)
  have outside := submits_outside ordered.exclusive (by rw [place]; rfl : _ = true)
  have unclaimed (other : ι) : ¬ Claimed pool other := by
    rintro ⟨submit, claims⟩
    have critical := claimed_critical claims
    rw [outside submit] at critical
    cases critical
  have absent : thread ∉ pool.order.erase thread := ordered.distinct.not_mem_erase
  constructor
  · exact threadStep_exclusive ordered.exclusive taken
  · exact threadStep_assigned ordered.assigned taken
  · exact List.nodup_cons.mpr ⟨absent, ordered.distinct.erase thread⟩
  · intro other
    rcases eq_or_ne other thread with rfl | different
    · exact List.mem_cons_self
    · exact List.mem_cons_of_mem thread
        ((List.mem_erase_of_ne different).mpr (ordered.listed other))
  · exact threadStep_returning ordered.returning taken
  · refine List.pairwise_cons.mpr ⟨?_, ?_⟩
    · intro second _ _
      exact .inl (by simp [Rests, idle])
    · refine (ordered.inOrder.sublist List.erase_sublist).imp_of_mem ?_
      intro first second firstIn secondIn holds rests
      have others (other : ι) (member : other ∈ pool.order.erase thread) : other ≠ thread :=
        fun same => absent (same ▸ member)
      change Rests ((pool.goto thread .releasing).thread second) at rests
      change Rests ((pool.goto thread .releasing).thread first) ∨ Claimed pool first
      rw [goto_other pool _ (others second secondIn)] at rests
      rw [goto_other pool _ (others first firstIn)]
      exact holds rests
  · intro submit other reading
    change pool.submit submit = .reading other at reading
    have critical := outside submit
    rw [reading] at critical
    cases critical
  · exact fun other claims => absurd claims (unclaimed other)
  · intro submit refusing
    change pool.submit submit = .refusing at refusing
    have critical := outside submit
    rw [refusing] at critical
    cases critical

/-- A step of a thread keeps the order. -/
theorem threadStep_ordered {pool after : Pool ι σ Arg} {thread : ι} (ordered : Ordered pool)
    (taken : threadStep pool thread = some after) : Ordered after := by
  by_cases place : (pool.thread thread).place = .moving
  · have moved : after =
        { pool.goto thread .releasing with order := thread :: pool.order.erase thread } := by
      rw [threadStep, place] at taken
      exact (Option.some.inj taken).symm
    subst moved
    exact ordered.comeBack place taken
  · have submits := threadStep_submit taken
    apply ordered.kept
    · exact threadStep_exclusive ordered.exclusive taken
    · exact threadStep_assigned ordered.assigned taken
    · exact threadStep_order place taken
    · exact threadStep_returning ordered.returning taken
    · exact threadStep_rests ordered.assigned place taken
    · simp [submits]
    · exact submits ▸ ordered.first
    · exact submits ▸ ordered.refused

/-- Writing the function or the argument of a thread leaves it as it is. -/
theorem setThread_alike (pool : Pool ι σ Arg) {thread : ι} {record : Thread ι σ Arg}
    (status : record.status = (pool.thread thread).status)
    (place : record.place = (pool.thread thread).place) (other : ι) :
    Alike ((pool.setThread thread record).thread other) (pool.thread other) := by
  rcases eq_or_ne other thread with rfl | different
  · rw [setThread_same]
    constructor <;> simp [Rests, status, place]
  · rw [setThread_other pool record different]
    exact ⟨Iff.rfl, id, rfl⟩

end Threads

section Submits

variable [DecidableEq ι] [DecidableEq σ] {argument : σ → Arg}

/-- A submit that claims a thread which has come to rest makes it the only claimed one. -/
theorem Ordered.claim {pool : Pool ι σ Arg} (ordered : Ordered pool) {submit : σ} {thread : ι}
    (place : pool.submit submit = .claiming thread)
    (rested : (pool.thread thread).place ≠ .entering)
    (taken : submitStep argument pool submit = some ((pool.setThread thread
      { pool.thread thread with status := .busy }).proceed submit (.filling thread))) :
    Ordered ((pool.setThread thread
      { pool.thread thread with status := .busy }).proceed submit (.filling thread)) := by
  have critical : (pool.submit submit).critical = true := by rw [place]; rfl
  have unclaimed (other : ι) : ¬ Claimed pool other := by
    intro claimed
    have alone := claimed_alone ordered.exclusive critical claimed
    rw [place] at alone
    cases alone
  generalize next : (pool.setThread thread
    { pool.thread thread with status := .busy }).proceed submit (.filling thread) = after at taken ⊢
  have order : after.order = pool.order := by rw [← next]; rfl
  have claims : Submit.claimed (after.submit submit) = some thread := by
    rw [← next, proceed_same]
    rfl
  have others (other : σ) (different : other ≠ submit) :
      after.submit other = pool.submit other := by
    rw [← next, proceed_other _ _ different, setThread_submit]
  have own : (after.thread thread) = { pool.thread thread with status := .busy } := by
    rw [← next, proceed_thread, setThread_same]
  have rest (other : ι) (different : other ≠ thread) :
      after.thread other = pool.thread other := by
    rw [← next, proceed_thread, setThread_other pool _ different]
  have busy : ¬ Rests (after.thread thread) := by simp [Rests, own]
  constructor
  · exact submitStep_exclusive ordered.exclusive taken
  · exact submitStep_assigned ordered.assigned ordered.exclusive taken
  · exact order ▸ ordered.distinct
  · exact order ▸ ordered.listed
  · intro other back
    rcases eq_or_ne other thread with rfl | different
    · rw [own] at back
      exact absurd back (not_or.mpr ⟨rested, moving_outside ordered.exclusive critical⟩)
    · rw [rest other different] at back ⊢
      exact ordered.returning other back
  · rw [InOrder, order]
    apply ordered.inOrder.imp
    intro first second holds rests
    have different : second ≠ thread := fun same => busy (same ▸ rests)
    rw [rest second different] at rests
    have before := (holds rests).resolve_right (unclaimed first)
    rcases eq_or_ne first thread with rfl | apart
    · exact .inr ⟨submit, claims⟩
    · exact .inl (by rwa [rest first apart])
  · intro other head reading
    rcases eq_or_ne other submit with rfl | different
    · rw [reading] at claims
      cases claims
    · rw [others other different] at reading
      exact order ▸ ordered.first other head reading
  · intro other claimed
    have same := claimed_alone (submitStep_exclusive ordered.exclusive taken)
      (claimed_critical claims) claimed
    rw [claims] at same
    exact Option.some.inj same ▸ busy
  · intro other refusing
    rcases eq_or_ne other submit with rfl | different
    · rw [refusing] at claims
      cases claims
    · have outside := others_outside ordered.exclusive critical different
      rw [← others other different, refusing] at outside
      cases outside

/-- A submit that moves the thread it has claimed puts it behind all others. -/
theorem Ordered.putBack {pool : Pool ι σ Arg} (ordered : Ordered pool) {submit : σ} {thread : ι}
    (place : pool.submit submit = .moving thread)
    (taken : submitStep argument pool submit = some { pool.proceed submit (.releasing thread) with
      order := pool.order.erase thread ++ [thread] }) :
    Ordered { pool.proceed submit (.releasing thread) with
      order := pool.order.erase thread ++ [thread] } := by
  have critical : (pool.submit submit).critical = true := by rw [place]; rfl
  have claims : Submit.claimed (pool.submit submit) = some thread := by rw [place]; rfl
  have only (other : ι) (claimed : Claimed pool other) : other = thread := by
    have same := claimed_alone ordered.exclusive critical claimed
    rw [claims] at same
    exact (Option.some.inj same).symm
  have absent : thread ∉ pool.order.erase thread := ordered.distinct.not_mem_erase
  have places (other : σ) : (pool.proceed submit (.releasing thread)).submit other =
      if other = submit then .releasing thread else pool.submit other := by
    split
    case isTrue same => rw [same, proceed_same]
    case isFalse different => exact proceed_other pool _ different
  constructor
  · exact submitStep_exclusive ordered.exclusive taken
  · exact submitStep_assigned ordered.assigned ordered.exclusive taken
  · refine List.nodup_append.mpr ⟨ordered.distinct.erase thread, List.nodup_singleton thread, ?_⟩
    intro other member last isLast same
    obtain rfl := List.mem_singleton.mp isLast
    exact absent (same ▸ member)
  · intro other
    rcases eq_or_ne other thread with rfl | different
    · exact List.mem_append_right _ (List.mem_singleton_self other)
    · exact List.mem_append_left _ ((List.mem_erase_of_ne different).mpr (ordered.listed other))
  · exact ordered.returning
  · refine List.pairwise_append.mpr ⟨?_, List.pairwise_singleton _ thread, ?_⟩
    · refine (ordered.inOrder.sublist List.erase_sublist).imp_of_mem ?_
      intro first second firstIn _ holds rests
      exact .inl ((holds rests).resolve_right fun claimed => absent (only first claimed ▸ firstIn))
    · intro first _ second last rests
      rw [List.mem_singleton.mp last] at rests
      exact absurd rests (ordered.taken thread ⟨submit, claims⟩)
  · intro other head reading
    change (pool.proceed submit (.releasing thread)).submit other = .reading head at reading
    rw [places] at reading
    split at reading
    case isTrue => cases reading
    case isFalse different =>
      have outside := others_outside ordered.exclusive critical different
      rw [reading] at outside
      cases outside
  · rintro other ⟨user, claimed⟩
    change Submit.claimed ((pool.proceed submit (.releasing thread)).submit user) = some other
      at claimed
    rw [places] at claimed
    split at claimed
    case isTrue => cases claimed
    case isFalse => exact ordered.taken other ⟨user, claimed⟩
  · intro other refusing
    change (pool.proceed submit (.releasing thread)).submit other = .refusing at refusing
    rw [places] at refusing
    split at refusing
    case isTrue => cases refusing
    case isFalse => exact ordered.refused other refusing

/-- Waking a thread only ends its sleep. -/
theorem wake_alike (pool : Pool ι σ Arg) (thread other : ι) :
    Alike ((pool.wake thread).thread other) (pool.thread other) := by
  rw [Pool.wake]
  split
  case isTrue asleep =>
    rcases eq_or_ne other thread with rfl | different
    · constructor <;> simp [Rests, asleep]
    · rw [goto_other pool _ different]
      exact ⟨Iff.rfl, id, rfl⟩
  case isFalse => exact ⟨Iff.rfl, id, rfl⟩

/-- A submit that claims no thread on its way back keeps the order. -/
theorem submitStep_ordered {pool after : Pool ι σ Arg} {submit : σ} (ordered : Ordered pool)
    (unhurried : Unhurried pool (.submit submit))
    (taken : submitStep argument pool submit = some after) : Ordered after := by
  have exclusive := submitStep_exclusive ordered.exclusive taken
  have assigned := submitStep_assigned ordered.assigned ordered.exclusive taken
  cases submitStep_moves taken with
  | claim thread place =>
    apply ordered.claim place (unhurried thread ?_) taken
    rw [place]
    rfl
  | move thread place => exact ordered.putBack place taken
  | fill thread place =>
    refine ordered.proceed exclusive assigned rfl rfl (setThread_alike pool rfl rfl) ?_ ?_ ?_
    · rw [place]
      rfl
    all_goals
      intros
      contradiction
  | pass thread place =>
    refine ordered.proceed exclusive assigned rfl rfl (setThread_alike pool rfl rfl) ?_ ?_ ?_
    · rw [place]
      rfl
    all_goals
      intros
      contradiction
  | signal thread place =>
    have submits : ((pool.wake thread).proceed submit (.handed thread)).submit =
        Function.update pool.submit submit (.handed thread) := by
      rw [Pool.proceed, wake_submit]
    refine ordered.proceed exclusive assigned submits (wake_order pool thread)
      (wake_alike pool thread) ?_ ?_ ?_
    · rw [place]
      rfl
    all_goals
      intros
      contradiction
  | enter place | spawn place | accept _ place =>
    refine ordered.proceed exclusive assigned rfl rfl (fun _ => ⟨Iff.rfl, id, rfl⟩) ?_ ?_ ?_
    · rw [place]
      rfl
    all_goals
      intros
      contradiction
  | release next place =>
    rcases place with ⟨thread, place, rfl⟩ | ⟨place, rfl⟩
    all_goals
      refine ordered.proceed exclusive assigned rfl rfl (fun _ => ⟨Iff.rfl, id, rfl⟩) ?_ ?_ ?_
      · rw [place]
        rfl
      all_goals
        intros
        contradiction
  | choose place thread first =>
    refine ordered.proceed exclusive assigned rfl rfl (fun _ => ⟨Iff.rfl, id, rfl⟩) ?_ ?_ ?_
    · rw [place]
      rfl
    · intro other same
      exact Submit.reading.inj same ▸ first
    · intros
      contradiction
  | refuse thread place =>
    have busy : (pool.thread thread).status ≠ .idle := by
      intro idle
      rw [submitStep, place] at taken
      simp only [if_pos idle] at taken
      have places := congrArg (fun pool => pool.submit submit) (Option.some.inj taken)
      simp at places
    refine ordered.proceed exclusive assigned rfl rfl (fun _ => ⟨Iff.rfl, id, rfl⟩) ?_ ?_ ?_
    · rw [place]
      rfl
    · intros
      contradiction
    · intro _ other rests
      exact busy (ordered.first_rests place rests).1

/-- Every unhurried step keeps the order. -/
theorem perform_ordered {pool after : Pool ι σ Arg} {action : Action ι σ} (ordered : Ordered pool)
    (unhurried : Unhurried pool action) (taken : perform argument pool action = some after) :
    Ordered after := by
  cases action with
  | thread thread => exact threadStep_ordered ordered taken
  | submit submit => exact submitStep_ordered ordered unhurried taken
  | stir thread =>
    have exclusive := perform_exclusive ordered.exclusive taken
    obtain ⟨asleep, taken⟩ := Option.ite_none_right_eq_some.mp taken
    obtain rfl : pool.wake thread = after := by
      rw [Pool.wake, if_pos asleep]
      exact Option.some.inj taken
    apply ordered.kept exclusive (ordered.assigned.wake thread) (wake_order pool thread)
    · intro other back
      rw [(wake_alike pool thread other).status]
      exact ordered.returning other ((wake_alike pool thread other).back back)
    · exact fun other => (wake_alike pool thread other).rests
    · simp
    · exact wake_submit pool thread ▸ ordered.first
    · exact wake_submit pool thread ▸ ordered.refused

/-- The list is in order, and what the order is for: a submit takes a resting thread if
there is one. -/
structure Serves (argument : σ → Arg) (pool : Pool ι σ Arg) : Prop where
  inOrder : InOrder pool
  taken : ∀ submit thread, pool.submit submit = .reading thread →
    (∃ other, Rests (pool.thread other)) → Rests (pool.thread thread) ∧
      submitStep argument pool submit = some (pool.proceed submit (.claiming thread))
  refused : ∀ submit, pool.submit submit = .refusing → ∀ thread, ¬ Rests (pool.thread thread)

/-- In every run in which no thread is claimed on its way back to the list, the resting
threads stand first in the list, but for a claimed one that is about to be moved behind
them; a submit takes a resting thread whenever some thread of the pool rests, and is
refused only when none does.

Proof: a thread that is done moves itself in front of all others while nobody else
moves, and a submit moves the one it took behind them. -/
theorem resting_threads_serve (argument : σ → Arg) {pool : Pool ι σ Arg}
    (reached : (working argument).ReachedUnder Unhurried pool) : Serves argument pool := by
  have ordered : Ordered pool := by
    apply reached.invariant
    · intro start fresh
      exact fresh_ordered argument fresh
    · intro before action after held unhurried taken
      exact perform_ordered held unhurried taken
  refine ⟨ordered.inOrder, ?_, ordered.refused⟩
  intro submit thread place resting
  obtain ⟨other, rests⟩ := resting
  have first := ordered.first_rests place rests
  refine ⟨first, ?_⟩
  rw [submitStep, place]
  simp only [if_pos first.1]

end Submits

/-- A fresh pool of two threads. -/
def pair : Pool Bool (Fin 4) Nat where
  spinlock := none
  order := [false, true]
  thread _ := ⟨none, .idle, none, 0, .locking⟩
  submit _ := .entering
  ran := []

/-- Two submits take the two threads, and a third is about to be refused. -/
def twoTaken : List (ThreadPool.Action Bool (Fin 4)) :=
  List.replicate 9 (.submit 0) ++ List.replicate 9 (.submit 1) ++ List.replicate 3 (.submit 2)

theorem pair_starts : (working (fun _ : Fin 4 => 7)).start pair :=
  ⟨rfl, by decide, by decide, by decide, fun _ => ⟨0, rfl⟩, fun _ => rfl, rfl⟩

theorem pair_serves : Serves (fun _ => 7)
    ((System.follow (perform fun _ => 7) Unhurried pair twoTaken).get (by decide)) :=
  resting_threads_serve _
    (System.followed_reached twoTaken (.initial pair pair_starts) (by decide))

/-- The first thread is claimed again on its way back, and its move then hides the
other one, which rests. -/
def hurried : List (ThreadPool.Action Bool (Fin 4)) :=
  List.replicate 9 (.submit 0) ++ List.replicate 7 (.thread false) ++
    List.replicate 8 (.submit 1) ++ List.replicate 8 (.submit 2) ++
    List.replicate 10 (.thread true) ++ List.replicate 3 (.thread false) ++
    List.replicate 3 (.submit 3)

example : (System.follow (perform fun _ => 7) (fun _ _ => True) pair hurried).any (fun pool =>
    pool.submit 3 = .refusing ∧ Rests (pool.thread true)) = true := by decide

end Emilib.PoolOrder
