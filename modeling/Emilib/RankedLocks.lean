import Mathlib.Data.Set.Finite.Basic
import Mathlib.Order.Preorder.Finite
import Emilib.Runs

/-!
# Locks that are taken in the order of a rank

Threads take and give back locks, alone or together with other readers. What a thread
does in between is left out, and so is the reason why it takes one lock or another: a
thread is given some list of operations, which it performs one by one. A thread that has
work left may be given more, which it does first, as for an interrupt; it then still
holds the locks it held.

A list keeps the order when every lock it takes ranks above all those held at that
point, and every lock it gives back is held. As long as all lists do, some thread can
always go on. A thread that waits at a lock of the highest rank waits for a thread that
cannot be waiting.
-/

namespace Emilib.RankedLocks

/-- Alone, or together with other readers. -/
inductive Mode where
  | exclusive
  | shared
deriving DecidableEq, Repr

/-- Taking a lock, or giving it back. -/
inductive Op (ℓ : Type) where
  | acquire (lock : ℓ) (mode : Mode)
  | release (lock : ℓ)
deriving DecidableEq, Repr

/-- Who holds each lock, and what each thread has left to do. -/
structure Crew (ι ℓ : Type) where
  holders : ℓ → List (ι × Mode)
  rest : ι → List (Op ℓ)

/-- Work for a thread, before what it has left to do, or the next operation of a thread. -/
inductive Action (ι ℓ : Type) where
  | begin (thread : ι) (ops : List (Op ℓ))
  | step (thread : ι)

variable {ι ℓ : Type}

/-- A lock can be taken when nobody has it, and by a reader when only readers do. -/
def Admits (holders : List (ι × Mode)) (mode : Mode) : Prop :=
  ∀ holder ∈ holders, holder.2 = .shared ∧ mode = .shared

instance (holders : List (ι × Mode)) (mode : Mode) : Decidable (Admits holders mode) :=
  inferInstanceAs (Decidable (∀ holder ∈ holders, _ ∧ _))

/-- The locks a thread holds. -/
def Crew.held (crew : Crew ι ℓ) (thread : ι) : Set ℓ :=
  {lock | ∃ mode, (thread, mode) ∈ crew.holders lock}

section Steps

variable [DecidableEq ι] [DecidableEq ℓ]

/-- The step an action names, if it can be taken. -/
def perform (crew : Crew ι ℓ) : Action ι ℓ → Option (Crew ι ℓ)
  | .begin thread ops =>
      some { crew with rest := Function.update crew.rest thread (ops ++ crew.rest thread) }
  | .step thread =>
      match crew.rest thread with
      | [] => none
      | .acquire lock mode :: rest =>
          if Admits (crew.holders lock) mode then
            some {
              holders := Function.update crew.holders lock
                ((thread, mode) :: crew.holders lock)
              rest := Function.update crew.rest thread rest }
          else none
      | .release lock :: rest =>
          some {
            holders := Function.update crew.holders lock
              ((crew.holders lock).filter fun holder => holder.1 ≠ thread)
            rest := Function.update crew.rest thread rest }

/-- The runs of threads that begin with nothing to do. -/
def running : System (Crew ι ℓ) (Action ι ℓ) :=
  System.performing (fun crew => (∀ lock, crew.holders lock = []) ∧ ∀ thread, crew.rest thread = [])
    perform

end Steps

/-- The operations keep the order of the ranks, for a thread that holds these locks. -/
def Ordered (rank : ℓ → Nat) : Set ℓ → List (Op ℓ) → Prop
  | held, [] => held = ∅
  | held, .acquire lock _ :: rest =>
      (∀ other ∈ held, rank other < rank lock) ∧ Ordered rank (insert lock held) rest
  | held, .release lock :: rest => lock ∈ held ∧ Ordered rank (held \ {lock}) rest

/-- Only work that keeps the order is begun, also with the locks its thread holds. -/
def BeginsOrdered (rank : ℓ → Nat) (crew : Crew ι ℓ) : Action ι ℓ → Prop
  | .begin thread ops => Ordered rank (crew.held thread) (crew.rest thread) →
      Ordered rank (crew.held thread) (ops ++ crew.rest thread)
  | .step _ => True

/-- The invariant of such runs. -/
structure Disciplined (rank : ℓ → Nat) (crew : Crew ι ℓ) : Prop where
  ordered : ∀ thread, Ordered rank (crew.held thread) (crew.rest thread)
  finite : {thread | crew.rest thread ≠ []}.Finite

/-- Giving one thread a new list leaves finitely many with work. -/
theorem finite_update [DecidableEq ι] {crew : Crew ι ℓ}
    (finite : {thread | crew.rest thread ≠ []}.Finite) (thread : ι) (ops : List (Op ℓ)) :
    {other | Function.update crew.rest thread ops other ≠ []}.Finite := by
  apply (finite.insert thread).subset
  intro other working
  rcases eq_or_ne other thread with rfl | different
  · exact Set.mem_insert ..
  · exact Set.mem_insert_of_mem _ (by simpa [different] using working)

section Steps

variable [DecidableEq ι] [DecidableEq ℓ] {rank : ℓ → Nat}

/-- Taking a lock adds it to those its thread holds. -/
theorem held_acquire (crew : Crew ι ℓ) (thread other : ι) (lock : ℓ) (mode : Mode)
    (rest : ι → List (Op ℓ)) :
    Crew.held ⟨Function.update crew.holders lock ((thread, mode) :: crew.holders lock), rest⟩
      other = if other = thread then insert lock (crew.held thread) else crew.held other := by
  ext place
  by_cases here : place = lock
  · subst here
    by_cases same : other = thread
    · simp [Crew.held, same]
    · simp [Crew.held, same]
  · by_cases same : other = thread
    · simp [Crew.held, here, same]
    · simp [Crew.held, here, same]

/-- Giving a lock back removes it from those its thread holds. -/
theorem held_release (crew : Crew ι ℓ) (thread other : ι) (lock : ℓ)
    (rest : ι → List (Op ℓ)) :
    Crew.held ⟨Function.update crew.holders lock
      ((crew.holders lock).filter fun holder => holder.1 ≠ thread), rest⟩ other =
      if other = thread then crew.held thread \ {lock} else crew.held other := by
  ext place
  by_cases here : place = lock
  · subst here
    by_cases same : other = thread
    · simp [Crew.held, same]
    · simp [Crew.held, same]
  · by_cases same : other = thread
    · simp [Crew.held, here, same]
    · simp [Crew.held, here, same]

/-- Every step keeps the discipline if only ordered work is begun. -/
theorem perform_disciplined {crew after : Crew ι ℓ} {action : Action ι ℓ}
    (disciplined : Disciplined rank crew) (begins : BeginsOrdered rank crew action)
    (taken : perform crew action = some after) : Disciplined rank after := by
  cases action with
  | begin thread ops =>
    obtain rfl := Option.some.inj taken
    refine ⟨fun other => ?_, finite_update disciplined.finite thread _⟩
    change Ordered rank (crew.held other)
      (Function.update crew.rest thread (ops ++ crew.rest thread) other)
    rcases eq_or_ne other thread with rfl | different
    · rw [Function.update_self]
      exact begins (disciplined.ordered other)
    · rw [Function.update_of_ne different]
      exact disciplined.ordered other
  | step thread =>
    rw [perform] at taken
    have own := disciplined.ordered thread
    cases work : crew.rest thread with
    | nil =>
      simp only [work] at taken
      cases taken
    | cons op rest =>
      rw [work] at own
      have kept (held : ι → Set ℓ) (mine : Ordered rank (held thread) rest)
          (others : ∀ other, other ≠ thread → held other = crew.held other) (other : ι) :
          Ordered rank (held other) (Function.update crew.rest thread rest other) := by
        rcases eq_or_ne other thread with rfl | different
        · rwa [Function.update_self]
        · rw [Function.update_of_ne different, others other different]
          exact disciplined.ordered other
      cases op with
      | acquire lock mode =>
        simp only [work] at taken
        obtain ⟨_, taken⟩ := Option.ite_none_right_eq_some.mp taken
        obtain rfl := Option.some.inj taken
        refine ⟨kept _ ?_ ?_, finite_update disciplined.finite thread rest⟩
        · rw [held_acquire, if_pos rfl]
          exact own.2
        · intro other different
          rw [held_acquire, if_neg different]
      | release lock =>
        simp only [work] at taken
        obtain rfl := Option.some.inj taken
        refine ⟨kept _ ?_ ?_, finite_update disciplined.finite thread rest⟩
        · rw [held_release, if_pos rfl]
          exact own.2
        · intro other different
          rw [held_release, if_neg different]

/-- A thread that cannot go on waits for a lock, which somebody holds. -/
theorem blocked_waits {crew : Crew ι ℓ} {thread : ι} (working : crew.rest thread ≠ [])
    (blocked : perform crew (.step thread) = none) :
    ∃ lock mode rest holder, crew.rest thread = .acquire lock mode :: rest ∧
      lock ∈ crew.held holder := by
  rw [perform] at blocked
  cases work : crew.rest thread with
  | nil => exact absurd work working
  | cons op rest =>
    cases op with
    | release lock =>
      simp only [work] at blocked
      cases blocked
    | acquire lock mode =>
      simp only [work] at blocked
      have refused : ¬ Admits (crew.holders lock) mode := by
        intro admitted
        rw [if_pos admitted] at blocked
        cases blocked
      obtain ⟨holder, refused⟩ := not_forall.mp refused
      obtain ⟨member, _⟩ := Classical.not_imp.mp refused
      exact ⟨lock, mode, rest, holder.1, rfl, holder.2, member⟩

/-- As long as somebody has work, somebody can go on.

Proof: of the threads with work take one that waits at a lock of the highest rank. The
holder of that lock has work left, and what it waits for would rank higher. -/
theorem Disciplined.goes_on {crew : Crew ι ℓ} (disciplined : Disciplined rank crew) {worker : ι}
    (working : crew.rest worker ≠ []) :
    ∃ thread after, perform crew (.step thread) = some after := by
  by_contra nobody
  have blocked (thread : ι) : perform crew (.step thread) = none := by
    by_contra goes
    obtain ⟨after, taken⟩ := Option.ne_none_iff_exists'.mp goes
    exact nobody ⟨thread, after, taken⟩
  let next (thread : ι) : Nat :=
    match crew.rest thread with
    | .acquire lock _ :: _ => rank lock
    | .release _ :: _ | [] => 0
  obtain ⟨highest, busy, maximal⟩ :=
    disciplined.finite.exists_maximalFor next _ ⟨worker, working⟩
  obtain ⟨lock, mode, rest, holder, work, held⟩ := blocked_waits busy (blocked highest)
  have theirs := disciplined.ordered holder
  have unfinished : crew.rest holder ≠ [] := by
    intro none
    rw [none, Ordered] at theirs
    rw [theirs] at held
    exact held
  obtain ⟨above, otherMode, later, _, waits, _⟩ := blocked_waits unfinished (blocked holder)
  rw [waits] at theirs
  have higher : rank lock < rank above := theirs.1 lock held
  have bound : next highest ≤ next holder → next holder ≤ next highest := maximal unfinished
  simp only [next, waits, work] at bound
  omega

/-- In every run of ordered work somebody can go on as long as somebody has work. -/
theorem ordered_goes_on {crew : Crew ι ℓ}
    (reached : running.ReachedUnder (BeginsOrdered rank) crew) {worker : ι}
    (working : crew.rest worker ≠ []) :
    ∃ thread after, perform crew (.step thread) = some after := by
  have disciplined : Disciplined rank crew := by
    apply reached.invariant
    · rintro start ⟨free, idle⟩
      refine ⟨fun thread => ?_, by simp [idle]⟩
      rw [idle thread, Ordered]
      ext lock
      simp [Crew.held, free]
    · intro before action after disciplined begins taken
      exact perform_disciplined disciplined begins taken
  exact disciplined.goes_on working

end Steps

/-- Operations that leave every set of locks below a bound as they found it, and keep
the order meanwhile. -/
def Block (rank : ℓ → Nat) (bound : Nat) (ops : List (Op ℓ)) : Prop :=
  ∀ held : Set ℓ, (∀ lock ∈ held, rank lock < bound) → ∀ rest, Ordered rank held rest →
    Ordered rank held (ops ++ rest)

variable {rank : ℓ → Nat}

theorem Block.nil (bound : Nat) : Block rank bound [] := fun _ _ _ ordered => ordered

theorem Block.append {bound : Nat} {first second : List (Op ℓ)} (one : Block rank bound first)
    (two : Block rank bound second) : Block rank bound (first ++ second) := by
  intro held below rest ordered
  rw [List.append_assoc]
  exact one held below _ (two held below rest ordered)

theorem Block.flatten {bound : Nat} {blocks : List (List (Op ℓ))}
    (each : ∀ block ∈ blocks, Block rank bound block) : Block rank bound blocks.flatten := by
  induction blocks with
  | nil => exact Block.nil bound
  | cons first others inductionHypothesis =>
    obtain ⟨one, rest⟩ := List.forall_mem_cons.mp each
    exact one.append (inductionHypothesis rest)

/-- A block inside a lock of at least the bound, which ranks below what is inside. -/
theorem Block.within {bound : Nat} {lock : ℓ} {inside : List (Op ℓ)} (high : bound ≤ rank lock)
    (block : Block rank (rank lock + 1) inside) (mode : Mode) :
    Block rank bound (.acquire lock mode :: inside ++ [.release lock]) := by
  intro held below rest ordered
  have fresh : lock ∉ held := fun member => by
    have lower := below lock member
    omega
  refine ⟨fun other member => Nat.lt_of_lt_of_le (below other member) high, ?_⟩
  change Ordered rank (insert lock held) ((inside ++ [.release lock]) ++ rest)
  rw [List.append_assoc]
  apply block
  · intro other member
    rcases Set.mem_insert_iff.mp member with rfl | member
    · exact Nat.lt_succ_self _
    · have lower := below other member
      omega
  · refine ⟨Set.mem_insert .., ?_⟩
    rw [Set.insert_sdiff_self_of_notMem fresh]
    exact ordered

/-- A block of a higher bound is one of a lower bound. -/
theorem Block.lower {low high : Nat} {ops : List (Op ℓ)} (block : Block rank high ops)
    (below : low ≤ high) : Block rank low ops :=
  fun held small => block held fun lock member => Nat.lt_of_lt_of_le (small lock member) below

/-- A block may be begun by a thread without work. -/
theorem Block.fresh {bound : Nat} {ops : List (Op ℓ)} (block : Block rank bound ops)
    {crew : Crew ι ℓ} {thread : ι} (idle : crew.rest thread = []) :
    BeginsOrdered rank crew (.begin thread ops) := by
  intro ordered
  rw [idle] at ordered ⊢
  have none : crew.held thread = ∅ := ordered
  exact block (crew.held thread) (by simp [none]) [] ordered

/-- A block may be begun by a thread that holds only locks below its bound. -/
theorem Block.begins {bound : Nat} {ops : List (Op ℓ)} (block : Block rank bound ops)
    {crew : Crew ι ℓ} {thread : ι} (below : ∀ lock ∈ crew.held thread, rank lock < bound) :
    BeginsOrdered rank crew (.begin thread ops) :=
  block (crew.held thread) below (crew.rest thread)

end Emilib.RankedLocks
