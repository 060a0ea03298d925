import Mathlib.Algebra.Order.Ring.Int
import Mathlib.Data.List.Perm.Subperm

/-!
# Counting parties down to zero

A counter starts at the number of expected parties and is decremented once for
each of them, by the party itself or by somebody on its behalf. The counter is a
machine word, so it wraps. Beside it stands the list of the parties subtracted
so far, which no program stores.

The tally is balanced when only expected parties were subtracted, each once. A
balanced tally stays balanced as long as nobody is subtracted again, and it
reads zero only when everybody has been subtracted.
-/

namespace Emilib.CountDown

variable {width : Nat} {α : Type}

/-- A counter and the parties it was decremented for, latest first. -/
structure Tally (width : Nat) (α : Type) where
  count : BitVec width
  subtracted : List α

/-- The counter after one increment for each party. -/
def countUp : List α → BitVec width → BitVec width
  | [], count => count
  | _ :: rest, count => countUp rest (count + 1)

/-- One decrement, for this party. -/
def Tally.subtract (tally : Tally width α) (party : α) : Tally width α :=
  ⟨tally.count - 1, party :: tally.subtracted⟩

/-- Only expected parties were subtracted, each at most once, and the counter
reads how many remain. -/
structure Balanced (expected : List α) (tally : Tally width α) : Prop where
  once : tally.subtracted.Nodup
  among : tally.subtracted ⊆ expected
  remaining : tally.count.toNat + tally.subtracted.length = expected.length

instance [DecidableEq α] (expected : List α) (tally : Tally width α) :
    Decidable (Balanced expected tally) :=
  decidable_of_iff (tally.subtracted.Nodup ∧ (∀ party ∈ tally.subtracted, party ∈ expected) ∧
      tally.count.toNat + tally.subtracted.length = expected.length)
    ⟨fun ⟨once, among, remaining⟩ => ⟨once, fun _ member => among _ member, remaining⟩,
      fun balanced => ⟨balanced.once, fun _ member => balanced.among member, balanced.remaining⟩⟩

theorem countUp_exact (parties : List α) (count : BitVec width) :
    countUp parties count = count + BitVec.ofNat width parties.length := by
  induction parties generalizing count with
  | nil => simp [countUp]
  | cons party rest inductionHypothesis =>
    rw [countUp, inductionHypothesis, List.length_cons, BitVec.ofNat_add, BitVec.add_assoc]
    congr 1
    exact BitVec.add_comm _ _

/-- Counting fewer parties than the counter has values loses none. -/
theorem countUp_toNat (parties : List α) (few : parties.length < 2 ^ width) :
    (countUp parties (0 : BitVec width)).toNat = parties.length := by
  simp [countUp_exact, Nat.mod_eq_of_lt few]

/-- Before the first decrement the tally is balanced. -/
theorem balanced_start (expected : List α) (few : expected.length < 2 ^ width) :
    Balanced expected (⟨countUp expected 0, []⟩ : Tally width α) where
  once := List.nodup_nil
  among := List.nil_subset _
  remaining := countUp_toNat expected few

variable {expected : List α} {tally : Tally width α}

/-- A party that was not subtracted before can be. -/
theorem Balanced.subtract (balanced : Balanced expected tally) {party : α}
    (member : party ∈ expected) (fresh : party ∉ tally.subtracted) :
    Balanced expected (tally.subtract party) := by
  have once : (party :: tally.subtracted).Nodup := List.nodup_cons.mpr ⟨fresh, balanced.once⟩
  have among : party :: tally.subtracted ⊆ expected := List.cons_subset.mpr ⟨member, balanced.among⟩
  have enough : (party :: tally.subtracted).length ≤ expected.length :=
    (List.subperm_of_subset once among).length_le
  refine ⟨once, among, ?_⟩
  have remaining := balanced.remaining
  rw [List.length_cons] at enough
  have positive : 1 ≤ tally.count.toNat := by omega
  have wide : 0 < width := by
    rcases Nat.eq_zero_or_pos width with rfl | wide
    · have := tally.count.isLt
      omega
    · exact wide
  have decremented : (tally.count - 1).toNat = tally.count.toNat - 1 := by
    have one : (1 : BitVec width).toNat = 1 := by
      simp [Nat.mod_eq_of_lt (Nat.one_lt_two_pow (Nat.ne_of_gt wide))]
    rw [BitVec.toNat_sub_of_le (by rw [BitVec.le_def, one]; exact positive), one]
  simp only [Tally.subtract, decremented, List.length_cons]
  omega

/-- One decrement for each of these parties in turn. -/
def Tally.subtractAll (tally : Tally width α) : List α → Tally width α
  | [] => tally
  | party :: rest => (tally.subtract party).subtractAll rest

theorem subtractAll_subtracted (tally : Tally width α) (parties : List α) :
    (tally.subtractAll parties).subtracted = parties.reverse ++ tally.subtracted := by
  induction parties generalizing tally with
  | nil => rfl
  | cons party rest inductionHypothesis =>
    rw [Tally.subtractAll, inductionHypothesis, List.reverse_cons, List.append_assoc]
    rfl

theorem mem_subtractAll (tally : Tally width α) (parties : List α) (party : α) :
    party ∈ (tally.subtractAll parties).subtracted ↔
      party ∈ parties ∨ party ∈ tally.subtracted := by
  rw [subtractAll_subtracted, List.mem_append, List.mem_reverse]

/-- Distinct parties that were not subtracted before can all be. -/
theorem Balanced.subtractAll {parties : List α} (balanced : Balanced expected tally)
    (distinct : parties.Nodup)
    (fresh : ∀ party ∈ parties, party ∈ expected ∧ party ∉ tally.subtracted) :
    Balanced expected (tally.subtractAll parties) := by
  induction parties generalizing tally with
  | nil => exact balanced
  | cons party rest inductionHypothesis =>
    obtain ⟨absent, distinctRest⟩ := List.nodup_cons.mp distinct
    obtain ⟨member, unsubtracted⟩ := fresh party List.mem_cons_self
    refine inductionHypothesis (balanced.subtract member unsubtracted) distinctRest ?_
    intro other rested
    obtain ⟨expected, before⟩ := fresh other (List.mem_cons_of_mem party rested)
    have different : other ≠ party := fun same => absent (same ▸ rested)
    exact ⟨expected, by simp [Tally.subtract, different, before]⟩

/-- A balanced tally reads zero only when everybody has been subtracted. -/
theorem Balanced.settled (balanced : Balanced expected tally) (zero : tally.count = 0)
    {party : α} (member : party ∈ expected) : party ∈ tally.subtracted := by
  have remaining := balanced.remaining
  simp only [zero, BitVec.ofNat_eq_ofNat, BitVec.toNat_ofNat, Nat.zero_mod, Nat.zero_add]
    at remaining
  have all := (List.subperm_of_subset balanced.once balanced.among).perm_of_length_le
    (Nat.le_of_eq remaining.symm)
  exact all.mem_iff.mpr member

/-- A balanced tally that does not read zero leaves somebody to subtract. -/
theorem Balanced.outstanding (balanced : Balanced expected tally) (distinct : expected.Nodup)
    (nonzero : tally.count ≠ 0) : ∃ party ∈ expected, party ∉ tally.subtracted := by
  by_contra nobody
  have covered : expected ⊆ tally.subtracted := fun party member => by
    by_contra fresh
    exact nobody ⟨party, member, fresh⟩
  have enough := (List.subperm_of_subset distinct covered).length_le
  have remaining := balanced.remaining
  apply nonzero
  apply BitVec.eq_of_toNat_eq
  simp only [BitVec.ofNat_eq_ofNat, BitVec.toNat_ofNat, Nat.zero_mod]
  omega

/-- A decrement that keeps the tally balanced does not wrap. -/
theorem Balanced.lower {party : α} (balanced : Balanced expected tally)
    (after : Balanced expected (tally.subtract party)) :
    (tally.subtract party).count.toNat < tally.count.toNat := by
  have before := balanced.remaining
  have remaining := after.remaining
  have longer : (tally.subtract party).subtracted.length = tally.subtracted.length + 1 := rfl
  omega

/-- Whoever is subtracted again unbalances the tally. -/
theorem subtract_again {party : α} (again : party ∈ tally.subtracted) :
    ¬ Balanced expected (tally.subtract party) :=
  fun balanced => (List.nodup_cons.mp balanced.once).1 again

/-- Parties whose subtraction leaves a balanced tally were expected and had not
been subtracted. -/
theorem subtractAll_fresh {parties : List α}
    (balanced : Balanced expected (tally.subtractAll parties)) {party : α}
    (member : party ∈ parties) :
    party ∈ expected ∧ party ∉ tally.subtracted := by
  have once := balanced.once
  rw [subtractAll_subtracted] at once
  obtain ⟨_, _, apart⟩ := List.nodup_append.mp once
  exact ⟨balanced.among ((mem_subtractAll tally parties party).mpr (.inl member)),
    fun before => apart party (List.mem_reverse.mpr member) party before rfl⟩

end Emilib.CountDown
