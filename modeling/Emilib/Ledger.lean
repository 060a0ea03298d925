import Mathlib.Data.List.Basic
import Mathlib.Data.List.Perm.Basic

/-!
# Blocks that are allocated and freed

A ledger records which blocks were allocated, which of them were freed, and which
are live. It carries the proof that these add up, so along any run a block that is
no longer live was freed as often as it was allocated. An address that is freed
while no live block has it is kept apart as stray: the program that frees it is
wrong, and the ledger goes on without it.
-/

namespace Emilib

/-- The blocks allocated, freed and live, and the stray addresses, latest first. -/
structure Ledger (α : Type) where
  live : List α
  allocated : List α
  freed : List α
  stray : List α
  balanced : allocated.Perm (freed ++ live)

namespace Ledger

variable {α : Type}

/-- No block was allocated yet. -/
def empty : Ledger α := ⟨[], [], [], [], List.Perm.nil⟩

/-- A new block. -/
def allocate (ledger : Ledger α) (block : α) : Ledger α where
  live := block :: ledger.live
  allocated := block :: ledger.allocated
  freed := ledger.freed
  stray := ledger.stray
  balanced := (ledger.balanced.cons block).trans List.perm_middle.symm

/-- Every block was freed exactly once, and nothing else was freed. -/
def Settled (ledger : Ledger α) : Prop :=
  ledger.stray = [] ∧ ledger.freed.Perm ledger.allocated

/-- A ledger is settled when nothing is live and nothing was stray. -/
theorem settled_iff (ledger : Ledger α) :
    ledger.Settled ↔ ledger.stray = [] ∧ ledger.live = [] := by
  constructor
  · rintro ⟨honest, returned⟩
    have counted := ledger.balanced.length_eq
    rw [List.length_append, returned.length_eq.symm] at counted
    exact ⟨honest, List.length_eq_zero_iff.mp (by omega)⟩
  · rintro ⟨honest, none⟩
    have balanced := ledger.balanced
    rw [none, List.append_nil] at balanced
    exact ⟨honest, balanced.symm⟩

variable [DecidableEq α]

/-- Free the block at an address. -/
def free (ledger : Ledger α) (block : α) : Ledger α :=
  if member : block ∈ ledger.live then
    { ledger with
      live := ledger.live.erase block
      freed := block :: ledger.freed
      balanced := by
        have taken := (List.perm_cons_erase member).append_left ledger.freed
        exact (ledger.balanced.trans taken).trans List.perm_middle }
  else { ledger with stray := block :: ledger.stray }

/-- Freeing the only live block leaves none. -/
theorem free_only {ledger : Ledger α} {block : α} (only : ledger.live = [block]) :
    (ledger.free block).live = [] ∧ (ledger.free block).stray = ledger.stray := by
  have member : block ∈ ledger.live := by
    rw [only]
    exact List.mem_singleton_self block
  rw [free, dif_pos member]
  exact ⟨by simp [only], rfl⟩

/-- When freeing a block leaves nothing live and nothing stray, it was the only one. -/
theorem free_last {ledger : Ledger α} {block : α} (honest : (ledger.free block).stray = [])
    (none : (ledger.free block).live = []) : ledger.live = [block] := by
  rw [free] at honest none
  split at none
  case isTrue member =>
    have rest : ledger.live.erase block = [] := none
    have taken := List.perm_cons_erase member
    rw [rest] at taken
    exact List.perm_singleton.mp taken
  case isFalse dead =>
    rw [dif_neg dead] at honest
    cases honest

/-- Freeing the block allocated last takes the ledger back, as far as live blocks go. -/
theorem free_allocate (ledger : Ledger α) (block : α) :
    ((ledger.allocate block).free block).live = ledger.live ∧
      ((ledger.allocate block).free block).stray = ledger.stray := by
  have member : block ∈ (ledger.allocate block).live := List.mem_cons_self
  rw [free, dif_pos member]
  exact ⟨List.erase_cons_head block ledger.live, rfl⟩

end Ledger

end Emilib
