import Mathlib.Logic.Function.Basic
import Emilib.Runs
import Emilib.SharedBlocks

/-!
# The slot through which a process receives messages

A worker hands a message to a process by storing its offset in `pididx[pid]` and
sending SIGUSR2. The signal handler reads the slot, sets it to zero and submits
the message; the worker waits for the zero. `pididx_lock[pid]` keeps the workers
apart, but the register path initializes that same mutex, for every message the
process registers.

This is the state of one process and of the workers that deal with it, of which
there may be any number. SIGUSR2 is a standard signal, so a second one is not
queued behind a pending one, and handler runs of two threads may overlap. A
mutex is unlocked after its initialization, whoever held it, and after an unlock
by any worker. The lock of the message table is left out, which only adds
interleavings. When the process exits, its pending signal and its handler runs
disappear.
-/

namespace Emilib.DeliverySlot

open SharedBlocks

/-- `nth`: the offset of a message from the base of the arena. -/
def nth (message : Extent) : BitVec 32 := message.address.setWidth 32

/-- Where a worker is. From `storing` to `unlocking` it has locked the mutex and
not unlocked it. -/
inductive Place where
  | idle
  | locking (message : Extent)
  | storing (message : Extent)
  | killing
  | clearing
  | spinning
  | unlocking
  | registering
deriving DecidableEq

/-- The shared words of one process, its signal and handler runs, and the places
of the workers. `entered` counts the handler runs that have not read the slot,
and `taken` holds what the others have read and not yet submitted. `unread` says
that no run has read the slot since an offset was stored for the live process;
`lost` collects the offsets replaced while unread. -/
structure Delivery (ι : Type) where
  locked : Bool
  slot : BitVec 32
  alive : Bool
  pending : Bool
  entered : Nat
  taken : List (BitVec 32)
  submitted : List (BitVec 32)
  place : ι → Place
  unread : Bool
  lost : List (BitVec 32)

variable {ι : Type}

section Steps

variable [DecidableEq ι]

def Delivery.moveTo (delivery : Delivery ι) (worker : ι) (place : Place) : Delivery ι :=
  { delivery with place := Function.update delivery.place worker place }

/-- A store to the slot. -/
def Delivery.put (delivery : Delivery ι) (value : BitVec 32) (unread : Bool) : Delivery ι :=
  { delivery with
    slot := value
    unread := unread
    lost := if delivery.unread then delivery.slot :: delivery.lost else delivery.lost }

/-- The next step of a worker, if it can take one. -/
def work (delivery : Delivery ι) (worker : ι) : Option (Delivery ι) :=
  match delivery.place worker with
  | .idle => none
  | .locking message =>
      if delivery.locked then none
      else some ({ delivery with locked := true }.moveTo worker (.storing message))
  | .storing message =>
      some ((delivery.put (nth message) delivery.alive).moveTo worker .killing)
  | .killing =>
      if delivery.alive then some ({ delivery with pending := true }.moveTo worker .spinning)
      else some (delivery.moveTo worker .clearing)
  | .clearing => some ((delivery.put 0 false).moveTo worker .spinning)
  | .spinning => if delivery.slot = 0 then some (delivery.moveTo worker .unlocking) else none
  | .unlocking => some ({ delivery with locked := false }.moveTo worker .idle)
  | .registering => some ({ delivery with locked := false }.moveTo worker .idle)

/-- A step of a worker or of the process. -/
inductive Action (ι : Type) where
  | send (worker : ι) (message : Extent)
  | register (worker : ι)
  | work (worker : ι)
  | deliver
  | read
  | clear (value : BitVec 32)
  | exit
deriving DecidableEq

/-- The step an action names, if it can be taken. `deliver`, `read` and `clear`
are the steps of `func_sterotype`. -/
def perform (delivery : Delivery ι) : Action ι → Option (Delivery ι)
  | .send worker message =>
      if delivery.place worker = .idle then some (delivery.moveTo worker (.locking message))
      else none
  | .register worker =>
      if delivery.place worker = .idle then some (delivery.moveTo worker .registering)
      else none
  | .work worker => work delivery worker
  | .deliver =>
      if delivery.pending then
        some { delivery with pending := false, entered := delivery.entered + 1 }
      else none
  | .read =>
      if 0 < delivery.entered then
        some { delivery with
          entered := delivery.entered - 1
          taken := delivery.slot :: delivery.taken
          unread := false }
      else none
  | .clear value =>
      if value ∈ delivery.taken then
        some { delivery.put 0 false with
          taken := delivery.taken.erase value
          submitted := value :: delivery.submitted }
      else none
  | .exit =>
      some { delivery with
        alive := false, pending := false, entered := 0, taken := [], unread := false }

/-- A process that was started and has received nothing, and idle workers. -/
def fresh (ι : Type) : Delivery ι :=
  { locked := false, slot := 0, alive := true, pending := false, entered := 0, taken := []
    submitted := [], place := fun _ => .idle, unread := false, lost := [] }

/-- The runs of a process and of the workers that deal with it. -/
def deliveries (ι : Type) [DecidableEq ι] : System (Delivery ι) (Action ι) :=
  System.performing (fun delivery => delivery = fresh ι) perform

end Steps

/-- No offset stored for the live process was overwritten or cleared before a
handler run read it, and no handler run has read zero. -/
def HandedOver (delivery : Delivery ι) : Prop :=
  delivery.lost = [] ∧ 0 ∉ delivery.taken ∧ 0 ∉ delivery.submitted

instance (delivery : Delivery ι) : Decidable (HandedOver delivery) :=
  inferInstanceAs (Decidable (_ ∧ _ ∧ _))

/-- A worker that initializes the mutex finds it unlocked. -/
def InitializesUnlocked (delivery : Delivery ι) (action : Action ι) : Prop :=
  ∀ worker, action = .work worker → delivery.place worker = .registering → delivery.locked = false

instance (delivery : Delivery ι) (action : Action ι) :
    Decidable (InitializesUnlocked delivery action) :=
  match action with
  | .work worker => decidable_of_iff
      (delivery.place worker = .registering → delivery.locked = false)
      ⟨fun found other same => by cases same; exact found, fun found => found worker rfl⟩
  | .send .. | .register _ | .deliver | .read | .clear _ | .exit => .isTrue nofun

/-- No message lies at the base of the arena: the low byte of its offset is the
width of the index before the block. -/
theorem nth_nonzero (message : Extent) : nth message ≠ 0 := by
  intro zero
  have offset := congrArg BitVec.toNat zero
  simp only [nth, Extent.address, buddyShift, addrBufOffset, BitVec.toNat_setWidth,
    BitVec.toNat_ofNat, BitVec.ofNat_eq_ofNat] at offset
  omega

/-- How far the offset in the slot has come. It is abandoned when the process
exits before it has cleared the slot. -/
inductive Phase where
  | quiet
  | stored
  | signalled
  | entered
  | taken
  | abandoned
deriving DecidableEq

/-- The shared words, the signal and the handler runs are those of this phase. -/
def Fits (delivery : Delivery ι) : Phase → Prop
  | .quiet => delivery.slot = 0 ∧ delivery.unread = false ∧ delivery.pending = false ∧
      delivery.entered = 0 ∧ delivery.taken = []
  | .stored => delivery.slot ≠ 0 ∧ (delivery.alive = false → delivery.unread = false) ∧
      delivery.pending = false ∧ delivery.entered = 0 ∧ delivery.taken = []
  | .signalled => delivery.slot ≠ 0 ∧ delivery.pending = true ∧ delivery.entered = 0 ∧
      delivery.taken = []
  | .entered => delivery.slot ≠ 0 ∧ delivery.pending = false ∧ delivery.entered = 1 ∧
      delivery.taken = []
  | .taken => delivery.slot ≠ 0 ∧ delivery.unread = false ∧ delivery.pending = false ∧
      delivery.entered = 0 ∧ ∃ value, value ≠ 0 ∧ delivery.taken = [value]
  | .abandoned => delivery.alive = false ∧ delivery.unread = false ∧ delivery.pending = false ∧
      delivery.entered = 0 ∧ delivery.taken = []

/-- The worker has locked the mutex and not unlocked it. -/
def Place.Holds : Place → Prop
  | .storing _ | .killing | .clearing | .spinning | .unlocking => True
  | .idle | .locking _ | .registering => False

/-- The phases in which a worker can be at this place. -/
def Place.Suits (place : Place) (phase : Phase) : Prop :=
  match place with
  | .storing _ | .unlocking => phase = .quiet
  | .killing => phase = .stored
  | .clearing => phase = .abandoned
  | .spinning => phase ≠ .stored
  | .idle | .locking _ | .registering => True

/-- The invariant of the runs in which no held mutex is initialized. At most one
worker holds the mutex, the offset in the slot is its own, and its place says how
far the offset can have come. -/
structure Sound (delivery : Delivery ι) (phase : Phase) : Prop where
  fits : Fits delivery phase
  suits : ∀ worker, (delivery.place worker).Suits phase
  single : ∀ first second, (delivery.place first).Holds → (delivery.place second).Holds →
    first = second
  held : ∀ worker, (delivery.place worker).Holds → delivery.locked = true
  owned : phase ≠ .quiet → ∃ worker, (delivery.place worker).Holds
  kept : delivery.lost = []
  genuine : 0 ∉ delivery.submitted

/-- The delivery is in some phase. -/
def Orderly (delivery : Delivery ι) : Prop := ∃ phase, Sound delivery phase

theorem Place.suits_outside {place : Place} (outside : ¬ place.Holds) (phase : Phase) :
    place.Suits phase := by
  cases place with
  | idle | locking _ | registering => trivial
  | storing _ | killing | clearing | spinning | unlocking => exact absurd trivial outside

theorem fresh_sound : Sound (fresh ι) .quiet where
  fits := ⟨rfl, rfl, rfl, rfl, rfl⟩
  suits _ := trivial
  single _ _ holds := absurd holds id
  held _ holds := absurd holds id
  owned busy := absurd rfl busy
  kept := rfl
  genuine := List.not_mem_nil

/-- While an offset is on its way to the process, the worker that holds the mutex
spins, so the process can take the offset further. -/
theorem Sound.receive {delivery changed : Delivery ι} {phase next : Phase}
    (sound : Sound delivery phase)
    (underway : phase = .signalled ∨ phase = .entered ∨ phase = .taken)
    (places : changed.place = delivery.place) (locked : changed.locked = delivery.locked)
    (fits : Fits changed next) (further : next ≠ .stored) (kept : changed.lost = [])
    (genuine : 0 ∉ changed.submitted) : Sound changed next := by
  have busy : phase ≠ .quiet := by
    rcases underway with rfl | rfl | rfl <;> exact nofun
  refine ⟨fits, ?_, ?_, ?_, ?_, kept, genuine⟩
  · intro worker
    have suits := sound.suits worker
    rw [places]
    cases place : delivery.place worker with
    | idle | locking _ | registering => trivial
    | spinning => exact further
    | storing _ | killing | clearing | unlocking =>
      rw [place] at suits
      rcases underway with rfl | rfl | rfl <;> cases suits
  · rw [places]
    exact sound.single
  · rw [places, locked]
    exact sound.held
  · rw [places]
    exact fun _ => sound.owned busy

/-- A store into a slot that was read loses nothing. -/
theorem put_kept {delivery : Delivery ι} (read : delivery.unread = false) (value : BitVec 32)
    (unread : Bool) : (delivery.put value unread).lost = delivery.lost := by
  rw [Delivery.put, read]
  rfl

theorem exit_sound {delivery : Delivery ι} {phase : Phase} (sound : Sound delivery phase) :
    Orderly { delivery with
      alive := false, pending := false, entered := 0, taken := [], unread := false } := by
  cases phase with
  | quiet => exact ⟨.quiet, { sound with fits := ⟨sound.fits.1, rfl, rfl, rfl, rfl⟩ }⟩
  | stored => exact ⟨.stored, { sound with fits := ⟨sound.fits.1, fun _ => rfl, rfl, rfl, rfl⟩ }⟩
  | abandoned => exact ⟨.abandoned, { sound with fits := ⟨rfl, rfl, rfl, rfl, rfl⟩ }⟩
  | signalled | entered | taken =>
    exact ⟨.abandoned, sound.receive (by simp) rfl rfl ⟨rfl, rfl, rfl, rfl, rfl⟩ nofun sound.kept
      sound.genuine⟩

/-- Handler runs hold offsets only while the offset in the slot is taken. -/
theorem Sound.vacant {delivery : Delivery ι} {phase : Phase} (sound : Sound delivery phase)
    (other : phase ≠ .taken) : delivery.taken = [] := by
  have fits := sound.fits
  cases phase with
  | taken => exact absurd rfl other
  | quiet => exact fits.2.2.2.2
  | stored => exact fits.2.2.2.2
  | signalled => exact fits.2.2.2
  | entered => exact fits.2.2.2
  | abandoned => exact fits.2.2.2.2

theorem Sound.handedOver {delivery : Delivery ι} {phase : Phase} (sound : Sound delivery phase) :
    HandedOver delivery := by
  refine ⟨sound.kept, ?_, sound.genuine⟩
  have fits := sound.fits
  cases phase with
  | taken =>
    obtain ⟨_, _, _, _, value, nonzero, holds⟩ := fits
    rw [holds, List.mem_singleton]
    exact nonzero.symm
  | quiet | stored | signalled | entered | abandoned =>
    rw [sound.vacant nofun]
    exact List.not_mem_nil

section Runs

variable [DecidableEq ι]

/-- A worker outside its hold on the mutex can go to another place outside. -/
theorem Sound.outside {delivery : Delivery ι} {phase : Phase} (sound : Sound delivery phase)
    {worker : ι} (before : ¬ (delivery.place worker).Holds) {place : Place}
    (after : ¬ place.Holds) :
    Sound (delivery.moveTo worker place) phase := by
  have holder (other : ι) (holds : ((delivery.moveTo worker place).place other).Holds) :
      (delivery.place other).Holds := by
    rcases eq_or_ne other worker with rfl | different
    · exact absurd (by simpa [Delivery.moveTo] using holds) after
    · simpa [Delivery.moveTo, different] using holds
  refine { sound with suits := ?_, single := ?_, held := ?_, owned := ?_ }
  · intro other
    rcases eq_or_ne other worker with rfl | different
    · simpa [Delivery.moveTo] using Place.suits_outside after phase
    · simpa [Delivery.moveTo, different] using sound.suits other
  · exact fun first second one two =>
      sound.single first second (holder first one) (holder second two)
  · exact fun other holds => sound.held other (holder other holds)
  · intro busy
    obtain ⟨other, holds⟩ := sound.owned busy
    have different : other ≠ worker := fun same => before (same ▸ holds)
    exact ⟨other, by simpa [Delivery.moveTo, different] using holds⟩

/-- The only worker with a hold on the mutex changes the shared words and goes to
another place, which suits the phase it leaves behind. -/
theorem Sound.hold {delivery : Delivery ι} {phase : Phase} (sound : Sound delivery phase)
    (changed : Delivery ι) (place : Place) (next : Phase) {worker : ι}
    (alone : ∀ other, (delivery.place other).Holds → other = worker)
    (places : changed.place = delivery.place) (fits : Fits changed next)
    (suits : place.Suits next) (locked : place.Holds → changed.locked = true)
    (owned : next ≠ .quiet → place.Holds) (kept : changed.lost = [])
    (submitted : changed.submitted = delivery.submitted) :
    Sound (changed.moveTo worker place) next := by
  have holder (other : ι) (holds : ((changed.moveTo worker place).place other).Holds) :
      other = worker := by
    by_contra different
    refine different (alone other ?_)
    simpa [Delivery.moveTo, places, different] using holds
  refine ⟨?_, ?_, ?_, ?_, ?_, kept, ?_⟩
  · cases next with
    | quiet | stored | signalled | entered | taken | abandoned => exact fits
  · intro other
    rcases eq_or_ne other worker with rfl | different
    · simpa [Delivery.moveTo] using suits
    · exact Place.suits_outside (fun holds => different (holder other holds)) next
  · exact fun first second one two => (holder first one).trans (holder second two).symm
  · intro other holds
    obtain rfl := holder other holds
    exact locked (by simpa [Delivery.moveTo] using holds)
  · exact fun busy => ⟨worker, by simpa [Delivery.moveTo] using owned busy⟩
  · change 0 ∉ changed.submitted
    rw [submitted]
    exact sound.genuine

theorem work_sound {delivery after : Delivery ι} {phase : Phase} (sound : Sound delivery phase)
    {worker : ι} (unlocked : InitializesUnlocked delivery (.work worker))
    (worked : work delivery worker = some after) : Orderly after := by
  have suits := sound.suits worker
  have fits := sound.fits
  have alone (holds : (delivery.place worker).Holds) (other : ι)
      (also : (delivery.place other).Holds) : other = worker := sound.single other worker also holds
  rw [work] at worked
  cases place : delivery.place worker with
  | idle =>
    simp only [place] at worked
    cases worked
  | locking message =>
    simp only [place] at worked
    obtain ⟨unlocked, worked⟩ := Option.ite_none_left_eq_some.mp worked
    obtain rfl := Option.some.inj worked
    have free (other : ι) : ¬ (delivery.place other).Holds := fun holds =>
      unlocked (sound.held other holds)
    have quiet : phase = .quiet := by
      by_contra busy
      obtain ⟨other, holds⟩ := sound.owned busy
      exact free other holds
    subst quiet
    exact ⟨.quiet, sound.hold { delivery with locked := true } (.storing message) .quiet
      (fun other holds => absurd holds (free other)) rfl fits rfl (fun _ => rfl)
      (fun busy => absurd rfl busy) sound.kept rfl⟩
  | storing message =>
    simp only [place] at worked
    rw [place] at suits
    obtain rfl : phase = .quiet := suits
    obtain rfl := Option.some.inj worked
    obtain ⟨_, read, pending, entered, taken⟩ := fits
    have holds : (delivery.place worker).Holds := place ▸ trivial
    exact ⟨.stored, sound.hold (delivery.put (nth message) delivery.alive) .killing .stored
      (alone holds) rfl ⟨nth_nonzero message, id, pending, entered, taken⟩ rfl
      (fun _ => sound.held worker holds) (fun _ => trivial)
      ((put_kept read _ _).trans sound.kept) rfl⟩
  | killing =>
    simp only [place] at worked
    rw [place] at suits
    obtain rfl : phase = .stored := suits
    obtain ⟨filled, gone, pending, entered, taken⟩ := fits
    have holds : (delivery.place worker).Holds := place ▸ trivial
    by_cases alive : delivery.alive = true
    · rw [if_pos alive] at worked
      obtain rfl := Option.some.inj worked
      exact ⟨.signalled, sound.hold { delivery with pending := true } .spinning .signalled
        (alone holds) rfl ⟨filled, rfl, entered, taken⟩ nofun (fun _ => sound.held worker holds)
        (fun _ => trivial) sound.kept rfl⟩
    · rw [if_neg alive] at worked
      obtain rfl := Option.some.inj worked
      have dead : delivery.alive = false := Bool.eq_false_iff.mpr alive
      exact ⟨.abandoned, sound.hold delivery .clearing .abandoned (alone holds) rfl
        ⟨dead, gone dead, pending, entered, taken⟩ rfl (fun _ => sound.held worker holds)
        (fun _ => trivial) sound.kept rfl⟩
  | clearing =>
    simp only [place] at worked
    rw [place] at suits
    obtain rfl : phase = .abandoned := suits
    obtain rfl := Option.some.inj worked
    obtain ⟨_, read, pending, entered, taken⟩ := fits
    have holds : (delivery.place worker).Holds := place ▸ trivial
    exact ⟨.quiet, sound.hold (delivery.put 0 false) .spinning .quiet (alone holds) rfl
      ⟨rfl, rfl, pending, entered, taken⟩ nofun (fun _ => sound.held worker holds)
      (fun busy => absurd rfl busy) ((put_kept read _ _).trans sound.kept) rfl⟩
  | spinning =>
    simp only [place] at worked
    obtain ⟨zero, worked⟩ := Option.ite_none_right_eq_some.mp worked
    obtain rfl := Option.some.inj worked
    have quiet : Fits delivery .quiet := by
      cases phase with
      | quiet => exact fits
      | abandoned => exact ⟨zero, fits.2⟩
      | stored | signalled | entered | taken => exact absurd zero fits.1
    have holds : (delivery.place worker).Holds := place ▸ trivial
    exact ⟨.quiet, sound.hold delivery .unlocking .quiet (alone holds) rfl quiet rfl
      (fun _ => sound.held worker holds) (fun busy => absurd rfl busy) sound.kept rfl⟩
  | unlocking =>
    simp only [place] at worked
    rw [place] at suits
    obtain rfl : phase = .quiet := suits
    obtain rfl := Option.some.inj worked
    exact ⟨.quiet, sound.hold { delivery with locked := false } .idle .quiet
      (alone (place ▸ trivial)) rfl fits trivial (fun holds => absurd holds id)
      (fun busy => absurd rfl busy) sound.kept rfl⟩
  | registering =>
    simp only [place] at worked
    obtain rfl := Option.some.inj worked
    have free := unlocked worker rfl place
    have same : { delivery with locked := false } = delivery := by rw [← free]
    rw [same]
    exact ⟨phase, sound.outside (by rw [place]; exact id) id⟩

theorem perform_sound {delivery after : Delivery ι} {action : Action ι} {phase : Phase}
    (sound : Sound delivery phase) (unlocked : InitializesUnlocked delivery action)
    (taken : perform delivery action = some after) : Orderly after := by
  have fits := sound.fits
  cases action with
  | send worker message =>
    obtain ⟨idle, taken⟩ := Option.ite_none_right_eq_some.mp taken
    obtain rfl := Option.some.inj taken
    exact ⟨phase, sound.outside (by rw [idle]; exact id) id⟩
  | register worker =>
    obtain ⟨idle, taken⟩ := Option.ite_none_right_eq_some.mp taken
    obtain rfl := Option.some.inj taken
    exact ⟨phase, sound.outside (by rw [idle]; exact id) id⟩
  | work worker => exact work_sound sound unlocked taken
  | deliver =>
    obtain ⟨pending, taken⟩ := Option.ite_none_right_eq_some.mp taken
    obtain rfl := Option.some.inj taken
    cases phase with
    | signalled =>
      obtain ⟨filled, _, entered, vacant⟩ := fits
      exact ⟨.entered, sound.receive (.inl rfl) rfl rfl ⟨filled, rfl, by simp [entered], vacant⟩
        nofun sound.kept sound.genuine⟩
    | quiet | entered | taken | stored | abandoned => simp [Fits, pending] at fits
  | read =>
    obtain ⟨running, taken⟩ := Option.ite_none_right_eq_some.mp taken
    obtain rfl := Option.some.inj taken
    cases phase with
    | entered =>
      obtain ⟨filled, pending, entered, vacant⟩ := fits
      exact ⟨.taken, sound.receive (.inr (.inl rfl)) rfl rfl
        ⟨filled, rfl, pending, by simp [entered], delivery.slot, filled, by rw [vacant]⟩ nofun
        sound.kept sound.genuine⟩
    | quiet | signalled | taken | stored | abandoned => simp [Fits, Nat.ne_of_gt running] at fits
  | clear value =>
    obtain ⟨member, taken⟩ := Option.ite_none_right_eq_some.mp taken
    obtain rfl := Option.some.inj taken
    cases phase with
    | taken =>
      obtain ⟨_, read, pending, entered, only, nonzero, holds⟩ := fits
      rw [holds, List.mem_singleton] at member
      subst member
      refine ⟨.quiet, sound.receive (.inr (.inr rfl)) rfl rfl
        ⟨rfl, rfl, pending, entered, by simp [holds]⟩ nofun
        ((put_kept read 0 false).trans sound.kept) ?_⟩
      exact List.not_mem_cons_of_ne_of_not_mem nonzero.symm sound.genuine
    | quiet | signalled | entered | stored | abandoned =>
      rw [sound.vacant nofun] at member
      cases member
  | exit =>
    obtain rfl := Option.some.inj taken
    exact exit_sound sound

/-- Along every run in which no mutex is initialized while it is locked, each
offset stored for the live process is read before the slot is overwritten or
cleared, and no handler run reads zero. -/
theorem messages_handed_over (ι : Type) [DecidableEq ι] (delivery : Delivery ι)
    (reached : (deliveries ι).ReachedUnder InitializesUnlocked delivery) : HandedOver delivery := by
  have orderly : Orderly delivery := by
    apply reached.invariant
    · rintro start rfl
      exact ⟨.quiet, fresh_sound⟩
    · rintro before action after ⟨phase, sound⟩ unlocked taken
      exact perform_sound sound unlocked taken
  obtain ⟨phase, sound⟩ := orderly
  exact sound.handedOver

theorem fresh_starts (ι : Type) [DecidableEq ι] : (deliveries ι).start (fresh ι) := rfl

/-- Two messages of the examples. -/
def firstMessage : Extent := ⟨0, 0⟩

def secondMessage : Extent := ⟨1, 0⟩

/-- Workers one and two send while the process registers another message through
worker three. The mutex is initialized before it is locked. -/
def registeredFirst : List (Action Nat) :=
  [.register 3, .send 1 firstMessage, .send 2 secondMessage, .work 3, .work 1, .work 1, .work 1,
    .deliver, .read, .clear (nth firstMessage), .work 1, .work 1, .work 2, .work 2, .work 2,
    .deliver, .read, .clear (nth secondMessage), .work 2, .work 2]

/-- The same workers, with the mutex initialized while the first one holds it. -/
def registeredHeld : List (Action Nat) :=
  [.register 3, .send 1 firstMessage, .send 2 secondMessage, .work 1, .work 1, .work 1, .work 3,
    .deliver, .work 2, .work 2, .work 2, .deliver, .read, .clear (nth secondMessage), .read,
    .clear 0]

/-- Both messages of the first run are handed over. -/
theorem both_handed_over :
    HandedOver ((System.follow perform InitializesUnlocked (fresh Nat) registeredFirst).get
      (by decide)) :=
  messages_handed_over Nat _
    (System.followed_reached registeredFirst (.initial (fresh Nat) (fresh_starts Nat)) (by decide))

/-- Not every run hands its messages over. The first worker has stored its offset
when the mutex is initialized, so the second worker overwrites that offset; of
the two handler runs the later one reads zero. -/
theorem initialized_mutex_loses :
    ¬ ∀ delivery, (deliveries Nat).Reached delivery → HandedOver delivery := by
  intro always
  have reached : (deliveries Nat).Reached
      ((System.follow perform (fun _ _ => True) (fresh Nat) registeredHeld).get (by decide)) :=
    System.followed_reached registeredHeld (.initial (fresh Nat) (fresh_starts Nat)) (by decide)
  have handed := always _ reached
  revert handed
  decide

/-- The condition is needed: where the mutex is initialized while the slot holds
an unread offset, any idle worker can go on to overwrite that offset. -/
theorem initialization_loses {delivery : Delivery ι} {registering idle : ι}
    (registers : delivery.place registering = .registering) (idles : delivery.place idle = .idle)
    (unread : delivery.unread = true) (message : Extent) :
    ∃ after, System.follow perform (fun _ _ => True) delivery
      [.work registering, .send idle message, .work idle, .work idle] = some after ∧
      ¬ HandedOver after := by
  have different : idle ≠ registering := by
    rintro rfl
    rw [idles] at registers
    cases registers
  let waits := ({ delivery with locked := false }.moveTo registering .idle).moveTo idle
    (.locking message)
  let stores := { waits with locked := true }.moveTo idle (.storing message)
  refine ⟨(stores.put (nth message) delivery.alive).moveTo idle .killing, ?_, ?_⟩
  · simp [System.follow, perform, work, registers, idles, Delivery.moveTo, different, stores, waits]
  · intro handed
    have lost := handed.1
    simp [Delivery.put, Delivery.moveTo, stores, waits, unread] at lost

end Runs

end Emilib.DeliverySlot
