import Emilib.ByteWords

/-!
# The scan of the configuration file

`get_config` of `emi_config.c` moves one pointer over the mapped file. The outer loop
tests the length of the file. The loop over a comment looks for a newline only, the
loop over a value for a newline or a `#`, and an equals sign in a value is skipped
together with the test of the character behind it. The comparison with `EMI_PORT`
reads on until the first difference.

The scan stops with a fault where the code would read behind the file, write behind
its buffer of 256 bytes, or hand `atoi` a buffer without a zero byte. The files it reads
without a fault are the sequences of four kinds of pieces. What is assigned to the port
is recorded together with its place, the number of bytes from there to the end.
-/

namespace Emilib.ConfigText

/-- What the scan must not do. -/
inductive Fault where
  | outsideFile
  | outsideStack
  | unterminated
deriving DecidableEq, Repr

/-- `'#'`. -/
def hash : Byte := 0x23

/-- `'\n'`. -/
def newline : Byte := 0x0a

/-- `'='`. -/
def equals : Byte := 0x3d

/-- `"EMI_PORT"`, the only entry of `terms`. -/
def emiPort : List Byte := [0x45, 0x4d, 0x49, 0x5f, 0x50, 0x4f, 0x52, 0x54]

/-- `sizeof(stack)`. -/
def stackSize : Nat := 256

/-- `isspace`. -/
def isspace (c : Byte) : Bool := c == 0x20 || (0x09 ≤ c.toNat && c.toNat ≤ 0x0d)

/-- `isdigit`. -/
def isdigit (c : Byte) : Bool := 0x30 ≤ c.toNat && c.toNat ≤ 0x39

/-- The number that the digits at the start of a string denote, behind others. -/
def digitsValue : List Byte → Nat → Nat
  | [], value => value
  | c :: rest, value =>
      if isdigit c then digitsValue rest (value * 10 + (c.toNat - 0x30)) else value

/-- `atoi`, which is `strtol` in base ten: blanks, a sign, digits, and the range of `long`.
The string ends with a zero byte, which is no digit. -/
def atoi (string : List Byte) : Int :=
  match string.dropWhile isspace with
  | 0x2d :: rest => max (-(digitsValue rest 0 : Int)) (-(2 ^ 63))
  | 0x2b :: rest => min (digitsValue rest 0 : Int) (2 ^ 63 - 1)
  | rest => min (digitsValue rest 0 : Int) (2 ^ 63 - 1)

/-- The loop over a comment: `p` at the next newline. -/
def skipComment : List Byte → Except Fault (List Byte)
  | [] => .error .outsideFile
  | c :: rest => if c = newline then .ok (c :: rest) else skipComment rest

/-- `!strncmp`. The first difference ends the comparison. -/
def sameStart : List Byte → List Byte → Except Fault Bool
  | [], _ => .ok true
  | _ :: _, [] => .error .outsideFile
  | t :: term, c :: text => if t = c then sameStart term text else .ok false

/-- The loop over a value: `stack` up to `j`, and `p` where it stops. -/
def valueLoop (stack : List Byte) : List Byte → Except Fault (List Byte × List Byte)
  | [] => .error .outsideFile
  | c :: rest =>
      if c = hash ∨ c = newline then .ok (stack, c :: rest)
      else if c = equals then
        match rest with
        | [] => .error .outsideFile
        | next :: rest =>
            if stack.length < stackSize then valueLoop (stack ++ [next]) rest
            else .error .outsideStack
      else if stack.length < stackSize then valueLoop (stack ++ [c]) rest
      else .error .outsideStack

/-- The buffer was zero before these bytes were stored, and a zero byte is left. -/
def Terminated (stored : List Byte) : Prop :=
  stored.length < stackSize ∨ stored.length = stackSize ∧ 0 ∈ stored

instance (stored : List Byte) : Decidable (Terminated stored) :=
  inferInstanceAs (Decidable (_ ∨ _ ∧ _))

/-- A port that was assigned, and the number of bytes from its `EMI_PORT` to the end. -/
structure Assignment where
  place : Nat
  port : BitVec 32
deriving DecidableEq, Repr

/-- The first branch of an iteration: from a comment on to the end of its line. -/
def pastComment : List Byte → Except Fault (List Byte)
  | [] => .error .outsideFile
  | c :: rest => if c = hash ∨ c = newline then skipComment (c :: rest) else .ok (c :: rest)

/-- One iteration of the outer loop, with the `p++` behind it. -/
def iteration (text : List Byte) : Except Fault (Option Assignment × List Byte) := do
  let text ← pastComment text
  if ← sameStart emiPort text then
    let (stack, stopped) ← valueLoop [] (text.drop emiPort.length)
    if Terminated stack then
      return (some ⟨text.length, BitVec.ofInt 32 (atoi stack)⟩, stopped.tail)
    else .error .unterminated
  else return (none, text.tail)

/-- The outer loop, for at most `fuel` iterations. -/
def scanLoop : Nat → List Byte → Option (Except Fault (List Assignment))
  | _, [] => some (.ok [])
  | 0, _ :: _ => none
  | fuel + 1, c :: rest =>
      match iteration (c :: rest) with
      | .error fault => some (.error fault)
      | .ok (assigned, behind) =>
          (scanLoop fuel behind).map fun scanned => scanned.map (assigned.toList ++ ·)

/-- The scan of a whole file. -/
def scan (text : List Byte) : Option (Except Fault (List Assignment)) := scanLoop text.length text

/-- Every byte that is read lies in the file, every write lies in the buffer and leaves a
zero byte there, and all loops come to an end. -/
def StaysInBounds (text : List Byte) : Prop := ∃ assigned, scan text = some (.ok assigned)

/-- The text of a value, and what the loop stores of it: each equals sign is skipped, and
the character behind it is taken whatever it is. -/
inductive Value : List Byte → List Byte → Prop
  | done : Value [] []
  | plain (c : Byte) (text stored : List Byte) (ordinary : c ≠ hash ∧ c ≠ newline ∧ c ≠ equals)
      (rest : Value text stored) : Value (c :: text) (c :: stored)
  | assigned (c : Byte) (text stored : List Byte) (rest : Value text stored) :
      Value (equals :: c :: text) (c :: stored)

/-- The pieces of a file, with what is assigned there and what follows: a newline, a comment
with its newline, a port with its value, and any other character, at which neither
`EMI_PORT` begins nor the file ends with a part of it. -/
inductive Piece : List Byte → Option Assignment → List Byte → Prop
  | newline (rest : List Byte) : Piece (newline :: rest) none rest
  | comment (words rest : List Byte) (inside : ConfigText.newline ∉ words) :
      Piece (hash :: words ++ ConfigText.newline :: rest) none rest
  | port (text stored rest : List Byte) (stop : Byte) (value : Value text stored)
      (stops : stop = hash ∨ stop = ConfigText.newline) (terminated : Terminated stored) :
      Piece (emiPort ++ (text ++ stop :: rest))
        (some ⟨(emiPort ++ (text ++ stop :: rest)).length, BitVec.ofInt 32 (atoi stored)⟩) rest
  | other (c : Byte) (rest : List Byte) (ordinary : c ≠ hash ∧ c ≠ ConfigText.newline)
      (different : ¬ emiPort <+: c :: rest) (whole : ¬ c :: rest <+: emiPort) :
      Piece (c :: rest) none rest

/-- A file is a sequence of pieces, with the assignments made on the way. -/
inductive Scanned : List Byte → List Assignment → Prop
  | done : Scanned [] []
  | piece (text rest : List Byte) (assigned : Option Assignment) (later : List Assignment)
      (first : Piece text assigned rest) (others : Scanned rest later) :
      Scanned text (assigned.toList ++ later)

/-- The loop over a comment succeeds just where a newline follows. -/
theorem skipComment_iff {text stopped : List Byte} :
    skipComment text = .ok stopped ↔
      ∃ words rest, newline ∉ words ∧ text = words ++ newline :: rest ∧
        stopped = newline :: rest := by
  induction text with
  | nil => simp [skipComment]
  | cons c text inductionHypothesis =>
    rw [skipComment]
    by_cases ends : c = newline
    · rw [if_pos ends]
      subst ends
      constructor
      · intro stays
        exact ⟨[], text, List.not_mem_nil, rfl, (Except.ok.inj stays).symm⟩
      · rintro ⟨words, rest, inside, split, rfl⟩
        cases words with
        | nil => rw [split]; rfl
        | cons first words =>
          obtain ⟨rfl, _⟩ := List.cons.inj split
          exact absurd List.mem_cons_self inside
    · rw [if_neg ends, inductionHypothesis]
      constructor
      · rintro ⟨words, rest, inside, rfl, stops⟩
        refine ⟨c :: words, rest, ?_, rfl, stops⟩
        exact List.not_mem_cons_of_ne_of_not_mem (Ne.symm ends) inside
      · rintro ⟨words, rest, inside, split, stops⟩
        cases words with
        | nil => exact absurd (List.cons.inj split).1 ends
        | cons first words =>
          have later : newline ∉ words := fun member =>
            inside (List.mem_cons_of_mem first member)
          exact ⟨words, rest, later, (List.cons.inj split).2, stops⟩

/-- The comparison succeeds just where the term begins. -/
theorem sameStart_true {term text : List Byte} :
    sameStart term text = .ok true ↔ term <+: text := by
  induction term generalizing text with
  | nil => simp [sameStart]
  | cons t term inductionHypothesis =>
    cases text with
    | nil => simp [sameStart]
    | cons c text =>
      rw [sameStart, List.cons_prefix_cons]
      by_cases same : t = c
      · rw [if_pos same, inductionHypothesis]
        exact (and_iff_right same).symm
      · rw [if_neg same]
        exact iff_of_false (by simp) fun begins => same begins.1

/-- The comparison fails inside the file just where the term does not begin and the file does
not end within it. -/
theorem sameStart_false {term text : List Byte} :
    sameStart term text = .ok false ↔ ¬ term <+: text ∧ ¬ text <+: term := by
  induction term generalizing text with
  | nil => simp [sameStart]
  | cons t term inductionHypothesis =>
    cases text with
    | nil => simp [sameStart]
    | cons c text =>
      rw [sameStart, List.cons_prefix_cons, List.cons_prefix_cons]
      by_cases same : t = c
      · rw [if_pos same, inductionHypothesis]
        simp [same]
      · rw [if_neg same]
        simp [same, Ne.symm same]

/-- The loop over a value stops here. -/
theorem valueLoop_stop {stop : Byte} (stops : stop = hash ∨ stop = newline)
    (stack rest : List Byte) : valueLoop stack (stop :: rest) = .ok (stack, stop :: rest) := by
  rw [valueLoop.eq_def]
  exact if_pos stops

/-- An equals sign is skipped, and the character behind it is stored. -/
theorem valueLoop_equals {stack : List Byte} (fits : stack.length < stackSize) (next : Byte)
    (rest : List Byte) :
    valueLoop stack (equals :: next :: rest) = valueLoop (stack ++ [next]) rest := by
  rw [valueLoop.eq_def]
  exact if_pos fits

/-- Any other character is stored. -/
theorem valueLoop_plain {stack : List Byte} (fits : stack.length < stackSize) {c : Byte}
    (ordinary : c ≠ hash ∧ c ≠ newline ∧ c ≠ equals) (rest : List Byte) :
    valueLoop stack (c :: rest) = valueLoop (stack ++ [c]) rest := by
  obtain ⟨noHash, noNewline, noEquals⟩ := ordinary
  have goesOn : ¬ (c = hash ∨ c = newline) := fun stops => stops.elim noHash noNewline
  rw [valueLoop.eq_def]
  exact (if_neg goesOn).trans ((if_neg noEquals).trans (if_pos fits))

/-- The loop over a value reads each value that fits into the buffer. -/
theorem Value.loop {value taken : List Byte} (stores : Value value taken) {stop : Byte}
    (stops : stop = hash ∨ stop = newline) (rest stack : List Byte)
    (fits : stack.length + taken.length ≤ stackSize) :
    valueLoop stack (value ++ stop :: rest) = .ok (stack ++ taken, stop :: rest) := by
  induction stores generalizing stack with
  | done =>
    rw [List.append_nil]
    exact valueLoop_stop stops stack rest
  | plain c value taken ordinary _ inductionHypothesis =>
    rw [List.length_cons] at fits
    have remaining := inductionHypothesis (stack ++ [c])
      (by rw [List.length_append, List.length_singleton]; omega)
    rw [List.cons_append, valueLoop_plain (by omega) ordinary, remaining, List.append_assoc,
      List.singleton_append]
  | assigned c value taken _ inductionHypothesis =>
    rw [List.length_cons] at fits
    have remaining := inductionHypothesis (stack ++ [c])
      (by rw [List.length_append, List.length_singleton]; omega)
    rw [List.cons_append, List.cons_append, valueLoop_equals (by omega), remaining,
      List.append_assoc, List.singleton_append]

/-- What the loop over a value has read when it stops. -/
theorem valueLoop_reads {stack text stored stopped : List Byte}
    (room : stack.length ≤ stackSize) (stops : valueLoop stack text = .ok (stored, stopped)) :
    ∃ value taken stop rest, Value value taken ∧ (stop = hash ∨ stop = newline) ∧
      text = value ++ stop :: rest ∧ stopped = stop :: rest ∧ stored = stack ++ taken ∧
      stored.length ≤ stackSize := by
  fun_induction valueLoop stack text with
  | case1 => cases stops
  | case2 stack c rest ends =>
    obtain ⟨rfl, rfl⟩ := Prod.mk.inj (Except.ok.inj stops)
    exact ⟨[], [], c, rest, .done, ends, rfl, rfl, (List.append_nil stack).symm, room⟩
  | case3 => cases stops
  | case4 stack next rest fits _ inductionHypothesis =>
    obtain ⟨value, taken, stop, behind, stores, ends, rfl, rfl, rfl, short⟩ :=
      inductionHypothesis (by rw [List.length_append, List.length_singleton]; omega) stops
    refine ⟨equals :: next :: value, next :: taken, stop, behind,
      .assigned next value taken stores, ends, rfl, rfl, ?_, short⟩
    rw [List.append_assoc, List.singleton_append]
  | case5 => cases stops
  | case6 stack c rest unended unequal fits inductionHypothesis =>
    obtain ⟨value, taken, stop, behind, stores, ends, rfl, rfl, rfl, short⟩ :=
      inductionHypothesis (by rw [List.length_append, List.length_singleton]; omega) stops
    have ordinary : c ≠ hash ∧ c ≠ newline ∧ c ≠ equals :=
      ⟨fun same => unended (Or.inl same), fun same => unended (Or.inr same), unequal⟩
    refine ⟨c :: value, c :: taken, stop, behind, .plain c value taken ordinary stores,
      ends, rfl, rfl, ?_, short⟩
    rw [List.append_assoc, List.singleton_append]
  | case7 => cases stops

/-- A buffer with a zero byte left has room. -/
theorem Terminated.length_le {stored : List Byte} (terminated : Terminated stored) :
    stored.length ≤ stackSize := by
  rcases terminated with short | ⟨full, _⟩
  · exact Nat.le_of_lt short
  · exact Nat.le_of_eq full

/-- An iteration reads each piece. -/
theorem Piece.iteration {text rest : List Byte} {assigned : Option Assignment}
    (piece : Piece text assigned rest) : ConfigText.iteration text = .ok (assigned, rest) := by
  cases piece with
  | newline => rfl
  | comment words _ inside =>
    have skipped : pastComment (hash :: words ++ ConfigText.newline :: rest) =
        .ok (ConfigText.newline :: rest) := by
      apply skipComment_iff.mpr
      refine ⟨hash :: words, rest, ?_, rfl, rfl⟩
      exact List.not_mem_cons_of_ne_of_not_mem (by decide) inside
    rw [ConfigText.iteration, skipped]
    rfl
  | port value stored _ stop stores stops terminated =>
    have read := stores.loop stops rest [] (by simpa using terminated.length_le)
    have begins : sameStart emiPort (emiPort ++ (value ++ stop :: rest)) = .ok true :=
      sameStart_true.mpr (List.prefix_append _ _)
    have start : pastComment (emiPort ++ (value ++ stop :: rest)) =
        .ok (emiPort ++ (value ++ stop :: rest)) := rfl
    rw [ConfigText.iteration, start]
    simp only [bind, Except.bind, begins, List.drop_left, read, if_true]
    rw [List.nil_append, if_pos terminated]
    rfl
  | other c _ ordinary different whole =>
    have goesOn : ¬ (c = hash ∨ c = ConfigText.newline) := fun stops =>
      stops.elim ordinary.1 ordinary.2
    have unequal := sameStart_false.mpr ⟨different, whole⟩
    have start : pastComment (c :: rest) = .ok (c :: rest) := if_neg goesOn
    rw [ConfigText.iteration, start]
    simp only [bind, Except.bind, unequal]
    rfl

/-- What an iteration reads without a fault is a piece. -/
theorem piece_of_iteration {text rest : List Byte} {assigned : Option Assignment}
    (read : iteration text = .ok (assigned, rest)) : Piece text assigned rest := by
  cases text with
  | nil => cases read
  | cons c text =>
    rw [iteration] at read
    by_cases ends : c = hash ∨ c = newline
    · have start : pastComment (c :: text) = skipComment (c :: text) := if_pos ends
      cases skipped : skipComment (c :: text) with
      | error fault =>
        rw [start, skipped] at read
        cases read
      | ok stopped =>
        obtain ⟨words, behind, inside, split, rfl⟩ := skipComment_iff.mp skipped
        rw [start, skipped] at read
        obtain ⟨rfl, rfl⟩ := Prod.mk.inj (Except.ok.inj read)
        cases words with
        | nil =>
          rw [split]
          exact .newline behind
        | cons first words =>
          have opens : c = hash := by
            rcases ends with opens | ends
            · exact opens
            · rw [← (List.cons.inj split).1, ends] at inside
              exact absurd List.mem_cons_self inside
          rw [split, ← (List.cons.inj split).1, opens]
          exact .comment words behind fun member => inside (List.mem_cons_of_mem first member)
    · have start : pastComment (c :: text) = .ok (c :: text) := if_neg ends
      rw [start] at read
      cases compared : sameStart emiPort (c :: text) with
      | error fault =>
        simp only [bind, Except.bind, compared] at read
        cases read
      | ok same =>
        simp only [bind, Except.bind, compared] at read
        cases same with
        | false =>
          obtain ⟨different, whole⟩ := sameStart_false.mp compared
          obtain ⟨rfl, rfl⟩ := Prod.mk.inj (Except.ok.inj read)
          exact .other c text ⟨fun same => ends (Or.inl same), fun same => ends (Or.inr same)⟩
            different whole
        | true =>
          obtain ⟨behind, split⟩ := sameStart_true.mp compared
          rw [← split, List.drop_left] at read
          rw [← split]
          simp only [if_true] at read
          cases looped : valueLoop [] behind with
          | error fault =>
            rw [looped] at read
            cases read
          | ok result =>
            obtain ⟨stored, stopped⟩ := result
            rw [looped] at read
            obtain ⟨value, taken, stop, following, stores, stops, rfl, rfl, rfl, _⟩ :=
              @valueLoop_reads [] behind stored stopped (Nat.zero_le stackSize) looped
            dsimp only at read
            by_cases terminated : Terminated stored
            · rw [if_pos terminated] at read
              obtain ⟨rfl, rfl⟩ := Prod.mk.inj (Except.ok.inj read)
              exact .port value stored following stop stores stops terminated
            · rw [if_neg terminated] at read
              cases read

/-- Each piece leaves less of the file. -/
theorem Piece.shorter {text rest : List Byte} {assigned : Option Assignment}
    (piece : Piece text assigned rest) : rest.length < text.length := by
  cases piece with
  | newline => exact Nat.lt_succ_self _
  | comment words =>
    rw [List.length_append, List.length_cons, List.length_cons]
    omega
  | port value stored _ stop =>
    rw [List.length_append, List.length_append, List.length_cons]
    omega
  | other => exact Nat.lt_succ_self _

/-- The loop reads a sequence of pieces without a fault, and makes its assignments. -/
theorem Scanned.loop {text : List Byte} {assigned : List Assignment}
    (scanned : Scanned text assigned) (fuel : Nat) (enough : text.length ≤ fuel) :
    scanLoop fuel text = some (.ok assigned) := by
  induction scanned generalizing fuel with
  | done =>
    cases fuel with
    | zero => rfl
    | succ fuel => rfl
  | piece text rest assigned later first _ inductionHypothesis =>
    have shorter := first.shorter
    cases text with
    | nil => exact absurd shorter (Nat.not_lt_zero _)
    | cons c text =>
      cases fuel with
      | zero => exact absurd enough (Nat.not_succ_le_zero _)
      | succ fuel =>
        rw [scanLoop, first.iteration]
        simp only [inductionHypothesis fuel (by omega)]
        rfl

/-- What the loop reads without a fault is a sequence of pieces. -/
theorem scanned_of_loop {fuel : Nat} {text : List Byte} {assigned : List Assignment}
    (looped : scanLoop fuel text = some (.ok assigned)) : Scanned text assigned := by
  induction fuel generalizing text assigned with
  | zero =>
    cases text with
    | nil =>
      obtain rfl := Except.ok.inj (Option.some.inj looped)
      exact .done
    | cons c text => cases looped
  | succ fuel inductionHypothesis =>
    cases text with
    | nil =>
      obtain rfl := Except.ok.inj (Option.some.inj looped)
      exact .done
    | cons c text =>
      rw [scanLoop] at looped
      cases read : iteration (c :: text) with
      | error fault =>
        rw [read] at looped
        cases looped
      | ok result =>
        obtain ⟨first, rest⟩ := result
        rw [read] at looped
        obtain ⟨outcome, later, mapped⟩ := Option.map_eq_some_iff.mp looped
        cases outcome with
        | error fault => cases mapped
        | ok others =>
          obtain rfl := Except.ok.inj mapped
          exact .piece (c :: text) rest first others (piece_of_iteration read)
            (inductionHypothesis later)

/-- The scan comes to an end on every file, with or without a fault. -/
theorem scan_ends (text : List Byte) : ∃ result, scan text = some result := by
  suffices loop : ∀ fuel (text : List Byte), text.length ≤ fuel →
      ∃ result, scanLoop fuel text = some result from loop text.length text (Nat.le_refl _)
  intro fuel
  induction fuel with
  | zero =>
    intro text enough
    obtain rfl := List.eq_nil_of_length_eq_zero (Nat.le_zero.mp enough)
    exact ⟨_, rfl⟩
  | succ fuel inductionHypothesis =>
    intro text enough
    cases text with
    | nil => exact ⟨_, rfl⟩
    | cons c text =>
      rw [scanLoop]
      cases read : iteration (c :: text) with
      | error fault => exact ⟨_, rfl⟩
      | ok result =>
        obtain ⟨first, rest⟩ := result
        have shorter := (piece_of_iteration read).shorter
        obtain ⟨later, looped⟩ := inductionHypothesis rest (by omega)
        simp only [looped]
        exact ⟨_, rfl⟩

/-- The scan makes these assignments just on the files whose pieces make them. -/
theorem scan_iff {text : List Byte} {assigned : List Assignment} :
    scan text = some (.ok assigned) ↔ Scanned text assigned :=
  ⟨scanned_of_loop, fun scanned => scanned.loop text.length (Nat.le_refl _)⟩

/-- The scan stays in bounds just on the files that are sequences of pieces. -/
theorem stays_in_bounds_iff (text : List Byte) :
    StaysInBounds text ↔ ∃ assigned, Scanned text assigned :=
  exists_congr fun _ => scan_iff

/-- A comment without a newline is read on behind the end of the file. -/
theorem unended_comment_leaves : ¬ ∀ text, StaysInBounds text := by
  intro claimed
  obtain ⟨assigned, scanned⟩ := claimed [hash]
  have left : scan [hash] = some (.error .outsideFile) := rfl
  rw [left] at scanned
  cases scanned

end Emilib.ConfigText
