import Emilib.ConfigText

/-!
# The configured port

What `get_config` makes of a file whose lines are empty, comments, or a port with a
comment behind it. The scan skips a comment that has a line of its own. Behind a value it
stands on the `#`, and the outer loop steps over that one character, so the text of such a
comment is read like the start of a line, up to the next `#`.

The port is assigned in memory that `malloc` has just returned. A file that assigns
nothing leaves there what was there, and that is then the port in force instead of the
default.
-/

namespace Emilib.ConfigPort

open ConfigText

/-- `USR_EMI_PORT`. -/
def usrEmiPort : BitVec 32 := 1361

/-- The port in memory once these assignments were made. -/
def assignAll (stale : BitVec 32) (assigned : List Assignment) : BitVec 32 :=
  (assigned.getLast?.map Assignment.port).getD stale

/-- `get_config`: the configuration, or NULL without a file or without memory. `stale` is
what `malloc` found in memory. -/
def getConfig (file : Option (List Byte)) (stale : Option (BitVec 32)) :
    Option (Except Fault (Option (BitVec 32))) :=
  match file, stale with
  | some text, some stale =>
      (scan text).map fun scanned => scanned.map fun assigned => some (assignAll stale assigned)
  | _, _ => some (.ok none)

/-- The port in force once `main` has a configuration or keeps `emi_config`. -/
def portInForce (config : Option (BitVec 32)) : BitVec 32 := config.getD usrEmiPort

/-- What a line may be: empty, a comment, or a port, which blanks and a comment may follow. -/
inductive Content where
  | blank
  | comment (words : List Byte)
  | port (digits : List Byte) (trailing : Option (Nat × List Byte))
deriving DecidableEq, Repr

/-- A space. -/
def space : Byte := 0x20

/-- A comment without its newline, behind blanks. -/
def trailingBytes : Option (Nat × List Byte) → List Byte
  | none => []
  | some (blanks, words) => List.replicate blanks space ++ hash :: words

/-- A line without its newline. -/
def Content.bytes : Content → List Byte
  | .blank => []
  | .comment words => hash :: words
  | .port digits trailing => emiPort ++ (equals :: digits ++ trailingBytes trailing)

/-- The number that a string of digits denotes. -/
def number (digits : List Byte) : Nat := digitsValue digits 0

/-- Comments end with their line, and a port is a decimal number below 2^31. -/
def Content.Valid : Content → Prop
  | .blank => True
  | .comment words => newline ∉ words
  | .port digits trailing =>
      digits ≠ [] ∧ (∀ c ∈ digits, isdigit c) ∧ number digits < 2 ^ 31 ∧
        ∀ comment ∈ trailing, newline ∉ comment.2

/-- A line of a configuration file. -/
structure Line where
  content : Content
  valid : content.Valid
  short : content.bytes.length < 256

/-- The text of a file with these lines. -/
def configText : List Line → List Byte
  | [] => []
  | line :: rest => line.content.bytes ++ newline :: configText rest

/-- What the lines with a port assign, each at its own start. -/
def portAssignments : List Line → List Assignment
  | [] => []
  | line :: rest =>
      match line.content with
      | .port digits _ =>
          ⟨(configText (line :: rest)).length, BitVec.ofNat 32 (number digits)⟩ ::
            portAssignments rest
      | .blank | .comment _ => portAssignments rest

/-- The number of the last line with a port, or the default. -/
def configuredPort (lines : List Line) : BitVec 32 := assignAll usrEmiPort (portAssignments lines)

/-- Whatever was in memory, the port in force is the configured one. -/
def YieldsConfiguredPort (lines : List Line) : Prop :=
  ∀ stale, ∃ config, getConfig (some (configText lines)) (some stale) = some (.ok config) ∧
    portInForce config = configuredPort lines

/-- Every assignment is made where a line with a port begins, none inside a comment. -/
def CommentsUnread (lines : List Line) : Prop :=
  ∀ assigned, scan (configText lines) = some (.ok assigned) →
    ∀ assignment ∈ assigned,
      assignment.place ∈ (portAssignments lines).map Assignment.place

/-- The parser reads exactly the configured port. -/
def ReadsExactly (lines : List Line) : Prop :=
  YieldsConfiguredPort lines ∧ CommentsUnread lines

/-- The text names `EMI_PORT` before its first `#`. -/
def Loud (words : List Byte) : Prop :=
  ∃ before after, words = before ++ (emiPort ++ after) ∧ hash ∉ before

/-- The comment behind a port, if the line has one, is not loud. -/
def Line.Quiet (line : Line) : Prop :=
  match line.content with
  | .port _ (some (_, words)) => ¬ Loud words
  | _ => True

/-- The line has a port. -/
def Line.HasPort (line : Line) : Prop :=
  match line.content with
  | .port .. => True
  | .blank | .comment _ => False

/-- A stretch of the file read piece by piece, with the assignments made on the way. -/
inductive Passed : List Byte → List Assignment → List Byte → Prop
  | done (text : List Byte) : Passed text [] text
  | piece (text middle rest : List Byte) (assigned : Option Assignment) (later : List Assignment)
      (first : Piece text assigned middle) (others : Passed middle later rest) :
      Passed text (assigned.toList ++ later) rest

section Pieces

variable {text rest words : List Byte} {assigned later : List Assignment}

/-- What follows a stretch is scanned after it. -/
theorem Passed.scanned (passed : Passed text assigned rest) (behind : Scanned rest later) :
    Scanned text (assigned ++ later) := by
  induction passed with
  | done => exact behind
  | piece text middle rest first others piece _ inductionHypothesis =>
    rw [List.append_assoc]
    exact .piece text middle first _ piece (inductionHypothesis behind)

/-- A piece is read in one way only. -/
theorem scanned_behind {middle : List Byte} {first : Option Assignment}
    (piece : Piece text first middle) (scanned : Scanned text assigned) :
    ∃ later, Scanned middle later ∧ assigned = first.toList ++ later := by
  cases scanned with
  | done => exact absurd piece.shorter (Nat.not_lt_zero _)
  | piece _ other made others own behind =>
    obtain ⟨rfl, rfl⟩ := Prod.mk.inj (Except.ok.inj (own.iteration.symm.trans piece.iteration))
    exact ⟨others, behind, rfl⟩

/-- What follows a stretch was scanned after it. -/
theorem Passed.behind {made : List Assignment} (passed : Passed text made rest)
    (scanned : Scanned text assigned) :
    ∃ later, Scanned rest later ∧ assigned = made ++ later := by
  induction passed generalizing assigned with
  | done => exact ⟨assigned, scanned, rfl⟩
  | piece text middle rest first others piece _ inductionHypothesis =>
    obtain ⟨between, scannedBetween, rfl⟩ := scanned_behind piece scanned
    obtain ⟨later, scannedLater, rfl⟩ := inductionHypothesis scannedBetween
    exact ⟨later, scannedLater, (List.append_assoc _ _ _).symm⟩

/-- No newline is part of `EMI_PORT`. -/
theorem newline_not_mem_emiPort : newline ∉ emiPort := by decide

/-- In a line, `EMI_PORT` begins only where it is whole before the newline. -/
theorem prefix_before_newline (begins : emiPort <+: words ++ newline :: rest) :
    emiPort <+: words := by
  rcases List.prefix_or_prefix_of_prefix begins (List.prefix_append words _) with inside | cut
  · exact inside
  · obtain ⟨tail, split⟩ := cut
    rw [← split] at begins
    cases tail with
    | nil =>
      obtain rfl : words = emiPort := (List.append_nil words).symm.trans split
      exact List.prefix_rfl
    | cons c tail =>
      obtain ⟨rfl, _⟩ := List.cons_prefix_cons.mp ((List.prefix_append_right_inj words).mp begins)
      have member : newline ∈ emiPort := by
        rw [← split]
        exact List.mem_append_right words List.mem_cons_self
      exact absurd member newline_not_mem_emiPort

/-- A character of a comment text that is scanned, where no port begins. -/
theorem other_piece {c : Byte} (ordinary : c ≠ hash ∧ c ≠ newline)
    (silent : ¬ emiPort <+: c :: words) :
    Piece (c :: words ++ newline :: rest) none (words ++ newline :: rest) := by
  apply Piece.other c (words ++ newline :: rest) ordinary
  · exact fun begins => silent (prefix_before_newline begins)
  · intro whole
    have member : newline ∈ c :: (words ++ newline :: rest) :=
      List.mem_cons_of_mem c (List.mem_append_right words List.mem_cons_self)
    exact newline_not_mem_emiPort (whole.subset member)

/-- A loud text stays loud behind a character that is no `#`. -/
theorem Loud.cons {c : Byte} (ordinary : c ≠ hash) (loud : Loud words) : Loud (c :: words) := by
  obtain ⟨before, after, rfl, unmarked⟩ := loud
  refine ⟨c :: before, after, rfl, ?_⟩
  exact List.not_mem_cons_of_ne_of_not_mem (Ne.symm ordinary) unmarked

/-- A comment text that is not loud is scanned to the end of its line without an assignment. -/
theorem quiet_passed (inside : newline ∉ words) (quiet : ¬ Loud words) :
    Passed (words ++ newline :: rest) [] rest := by
  induction words with
  | nil => exact .piece _ rest rest none [] (.newline rest) (.done rest)
  | cons c words inductionHypothesis =>
    have later : newline ∉ words := fun member => inside (List.mem_cons_of_mem c member)
    by_cases opens : c = hash
    · rw [opens]
      exact .piece _ rest rest none [] (.comment words rest later) (.done rest)
    · have unended : c ≠ newline := by
        rintro rfl
        exact inside List.mem_cons_self
      have silent : ¬ emiPort <+: c :: words := by
        rintro ⟨after, split⟩
        exact quiet ⟨[], after, split.symm, List.not_mem_nil⟩
      exact .piece _ _ rest none [] (other_piece ⟨opens, unended⟩ silent)
        (inductionHypothesis later fun loud => quiet (loud.cons opens))

/-- Where `EMI_PORT` begins, a port is assigned. -/
theorem piece_of_prefix {first : Option Assignment} (piece : Piece text first rest)
    (begins : emiPort <+: text) : ∃ port, first = some ⟨text.length, port⟩ := by
  cases piece with
  | newline =>
    obtain ⟨same, _⟩ := List.cons_prefix_cons.mp begins
    exact absurd same (by decide)
  | comment =>
    obtain ⟨same, _⟩ := List.cons_prefix_cons.mp begins
    exact absurd same (by decide)
  | port value stored => exact ⟨_, rfl⟩
  | other c _ _ different => exact absurd begins different

/-- Somewhere in a loud comment text a port is assigned. -/
theorem loud_assigns (inside : newline ∉ words) (loud : Loud words)
    (scanned : Scanned (words ++ newline :: rest) assigned) :
    ∃ assignment ∈ assigned, rest.length < assignment.place ∧
      assignment.place ≤ words.length + (rest.length + 1) := by
  induction words generalizing assigned with
  | nil =>
    obtain ⟨before, after, split, _⟩ := loud
    have lengths := congrArg List.length split
    simp only [List.length_append, List.length_nil, emiPort, List.length_cons] at lengths
    omega
  | cons c words inductionHypothesis =>
    have later : newline ∉ words := fun member => inside (List.mem_cons_of_mem c member)
    by_cases begins : emiPort <+: c :: words
    · cases scanned with
      | piece _ middle first others piece _ =>
        obtain ⟨port, rfl⟩ :=
          piece_of_prefix piece (begins.trans (List.prefix_append _ _))
        refine ⟨_, List.mem_append_left _ (List.mem_singleton_self _), ?_, ?_⟩
        · simp only [List.length_append, List.length_cons]
          omega
        · simp only [List.length_append, List.length_cons]
          exact Nat.le_refl _
    · obtain ⟨before, after, split, unmarked⟩ := loud
      cases before with
      | nil => exact absurd ⟨after, split.symm⟩ begins
      | cons first before =>
        obtain ⟨rfl, remaining⟩ := List.cons.inj split
        have unended : c ≠ newline := by
          rintro rfl
          exact inside List.mem_cons_self
        have ordinary : c ≠ hash := by
          rintro rfl
          exact unmarked List.mem_cons_self
        have laterUnmarked : hash ∉ before := fun member =>
          unmarked (List.mem_cons_of_mem c member)
        obtain ⟨others, scannedLater, rfl⟩ :=
          scanned_behind (other_piece ⟨ordinary, unended⟩ begins) scanned
        obtain ⟨assignment, member, low, high⟩ :=
          inductionHypothesis later ⟨before, after, remaining, laterUnmarked⟩ scannedLater
        refine ⟨assignment, member, low, ?_⟩
        rw [List.length_cons]
        omega

end Pieces

section Values

variable {digits : List Byte}

/-- A digit is no character that the scan treats in a way of its own. -/
theorem digit_ordinary {c : Byte} (digit : isdigit c) : c ≠ hash ∧ c ≠ newline ∧ c ≠ equals := by
  refine ⟨?_, ?_, ?_⟩ <;>
  · rintro rfl
    exact absurd digit (by decide)

/-- Ordinary characters are stored as they are. -/
theorem plain_value {text : List Byte}
    (ordinary : ∀ c ∈ text, c ≠ hash ∧ c ≠ newline ∧ c ≠ equals) : Value text text := by
  induction text with
  | nil => exact .done
  | cons c text inductionHypothesis =>
    exact .plain c text text (ordinary c List.mem_cons_self)
      (inductionHypothesis fun other member => ordinary other (List.mem_cons_of_mem c member))

/-- Of a port and the blanks behind it, everything but the equals sign is stored. -/
theorem port_value (nonempty : digits ≠ []) (decimal : ∀ c ∈ digits, isdigit c) (blanks : Nat) :
    Value (equals :: digits ++ List.replicate blanks space)
      (digits ++ List.replicate blanks space) := by
  cases digits with
  | nil => exact absurd rfl nonempty
  | cons first digits =>
    apply Value.assigned
    apply plain_value
    intro c member
    rcases List.mem_append.mp member with digit | blank
    · exact digit_ordinary (decimal c (List.mem_cons_of_mem first digit))
    · rw [List.eq_of_mem_replicate blank]
      decide

/-- Blanks end a number. -/
theorem digitsValue_blanks (decimal : ∀ c ∈ digits, isdigit c) (blanks value : Nat) :
    digitsValue (digits ++ List.replicate blanks space) value = digitsValue digits value := by
  induction digits generalizing value with
  | nil =>
    cases blanks with
    | zero => rfl
    | succ blanks => rfl
  | cons c digits inductionHypothesis =>
    have digit := decimal c List.mem_cons_self
    rw [List.cons_append, digitsValue, digitsValue, if_pos digit, if_pos digit]
    exact inductionHypothesis (fun other member => decimal other (List.mem_cons_of_mem c member)) _

/-- A digit is no blank. -/
theorem digit_no_space {c : Byte} (digit : isdigit c) : isspace c = false := by
  simp only [isdigit, Bool.and_eq_true, decide_eq_true_eq] at digit
  obtain ⟨low, high⟩ := digit
  apply Bool.eq_false_iff.mpr
  intro blank
  simp only [isspace, Bool.or_eq_true, beq_iff_eq, Bool.and_eq_true, decide_eq_true_eq] at blank
  rcases blank with rfl | control
  · exact absurd low (by decide)
  · omega

/-- `atoi` of a port. -/
theorem atoi_port (nonempty : digits ≠ []) (decimal : ∀ c ∈ digits, isdigit c)
    (small : number digits < 2 ^ 31) (blanks : Nat) :
    atoi (digits ++ List.replicate blanks space) = number digits := by
  have value := digitsValue_blanks decimal blanks 0
  cases digits with
  | nil => exact absurd rfl nonempty
  | cons first digits =>
    have digit := decimal first List.mem_cons_self
    have start : (first :: digits ++ List.replicate blanks space).dropWhile isspace =
        first :: digits ++ List.replicate blanks space :=
      List.dropWhile_cons_of_neg (by rw [digit_no_space digit]; decide)
    rw [atoi, start]
    split
    · rename_i minus
      obtain ⟨rfl, _⟩ := List.cons.inj minus
      exact absurd digit (by decide)
    · rename_i plus
      obtain ⟨rfl, _⟩ := List.cons.inj plus
      exact absurd digit (by decide)
    · rw [value]
      apply min_eq_left
      rw [number] at small
      omega

/-- A port that fits into the buffer is a piece, up to a `#` or a newline. -/
theorem port_piece (nonempty : digits ≠ []) (decimal : ∀ c ∈ digits, isdigit c)
    (small : number digits < 2 ^ 31) (blanks : Nat) (fits : digits.length + blanks < stackSize)
    {stop : Byte} (stops : stop = hash ∨ stop = newline) (rest : List Byte) :
    Piece (emiPort ++ (equals :: digits ++ List.replicate blanks space ++ stop :: rest))
      (some ⟨(emiPort ++ (equals :: digits ++ List.replicate blanks space ++ stop :: rest)).length,
        BitVec.ofNat 32 (number digits)⟩) rest := by
  have terminated : Terminated (digits ++ List.replicate blanks space) := by
    apply Or.inl
    rw [List.length_append, List.length_replicate]
    exact fits
  have assigned : BitVec.ofInt 32 (atoi (digits ++ List.replicate blanks space)) =
      BitVec.ofNat 32 (number digits) := by
    rw [atoi_port nonempty decimal small, BitVec.ofInt_natCast]
  rw [← assigned]
  exact .port _ _ rest stop (port_value nonempty decimal blanks) stops terminated

end Values

/-- What a line itself assigns. -/
def ownAssignment (line : Line) (rest : List Line) : List Assignment :=
  match line.content with
  | .port digits _ => [⟨(configText (line :: rest)).length, BitVec.ofNat 32 (number digits)⟩]
  | .blank | .comment _ => []

/-- The assignments of a file are those of its lines. -/
theorem portAssignments_cons (line : Line) (rest : List Line) :
    portAssignments (line :: rest) = ownAssignment line rest ++ portAssignments rest := by
  rw [portAssignments, ownAssignment]
  cases line.content <;> rfl

/-- What is left of a file when the scan is done with a value. -/
def behindValue (trailing : Option (Nat × List Byte)) (rest : List Byte) : List Byte :=
  match trailing with
  | none => rest
  | some (_, words) => words ++ newline :: rest

/-- A line with a port is scanned up to its newline or the comment behind the port. -/
theorem port_passed (line : Line) (rest : List Line) {digits : List Byte}
    {trailing : Option (Nat × List Byte)} (content : line.content = .port digits trailing) :
    Passed (configText (line :: rest)) (ownAssignment line rest)
      (behindValue trailing (configText rest)) := by
  have valid := line.valid
  have short := line.short
  rw [content] at valid short
  obtain ⟨nonempty, decimal, small, _⟩ := valid
  simp only [Content.bytes, List.length_append, List.length_cons] at short
  rw [ownAssignment, content]
  cases trailing with
  | none =>
    have piece := port_piece nonempty decimal small 0 (by rw [stackSize]; omega) (Or.inr rfl)
      (configText rest)
    have text : emiPort ++ (equals :: digits ++ List.replicate 0 space ++
        newline :: configText rest) = configText (line :: rest) := by
      rw [configText, content]
      simp [Content.bytes, trailingBytes]
    rw [text] at piece
    exact .piece _ _ _ _ [] piece (.done _)
  | some comment =>
    obtain ⟨blanks, words⟩ := comment
    simp only [trailingBytes, List.length_append, List.length_replicate, List.length_cons] at short
    have piece := port_piece nonempty decimal small blanks (by rw [stackSize]; omega) (Or.inl rfl)
      (words ++ newline :: configText rest)
    have text : emiPort ++ (equals :: digits ++ List.replicate blanks space ++
        hash :: (words ++ newline :: configText rest)) = configText (line :: rest) := by
      rw [configText, content]
      simp [Content.bytes, trailingBytes]
    rw [text] at piece
    exact .piece _ _ _ _ [] piece (.done _)

/-- Two stretches one after the other. -/
theorem Passed.trans {first second third : List Byte} {made later : List Assignment}
    (passed : Passed first made second) (onward : Passed second later third) :
    Passed first (made ++ later) third := by
  induction passed with
  | done => exact onward
  | piece text middle rest assigned others piece _ inductionHypothesis =>
    rw [List.append_assoc]
    exact .piece text middle third assigned _ piece (inductionHypothesis onward)

/-- A quiet line is scanned with its own assignment only. -/
theorem line_passed (line : Line) (quiet : line.Quiet) (rest : List Line) :
    Passed (configText (line :: rest)) (ownAssignment line rest) (configText rest) := by
  have valid := line.valid
  cases content : line.content with
  | blank =>
    rw [ownAssignment, configText, content]
    exact .piece _ _ _ none [] (.newline (configText rest)) (.done _)
  | comment words =>
    rw [content] at valid
    rw [ownAssignment, configText, content]
    exact .piece _ _ _ none [] (.comment words (configText rest) valid) (.done _)
  | port digits trailing =>
    have upTo := port_passed line rest content
    rw [content] at valid
    rw [Line.Quiet, content] at quiet
    cases trailing with
    | none => exact upTo
    | some comment =>
      have onward : Passed (comment.2 ++ newline :: configText rest) [] (configText rest) :=
        quiet_passed (valid.2.2.2 comment rfl) quiet
      have whole := upTo.trans onward
      rw [List.append_nil] at whole
      exact whole

/-- A file of quiet lines is scanned with the assignments of its ports. -/
theorem quiet_scanned (lines : List Line) (quiet : ∀ line ∈ lines, line.Quiet) :
    Scanned (configText lines) (portAssignments lines) := by
  induction lines with
  | nil => exact .done
  | cons line rest inductionHypothesis =>
    have later := inductionHypothesis fun other member =>
      quiet other (List.mem_cons_of_mem line member)
    rw [portAssignments_cons]
    exact (line_passed line (quiet line List.mem_cons_self) rest).scanned later

/-- The ports of a file lie in its text. -/
theorem portAssignments_place {lines : List Line} {assignment : Assignment}
    (member : assignment ∈ portAssignments lines) :
    assignment.place ≤ (configText lines).length := by
  induction lines with
  | nil => cases member
  | cons line rest inductionHypothesis =>
    rw [portAssignments_cons] at member
    rcases List.mem_append.mp member with own | later
    · rw [ownAssignment] at own
      cases content : line.content with
      | blank =>
        rw [content] at own
        cases own
      | comment words =>
        rw [content] at own
        cases own
      | port digits trailing =>
        rw [content] at own
        obtain rfl := List.mem_singleton.mp own
        exact Nat.le_refl _
    · have inside := inductionHypothesis later
      rw [configText, List.length_append, List.length_cons]
      omega

/-- A file has ports just when it assigns some. -/
theorem has_port_iff (lines : List Line) :
    (∃ line ∈ lines, line.HasPort) ↔ portAssignments lines ≠ [] := by
  induction lines with
  | nil => simp [portAssignments]
  | cons line rest inductionHypothesis =>
    simp only [List.mem_cons, exists_eq_or_imp, inductionHypothesis]
    rw [portAssignments_cons, ownAssignment, Line.HasPort]
    cases line.content <;> simp

/-- What is scanned of a file assigns inside it. -/
theorem scanned_place {text : List Byte} {assigned : List Assignment}
    (scanned : Scanned text assigned) {assignment : Assignment} (member : assignment ∈ assigned) :
    assignment.place ≤ text.length := by
  induction scanned with
  | done => cases member
  | piece text rest first others piece _ inductionHypothesis =>
    rcases List.mem_append.mp member with own | later
    · cases piece with
      | port value stored =>
        obtain rfl := List.mem_singleton.mp own
        exact Nat.le_refl _
      | newline => cases own
      | comment => cases own
      | other => cases own
    · exact Nat.le_of_lt (Nat.lt_of_le_of_lt (inductionHypothesis later) piece.shorter)

/-- A line that is not quiet has a loud comment behind its port. -/
theorem loud_of_not_quiet {line : Line} (loud : ¬ line.Quiet) :
    ∃ digits blanks words, line.content = .port digits (some (blanks, words)) ∧ Loud words := by
  rw [Line.Quiet] at loud
  split at loud
  · exact ⟨_, _, _, ‹_›, not_not.mp loud⟩
  · exact absurd trivial loud

/-- With a loud comment somewhere, an assignment is made inside a comment. -/
theorem loud_read (lines : List Line) (loud : ∃ line ∈ lines, ¬ line.Quiet)
    {assigned : List Assignment} (scanned : Scanned (configText lines) assigned) :
    ∃ assignment ∈ assigned,
      assignment.place ∉ (portAssignments lines).map Assignment.place := by
  induction lines generalizing assigned with
  | nil =>
    obtain ⟨_, member, _⟩ := loud
    cases member
  | cons line rest inductionHypothesis =>
    have ownPlace {own : Assignment} (member : own ∈ ownAssignment line rest) :
        own.place = (configText (line :: rest)).length := by
      rw [ownAssignment] at member
      split at member
      · obtain rfl := List.mem_singleton.mp member
        rfl
      · cases member
      · cases member
    have length : (configText (line :: rest)).length =
        line.content.bytes.length + ((configText rest).length + 1) := by
      rw [configText, List.length_append, List.length_cons]
    rw [portAssignments_cons]
    by_cases quiet : line.Quiet
    · obtain ⟨later, behind, rfl⟩ := (line_passed line quiet rest).behind scanned
      have loudLater : ∃ line ∈ rest, ¬ line.Quiet := by
        obtain ⟨other, member, noisy⟩ := loud
        rcases List.mem_cons.mp member with rfl | inside
        · exact absurd quiet noisy
        · exact ⟨other, inside, noisy⟩
      obtain ⟨assignment, member, apart⟩ := inductionHypothesis loudLater behind
      refine ⟨assignment, List.mem_append_right _ member, ?_⟩
      rw [List.map_append, List.mem_append]
      rintro (own | other)
      · obtain ⟨start, inside, same⟩ := List.mem_map.mp own
        have bound := scanned_place behind member
        rw [← same, ownPlace inside, length] at bound
        omega
      · exact apart other
    · obtain ⟨digits, blanks, words, content, noisy⟩ := loud_of_not_quiet quiet
      have valid := line.valid
      rw [content] at valid
      obtain ⟨later, behind, rfl⟩ := (port_passed line rest content).behind scanned
      have inside : newline ∉ words := valid.2.2.2 (blanks, words) rfl
      obtain ⟨assignment, member, low, high⟩ := loud_assigns inside noisy behind
      refine ⟨assignment, List.mem_append_right _ member, ?_⟩
      rw [List.map_append, List.mem_append]
      rintro (own | other)
      · obtain ⟨start, inside, same⟩ := List.mem_map.mp own
        have long : words.length < line.content.bytes.length := by
          rw [content]
          simp only [Content.bytes, trailingBytes, List.length_append, List.length_cons]
          omega
        rw [← same, ownPlace inside, length] at high
        omega
      · obtain ⟨port, inside, same⟩ := List.mem_map.mp other
        have bound := portAssignments_place inside
        omega

/-- The scan of a file with these assignments as the result of `get_config`. -/
theorem getConfig_scanned {text : List Byte} {assigned : List Assignment}
    (scanned : Scanned text assigned) (stale : BitVec 32) :
    getConfig (some text) (some stale) = some (.ok (some (assignAll stale assigned))) := by
  rw [getConfig, scan_iff.mpr scanned]
  rfl

/-- The parser reads exactly the configured port of a file just when a line has a port and
no comment behind a port names `EMI_PORT` before its next `#`. -/
theorem reads_exactly_iff (lines : List Line) :
    ReadsExactly lines ↔
      (∃ line ∈ lines, line.HasPort) ∧ ∀ line ∈ lines, line.Quiet := by
  constructor
  · rintro ⟨yields, unread⟩
    have quiet : ∀ line ∈ lines, line.Quiet := by
      by_contra loud
      simp only [not_forall] at loud
      obtain ⟨line, member, noisy⟩ := loud
      obtain ⟨config, parsed, _⟩ := yields 0
      obtain ⟨outcome, scanned, mapped⟩ := Option.map_eq_some_iff.mp parsed
      cases outcome with
      | error fault => cases mapped
      | ok assigned =>
        obtain ⟨assignment, made, apart⟩ :=
          loud_read lines ⟨line, member, noisy⟩ (scan_iff.mp scanned)
        exact apart (unread assigned scanned assignment made)
    refine ⟨(has_port_iff lines).mpr ?_, quiet⟩
    intro none
    obtain ⟨config, parsed, inForce⟩ := yields (usrEmiPort + 1)
    rw [getConfig_scanned (quiet_scanned lines quiet), none] at parsed
    obtain rfl := Except.ok.inj (Option.some.inj parsed)
    rw [configuredPort, none] at inForce
    exact absurd inForce (by decide)
  · rintro ⟨ports, quiet⟩
    have scanned := quiet_scanned lines quiet
    constructor
    · intro stale
      refine ⟨_, getConfig_scanned scanned stale, ?_⟩
      have some := List.getLast?_isSome.mpr ((has_port_iff lines).mp ports)
      obtain ⟨last, ends⟩ := Option.isSome_iff_exists.mp some
      rw [configuredPort, assignAll, assignAll, ends]
      rfl
    · intro assigned made assignment member
      obtain rfl := Except.ok.inj (Option.some.inj ((scan_iff.mpr scanned).symm.trans made))
      exact List.mem_map_of_mem member

/-- `EMI_PORT=80 # EMI_PORT=90`. -/
def commentedPort : Line where
  content := .port [0x38, 0x30] (some (1, space :: emiPort ++ [equals, 0x39, 0x30]))
  valid := by
    refine ⟨by decide, by decide, by decide, ?_⟩
    intro comment member
    obtain rfl := Option.some.inj member
    decide
  short := by decide

/-- The port of the comment is in force. -/
theorem comment_in_force : ¬ ∀ lines, YieldsConfiguredPort lines := by
  intro claimed
  obtain ⟨config, parsed, inForce⟩ := claimed [commentedPort] 0
  have scanned : getConfig (some (configText [commentedPort])) (some 0) =
      some (.ok (some 90)) := rfl
  obtain rfl := Except.ok.inj (Option.some.inj (scanned.symm.trans parsed))
  exact absurd inForce (by decide)

end Emilib.ConfigPort
