import Emilib.Replies

/-!
# Which replies keep the sender inside its buffer

`emi_msg_read_retdata` trusts the size field of each record of the received bytes
to find the next header, and looks at the remaining length only after the record
was used. Here the bytes are arbitrary. The headers the loop uses are followed in
the buffer as it changes, and `for_each_retdata` walks the links it leaves.

The sizes name a list of headers in the received bytes themselves. As long as no
two of these headers overlap, they are the ones the loop uses, and the walk visits
each of them up to the last one.
-/

namespace Emilib.ReplyBounds

open ByteWords Messages Transfers SharedBlocks Requests ReturnData Replies

/-- The headers that the loop of `emi_msg_read_retdata` uses, up to the first one
whose fields are not in the buffer. -/
def relinkHeaders (order : ByteOrder) (message : EmiMsg) :
    Nat → List Byte → Nat → Int → List Nat
  | 0, _, _, _ => []
  | fuel + 1, buffer, data, leftSize => data ::
      (do
        let size ← loadSize order buffer data
        let nextOffset := message.retdataOffset + size.setWidth 64 + BitVec.ofNat 64 sizeofRetdata
        let buffer ← storeNextOffset order buffer data nextOffset
        let leftSize := leftSize - (size.toNat + sizeofRetdata)
        if leftSize > 0 then
          return relinkHeaders order message fuel buffer (bufferIndex message nextOffset) leftSize
        else none).getD []

/-- The bytes at `retdata_offset` after `got` was read over what the storage held. -/
def received (got stale : List Byte) : List Byte := got ++ stale.drop got.length

/-- Every header the loop uses lies in the buffer. -/
def HeadersInside (order : ByteOrder) (message : EmiMsg) (content : List Byte) : Prop :=
  ∀ data ∈ relinkHeaders order message (message.retsize.toNat + 1) content 0
    message.retsize.toNat, data + sizeofRetdata ≤ content.length

/-- The reading of the return data ends, inside its buffer, and a later
`for_each_retdata` does so too. A header or an area outside has no result there. -/
structure Contained (order : ByteOrder) (address : Address) (message : EmiMsg)
    (stale got : List Byte) (source : Source) : Prop where
  headers : HeadersInside order message (received got stale)
  finishes : ∃ linked rest, emiMsgReadRetdata order message stale source =
      some (0, ⟨message, some linked, rest⟩) ∧
    ∃ fuel visited, forEachRetdata order address message linked fuel none = some visited

/-- The size of the record at an index of the buffer. -/
def sizeAt (order : ByteOrder) (buffer : List Byte) (index : Nat) : Nat :=
  (word32 order ((buffer.drop (index + 8)).take 4)).toNat

/-- The link of the record at an index of the buffer. -/
def linkAt (order : ByteOrder) (buffer : List Byte) (index : Nat) : Address :=
  word64 order ((buffer.drop index).take 8)

/-- Where the header after the one at an index is taken: the length of the record,
counted from the start of the buffer. -/
def following (order : ByteOrder) (buffer : List Byte) (index : Nat) : Nat :=
  sizeAt order buffer index + sizeofRetdata

/-- The headers that the sizes in the received bytes name, from this one on, while
their records do not use up the remaining length. -/
def namedHeaders (order : ByteOrder) (content : List Byte) : Nat → Nat → Nat → List Nat
  | 0, _, _ => []
  | fuel + 1, index, left => index ::
      if following order content index < left then
        namedHeaders order content fuel (following order content index)
          (left - following order content index)
      else []

/-- The last one of them. -/
def lastHeader (order : ByteOrder) (content : List Byte) : Nat → Nat → Nat → Nat
  | 0, index, _ => index
  | fuel + 1, index, left =>
      if following order content index < left then
        lastHeader order content fuel (following order content index)
          (left - following order content index)
      else index

/-- Two headers are the same, or the link and the size of neither meet the other's. -/
def Separate (left right : Nat) : Prop := left = right ∨ left + 12 ≤ right ∨ right + 12 ≤ left

instance (left right : Nat) : Decidable (Separate left right) :=
  inferInstanceAs (Decidable (_ ∨ _ ∨ _))

/-- No two of the named headers overlap. -/
def Clear (order : ByteOrder) (content : List Byte) : Prop :=
  ∀ left ∈ namedHeaders order content (content.length + 1) 0 content.length,
    ∀ right ∈ namedHeaders order content (content.length + 1) 0 content.length, Separate left right

instance (order : ByteOrder) (content : List Byte) : Decidable (Clear order content) :=
  List.decidableBAll _ _

/-- There is room for the first header, and for a second one if the first record
does not use up the bytes. -/
def Roomy (order : ByteOrder) (content : List Byte) : Prop :=
  sizeofRetdata ≤ content.length ∧ (following order content 0 < content.length →
    following order content 0 + sizeofRetdata ≤ content.length)

instance (order : ByteOrder) (content : List Byte) : Decidable (Roomy order content) :=
  inferInstanceAs (Decidable (_ ∧ _))

/-- The record of the last named header ends in the received bytes. -/
def EndsInside (order : ByteOrder) (content : List Byte) : Prop :=
  let last := lastHeader order content (content.length + 1) 0 content.length
  last + following order content last ≤ content.length

instance (order : ByteOrder) (content : List Byte) : Decidable (EndsInside order content) :=
  inferInstanceAs (Decidable (_ ≤ _))

section Fields

variable {order : ByteOrder} {buffer linked : List Byte} {index place : Nat} {offset : Address}

/-- A link is stored when its eight bytes are in the buffer. -/
theorem storeNextOffset_inside (order : ByteOrder) (offset : Address)
    (inside : index + sizeofRetdata ≤ buffer.length) :
    ∃ linked, storeNextOffset order buffer index offset = some linked := by
  simp only [sizeofRetdata] at inside
  exact ⟨_, if_pos (by omega)⟩

/-- Storing a link leaves the length. -/
theorem stored_length (stored : storeNextOffset order buffer index offset = some linked) :
    linked.length = buffer.length := by
  obtain ⟨inside, same⟩ := Option.ite_none_right_eq_some.mp stored
  obtain rfl := Option.some.inj same
  have kept := spliced_length buffer (bytes64 order offset) index
    (by rw [bytes64_length]; exact inside)
  rw [bytes64_length] at kept
  exact kept

/-- Storing a link leaves the sizes of this header and of those apart from it. -/
theorem stored_size (stored : storeNextOffset order buffer index offset = some linked)
    (apart : Separate place index) : sizeAt order linked place = sizeAt order buffer place := by
  obtain ⟨inside, same⟩ := Option.ite_none_right_eq_some.mp stored
  obtain rfl := Option.some.inj same
  have away : place + 8 + 4 ≤ index ∨ index + 8 ≤ place + 8 := by
    simp only [Separate] at apart
    omega
  have kept := slice_spliced buffer (bytes64 order offset) index (place + 8) 4
    (by rw [bytes64_length]; exact inside) (by rw [bytes64_length]; exact away)
  rw [bytes64_length] at kept
  rw [sizeAt, sizeAt, kept]

/-- Storing a link leaves the links of the headers apart from this one. -/
theorem stored_link_apart (stored : storeNextOffset order buffer index offset = some linked)
    (apart : Separate place index) (different : place ≠ index) :
    linkAt order linked place = linkAt order buffer place := by
  obtain ⟨inside, same⟩ := Option.ite_none_right_eq_some.mp stored
  obtain rfl := Option.some.inj same
  have away : place + 8 ≤ index ∨ index + 8 ≤ place := by
    simp only [Separate] at apart
    omega
  have kept := slice_spliced buffer (bytes64 order offset) index place 8
    (by rw [bytes64_length]; exact inside) (by rw [bytes64_length]; exact away)
  rw [bytes64_length] at kept
  rw [linkAt, linkAt, kept]

/-- A stored link is read back. -/
theorem stored_link (stored : storeNextOffset order buffer index offset = some linked) :
    linkAt order linked index = offset := by
  obtain ⟨inside, same⟩ := Option.ite_none_right_eq_some.mp stored
  obtain rfl := Option.some.inj same
  have field := spliced_slice buffer (bytes64 order offset) index
    (by rw [bytes64_length]; exact inside)
  rw [bytes64_length] at field
  rw [linkAt, field, word64_bytes64]

end Fields

section Rounds

variable {order : ByteOrder} {message : EmiMsg} {content buffer : List Byte} {index : Nat}

/-- A round at a header inside the buffer. -/
theorem relink_round (order : ByteOrder) (message : EmiMsg) (fuel : Nat) (left : Int)
    (inside : index + sizeofRetdata ≤ buffer.length) :
    ∃ linked, storeNextOffset order buffer index
        (message.retdataOffset + BitVec.ofNat 64 (following order buffer index)) = some linked ∧
      relinkLoop order message (fuel + 1) buffer index left =
        (if left - following order buffer index > 0 then
          relinkLoop order message fuel linked (following order buffer index)
            (left - following order buffer index)
        else storeNextOffset order linked index 0) ∧
      relinkHeaders order message (fuel + 1) buffer index left = index ::
        (if left - following order buffer index > 0 then
          relinkHeaders order message fuel linked (following order buffer index)
            (left - following order buffer index)
        else []) := by
  have link : message.retdataOffset +
      (word32 order ((buffer.drop (index + 8)).take 4)).setWidth 64 +
        BitVec.ofNat 64 sizeofRetdata =
      message.retdataOffset + BitVec.ofNat 64 (following order buffer index) := by
    rw [BitVec.add_assoc]
    congr 1
  have next := bufferIndex_following message (word32 order ((buffer.drop (index + 8)).take 4))
  rw [link] at next
  have size : loadSize order buffer index =
      some (word32 order ((buffer.drop (index + 8)).take 4)) := by
    simp only [sizeofRetdata] at inside
    exact if_pos (by omega)
  obtain ⟨linked, stored⟩ := storeNextOffset_inside order
    (message.retdataOffset + BitVec.ofNat 64 (following order buffer index)) inside
  refine ⟨linked, stored, ?_, ?_⟩
  · simp only [relinkLoop, size, Option.bind_eq_bind, Option.bind_some, link, stored, next]
    rfl
  · simp only [relinkHeaders, size, Option.bind_eq_bind, Option.bind_some, link, stored, next]
    have counted : ((following order buffer index : Nat) : Int) =
        (word32 order ((buffer.drop (index + 8)).take 4)).toNat + sizeofRetdata := rfl
    rw [counted]
    split
    · rfl
    · rfl

/-- After the first round no header lies outside, whatever the bytes are, and the
loop ends: the remaining length has lost at least a header by then. -/
theorem relinking_inside (order : ByteOrder) (message : EmiMsg) (fuel : Nat)
    (buffer : List Byte) (index : Nat) (left : Int)
    (inside : index + sizeofRetdata ≤ buffer.length)
    (used : left + sizeofRetdata ≤ buffer.length) (enough : left < fuel) (remains : 0 < left) :
    (∀ data ∈ relinkHeaders order message fuel buffer index left,
      data + sizeofRetdata ≤ buffer.length) ∧
      ∃ linked, relinkLoop order message fuel buffer index left = some linked := by
  induction fuel generalizing buffer index left with
  | zero => omega
  | succ fuel inductionHypothesis =>
    obtain ⟨linked, stored, looped, visited⟩ := relink_round order message fuel left inside
    have length := stored_length stored
    have atLeast : sizeofRetdata ≤ following order buffer index := Nat.le_add_left _ _
    have positive : 0 < sizeofRetdata := by decide
    rw [looped, visited]
    by_cases more : left - following order buffer index > 0
    · obtain ⟨within, ends⟩ := inductionHypothesis linked (following order buffer index)
        (left - following order buffer index) (by omega) (by omega) (by omega) more
      rw [if_pos more, if_pos more]
      refine ⟨?_, ends⟩
      intro data member
      rcases List.mem_cons.mp member with rfl | later
      · exact inside
      · rw [← length]
        exact within data later
    · rw [if_neg more, if_neg more]
      refine ⟨?_, storeNextOffset_inside order 0 (by rw [length]; exact inside)⟩
      intro data member
      obtain rfl := List.mem_singleton.mp member
      exact inside

/-- The loop uses the header it is at. -/
theorem relinkHeaders_first (order : ByteOrder) (message : EmiMsg) (fuel : Nat)
    (buffer : List Byte) (index : Nat) (left : Int) (remains : 0 < fuel) :
    index ∈ relinkHeaders order message fuel buffer index left := by
  cases fuel with
  | zero => exact absurd remains (Nat.lt_irrefl 0)
  | succ fuel => exact List.mem_cons_self

/-- The relinking stays inside its buffer exactly when there is room for the first
header, and for a second one unless the first record uses up the bytes. -/
theorem headersInside_iff (order : ByteOrder) (message : EmiMsg) (content : List Byte)
    (counted : content.length = message.retsize.toNat) (filled : 0 < content.length) :
    (HeadersInside order message content ∧
      ∃ linked, relinkLoop order message (message.retsize.toNat + 1) content 0
        message.retsize.toNat = some linked) ↔ Roomy order content := by
  rw [HeadersInside, ← counted]
  constructor
  · rintro ⟨inside, _⟩
    have first := inside 0 (relinkHeaders_first order message _ content 0 _ (Nat.succ_pos _))
    refine ⟨by omega, ?_⟩
    intro more
    obtain ⟨linked, _, _, visited⟩ :=
      relink_round order message content.length (content.length : Int) first
    apply inside (following order content 0)
    rw [visited, if_pos (by omega)]
    exact List.mem_cons_of_mem _ (relinkHeaders_first order message _ linked _ _ filled)
  · rintro ⟨first, second⟩
    have start : 0 + sizeofRetdata ≤ content.length := by omega
    obtain ⟨linked, stored, looped, visited⟩ :=
      relink_round order message content.length (content.length : Int) start
    have length := stored_length stored
    have atLeast : sizeofRetdata ≤ following order content 0 := Nat.le_add_left _ _
    have positive : 0 < sizeofRetdata := by decide
    rw [looped, visited]
    by_cases more : following order content 0 < content.length
    · have room := second more
      obtain ⟨within, ends⟩ := relinking_inside order message content.length linked
        (following order content 0) (content.length - following order content 0) (by omega)
        (by omega) (by omega) (by omega)
      rw [if_pos (by omega), if_pos (by omega)]
      refine ⟨?_, ends⟩
      intro data member
      rcases List.mem_cons.mp member with rfl | later
      · exact start
      · rw [← length]
        exact within data later
    · rw [if_neg (by omega), if_neg (by omega)]
      refine ⟨?_, storeNextOffset_inside order 0 (by rw [length]; exact start)⟩
      intro data member
      obtain rfl := List.mem_singleton.mp member
      exact start

/-- A buffer that has the sizes of the received bytes at these headers. -/
structure Kept (order : ByteOrder) (content : List Byte) (known : List Nat)
    (buffer : List Byte) : Prop where
  length : buffer.length = content.length
  sizes : ∀ header ∈ known, sizeAt order buffer header = sizeAt order content header

/-- Storing the link of one of several separate headers keeps the sizes of all. -/
theorem Kept.stored {known : List Nat} {linked : List Byte} {offset : Address}
    (kept : Kept order content known buffer)
    (separate : ∀ left ∈ known, ∀ right ∈ known, Separate left right) (member : index ∈ known)
    (stored : storeNextOffset order buffer index offset = some linked) :
    Kept order content known linked := by
  constructor
  · rw [stored_length stored, kept.length]
  · intro header present
    rw [stored_size stored (separate header present index member), kept.sizes header present]

/-- The last named header is one of them. -/
theorem lastHeader_named (order : ByteOrder) (content : List Byte) (fuel index left : Nat)
    (remains : 0 < left) (enough : left ≤ fuel) :
    lastHeader order content fuel index left ∈ namedHeaders order content fuel index left := by
  induction fuel generalizing index left with
  | zero => omega
  | succ fuel inductionHypothesis =>
    have atLeast : 0 < following order content index := Nat.succ_pos _
    rw [lastHeader, namedHeaders]
    by_cases more : following order content index < left
    · rw [if_pos more, if_pos more]
      exact List.mem_cons_of_mem index (inductionHypothesis _ _ (by omega) (by omega))
    · rw [if_neg more, if_neg more]
      exact List.mem_cons_self

/-- What the loop makes of separate headers: each links to the next one by its own
size, the last one has no link, and the links of other headers stay.

The induction is on the rounds. A header may come up again, and then has the link of
its last round. -/
theorem relinkLoop_clear {known : List Nat} (fuel index left : Nat) (buffer : List Byte)
    (kept : Kept order content known buffer)
    (inside : ∀ header ∈ known, header + sizeofRetdata ≤ content.length)
    (separate : ∀ left ∈ known, ∀ right ∈ known, Separate left right)
    (listed : ∀ header ∈ namedHeaders order content fuel index left, header ∈ known)
    (remains : 0 < left) (enough : left ≤ fuel) :
    ∃ linked, relinkLoop order message fuel buffer index left = some linked ∧
      Kept order content known linked ∧
      (∀ header ∈ namedHeaders order content fuel index left, linkAt order linked header =
        if header = lastHeader order content fuel index left then 0
        else message.retdataOffset + BitVec.ofNat 64 (following order content header)) ∧
      ∀ header ∈ known, header ∉ namedHeaders order content fuel index left →
        linkAt order linked header = linkAt order buffer header := by
  induction fuel generalizing index left buffer with
  | zero => omega
  | succ fuel inductionHypothesis =>
    have here : index ∈ known := listed index List.mem_cons_self
    have room : index + sizeofRetdata ≤ buffer.length := by
      rw [kept.length]
      exact inside index here
    have size : following order buffer index = following order content index := by
      rw [following, following, kept.sizes index here]
    obtain ⟨linked, stored, looped, _⟩ := relink_round order message fuel (left : Int) room
    have keptOn := kept.stored separate here stored
    have atLeast : sizeofRetdata ≤ following order content index := Nat.le_add_left _ _
    have positive : 0 < sizeofRetdata := by decide
    rw [size] at stored looped
    rw [looped]
    by_cases more : following order content index < left
    · have count : (left : Int) - following order content index =
          ((left - following order content index : Nat) : Int) := by omega
      have names : namedHeaders order content (fuel + 1) index left =
          index :: namedHeaders order content fuel (following order content index)
            (left - following order content index) := by
        rw [namedHeaders, if_pos more]
      have last : lastHeader order content (fuel + 1) index left =
          lastHeader order content fuel (following order content index)
            (left - following order content index) := by
        rw [lastHeader, if_pos more]
      obtain ⟨final, ends, keptLast, links, others⟩ := inductionHypothesis
        (following order content index) (left - following order content index) linked keptOn
        (fun header member => listed header (names ▸ List.mem_cons_of_mem _ member))
        (by omega) (by omega)
      rw [if_pos (by omega), count, names, last]
      refine ⟨final, ends, keptLast, ?_, ?_⟩
      · intro header member
        by_cases again : header ∈ namedHeaders order content fuel (following order content index)
            (left - following order content index)
        · exact links header again
        · obtain rfl : header = index := (List.mem_cons.mp member).resolve_right again
          have notLast : header ≠ lastHeader order content fuel (following order content header)
              (left - following order content header) := by
            intro same
            have named := lastHeader_named order content fuel (following order content header)
              (left - following order content header) (by omega) (by omega)
            rw [← same] at named
            exact again named
          rw [if_neg notLast, others header here again, stored_link stored]
      · intro header present absent
        obtain ⟨different, later⟩ := not_or.mp (mt List.mem_cons.mpr absent)
        rw [others header present later,
          stored_link_apart stored (separate header present index here) different]
    · have names : namedHeaders order content (fuel + 1) index left = [index] := by
        rw [namedHeaders, if_neg more]
      have last : lastHeader order content (fuel + 1) index left = index := by
        rw [lastHeader, if_neg more]
      obtain ⟨final, storedLast⟩ := storeNextOffset_inside order 0
        (show index + sizeofRetdata ≤ linked.length by rw [keptOn.length]; exact inside index here)
      rw [if_neg (by omega), names, last]
      refine ⟨final, storedLast, keptOn.stored separate here storedLast, ?_, ?_⟩
      · intro header member
        obtain rfl := List.mem_singleton.mp member
        rw [if_pos rfl, stored_link storedLast]
      · intro header present absent
        have different : header ≠ index := fun same => absent (List.mem_singleton.mpr same)
        have apart := separate header present index here
        rw [stored_link_apart storedLast apart different,
          stored_link_apart stored apart different]

end Rounds

section Walks

variable {order : ByteOrder} {address : Address} {message : EmiMsg} {content linked : List Byte}

/-- The walk ends from there when the record is loaded and the walk ends after it. -/
theorem walk_visit (order : ByteOrder) (buffer : List Byte) (index : Nat)
    (data : Option EmiRetdata) (nonzero : message.retsize ≠ 0) (bounded : index < 2 ^ 64)
    (follows : followed message data = message.retdataOffset + BitVec.ofNat 64 index)
    (apart : getAddr address (message.retdataOffset + BitVec.ofNat 64 index) ≠ address) :
    (∃ steps visited, forEachRetdata order address message buffer steps data = some visited) ↔
      ∃ block, loadBlock order buffer index = some block ∧
        ∃ steps visited,
          forEachRetdata order address message buffer steps (some block) = some visited := by
  have visit (steps : Nat) :=
    forEachRetdata_visit order address message buffer steps index data nonzero bounded follows
      apart
  constructor
  · rintro ⟨steps, visited, walked⟩
    cases steps with
    | zero => cases walked
    | succ steps =>
      rw [visit] at walked
      obtain ⟨block, loaded, rest⟩ := Option.bind_eq_some_iff.mp walked
      obtain ⟨others, walkedOn, _⟩ := Option.map_eq_some_iff.mp rest
      exact ⟨block, loaded, steps, others, walkedOn⟩
  · rintro ⟨block, loaded, steps, others, walkedOn⟩
    refine ⟨steps + 1, block :: others, ?_⟩
    rw [visit, loaded, Option.bind_some, walkedOn, Option.map_some]

/-- A record that ends in the buffer is loaded with its link. -/
theorem loadBlock_inside (order : ByteOrder) (buffer : List Byte) (index : Nat)
    (inside : index + following order buffer index ≤ buffer.length) :
    ∃ block, loadBlock order buffer index = some block ∧
      block.nextOffset = linkAt order buffer index := by
  refine ⟨_, if_pos ?_, rfl⟩
  simp only [following, sizeAt] at inside
  omega

/-- A record that is loaded ends in the buffer. -/
theorem inside_of_loadBlock {buffer : List Byte} {index : Nat} {block : EmiRetdata}
    (loaded : loadBlock order buffer index = some block) :
    index + following order buffer index ≤ buffer.length ∧
      block.nextOffset = linkAt order buffer index := by
  obtain ⟨inside, same⟩ := Option.ite_none_right_eq_some.mp loaded
  obtain rfl := Option.some.inj same
  refine ⟨?_, rfl⟩
  simp only [following, sizeAt]
  omega

/-- The links of a buffer lead through the named headers to the last one. -/
structure Leads (order : ByteOrder) (message : EmiMsg) (content linked : List Byte)
    (fuel index left : Nat) : Prop where
  length : linked.length = content.length
  sizes : ∀ header ∈ namedHeaders order content fuel index left,
    following order linked header = following order content header
  links : ∀ header ∈ namedHeaders order content fuel index left, linkAt order linked header =
    if header = lastHeader order content fuel index left then 0
    else message.retdataOffset + BitVec.ofNat 64 (following order content header)

/-- A header that is not the last one leads on to the next one. -/
theorem Leads.onward {fuel index left : Nat}
    (leads : Leads order message content linked (fuel + 1) index left)
    (different : index ≠ lastHeader order content (fuel + 1) index left) :
    following order content index < left ∧
      Leads order message content linked fuel (following order content index)
        (left - following order content index) ∧
      lastHeader order content (fuel + 1) index left =
        lastHeader order content fuel (following order content index)
          (left - following order content index) := by
  have more : following order content index < left := by
    by_contra ends
    rw [lastHeader, if_neg ends] at different
    exact different rfl
  have names : namedHeaders order content (fuel + 1) index left =
      index :: namedHeaders order content fuel (following order content index)
        (left - following order content index) := by
    rw [namedHeaders, if_pos more]
  have last : lastHeader order content (fuel + 1) index left =
      lastHeader order content fuel (following order content index)
        (left - following order content index) := by
    rw [lastHeader, if_pos more]
  refine ⟨more, ⟨leads.length, ?_, ?_⟩, last⟩
  · intro header member
    exact leads.sizes header (names ▸ List.mem_cons_of_mem _ member)
  · intro header member
    rw [← last]
    exact leads.links header (names ▸ List.mem_cons_of_mem _ member)

/-- The walk from a named header ends exactly when the last record ends in the buffer.

The induction follows the named headers; the walk may skip some of them when a
header comes up twice, but only on the way to the last one. -/
theorem walk_ends_iff (address : Address) (fuel index left : Nat) (data : Option EmiRetdata)
    (leads : Leads order message content linked fuel index left)
    (nonzero : message.retsize ≠ 0)
    (apart : ∀ place < content.length,
      getAddr address (message.retdataOffset + BitVec.ofNat 64 place) ≠ address)
    (small : content.length < 2 ^ 64)
    (inside : ∀ header ∈ namedHeaders order content fuel index left,
      header < content.length)
    (follows : followed message data = message.retdataOffset + BitVec.ofNat 64 index)
    (within : index + left ≤ content.length) (remains : 0 < left) (enough : left ≤ fuel) :
    (∃ steps visited,
      forEachRetdata order address message linked steps data = some visited) ↔
      lastHeader order content fuel index left +
        following order content (lastHeader order content fuel index left) ≤ content.length := by
  induction fuel generalizing index left data with
  | zero => omega
  | succ fuel inductionHypothesis =>
    have here : index ∈ namedHeaders order content (fuel + 1) index left := List.mem_cons_self
    have place := inside index here
    have size := leads.sizes index here
    have link := leads.links index here
    have visit := walk_visit order linked index data nonzero (by omega) follows
      (apart index place)
    by_cases last : index = lastHeader order content (fuel + 1) index left
    · rw [if_pos last] at link
      rw [← last, visit]
      constructor
      · rintro ⟨block, loaded, _⟩
        have room := (inside_of_loadBlock loaded).1
        rw [size, leads.length] at room
        exact room
      · intro room
        obtain ⟨block, loaded, next⟩ :=
          loadBlock_inside order linked index (by rw [size, leads.length]; exact room)
        have home : followed message (some block) = 0 := next.trans link
        exact ⟨block, loaded, 1, [],
          forEachRetdata_end order address message linked 0 (some block) home⟩
    · rw [if_neg last] at link
      obtain ⟨more, onward, same⟩ := leads.onward last
      obtain ⟨block, loaded, next⟩ :=
        loadBlock_inside order linked index (by rw [size, leads.length]; omega)
      have names : namedHeaders order content (fuel + 1) index left =
          index :: namedHeaders order content fuel (following order content index)
            (left - following order content index) := by
        rw [namedHeaders, if_pos more]
      have atLeast : 0 < following order content index := Nat.succ_pos _
      have rest := inductionHypothesis (following order content index)
        (left - following order content index) (some block) onward
        (fun header member => inside header (names ▸ List.mem_cons_of_mem _ member))
        (next.trans link) (by omega) (by omega) (by omega)
      rw [same, ← rest, visit]
      constructor
      · rintro ⟨other, otherLoaded, walks⟩
        obtain rfl := Option.some.inj (loaded.symm.trans otherLoaded)
        exact walks
      · exact fun walks => ⟨block, loaded, walks⟩

end Walks

/-- The named headers lie in the buffer when there is room for the first two. -/
theorem namedHeaders_inside (order : ByteOrder) (content : List Byte) (fuel index left : Nat)
    (inside : index + sizeofRetdata ≤ content.length)
    (second : following order content index < left →
      following order content index + sizeofRetdata ≤ content.length)
    (used : left ≤ content.length) :
    ∀ header ∈ namedHeaders order content fuel index left,
      header + sizeofRetdata ≤ content.length := by
  induction fuel generalizing index left with
  | zero => exact fun header member => absurd member List.not_mem_nil
  | succ fuel inductionHypothesis =>
    intro header member
    rw [namedHeaders] at member
    rcases List.mem_cons.mp member with rfl | later
    · exact inside
    · by_cases more : following order content index < left
      · rw [if_pos more] at later
        have atLeast : sizeofRetdata ≤ following order content index := Nat.le_add_left _ _
        exact inductionHypothesis (following order content index)
          (left - following order content index) (second more) (by omega) (by omega) header later
      · rw [if_neg more] at later
        exact absurd later List.not_mem_nil

section Reading

variable {order : ByteOrder} {address : Address} {message : EmiMsg} {stale got : List Byte}
  {source after : Source}

/-- The bytes in the buffer are as many as announced. -/
theorem received_length (read : emiRead source message.retsize = some (0, got, after))
    (room : stale.length = message.retsize.toNat) :
    (received got stale).length = message.retsize.toNat := by
  obtain ⟨rest, exact, _⟩ := emiRead_exact source message.retsize
  obtain ⟨_, same⟩ := Prod.mk.inj (Option.some.inj (read.symm.trans exact))
  obtain ⟨rfl, _⟩ := Prod.mk.inj same
  have short : (source.bytes.take message.retsize.toNat).length ≤ message.retsize.toNat := by
    rw [List.length_take]
    exact Nat.min_le_left _ _
  rw [received, List.length_append, List.length_drop]
  omega

/-- The reading of the return data ends as the relinking does. -/
theorem emiMsgReadRetdata_relinked
    (read : emiRead source message.retsize = some (0, got, after)) (linked : List Byte)
    (rest : Source) :
    emiMsgReadRetdata order message stale source = some (0, ⟨message, some linked, rest⟩) ↔
      relinkLoop order message (message.retsize.toNat + 1) (received got stale) 0
        message.retsize.toNat = some linked ∧ after = rest := by
  have unfolded : emiMsgReadRetdata order message stale source =
      (relinkLoop order message (message.retsize.toNat + 1) (received got stale) 0
        message.retsize.toNat).map fun buffer => (0, ⟨message, some buffer, after⟩) := by
    rw [emiMsgReadRetdata, read]
    simp only [Option.bind_eq_bind, Option.bind_some, ne_eq, not_true, if_false, received]
    cases relinkLoop order message (message.retsize.toNat + 1) (got ++ stale.drop got.length) 0
      message.retsize.toNat <;> rfl
  rw [unfolded, Option.map_eq_some_iff]
  constructor
  · rintro ⟨buffer, relinked, same⟩
    obtain ⟨rfl, rfl⟩ : buffer = linked ∧ after = rest := by simpa using same
    exact ⟨relinked, rfl⟩
  · rintro ⟨relinked, rfl⟩
    exact ⟨linked, relinked, rfl⟩

/-- Where no two headers overlap and the relinking has room, the reply is contained
exactly when the last record ends inside. -/
theorem contained_iff_ends (read : emiRead source message.retsize = some (0, got, after))
    (room : stale.length = message.retsize.toNat) (nonzero : message.retsize ≠ 0)
    (apart : ∀ place < message.retsize.toNat,
      getAddr address (message.retdataOffset + BitVec.ofNat 64 place) ≠ address)
    (clear : Clear order (received got stale)) (roomy : Roomy order (received got stale)) :
    Contained order address message stale got source ↔ EndsInside order (received got stale) := by
  have counted := received_length read room
  have bound : message.retsize.toNat < 2 ^ 32 := message.retsize.isLt
  have filled : 0 < (received got stale).length := Nat.lt_of_lt_of_le (by decide) roomy.1
  obtain ⟨headers, _⟩ := (headersInside_iff order message _ counted filled).mpr roomy
  have start : 0 + sizeofRetdata ≤ (received got stale).length := by
    rw [Nat.zero_add]
    exact roomy.1
  have inside := namedHeaders_inside order (received got stale)
    ((received got stale).length + 1) 0 (received got stale).length start roomy.2 (Nat.le_refl _)
  have positive : 0 < sizeofRetdata := by decide
  obtain ⟨linked, relinked, kept, links, _⟩ := relinkLoop_clear
    ((received got stale).length + 1) 0 (received got stale).length (received got stale)
    ⟨rfl, fun _ _ => rfl⟩ inside clear (fun _ member => member) filled (Nat.le_succ _)
  have leads : Leads order message (received got stale) linked
      ((received got stale).length + 1) 0 (received got stale).length := by
    refine ⟨kept.length, ?_, links⟩
    intro header member
    rw [following, following, kept.sizes header member]
  have walks := walk_ends_iff address _ 0 _ none leads nonzero
    (by rw [counted]; exact apart) (by omega)
    (fun header member => Nat.lt_of_lt_of_le (Nat.lt_add_of_pos_right positive)
      (inside header member))
    (BitVec.add_zero _).symm (by omega) filled (Nat.le_succ _)
  rw [counted] at relinked
  constructor
  · rintro ⟨_, other, rest, readBack, walked⟩
    obtain ⟨otherRelinked, _⟩ := (emiMsgReadRetdata_relinked read other rest).mp readBack
    obtain rfl := Option.some.inj (relinked.symm.trans otherRelinked)
    exact walks.mp walked
  · intro ends
    exact ⟨headers, linked, after,
      (emiMsgReadRetdata_relinked read linked after).mpr ⟨relinked, rfl⟩, walks.mpr ends⟩

/-- The relinking of any reply stays inside the buffer exactly when there is room for
the first two headers. A reply without overlapping headers is contained exactly when,
besides, the record of the last header ends inside. -/
theorem reply_contained_iff (order : ByteOrder) (address : Address) (message : EmiMsg)
    (stale got : List Byte) (source after : Source)
    (read : emiRead source message.retsize = some (0, got, after))
    (room : stale.length = message.retsize.toNat) (nonzero : message.retsize ≠ 0)
    (apart : ∀ place < message.retsize.toNat,
      getAddr address (message.retdataOffset + BitVec.ofNat 64 place) ≠ address) :
    (Roomy order (received got stale) ∧ Clear order (received got stale) ∧
        EndsInside order (received got stale) →
      Contained order address message stale got source) ∧
    (Clear order (received got stale) → Contained order address message stale got source →
      Roomy order (received got stale) ∧ EndsInside order (received got stale)) ∧
    (HeadersInside order message (received got stale) ∧
        (∃ linked rest, emiMsgReadRetdata order message stale source =
          some (0, ⟨message, some linked, rest⟩)) ↔
      Roomy order (received got stale)) := by
  have counted := received_length read room
  have filled : 0 < (received got stale).length := by
    rw [counted]
    exact BitVec.toNat_pos_of_ne_zero nonzero
  have relinking := headersInside_iff order message _ counted filled
  have completes : (∃ linked rest, emiMsgReadRetdata order message stale source =
      some (0, ⟨message, some linked, rest⟩)) ↔
      ∃ linked, relinkLoop order message (message.retsize.toNat + 1) (received got stale) 0
        message.retsize.toNat = some linked := by
    constructor
    · rintro ⟨linked, rest, readBack⟩
      exact ⟨linked, ((emiMsgReadRetdata_relinked read linked rest).mp readBack).1⟩
    · rintro ⟨linked, relinked⟩
      exact ⟨linked, after, (emiMsgReadRetdata_relinked read linked after).mpr ⟨relinked, rfl⟩⟩
  rw [← completes] at relinking
  refine ⟨?_, ?_, relinking⟩
  · rintro ⟨roomy, clear, ends⟩
    exact (contained_iff_ends read room nonzero apart clear roomy).mpr ends
  · intro clear contained
    obtain ⟨linked, rest, readBack, _⟩ := contained.finishes
    have roomy := relinking.mp ⟨contained.headers, linked, rest, readBack⟩
    exact ⟨roomy, (contained_iff_ends read room nonzero apart clear roomy).mp contained⟩

end Reading

/-- A message that announces this many bytes of return data, and has them at 4096. -/
def announcing (retsize : BitVec 32) : EmiMsg :=
  { emptyMsg with retsize := retsize, retdataOffset := 4096 }

/-- Two records, of three bytes and of two, with the offsets of the core in front. -/
def twoRecords : List Byte :=
  bytes64 .little 80 ++ bytes32 .little 3 ++ [0, 0, 0, 0] ++ [5, 6, 7] ++
    (bytes64 .little 0 ++ bytes32 .little 2 ++ [0, 0, 0, 0] ++ [8, 9])

/-- What a new buffer for them holds. -/
def staleBuffer : List Byte := List.replicate 37 255

/-- A reply with two records that have data is contained, read in two parts. -/
theorem two_records_contained :
    Contained .little 0 (announcing 37) staleBuffer twoRecords ⟨twoRecords, .closed, [20]⟩ :=
  (reply_contained_iff .little 0 (announcing 37) staleBuffer twoRecords
    ⟨twoRecords, .closed, [20]⟩ ⟨[], .closed, []⟩ (by decide) (by decide) (by decide)
    (by decide)).1 ⟨by decide, by decide, by decide⟩

/-- A reply that announces one byte drives the relinking out of the buffer. -/
theorem single_byte_escapes : ¬ ∀ (order : ByteOrder) (address : Address) (message : EmiMsg)
    (stale got : List Byte) (source after : Source),
    emiRead source message.retsize = some (0, got, after) →
    stale.length = message.retsize.toNat → message.retsize ≠ 0 →
    (∀ place < message.retsize.toNat,
      getAddr address (message.retdataOffset + BitVec.ofNat 64 place) ≠ address) →
    Contained order address message stale got source := by
  intro always
  have contained := always .little 0 (announcing 1) [0] [0] ⟨[0], .closed, []⟩ ⟨[], .closed, []⟩
    (by decide) (by decide) (by decide) (by decide)
  have inside := contained.headers 0 (by decide)
  exact absurd inside (by decide)

end Emilib.ReplyBounds
