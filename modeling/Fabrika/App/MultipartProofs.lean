/-
  Fabrika.App.MultipartProofs — when reading a body does not depend on its chunks.

  `readWhole` reads the bytes at once. A reader's success is the whole reading's
  (`nextPart_sound`), and so is its failure (`nextPart_error`), but for one look: a header block
  whose terminator has come in part counts the terminator's first bytes against its bound
  (`Clear`). A part's body ends at the next delimiter however it arrives (`drain_of_some`).
-/

import Fabrika.App.Multipart

namespace Fabrika.App.Multipart

open Fabrika.Lib
open Fabrika.Lib.Urlencoded (utf8)

variable {options : Options}

/-! ## The bytes read at once -/

/-- A part's headers and the bytes after them. -/
def headersWhole (options : Options) (bytes : Bytes) : Except Unit (PartHeaders × Bytes) :=
  match indexOfPart HEADERS_END bytes with
  | none => .error ()
  | some length =>
    if options.maxHeaderBytes < length then .error ()
    else
      match partHeaders options.unicode (bytes.take length) with
      | .error _ => .error ()
      | .ok headers => .ok (headers, bytes.drop (length + HEADERS_END.length))

/-- What stands after a delimiter: a part's headers and the bytes after them, or the end. -/
def nextWhole (options : Options) : Bytes → Except Unit (Option (PartHeaders × Bytes))
  | a :: b :: more =>
    if [a, b] = [0x2d, 0x2d] then .ok none
    else if [a, b] ≠ CRLF then .error ()
    else (headersWhole options more).map some
  | _ => .error ()

def readWhole (options : Options) : Nat → Bytes → Option Reading
  | 0, _ => none
  | fuel + 1, rest =>
    match nextWhole options rest with
    | .error () => some ⟨[], .malformed none⟩
    | .ok none => some ⟨[], .finished⟩
    | .ok (some (headers, after)) =>
      match indexOfPart options.delimiter after with
      | none => some ⟨[], .malformed (some ⟨headers, after.take (after.length - (options.delimiter.length - 1))⟩)⟩
      | some k => (readWhole options fuel (after.drop (k + options.delimiter.length))).map (Reading.after ⟨headers, after.take k⟩)

/-- The bytes of a part's headers, which are read up to their first empty line. -/
structure Block (options : Options) (block : Bytes) (headers : PartHeaders) : Prop where
  first : indexOfPart HEADERS_END (block ++ HEADERS_END) = some block.length
  short : block.length ≤ options.maxHeaderBytes
  reads : partHeaders options.unicode block = .ok headers

/-- A part as it stands after a delimiter, its own delimiter included. -/
def partBytes (options : Options) (block body : Bytes) : Bytes := CRLF ++ (block ++ HEADERS_END ++ (body ++ options.delimiter))

/-- The body ends where its delimiter first occurs. -/
def Ends (options : Options) (body : Bytes) : Prop := indexOfPart options.delimiter (body ++ options.delimiter) = some body.length

/-- A block of headers that is accepted leaves room for its terminator within the bound. -/
def Clear (options : Options) (bytes : Bytes) : Prop :=
  ∀ block headers after, bytes = block ++ HEADERS_END ++ after → Block options block headers →
    block.length + 3 ≤ options.maxHeaderBytes

/-- The same of the part that stands after a delimiter, if one does. -/
def ClearAfter (options : Options) (rest : Bytes) : Prop := ∀ more, rest = CRLF ++ more → Clear options more

/-- What stands after a later delimiter, where each part up to there is read. -/
inductive Reaches (options : Options) : Bytes → Bytes → Prop
  | here (rest : Bytes) : Reaches options rest rest
  | later {block body rest target : Bytes} {headers : PartHeaders} (hblock : Block options block headers)
    (hbody : Ends options body)
      (h : Reaches options rest target) : Reaches options (partBytes options block body ++ rest) target

variable {headers : PartHeaders}

variable {after rest : Bytes}

theorem headersWhole_eq_ok {bytes : Bytes} :
    headersWhole options bytes = .ok (headers, after) ↔ ∃ block, bytes = block ++ HEADERS_END ++ after ∧
    Block options block headers := by
  constructor
  · intro h
    unfold headersWhole at h
    cases hindex : indexOfPart HEADERS_END bytes with
    | none =>
      rw [hindex] at h
      cases h
    | some length =>
      rw [hindex] at h
      obtain ⟨block, later, rfl, hfirst, rfl⟩ := indexOfPart_eq_some_iff_split.mp hindex
      dsimp only at h
      by_cases hbound : options.maxHeaderBytes < block.length
      · rw [if_pos hbound] at h
        cases h
      · rw [if_neg hbound, List.append_assoc, List.take_left] at h
        cases hparse : partHeaders options.unicode block with
        | error message =>
          rw [hparse] at h
          cases h
        | ok found =>
          rw [hparse, ← List.append_assoc, ← List.length_append, List.drop_left] at h
          cases h
          exact ⟨block, rfl, hfirst, by omega, hparse⟩
  · rintro ⟨block, rfl, hblock⟩
    have hindex : indexOfPart HEADERS_END (block ++ HEADERS_END ++ after) = some block.length :=
      indexOfPart_append hblock.first after
    have hbound : ¬options.maxHeaderBytes < block.length := Nat.not_lt.mpr hblock.short
    unfold headersWhole
    rw [hindex]
    dsimp only
    rw [if_neg hbound, ← List.length_append, List.drop_left, List.append_assoc, List.take_left, hblock.reads]

/-- A part stands after a delimiter exactly where the whole reading finds its headers. -/
theorem nextWhole_eq_some :
    nextWhole options rest = .ok (some (headers, after))
      ↔ ∃ block, rest = CRLF ++ (block ++ HEADERS_END ++ after) ∧ Block options block headers := by
  constructor
  · intro h
    match rest with
    | [] => cases h
    | [_] => cases h
    | a :: b :: more =>
      rw [nextWhole] at h
      by_cases hdashes : [a, b] = [0x2d, 0x2d]
      · rw [if_pos hdashes] at h
        cases h
      · rw [if_neg hdashes] at h
        by_cases hcrlf : [a, b] = CRLF
        · rw [if_neg (not_not.mpr hcrlf)] at h
          cases hheaders : headersWhole options more with
          | error e =>
            rw [hheaders] at h
            cases h
          | ok found =>
            rw [hheaders] at h
            cases h
            obtain ⟨block, rfl, hblock⟩ := (headersWhole_eq_ok).mp hheaders
            exact ⟨block, by rw [← hcrlf]; rfl, hblock⟩
        · rw [if_pos hcrlf] at h
          cases h
  · rintro ⟨block, rfl, hblock⟩
    show (headersWhole options (block ++ HEADERS_END ++ after)).map some = _
    rw [(headersWhole_eq_ok).mpr ⟨block, rfl, hblock⟩]
    rfl

/-! ## One look -/

namespace Reader

variable {r r' : Reader}

/-- A reader between two parts, where nothing failed. -/
structure Ready (r : Reader) : Prop where
  started : r.started = true
  reading : r.reading = false
  finished : r.finished = false
  cancelled : r.cancelled = false
  failed : r.failed = none

/-- A reader that read on: only its buffer and its chunks changed, and an input that had ended
    stays so. -/
structure ReadsOn (r r' : Reader) : Prop where
  flags : r' = { r with buffer := r'.buffer, chunks := r'.chunks }
  ended : r.chunks = [] → r'.chunks = []

theorem ReadsOn.trans {last : Reader} (h : r.ReadsOn r') (h' : r'.ReadsOn last) : r.ReadsOn last where
  flags := by rw [h'.flags, h.flags]
  ended := fun hchunks => h'.ended (h.ended hchunks)

variable {α : Type} {message : String} {fuel : Nat} {attempt : Bytes → Option α}

theorem ReadsOn.skip {n : Nat} (h : r.ReadsOn r') : r.ReadsOn (r'.skip n) where
  flags := by rw [h.flags]; rfl
  ended := h.ended

theorem ReadsOn.cancelled_eq (h : r.ReadsOn r') : r'.cancelled = r.cancelled := by rw [h.flags]

theorem readUntil_rest (r : Reader) (attempt : Bytes → Option α) : (r.readUntil attempt).2.rest = r.rest :=
  fillUntil_rest attempt r.buffer r.chunks

theorem readUntil_found (r : Reader) (attempt : Bytes → Option α) :
    (r.readUntil attempt).1 = attempt (r.readUntil attempt).2.buffer
      ∧ ((r.readUntil attempt).1 = none → (r.readUntil attempt).2.chunks = []) :=
  fillUntil_found attempt r.buffer r.chunks

/-- Where the buffer itself answers, nothing more is read. -/
theorem readUntil_of_some {found : α} (h : attempt r.buffer = some found) : r.readUntil attempt = (some found, r) := by
  rw [readUntil, fillUntil_of_some h]

/-- A look that failed on the whole of what was left. -/
theorem readUntil_none (h : r.readUntil attempt = (none, r')) :
    r'.buffer = r.rest ∧ r'.chunks = [] ∧ attempt r.rest = none := by
  obtain ⟨hfound, hempty⟩ := r.readUntil_found attempt
  have hrest := r.readUntil_rest attempt
  rw [h] at hfound hempty hrest
  have hchunks : r'.chunks = [] := hempty rfl
  have hbuffer : r'.buffer = r.rest := by rw [← hrest, rest, hchunks, List.flatten_nil, List.append_nil]
  exact ⟨hbuffer, hchunks, by rw [← hbuffer]; exact hfound.symm⟩

/-- A look that succeeded on some of what was left. -/
theorem readUntil_some {found : α} (h : r.readUntil attempt = (some found, r')) :
    attempt r'.buffer = some found ∧ r'.rest = r.rest := by
  have hfound := (r.readUntil_found attempt).1
  have hrest := r.readUntil_rest attempt
  rw [h] at hfound hrest
  exact ⟨hfound.symm, hrest⟩

theorem rest_skip {n : Nat} (hn : n ≤ r.buffer.length) : (r.skip n).rest = r.rest.drop n := by
  rw [rest, rest, skip, List.drop_append_of_le_length hn]

theorem readUntil_readsOn {found : Option α} (h : r.readUntil attempt = (found, r')) : r.ReadsOn r' := by
  unfold readUntil at h
  refine ⟨?_, fun hchunks => ?_⟩
  · cases h
    rfl
  · rw [hchunks, fillUntil] at h
    cases h
    rfl

/-! ## One part -/

theorem want_cases {size : Nat} {found : Bool} (h : r.want size = (found, r')) :
    (found = true ∧ size ≤ r'.buffer.length ∧ r'.rest = r.rest ∨ found = false ∧ r.rest.length < size)
      ∧ r.ReadsOn r' := by
  unfold want at h
  cases hread : r.readUntil fun buffer => if size ≤ buffer.length then some () else none with
  | mk answer next =>
    rw [hread] at h
    cases h
    refine ⟨?_, readUntil_readsOn hread⟩
    cases answer with
    | some found =>
      obtain ⟨hsize, hrest⟩ := readUntil_some hread
      refine .inl ⟨rfl, ?_, hrest⟩
      by_contra hshort
      rw [if_neg hshort] at hsize
      cases hsize
    | none =>
      obtain ⟨-, -, hnone⟩ := readUntil_none hread
      refine .inr ⟨rfl, ?_⟩
      by_contra hlong
      rw [if_pos (by omega)] at hnone
      cases hnone

theorem fail_eq {found : Except String α} (hcancelled : r.cancelled = false) (h : r.fail message = (found, r')) :
    found = .error message := by
  unfold fail at h
  rw [hcancelled] at h
  cases h
  rfl

theorem fail_ne_ok (message : String) (found : α) : r.fail message ≠ (.ok found, r') := by
  unfold fail
  split <;> simp

/-- What stands after a delimiter: its closing dashes, a part, or neither. -/
theorem afterDelimiter_cases (options : Options) {found : Except String Marker} (hcancelled : r.cancelled = false)
    (h : r.afterDelimiter = (found, r')) :
    (∃ message, found = .error message) ∧ nextWhole options r.rest = .error ()
      ∨ found = .ok .end ∧ nextWhole options r.rest = .ok none
      ∨ found = .ok .part ∧ r.rest = CRLF ++ r'.rest ∧ r.ReadsOn r' := by
  unfold afterDelimiter at h
  cases hwant : r.want 2 with
  | mk enough next =>
    rw [hwant] at h
    obtain ⟨⟨rfl, hsize, hrest⟩ | ⟨rfl, hshort⟩, hon⟩ := want_cases hwant
    · obtain ⟨a, b, more, hbuffer⟩ : ∃ a b more, next.buffer = a :: b :: more := by
        match hnext : next.buffer with
        | a :: b :: more => exact ⟨a, b, more, rfl⟩
        | [_] => simp [hnext] at hsize
        | [] => simp [hnext] at hsize
      have hbytes : r.rest = a :: b :: (more ++ next.chunks.flatten) := by
        rw [← hrest, rest, hbuffer]
        rfl
      rw [hbytes]
      simp only [hbuffer, List.take_succ_cons, List.take_zero] at h
      split at h
      · next hdashes =>
        cases h
        refine .inr (.inl ⟨rfl, ?_⟩)
        rw [nextWhole, if_pos hdashes]
      · next hdashes =>
        split at h
        · next hcrlf =>
          have hfail := fail_eq (hon.skip.cancelled_eq.trans hcancelled) h
          refine .inl ⟨⟨_, hfail⟩, ?_⟩
          rw [nextWhole, if_neg hdashes, if_pos hcrlf]
        · next hcrlf =>
          cases h
          rw [not_not] at hcrlf
          refine .inr (.inr ⟨rfl, ?_, hon.skip⟩)
          rw [skip, rest, hbuffer, ← hcrlf]
          rfl
    · refine .inl ⟨⟨_, fail_eq (hon.cancelled_eq.trans hcancelled) h⟩, ?_⟩
      match hr : r.rest with
      | [] => rfl
      | [_] => rfl
      | a :: b :: more =>
        rw [hr, List.length_cons, List.length_cons] at hshort
        omega

theorem findHeaders_block {buffer : Bytes} {length : Nat} :
    findHeaders options buffer = some (.block length) ↔ indexOfPart HEADERS_END buffer = some length ∧
    length ≤ options.maxHeaderBytes := by
  unfold findHeaders
  cases indexOfPart HEADERS_END buffer with
  | none => by_cases h : options.maxHeaderBytes < buffer.length <;> simp [h]
  | some n =>
    by_cases h : options.maxHeaderBytes < n
    · simp only [h, if_true, Option.some.injEq, reduceCtorEq, false_iff, not_and]
      rintro rfl
      omega
    · simp only [h, if_false, Option.some.injEq, HeaderSearch.block.injEq]
      constructor
      · rintro rfl
        exact ⟨rfl, by omega⟩
      · exact And.left

theorem findHeaders_tooLong {buffer : Bytes} :
    findHeaders options buffer = some .tooLong ↔ (∃ length, indexOfPart HEADERS_END buffer = some length ∧
      options.maxHeaderBytes < length)
      ∨ indexOfPart HEADERS_END buffer = none ∧ options.maxHeaderBytes < buffer.length := by
  unfold findHeaders
  cases indexOfPart HEADERS_END buffer with
  | none => by_cases h : options.maxHeaderBytes < buffer.length <;> simp [h]
  | some n => by_cases h : options.maxHeaderBytes < n <;> simp [h]

/-- What the whole reading makes of a block the reader found. -/
theorem headersWhole_of_block {next : Reader} {length : Nat}
    (h : r.readUntil (findHeaders options) = (some (.block length), next)) :
    headersWhole options r.rest =
      match partHeaders options.unicode (next.buffer.take length) with
      | .error _ => .error ()
      | .ok found => .ok (found, (next.skip (length + HEADERS_END.length)).rest) := by
  obtain ⟨hlook, hrest⟩ := readUntil_some h
  obtain ⟨hindex, hbound⟩ := (findHeaders_block).mp hlook
  have hlength := length_of_indexOfPart hindex
  have hwhole : indexOfPart HEADERS_END r.rest = some length := by
    rw [← hrest]
    exact indexOfPart_append hindex _
  have htake : r.rest.take length = next.buffer.take length := by
    rw [← hrest, rest, List.take_append_of_le_length (by omega)]
  rw [headersWhole, hwhole]
  dsimp only
  rw [if_neg (by omega), htake, rest_skip hlength, hrest]

/-- Headers the reader reads are the whole reading's. -/
theorem headers_sound {found : PartHeaders} (h : r.headers options = (.ok found, r')) :
    headersWhole options r.rest = .ok (found, r'.rest) ∧ r.ReadsOn r' := by
  unfold headers at h
  cases hread : r.readUntil (findHeaders options) with
  | mk answer next =>
    rw [hread] at h
    match answer, h, hread with
    | none, h, _ => exact absurd h (fail_ne_ok _ _)
    | some .tooLong, h, _ => exact absurd h (fail_ne_ok _ _)
    | some (.block length), h, hread =>
      have hwhole := headersWhole_of_block hread
      dsimp only at h
      split at h
      · next hparse =>
        cases h
        rw [hparse] at hwhole
        exact ⟨hwhole, (readUntil_readsOn hread).skip⟩
      · exact absurd h (fail_ne_ok _ _)

/-- Where the bound is met before the terminator has come, the block is not clear of it. -/
theorem headersWhole_of_tooLong {next : Reader} (h : r.readUntil (findHeaders options) = (some .tooLong, next))
    (hclear : r.chunks = [] ∨ Clear options r.rest) : headersWhole options r.rest = .error () := by
  obtain ⟨hlook, hrest⟩ := readUntil_some h
  obtain ⟨length, hindex, hbound⟩ | ⟨hindex, hbound⟩ := (findHeaders_tooLong).mp hlook
  · have hwhole : indexOfPart HEADERS_END r.rest = some length := by
      rw [← hrest]
      exact indexOfPart_append hindex _
    rw [headersWhole, hwhole]
    exact if_pos hbound
  · cases hend : indexOfPart HEADERS_END r.rest with
    | none => rw [headersWhole, hend]
    | some length =>
      have hpast : next.buffer.length < length + HEADERS_END.length := by
        rw [← hrest] at hend
        exact lt_of_indexOfPart_none hindex hend
      have hfour : HEADERS_END.length = 4 := rfl
      cases hwhole : headersWhole options r.rest with
      | error e => rfl
      | ok found =>
        obtain ⟨block, hbytes, hblock⟩ := (headersWhole_eq_ok).mp hwhole
        have hsame : block.length = length := by
          rw [hbytes, indexOfPart_append hblock.first] at hend
          exact Option.some.inj hend
        obtain hended | hclear := hclear
        · have hchunks := (readUntil_readsOn h).ended hended
          have hbuffer : r.rest = next.buffer := by rw [← hrest, rest, hchunks, List.flatten_nil, List.append_nil]
          rw [hbuffer, hindex] at hend
          cases hend
        · have hroom := hclear block _ _ hbytes hblock
          omega

/-- Headers the reader refuses are refused by the whole reading, where no terminator that came in
    part counts against the bound. -/
theorem headers_error (h : r.headers options = (.error message, r')) (hclear : r.chunks = [] ∨ Clear options r.rest) :
    headersWhole options r.rest = .error () := by
  unfold headers at h
  cases hread : r.readUntil (findHeaders options) with
  | mk answer next =>
    rw [hread] at h
    match answer, h, hread with
    | none, _, hread =>
      obtain ⟨-, -, hnone⟩ := readUntil_none hread
      unfold findHeaders at hnone
      cases hindex : indexOfPart HEADERS_END r.rest with
      | none => rw [headersWhole, hindex]
      | some length =>
        rw [hindex] at hnone
        cases hnone
    | some .tooLong, _, hread => exact headersWhole_of_tooLong hread hclear
    | some (.block length), h, hread =>
      have hwhole := headersWhole_of_block hread
      dsimp only at h
      split at h
      · cases h
      · next hparse =>
        rw [hparse] at hwhole
        exact hwhole

/-! ## A part's headers, or the end -/

/-- What `nextPart` reads is what the whole reading reads. -/
theorem nextPart_sound {found : Option PartHeaders} (hready : r.Ready) (h : r.nextPart options = (.ok found, r')) :
    match found with
    | none => nextWhole options r.rest = .ok none
    | some headers => nextWhole options r.rest = .ok (some (headers, r'.rest))
      ∧ { r with reading := true }.ReadsOn r' := by
  unfold nextPart at h
  cases hafter : r.afterDelimiter with
  | mk marker next =>
    rw [hafter] at h
    obtain ⟨⟨message, rfl⟩, -⟩ | ⟨rfl, hend⟩ | ⟨rfl, hrest, hon⟩ := afterDelimiter_cases options hready.cancelled hafter
    · cases h
    · cases h
      exact hend
    · dsimp only at h
      cases hheaders : next.headers options with
      | mk result last =>
        rw [hheaders] at h
        cases result with
        | error message => cases h
        | ok headers =>
          cases h
          obtain ⟨hwhole, hon'⟩ := headers_sound hheaders
          refine ⟨?_, ?_, (hon.trans hon').ended⟩
          · rw [hrest]
            show (headersWhole options next.rest).map some = _
            rw [hwhole]
            rfl
          · rw [(hon.trans hon').flags]

theorem nextPart_error (hready : r.Ready) (h : r.nextPart options = (.error message, r'))
    (hclear : r.chunks = [] ∨ ClearAfter options r.rest) : nextWhole options r.rest = .error () := by
  unfold nextPart at h
  cases hafter : r.afterDelimiter with
  | mk marker next =>
    rw [hafter] at h
    obtain ⟨-, herror⟩ | ⟨rfl, -⟩ | ⟨rfl, hrest, hon⟩ := afterDelimiter_cases options hready.cancelled hafter
    · exact herror
    · cases h
    · dsimp only at h
      cases hheaders : next.headers options with
      | mk result last =>
        rw [hheaders] at h
        cases result with
        | ok headers => cases h
        | error message =>
          have hwhole := headers_error hheaders (hclear.imp hon.ended fun hclear => hclear _ hrest)
          rw [hrest]
          show (headersWhole options next.rest).map some = _
          rw [hwhole]
          rfl

/-! ## A part's body -/

theorem delimiter_length (options : Options) : 4 ≤ options.delimiter.length := by
  rw [Options.delimiter, List.length_append]
  exact Nat.le_add_right _ _

/-- What one pull does: it ends the body at the first delimiter, lets bytes go that are before it, or
    has nothing to give for the delimiter does not come. -/
theorem pull_cases {result : Pull} (hcancelled : r.cancelled = false) (h : r.pull options = (result, r')) :
    (∃ k, indexOfPart options.delimiter r.rest = some k ∧ result = .close (r.rest.take k) ∧
        r'.rest = r.rest.drop (k + options.delimiter.length) ∧ { r with reading := false }.ReadsOn r')
      ∨ (∃ n, 0 < n ∧ n + options.delimiter.length ≤ r.rest.length + 1 ∧ result = .chunk (r.rest.take n) ∧ r'.rest = r.rest.drop n
        ∧ indexOfPart options.delimiter r.rest = (indexOfPart options.delimiter (r.rest.drop n)).map (n + ·) ∧ r.ReadsOn r')
      ∨ (∃ message, result = .error message ∧ indexOfPart options.delimiter r.rest = none ∧
        r.rest.length < options.delimiter.length) := by
  have hfour := delimiter_length options
  unfold pull at h
  cases hread : r.readUntil (findDelimiter options) with
  | mk answer next =>
    rw [hread] at h
    have hon := readUntil_readsOn hread
    match answer, h, hread with
    | none, h, hread =>
      obtain ⟨-, -, hnone⟩ := readUntil_none hread
      unfold findDelimiter at hnone
      cases hindex : indexOfPart options.delimiter r.rest with
      | some k =>
        rw [hindex] at hnone
        cases hnone
      | none =>
        rw [hindex] at hnone
        dsimp only at h
        unfold fail at h
        rw [hon.cancelled_eq, hcancelled] at h
        cases h
        refine .inr (.inr ⟨_, rfl, rfl, ?_⟩)
        by_contra hlong
        dsimp only at hnone
        rw [if_pos (by omega)] at hnone
        cases hnone
    | some (.delimiter k), h, hread =>
      obtain ⟨hlook, hrest⟩ := readUntil_some hread
      have hindex : indexOfPart options.delimiter next.buffer = some k := by
        unfold findDelimiter at hlook
        cases hfound : indexOfPart options.delimiter next.buffer with
        | none =>
          rw [hfound] at hlook
          dsimp only at hlook
          split at hlook <;> cases hlook
        | some j =>
          rw [hfound] at hlook
          cases hlook
          rfl
      have hlength := length_of_indexOfPart hindex
      cases h
      refine .inl ⟨k, ?_, ?_, ?_, ?_⟩
      · rw [← hrest]
        exact indexOfPart_append hindex _
      · rw [← hrest, rest, List.take_append_of_le_length (by omega)]
      · rw [← hrest]
        exact rest_skip hlength
      · exact ⟨by rw [hon.flags]; rfl, hon.ended⟩
    | some (.safe n), h, hread =>
      obtain ⟨hlook, hrest⟩ := readUntil_some hread
      unfold findDelimiter at hlook
      cases hindex : indexOfPart options.delimiter next.buffer with
      | some j =>
        rw [hindex] at hlook
        cases hlook
      | none =>
        rw [hindex] at hlook
        dsimp only at hlook
        by_cases hsafe : 0 < next.buffer.length - (options.delimiter.length - 1)
        · rw [if_pos hsafe] at hlook
          cases hlook
          cases h
          have hlong : next.buffer.length ≤ r.rest.length := by
            rw [← hrest, rest, List.length_append]
            exact Nat.le_add_right _ _
          refine .inr (.inl ⟨_, hsafe, by omega, ?_, ?_, ?_, hon.skip⟩)
          · rw [← hrest, rest, List.take_append_of_le_length (by omega)]
          · rw [← hrest]
            exact rest_skip (by omega)
          · rw [← hrest]
            exact indexOfPart_drop hindex (by omega) _
        · rw [if_neg hsafe] at hlook
          cases hlook

/-- A part's body ends at the next delimiter however it arrives, and each byte before it is given. -/
theorem drain_of_some {k : Nat} (hcancelled : r.cancelled = false) (hfuel : r.rest.length < fuel)
    (hindex : indexOfPart options.delimiter r.rest = some k) :
    ∃ r', drain options fuel r = some (r.rest.take k, true, r') ∧ r'.rest = r.rest.drop (k + options.delimiter.length)
      ∧ { r with reading := false }.ReadsOn r' := by
  induction fuel generalizing r k with
  | zero => exact absurd hfuel (Nat.not_lt_zero _)
  | succ fuel ih =>
    rw [drain]
    cases hpull : r.pull options with
    | mk result next =>
      obtain ⟨j, hj, rfl, hrest, hon⟩ | ⟨n, hn, hlong, rfl, hrest, hlater, hon⟩ | ⟨message, rfl, hnone, -⟩ :=
        pull_cases hcancelled hpull
      · rw [hindex] at hj
        cases hj
        exact ⟨next, rfl, hrest, hon⟩
      · have hfour := delimiter_length options
        rw [hindex] at hlater
        obtain ⟨j, hj, rfl⟩ := Option.map_eq_some_iff.mp hlater.symm
        have hshorter : next.rest.length < fuel := by
          rw [hrest, List.length_drop]
          omega
        obtain ⟨last, hdrain, hlast, hon'⟩ := ih (hon.cancelled_eq.trans hcancelled) hshorter (by rw [hrest]; exact hj)
        refine ⟨last, ?_, ?_, ?_⟩
        · dsimp only
          rw [hdrain, Option.map_some, hrest, List.take_add]
        · rw [hlast, hrest, List.drop_drop, Nat.add_assoc]
        · exact ⟨by rw [hon'.flags, hon.flags], fun hchunks => hon'.ended (hon.ended hchunks)⟩
      · rw [hindex] at hnone
        cases hnone

/-- A body whose delimiter never comes is given but for what could be the delimiter's start. -/
theorem drain_of_none (hcancelled : r.cancelled = false) (hfuel : r.rest.length < fuel)
    (hindex : indexOfPart options.delimiter r.rest = none) :
    ∃ r', drain options fuel r = some (r.rest.take (r.rest.length - (options.delimiter.length - 1)), false, r') := by
  induction fuel generalizing r with
  | zero => exact absurd hfuel (Nat.not_lt_zero _)
  | succ fuel ih =>
    rw [drain]
    cases hpull : r.pull options with
    | mk result next =>
      obtain ⟨j, hj, rfl, hrest, hon⟩ | ⟨n, hn, hlong, rfl, hrest, hlater, hon⟩ | ⟨message, rfl, -, hshort⟩ :=
        pull_cases hcancelled hpull
      · rw [hindex] at hj
        cases hj
      · have hfour := delimiter_length options
        rw [hindex] at hlater
        have hnone : indexOfPart options.delimiter next.rest = none := by
          rw [hrest]
          exact Option.map_eq_none_iff.mp hlater.symm
        have hlength : next.rest.length = r.rest.length - n := by rw [hrest, List.length_drop]
        obtain ⟨last, hdrain⟩ := ih (hon.cancelled_eq.trans hcancelled) (by omega) hnone
        refine ⟨last, ?_⟩
        have hsplit : r.rest.length - (options.delimiter.length - 1) = n +
            (next.rest.length - (options.delimiter.length - 1)) := by omega
        dsimp only
        rw [hdrain, Option.map_some, hsplit, hrest, List.take_add]
      · refine ⟨next, ?_⟩
        have hzero : r.rest.length - (options.delimiter.length - 1) = 0 := by omega
        rw [hzero, List.take_zero]

/-! ## Part after part -/

theorem next_ready (hready : r.Ready) : r.next options = r.nextPart options := by
  unfold next
  rw [hready.finished, hready.cancelled, hready.failed, hready.reading, hready.started]
  rfl

/-- A reader whose part ended is ready for the next. -/
theorem ready_of_drained {part : Reader} (hready : r.Ready) (hpart : { r with reading := true }.ReadsOn part)
    (hdrained : { part with reading := false }.ReadsOn r') : r'.Ready := by
  rw [hdrained.flags, hpart.flags]
  exact {
    started := hready.started, reading := rfl, finished := hready.finished, cancelled := hready.cancelled
    failed := hready.failed }

/-- A part whose headers were read: its delimiter never comes, or its body is given whole and the
    reader is ready for the next part. -/
theorem part_cases {part : Reader} (hready : r.Ready) (hpart : r.nextPart options = (.ok (some headers), part)) :
    ∃ block after, r.rest = CRLF ++ (block ++ HEADERS_END ++ after) ∧ Block options block headers ∧ part.rest = after
      ∧ ((indexOfPart options.delimiter after = none
            ∧ ∃ r', drain options (part.rest.length + 1) part =
            some (after.take (after.length - (options.delimiter.length - 1)), false, r'))
        ∨ ∃ body r', Ends options body ∧ after = body ++ options.delimiter ++ r'.rest ∧
        r.rest = partBytes options block body ++ r'.rest
            ∧ drain options (part.rest.length + 1) part = some (body, true, r') ∧ r'.Ready ∧
            (r.chunks = [] → r'.chunks = [])) := by
  obtain ⟨hwhole, hon⟩ : nextWhole options r.rest = .ok (some (headers, part.rest)) ∧ { r with reading := true }.ReadsOn part :=
    nextPart_sound hready hpart
  obtain ⟨block, hbytes, hblock⟩ := (nextWhole_eq_some).mp hwhole
  refine ⟨block, part.rest, hbytes, hblock, rfl, ?_⟩
  have hcancelled : part.cancelled = false := hon.cancelled_eq.trans hready.cancelled
  cases hindex : indexOfPart options.delimiter part.rest with
  | none => exact .inl ⟨rfl, drain_of_none hcancelled (Nat.lt_succ_self _) hindex⟩
  | some k =>
    obtain ⟨r', hdrain, hrest, hon'⟩ := drain_of_some hcancelled (Nat.lt_succ_self _) hindex
    obtain ⟨body, rest, hsplit, hends, rfl⟩ := indexOfPart_eq_some_iff_split.mp hindex
    have hlater : r'.rest = rest := by rw [hrest, hsplit, ← List.length_append, List.drop_left]
    have htake : part.rest.take body.length = body := by rw [hsplit, List.append_assoc, List.take_left]
    rw [htake] at hdrain
    refine .inr ⟨body, r', hends, ?_, ?_, hdrain, ready_of_drained hready hon hon', fun hchunks => hon'.ended (hon.ended hchunks)⟩
    · rw [hlater]
      exact hsplit
    · rw [hbytes, hsplit, hlater, partBytes]
      simp only [List.append_assoc]

/-- Where no terminator that came in part counts against the bound, part after part is read as when
    the bytes are there at once. -/
theorem readParts_eq (fuel : Nat) (hready : r.Ready)
    (hclear : r.chunks = [] ∨ ∀ later, Reaches options r.rest later → ClearAfter options later) :
    readParts options fuel r = readWhole options fuel r.rest := by
  induction fuel generalizing r with
  | zero => rfl
  | succ fuel ih =>
    rw [readParts, readWhole, next_ready hready]
    cases hpart : r.nextPart options with
    | mk result part =>
      match result, hpart with
      | .error message, hpart => rw [nextPart_error hready hpart (hclear.imp id fun hclear => hclear _ (.here _))]
      | .ok none, hpart =>
        have hwhole : nextWhole options r.rest = .ok none := nextPart_sound hready hpart
        rw [hwhole]
      | .ok (some headers), hpart =>
        obtain ⟨block, after, hbytes, hblock, -, ⟨hnone, r', hdrain⟩ | ⟨body, r', hends, hafter, hparts, hdrain,
            hready', hended⟩⟩ :=
          part_cases hready hpart
        · rw [(nextWhole_eq_some).mpr ⟨block, hbytes, hblock⟩]
          dsimp only
          rw [hdrain, hnone]
        · rw [(nextWhole_eq_some).mpr ⟨block, hbytes, hblock⟩]
          have hindex : indexOfPart options.delimiter after = some body.length := by
            rw [hafter]
            exact indexOfPart_append hends _
          have htake : after.take body.length = body := by rw [hafter, List.append_assoc, List.take_left]
          have hdrop : after.drop (body.length + options.delimiter.length) = r'.rest := by
            rw [hafter, ← List.length_append, List.drop_left]
          dsimp only
          rw [hdrain, hindex]
          dsimp only
          rw [htake, hdrop, ih hready']
          refine hclear.imp hended fun hclear later hreaches => hclear later ?_
          rw [hparts]
          exact .later hblock hends hreaches

/-- What is read, laid out: each part stands after a delimiter, its body up to the next one; the
    closing dashes end the body, and a part that is not whole has no delimiter after it. -/
inductive Laid (options : Options) : Bytes → Reading → Prop
  | finished (epilogue : Bytes) : Laid options ([0x2d, 0x2d] ++ epilogue) ⟨[], .finished⟩
  | malformed (rest : Bytes) : Laid options rest ⟨[], .malformed none⟩
  | unended {block after : Bytes} {headers : PartHeaders} (hblock : Block options block headers)
    (hnone : indexOfPart options.delimiter after = none) :
      Laid options (CRLF ++ (block ++ HEADERS_END ++ after))
        ⟨[], .malformed (some ⟨headers, after.take (after.length - (options.delimiter.length - 1))⟩)⟩
  | part {block body rest : Bytes} {headers : PartHeaders} {reading : Reading} (hblock : Block options block headers)
    (hbody : Ends options body)
      (h : Laid options rest reading) : Laid options (partBytes options block body ++ rest) (reading.after ⟨headers, body⟩)

theorem nextWhole_eq_none (h : nextWhole options rest = .ok none) : ∃ epilogue, rest = [0x2d, 0x2d] ++ epilogue := by
  match rest with
  | [] => cases h
  | [_] => cases h
  | a :: b :: more =>
    rw [nextWhole] at h
    by_cases hdashes : [a, b] = [0x2d, 0x2d]
    · exact ⟨more, by rw [← hdashes]; rfl⟩
    · rw [if_neg hdashes] at h
      split at h
      · cases h
      · cases hheaders : headersWhole options more <;> rw [hheaders] at h <;> cases h

/-- However the bytes arrive, what is read of them is laid out so; and reading ends. -/
theorem readParts_laid (hready : r.Ready) (hfuel : r.rest.length < fuel) :
    ∃ reading, readParts options fuel r = some reading ∧ Laid options r.rest reading := by
  induction fuel generalizing r with
  | zero => exact absurd hfuel (Nat.not_lt_zero _)
  | succ fuel ih =>
    rw [readParts, next_ready hready]
    cases hpart : r.nextPart options with
    | mk result part =>
      match result, hpart with
      | .error message, _ => exact ⟨_, rfl, .malformed _⟩
      | .ok none, hpart =>
        obtain ⟨epilogue, hrest⟩ := nextWhole_eq_none (nextPart_sound hready hpart : nextWhole options r.rest = .ok none)
        rw [hrest]
        exact ⟨_, rfl, .finished epilogue⟩
      | .ok (some headers), hpart =>
        obtain ⟨block, after, hbytes, hblock, -, ⟨hnone, r', hdrain⟩ | ⟨body, r', hends, hafter, hparts, hdrain,
            hready', hended⟩⟩ :=
          part_cases hready hpart
        · dsimp only
          rw [hdrain, hbytes]
          exact ⟨_, rfl, .unended hblock hnone⟩
        · have hshorter : r'.rest.length < fuel := by
            rw [hparts, partBytes] at hfuel
            simp only [List.length_append] at hfuel
            have hfour := delimiter_length options
            omega
          obtain ⟨reading, hreading, hlaid⟩ := ih hready' hshorter
          refine ⟨reading.after ⟨headers, body⟩, ?_, ?_⟩
          · dsimp only
            rw [hdrain]
            dsimp only
            rw [hreading, Option.map_some]
          · rw [hparts]
            exact .part hblock hends hlaid

/-! ## A body that is there already -/

theorem want_of_le {size : Nat} (h : size ≤ r.buffer.length) : r.want size = (true, r) := by
  unfold want readUntil
  rw [fillUntil_of_some (if_pos h)]
  rfl

theorem afterDelimiter_part {more : Bytes} (h : r.buffer = CRLF ++ more) :
    r.afterDelimiter = (.ok .part, { r with buffer := more }) := by
  have hlength : 2 ≤ r.buffer.length := by
    rw [h, List.length_append]
    exact Nat.le_add_right 2 _
  unfold afterDelimiter
  rw [want_of_le hlength]
  simp only [skip, h, CRLF, List.cons_append, List.nil_append, List.take_succ_cons, List.take_zero, List.drop_succ_cons,
    List.drop_zero]
  rfl

/-- Headers that are in the buffer are read without more of the input. -/
theorem nextPart_of_block {block : Bytes} (h : r.buffer = CRLF ++ (block ++ HEADERS_END ++ after))
    (hblock : Block options block headers) :
    r.nextPart options = (.ok (some headers), { r with buffer := after, reading := true }) := by
  have hlook : findHeaders options (block ++ HEADERS_END ++ after) = some (.block block.length) :=
    (findHeaders_block).mpr ⟨indexOfPart_append hblock.first after, hblock.short⟩
  have htake : (block ++ HEADERS_END ++ after).take block.length = block := by rw [List.append_assoc, List.take_left]
  have hdrop : (block ++ HEADERS_END ++ after).drop (block.length + HEADERS_END.length) = after := by
    rw [← List.length_append, List.drop_left]
  unfold nextPart
  rw [afterDelimiter_part h]
  dsimp only
  unfold Reader.headers
  rw [readUntil_of_some hlook]
  dsimp only
  rw [htake, hblock.reads]
  simp only [skip, hdrop]

/-- A body whose delimiter is in the buffer is given at once. -/
theorem drain_of_delimiter {body : Bytes} (h : r.buffer = body ++ options.delimiter ++ after) (hbody : Ends options body) :
    drain options (fuel + 1) r = some (body, true, { r with buffer := after, reading := false }) := by
  have hlook : findDelimiter options r.buffer = some (.delimiter body.length) := by
    unfold findDelimiter
    rw [h, indexOfPart_append hbody]
  have htake : r.buffer.take body.length = body := by rw [h, List.append_assoc, List.take_left]
  have hdrop : r.buffer.drop (body.length + options.delimiter.length) = after := by rw [h, ← List.length_append, List.drop_left]
  rw [drain]
  unfold pull
  rw [readUntil_of_some hlook]
  dsimp only
  rw [htake, skip, hdrop]

/-! ## A terminator that came in part -/

/-- Where the buffer ends inside the terminator of a block, past the bound, its headers are refused. -/
theorem nextPart_of_cut {block : Bytes} (hready : r.Ready) (hblock : Block options block headers)
    (hroom : options.maxHeaderBytes < block.length + 3)
    (h : r.buffer = CRLF ++ (block ++ HEADERS_END ++ after).take (options.maxHeaderBytes + 1)) :
    ∃ message r', r.nextPart options = (.error message, r') := by
  have hfour : HEADERS_END.length = 4 := rfl
  have hlength : ((block ++ HEADERS_END ++ after).take (options.maxHeaderBytes + 1)).length = options.maxHeaderBytes + 1 := by
    rw [List.length_take, List.length_append, List.length_append]
    omega
  have hnone : indexOfPart HEADERS_END ((block ++ HEADERS_END ++ after).take (options.maxHeaderBytes + 1)) = none := by
    cases hfound : indexOfPart HEADERS_END ((block ++ HEADERS_END ++ after).take (options.maxHeaderBytes + 1)) with
    | none => rfl
    | some k =>
      have hwithin := length_of_indexOfPart hfound
      have hwhole := indexOfPart_append hfound ((block ++ HEADERS_END ++ after).drop (options.maxHeaderBytes + 1))
      rw [List.take_append_drop, indexOfPart_append hblock.first] at hwhole
      cases hwhole
      omega
  have hlook : findHeaders options ((block ++ HEADERS_END ++ after).take (options.maxHeaderBytes + 1)) = some .tooLong :=
    (findHeaders_tooLong).mpr (.inr ⟨hnone, by omega⟩)
  unfold nextPart
  rw [afterDelimiter_part h]
  dsimp only
  unfold Reader.headers
  rw [readUntil_of_some hlook]
  dsimp only
  unfold fail
  rw [show r.cancelled = false from hready.cancelled]
  exact ⟨_, _, rfl⟩

/-- Where a block that is read is not clear of the bound, the bytes can arrive so that it is refused:
    the input is cut after one byte more than the bound. -/
theorem exists_cut {target : Bytes} (h : Reaches options rest target) (hbad : ¬ClearAfter options target) :
    ∃ before later, rest = before ++ later ∧ ∀ r : Reader, r.Ready → r.buffer = before → r.chunks.flatten = later →
      ∀ fuel, rest.length < fuel → readParts options fuel r ≠ readWhole options fuel rest := by
  induction h with
  | here rest =>
    unfold ClearAfter Clear at hbad
    push Not at hbad
    obtain ⟨more, rfl, block, headers, after, rfl, hblock, hroom⟩ := hbad
    refine ⟨CRLF ++ (block ++ HEADERS_END ++ after).take (options.maxHeaderBytes + 1),
      (block ++ HEADERS_END ++ after).drop (options.maxHeaderBytes + 1), ?_, fun r hready hbuffer _ fuel hfuel => ?_⟩
    · rw [List.append_assoc CRLF, List.take_append_drop]
    · obtain ⟨message, r', hrefused⟩ := nextPart_of_cut hready hblock hroom hbuffer
      cases fuel with
      | zero => exact absurd hfuel (Nat.not_lt_zero _)
      | succ fuel =>
        rw [readParts, next_ready hready, hrefused, readWhole, (nextWhole_eq_some).mpr ⟨block, rfl, hblock⟩]
        dsimp only
        cases indexOfPart options.delimiter after with
        | none => simp
        | some k =>
          intro hsame
          obtain ⟨reading, -, hreading⟩ := Option.map_eq_some_iff.mp hsame.symm
          cases hreading
  | @later block body rest target headers hblock hbody hreaches ih =>
    obtain ⟨before, later, hrest, hdiffers⟩ := ih hbad
    refine ⟨partBytes options block body ++ before, later, by rw [hrest, List.append_assoc],
      fun r hready hbuffer hchunks fuel hfuel => ?_⟩
    cases fuel with
    | zero => exact absurd hfuel (Nat.not_lt_zero _)
    | succ fuel =>
      have hbytes : partBytes options block body ++ rest = CRLF ++
          (block ++ HEADERS_END ++ (body ++ options.delimiter ++ rest)) := by
        simp only [partBytes, List.append_assoc]
      have hpart : r.buffer = CRLF ++ (block ++ HEADERS_END ++ (body ++ options.delimiter ++ before)) := by
        rw [hbuffer]
        simp only [partBytes, List.append_assoc]
      have hindex : indexOfPart options.delimiter (body ++ options.delimiter ++ rest) = some body.length :=
        indexOfPart_append hbody rest
      have htake : (body ++ options.delimiter ++ rest).take body.length = body := by rw [List.append_assoc, List.take_left]
      have hdrop : (body ++ options.delimiter ++ rest).drop (body.length + options.delimiter.length) = rest := by
        rw [← List.length_append, List.drop_left]
      have hshorter : rest.length < fuel := by
        rw [hbytes] at hfuel
        simp only [List.length_append] at hfuel
        have hfour := delimiter_length options
        omega
      rw [readParts, next_ready hready, nextPart_of_block hpart hblock, readWhole,
        (nextWhole_eq_some).mpr ⟨block, hbytes, hblock⟩]
      dsimp only
      rw [drain_of_delimiter rfl hbody, hindex]
      dsimp only
      rw [htake, hdrop]
      intro hsame
      have hready' : { r with buffer := before, reading := false }.Ready :=
        { started := hready.started, reading := rfl, finished := hready.finished, cancelled := hready.cancelled,
          failed := hready.failed }
      refine hdiffers _ hready' rfl hchunks fuel hshorter (Option.map_injective ?_ hsame)
      intro one other heq
      cases one
      cases other
      cases heq
      rfl

/-! ## The first delimiter -/

theorem start_cases {found : Except String Unit} (hcancelled : r.cancelled = false) (h : r.start options = (found, r')) :
    (found = .ok () ∧ r.rest = options.delimiter ++ r'.rest ∧ { r with started := true }.ReadsOn r')
      ∨ (∃ message, found = .error message) ∧ ¬options.delimiter <+: r.rest := by
  unfold start at h
  cases hwant : { r with started := true }.want options.delimiter.length with
  | mk enough next =>
    rw [hwant] at h
    obtain ⟨⟨rfl, hsize, hrest⟩ | ⟨rfl, hshort⟩, hon⟩ := want_cases hwant
    · by_cases hindex : indexOfPart options.delimiter next.buffer = some 0
      · obtain ⟨-, ⟨after, hafter⟩, -⟩ := indexOfPart_eq_some.mp hindex
        rw [List.drop_zero] at hafter
        simp only [hindex, Bool.true_and, decide_true, if_true] at h
        cases h
        refine .inl ⟨rfl, ?_, hon.skip⟩
        show { r with started := true }.rest = _
        rw [← hrest, rest_skip hsize, rest, ← hafter, List.append_assoc, List.drop_left]
      · simp only [hindex, Bool.true_and, decide_false, if_false, Bool.false_eq_true] at h
        refine .inr ⟨⟨_, fail_eq (hon.cancelled_eq.trans hcancelled) h⟩, fun hfirst => hindex ?_⟩
        have hrest' : next.rest = r.rest := hrest
        refine indexOfPart_eq_some.mpr ⟨Nat.zero_le _, ?_, fun j hj => absurd hj (Nat.not_lt_zero j)⟩
        rw [← hrest', rest] at hfirst
        exact prefix_drop_of_append (by rw [List.drop_zero]; exact hfirst) (by omega)
    · simp only [Bool.false_and, Bool.false_eq_true, if_false] at h
      refine .inr ⟨⟨_, fail_eq (hon.cancelled_eq.trans hcancelled) h⟩, fun hfirst => ?_⟩
      have hlength : options.delimiter.length ≤ r.rest.length := hfirst.length_le
      have hshort' : r.rest.length < options.delimiter.length := hshort
      omega

end Reader

/-- The first delimiter as it is sent. -/
def firstDelimiter (options : Options) : Bytes := [0x2d, 0x2d] ++ utf8 options.boundary

theorem delimiter_eq (options : Options) : options.delimiter = CRLF ++ firstDelimiter options := by
  rw [Options.delimiter, firstDelimiter, List.append_assoc]

/-- A body whose first delimiter comes in the first chunk. -/
theorem start_of_first (options : Options) (before : Bytes) (chunks : List Bytes) :
    (multipartParts ((firstDelimiter options ++ before) :: chunks)).start options
      = (.ok (), { buffer := before, chunks := chunks, started := true }) := by
  have hbuffer : CRLF ++ (firstDelimiter options ++ before) = options.delimiter ++ before := by
    rw [delimiter_eq, List.append_assoc]
  have hfour := Reader.delimiter_length options
  have hshort : ¬options.delimiter.length ≤ CRLF.length := by
    have htwo : CRLF.length = 2 := rfl
    omega
  have hlong : options.delimiter.length ≤ (options.delimiter ++ before).length := by
    rw [List.length_append]
    exact Nat.le_add_right _ _
  have hindex : indexOfPart options.delimiter (options.delimiter ++ before) = some 0 :=
    indexOfPart_eq_some.mpr ⟨Nat.zero_le _, List.prefix_append _ _, fun j hj => absurd hj (Nat.not_lt_zero j)⟩
  unfold Reader.start Reader.want Reader.readUntil multipartParts
  simp only [fillUntil, if_neg hshort, hbuffer]
  rw [fillUntil_of_some (if_pos hlong)]
  simp only [Option.isSome_some, Bool.true_and, hindex, decide_true, if_true, Reader.skip, List.drop_left]

theorem readParts_of_start {r r' : Reader} (fuel : Nat) (hr : r.finished = false ∧ r.cancelled = false ∧ r.failed = none ∧
      r.reading = false ∧ r.started = false)
    (hready : r'.Ready) (h : r.start options = (.ok (), r')) : readParts options fuel r = readParts options fuel r' := by
  have hnext : r.next options = r'.next options := by
    obtain ⟨hfinished, hcancelled, hfailed, hreading, hstarted⟩ := hr
    rw [Reader.next_ready hready]
    unfold Reader.next
    rw [hfinished, hcancelled, hfailed, hreading, hstarted, h]
    rfl
  cases fuel with
  | zero => rfl
  | succ fuel => rw [readParts, readParts, hnext]

/-- A body is read after its first delimiter, or is malformed from its start. -/
theorem readAll_cases (options : Options) (chunks : List Bytes) :
    (¬options.delimiter <+: CRLF ++ chunks.flatten ∧ readAll options chunks = some ⟨[], .malformed none⟩)
      ∨ ∃ r : Reader, CRLF ++ chunks.flatten = options.delimiter ++ r.rest ∧ r.Ready
        ∧ readAll options chunks = readParts options ((CRLF ++ chunks.flatten).length + 1) r := by
  cases hstart : (multipartParts chunks).start options with
  | mk found r =>
    obtain ⟨rfl, hrest, hon⟩ | ⟨⟨message, rfl⟩, hfirst⟩ := Reader.start_cases rfl hstart
    · have hready : r.Ready := by
        rw [hon.flags]
        exact { started := rfl, reading := rfl, finished := rfl, cancelled := rfl, failed := rfl }
      exact .inr ⟨r, hrest, hready, readParts_of_start _ ⟨rfl, rfl, rfl, rfl, rfl⟩ hready hstart⟩
    · refine .inl ⟨hfirst, ?_⟩
      have hnext : (multipartParts chunks).next options = (.error message, r) := by
        unfold Reader.next
        rw [hstart]
        rfl
      unfold readAll
      dsimp only
      rw [readParts, hnext]

theorem readAll_first (options : Options) (before : Bytes) (chunks : List Bytes) :
    readAll options ((firstDelimiter options ++ before) :: chunks)
      = readParts options ((CRLF ++ (firstDelimiter options ++ (before ++ chunks.flatten))).length + 1)
          { buffer := before, chunks := chunks, started := true } := by
  have hready : Reader.Ready { buffer := before, chunks := chunks, started := true } :=
    { started := rfl, reading := rfl, finished := rfl, cancelled := rfl, failed := rfl }
  unfold readAll
  dsimp only
  rw [readParts_of_start _ ⟨rfl, rfl, rfl, rfl, rfl⟩ hready (start_of_first options before chunks), Reader.rest, multipartParts,
    List.flatten_cons, List.append_assoc (firstDelimiter options)]

/-- A body that arrives as one chunk is read as its bytes are. -/
theorem readAll_one (options : Options) (rest : Bytes) :
    readAll options [firstDelimiter options ++ rest] = readWhole options ((CRLF ++ (firstDelimiter options ++ rest)).length +
      1) rest := by
  have hready : Reader.Ready { buffer := rest, chunks := [], started := true } :=
    { started := rfl, reading := rfl, finished := rfl, cancelled := rfl, failed := rfl }
  rw [readAll_first, Reader.readParts_eq _ hready (.inl rfl), Reader.rest, List.flatten_nil, List.append_nil]

/-! ## When the chunks are not seen -/

/-- Each block of headers of the body leaves room for its terminator within the bound. -/
def ShortHeaders (options : Options) (body : Bytes) : Prop :=
  ∀ rest later, body = firstDelimiter options ++ rest → Reaches options rest later → ClearAfter options later

theorem body_of_first {body : Bytes} (h : CRLF ++ body = options.delimiter ++ rest) : body = firstDelimiter options ++ rest := by
  rw [delimiter_eq, List.append_assoc] at h
  exact List.append_cancel_left h

/-- A body reads the same in every split of it exactly where its headers are short. -/
theorem readAll_split_iff (options : Options) (body : Bytes) :
    (∀ chunks : List Bytes, chunks.flatten = body → readAll options chunks = readAll options [body]) ↔
    ShortHeaders options body := by
  constructor
  · intro hsame rest later hbody hreaches
    by_contra hbad
    obtain ⟨before, after, hrest, hdiffers⟩ := Reader.exists_cut hreaches hbad
    have hready : Reader.Ready { buffer := before, chunks := [after], started := true } :=
      { started := rfl, reading := rfl, finished := rfl, cancelled := rfl, failed := rfl }
    have hflatten : [firstDelimiter options ++ before, after].flatten = body := by
      rw [hbody, hrest]
      simp only [List.flatten_cons, List.flatten_nil, List.append_nil, List.append_assoc]
    have hchunks := hsame _ hflatten
    have hone : [after].flatten = after := by rw [List.flatten_cons, List.flatten_nil, List.append_nil]
    rw [hbody, readAll_one, readAll_first, hone, ← hrest] at hchunks
    refine hdiffers _ hready rfl hone _ ?_ hchunks
    simp only [List.length_append]
    omega
  · intro hshort chunks hbody
    obtain ⟨hfirst, hmalformed⟩ | ⟨r, hrest, hready, hread⟩ := readAll_cases options chunks
    · rw [hbody] at hfirst
      rw [hmalformed]
      obtain ⟨-, hmalformed'⟩ | ⟨r, hrest, -⟩ := readAll_cases options [body]
      · exact hmalformed'.symm
      · rw [List.flatten_cons, List.flatten_nil, List.append_nil] at hrest
        exact absurd ⟨_, hrest.symm⟩ hfirst
    · rw [hbody] at hrest
      have hwhole := body_of_first hrest
      rw [hread, Reader.readParts_eq _ hready (.inr fun later => hshort _ later hwhole), hbody, hwhole, readAll_one]

/-- However a body arrives, reading it ends, and what is read is laid out in it. -/
theorem readAll_laid (options : Options) (chunks : List Bytes) :
    ∃ reading, readAll options chunks = some reading
      ∧ (reading = ⟨[], .malformed none⟩ ∨ ∃ rest, chunks.flatten = firstDelimiter options ++ rest ∧
        Reader.Laid options rest reading) := by
  obtain ⟨-, hmalformed⟩ | ⟨r, hrest, hready, hread⟩ := readAll_cases options chunks
  · exact ⟨_, hmalformed, .inl rfl⟩
  · have hfuel : r.rest.length < (CRLF ++ chunks.flatten).length + 1 := by
      rw [hrest, List.length_append]
      omega
    obtain ⟨reading, hreading, hlaid⟩ := Reader.readParts_laid hready hfuel
    exact ⟨reading, hread.trans hreading, .inr ⟨r.rest, body_of_first hrest, hlaid⟩⟩

end Fabrika.App.Multipart
