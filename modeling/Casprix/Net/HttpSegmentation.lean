import Casprix.Net.HttpReading

/-! When the request that a connection hands to the route does not depend on its chunks. -/
namespace Casprix.Net

open List Library

section

variable {word t : List Byte} {c : Byte} {width : Nat}

theorem takeWhile_word (h : ∀ b ∈ word, isSpace b = false)
    (hc : isSpace c = true) (width : Nat) :
    ((word ++ c :: t).take width).takeWhile (!isSpace ·) = word.take width := by
  have hKept : ∀ b ∈ word.take width, (!isSpace b) = true := by
    intro b hb
    rw [h b (mem_of_mem_take hb)]
    rfl
  rw [take_append, takeWhile_append_of_pos hKept]
  cases width - word.length with
  | zero => exact append_nil _
  | succ n =>
    rw [take_succ_cons, takeWhile_cons_of_neg (by rw [hc]; exact Bool.false_ne_true), append_nil]

/-- A word that a blank ends is scanned up to the width. -/
theorem scanWord_word (h : IsToken word) (hc : isSpace c = true) (hWidth : 0 < width) :
    scanWord width (word ++ c :: t) = some (word.take width, word.drop width ++ c :: t) := by
  obtain ⟨hNonempty, hText⟩ := h
  have hWord : ∀ b ∈ word, isSpace b = false := fun b hb => (hText b hb).1
  have hStart : (word ++ c :: t).dropWhile isSpace = word ++ c :: t := by
    obtain ⟨first, rest, rfl⟩ := exists_cons_of_ne_nil hNonempty
    exact dropWhile_cons_of_neg (by rw [hWord first mem_cons_self]; exact Bool.false_ne_true)
  have hTaken : word.take width ≠ [] := by
    apply ne_nil_of_length_pos
    have hPos := length_pos_iff.mpr hNonempty
    rw [length_take]
    omega
  have hDrop : (word ++ c :: t).drop (word.take width).length = word.drop width ++ c :: t := by
    rw [length_take]
    by_cases hShort : width ≤ word.length
    · rw [min_eq_left hShort, drop_append_of_le_length hShort]
    · rw [min_eq_right (Nat.le_of_not_le hShort), drop_left,
        drop_eq_nil_of_le (Nat.le_of_not_le hShort), nil_append]
  rw [scanWord]
  simp only [hStart, takeWhile_word hWord hc, if_neg hTaken, hDrop]

theorem scanWord_blank (hc : isSpace c = true) : scanWord width (c :: t) = scanWord width t := by
  rw [scanWord, scanWord, dropWhile_cons_of_pos hc]

theorem IsToken.drop (h : IsToken word) (hMore : word.drop width ≠ []) :
    IsToken (word.drop width) :=
  ⟨hMore, fun b hb => h.2 b (mem_of_mem_drop hb)⟩

end

namespace WellFormedRequest

variable (r : WellFormedRequest)

/-- The second word that `sscanf` finds: a method that is too long goes on in it. -/
def path : List Byte := if r.method.drop 15 = [] then r.target.take 1023
    else (r.method.drop 15).take 1023

theorem scan_method (t : List Byte) : scanWord 15 (r.requestLine ++ t) =
    some (r.method.take 15, r.method.drop 15 ++ 32 :: (r.target ++ 32 :: (r.version ++ t))) := by
  have hLine : r.requestLine ++ t = r.method ++ 32 :: (r.target ++ 32 :: (r.version ++ t)) := by
    rw [requestLine, append_assoc, cons_append, append_assoc, cons_append]
  rw [hLine]
  exact scanWord_word r.isMethod rfl (by decide)

theorem scan_path (t : List Byte) : ∃ rest,
    scanWord 1023 (r.method.drop 15 ++ 32 :: (r.target ++ 32 :: (r.version ++ t))) =
      some (r.path, rest) := by
  by_cases hLong : r.method.drop 15 = []
  · rw [hLong, nil_append, scanWord_blank rfl,
      scanWord_word r.isTarget rfl (by decide), path, if_pos hLong]
    exact ⟨_, rfl⟩
  · rw [scanWord_word (r.isMethod.drop hLong) rfl (by decide), path, if_neg hLong]
    exact ⟨_, rfl⟩

theorem isHeader_requestLine : IsHeader r.requestLine := by
  have hToken : ∀ {word : List Byte}, IsToken word →
      ∀ b ∈ word, b ≠ 0 ∧ b ≠ cr ∧ b ≠ lf := by
    intro word hWord b hb
    obtain ⟨hSpace, hNul⟩ := hWord.2 b hb
    refine ⟨hNul, ?_, ?_⟩
    · rintro rfl
      cases hSpace
    · rintro rfl
      cases hSpace
  refine ⟨append_ne_nil_of_left_ne_nil r.isMethod.1 _, fun b hb => ?_⟩
  have hBlank : (32 : Byte) ≠ 0 ∧ (32 : Byte) ≠ cr ∧ (32 : Byte) ≠ lf := by decide
  rcases mem_append.mp hb with hMethod | hb
  · exact hToken r.isMethod b hMethod
  · rcases mem_cons.mp hb with rfl | hb
    · exact hBlank
    · rcases mem_append.mp hb with hTarget | hb
      · exact hToken r.isTarget b hTarget
      · rcases mem_cons.mp hb with rfl | hVersion
        · exact hBlank
        · exact hToken r.isVersion b hVersion

theorem areHeaders_lines : ∀ line ∈ r.requestLine :: r.headers, IsHeader line := by
  intro line hLine
  rcases mem_cons.mp hLine with rfl | hHeader
  · exact r.isHeader_requestLine
  · exact r.areHeaders line hHeader

theorem isBlock : IsBlock r.block :=
  isBlock_headerBlock r.areHeaders_lines (cons_ne_nil _ _)

/-- The request with the body bytes that a buffer holds. -/
def parsed (body : List Byte) : HttpRequest where
  method := parseMethod (r.method.take 15)
  path := r.path
  url := r.path
  headers := r.headers.take maxHeaders
  body := body

/-- The number of body bytes that the parser wants. -/
def wanted : Nat := requestContentLength (r.headers.take maxHeaders)

/-- What the parser makes of a buffer does not depend on what follows the headers. -/
theorem parseRequest_block (got : List Byte) :
    parseRequest (r.block ++ got) = some (r.parsed got, got.length, r.wanted) := by
  have hBlock : r.block ++ got = r.requestLine ++ crlf ++ (headerBlock r.headers ++ got) := by
    rw [block, headerBlock_cons, append_assoc]
  have hLine : strstr (r.block ++ got) crlf = some r.requestLine.length := by
    rw [hBlock]
    exact strstr_crlf fun b hb =>
      ⟨(r.isHeader_requestLine.2 b hb).1, (r.isHeader_requestLine.2 b hb).2.1⟩
  have hScan : cString (r.block ++ got) =
      r.requestLine ++ (crlf ++ cString (headerBlock r.headers ++ got)) := by
    rw [hBlock, append_assoc, cString_append fun b hb => (r.isHeader_requestLine.2 b hb).1,
      cString_append noNul_crlf]
  obtain ⟨rest, hPath⟩ := r.scan_path (crlf ++ cString (headerBlock r.headers ++ got))
  have hHeaders : parseHeaders [] ((r.block ++ got).drop (r.requestLine.length + 2)) =
      r.headers.take maxHeaders := by
    have hDrop : (r.block ++ got).drop (r.requestLine.length + 2) =
        headerBlock r.headers ++ got := by
      rw [hBlock]
      exact drop_left' length_append
    rw [hDrop, parseHeaders_headerBlock r.areHeaders (Nat.zero_le _), nil_append]
  have hEnd : strstr (r.block ++ got) headerEnd = some (r.block.length - 4) :=
    strstr_headerEnd r.areHeaders_lines (cons_ne_nil _ _)
  have hBody : (r.block ++ got).drop (r.block.length - 4 + 4) = got := by
    have hLong : 4 ≤ r.block.length := by
      rw [block, headerBlock_cons, headerBlock, length_append, length_append, length_append]
      show 4 ≤ _ + 2 + (_ + 2)
      omega
    rw [Nat.sub_add_cancel hLong]
    exact drop_left
  rw [parseRequest, hLine]
  simp only [hScan, r.scan_method, hPath, hHeaders, hEnd, hBody]
  rfl

end WellFormedRequest

section

variable {headers : List (List Byte)}

theorem le_decimalValue (number : Nat) (v : List Byte) : number ≤ decimalValue number v := by
  induction v generalizing number with
  | nil => exact le_refl number
  | cons b v ih =>
    rw [decimalValue]
    split
    · have hMore := ih (number * 10 + (b.toNat - 48))
      omega
    · exact le_refl number

theorem parseCapped_eq_min {number : Nat} (v : List Byte) (h : number ≤ bodyCap) :
    parseCapped number v = min bodyCap (decimalValue number v) := by
  induction v generalizing number with
  | nil => exact (min_eq_right h).symm
  | cons b v ih =>
    rw [parseCapped, decimalValue]
    split
    · by_cases hCap : bodyCap < number * 10 + (b.toNat - 48)
      · have hMore := le_decimalValue (number * 10 + (b.toNat - 48)) v
        rw [if_pos hCap, min_eq_left (by omega)]
      · rw [if_neg hCap, ih (Nat.le_of_not_lt hCap)]
    · exact (min_eq_right h).symm

theorem requestContentLength_eq_min (headers : List (List Byte)) :
    requestContentLength headers = min bodyCap (declaredLength headers) := by
  induction headers with
  | nil => exact (min_zero bodyCap).symm
  | cons h headers ih =>
    rw [requestContentLength, declaredLength, find?_cons]
    cases hName : isContentLength h with
    | true =>
      rw [if_pos rfl]
      exact parseCapped_eq_min (lengthValue h) (Nat.zero_le bodyCap)
    | false =>
      rw [if_neg Bool.false_ne_true, ih, declaredLength]

theorem declaredLength_take (headers : List (List Byte)) (n : Nat) :
    declaredLength (headers.take n) = declaredLength headers ∨
      declaredLength (headers.take n) = 0 := by
  rw [declaredLength, declaredLength]
  cases hFound : (headers.take n).find? isContentLength with
  | none => exact Or.inr rfl
  | some h =>
    left
    have hWhole : headers.find? isContentLength = some h := by
      rw [← take_append_drop n headers, find?_append, hFound, Option.some_or]
    rw [hWhole]

end

namespace WellFormedRequest

variable {r : WellFormedRequest} {chunks : List (List Byte)}

/-- The parser wants the body when it sees the length and the length is under the cap. -/
theorem wanted_eq_iff : r.wanted = declaredLength r.headers ↔
    declaredLength (r.headers.take maxHeaders) = declaredLength r.headers ∧
      declaredLength r.headers ≤ bodyCap := by
  rw [wanted, requestContentLength_eq_min]
  rcases declaredLength_take r.headers maxHeaders with hSame | hZero
  · rw [hSame]
    omega
  · rw [hZero]
    omega

/-- What becomes of a request when so many of the bytes after its headers arrive with them. -/
def outcome (r : WellFormedRequest) (got : List Byte) : Connection :=
  if got.length < r.wanted then
    if r.wanted ≤ (r.body ++ r.rest).length then .handed
      (r.parsed ((r.body ++ r.rest).take r.wanted))
    else .incompleteBody
  else .handed (r.parsed got)

theorem recvExact_eq_none {need : Nat} {bytes : List Byte} (h : Arrives chunks bytes)
    (hNeed : bytes.length < need) : recvExact need chunks = none := by
  induction need using Nat.strongRecOn generalizing chunks bytes with
  | ind need ih =>
    have hNonzero : need ≠ 0 := (Nat.zero_lt_of_lt hNeed).ne'
    rw [recvExact, if_neg hNonzero]
    by_cases hBytes : bytes = []
    · have hClosed : chunks = [] := by
        cases chunks with
        | nil => rfl
        | cons chunk chunks =>
          have hFlatten := h.flatten
          rw [hBytes, flatten_cons] at hFlatten
          exact absurd (append_eq_nil_iff.mp hFlatten).1 (h.nonempty chunk mem_cons_self)
      rw [hClosed]
      simp only [recv, if_true]
    · obtain ⟨received, more, rest, hRecv, hReceived, _, hMore, rfl⟩ :=
        h.recv hBytes (pos_of_ne_zero hNonzero)
      have hPos := length_pos_iff.mpr hReceived
      rw [length_append] at hNeed
      simp only [hRecv, if_neg hReceived]
      rw [ih (need - received.length) (by omega) hMore (by omega), Option.map_none]

theorem block_ne_nil : r.block ≠ [] :=
  append_ne_nil_of_right_ne_nil _ (cons_ne_nil cr [lf])

/-- The connection after the headers have been read. -/
theorem handleConnection_of_read {got rest : List Byte} {more : List (List Byte)}
    (hRead : readHeaders [] chunks = (r.block ++ got, more)) (hMore : Arrives more rest)
    (hSplit : got ++ rest = r.body ++ r.rest) : handleConnection chunks = r.outcome got := by
  have hBuffer : r.block ++ got ≠ [] := append_ne_nil_of_left_ne_nil block_ne_nil got
  rw [handleConnection, hRead]
  simp only [if_neg hBuffer, r.parseRequest_block]
  rw [outcome, ← hSplit]
  by_cases hShort : got.length < r.wanted
  · rw [if_pos hShort, if_pos hShort, length_append]
    by_cases hWhole : r.wanted ≤ got.length + rest.length
    · rw [if_pos hWhole, hMore.recvExact (by omega), take_append,
        take_of_length_le hShort.le]
      rfl
    · rw [if_neg hWhole, recvExact_eq_none hMore (by omega)]
  · rw [if_neg hShort, if_neg hShort]

theorem handleConnection_eq (hFits : r.block.length ≤ bufferSize) (h : Arrives chunks r.bytes) :
    ∃ got rest, got ++ rest = r.body ++ r.rest ∧ r.block.length + got.length ≤ bufferSize ∧
      handleConnection chunks = r.outcome got := by
  have hPos := length_pos_iff.mpr (block_ne_nil : r.block ≠ [])
  obtain ⟨got, more, rest, hRead, hMore, hSplit, hBound⟩ :=
    r.isBlock.readHeaders hFits h (nil_append r.bytes) hPos
  exact ⟨got, rest, hSplit, hBound, handleConnection_of_read hRead hMore hSplit⟩

theorem exists_split {got rest : List Byte} (hSplit : got ++ rest = r.body ++ r.rest)
    (hBound : r.block.length + got.length ≤ bufferSize) :
    ∃ chunks, Arrives chunks r.bytes ∧ handleConnection chunks = r.outcome got := by
  obtain ⟨more, hMore⟩ : ∃ more, Arrives more rest := by
    by_cases hRest : rest = []
    · exact ⟨[], nofun, hRest.symm⟩
    · exact ⟨[rest], fun chunk hMem => mem_singleton.mp hMem ▸ hRest, flatten_singleton⟩
  refine ⟨(r.block ++ got) :: more, ⟨?_, ?_⟩,
    handleConnection_of_read (r.isBlock.readHeaders_of_le block_ne_nil hBound) hMore hSplit⟩
  · intro chunk hMem
    rcases mem_cons.mp hMem with rfl | hMem
    · exact append_ne_nil_of_left_ne_nil block_ne_nil got
    · exact hMore.nonempty chunk hMem
  · rw [flatten_cons, hMore.flatten, append_assoc, hSplit]
    rfl

/-- The connection hands the route one request, whatever the chunks are, and the body has the
declared length. -/
structure Unsegmented (r : WellFormedRequest) : Prop where
  same : ∀ chunks chunks', Arrives chunks r.bytes → Arrives chunks' r.bytes →
    handleConnection chunks = handleConnection chunks'
  length : ∀ chunks, Arrives chunks r.bytes →
    ∃ request, handleConnection chunks = .handed request ∧
      request.bodyLength = declaredLength r.headers

/-- The length is seen, and nothing can arrive with the headers that is not of the body. -/
theorem http_segmentation_iff (r : WellFormedRequest) (hFits : r.block.length ≤ bufferSize) :
    r.Unsegmented ↔
      (declaredLength (r.headers.take maxHeaders) = declaredLength r.headers ∧
        declaredLength r.headers ≤ bodyCap) ∧
      (r.rest = [] ∨ bufferSize ≤ r.block.length + declaredLength r.headers) := by
  rw [← wanted_eq_iff]
  have hBody : (r.body ++ r.rest).length = declaredLength r.headers + r.rest.length := by
    rw [length_append, r.declared]
  constructor
  · intro h
    have hWanted : r.wanted = declaredLength r.headers := by
      -- The headers arrive alone.
      obtain ⟨chunks, hArrives, hOutcome⟩ := exists_split (nil_append (r.body ++ r.rest)) hFits
      obtain ⟨request, hHanded, hLength⟩ := h.length chunks hArrives
      rw [hOutcome, outcome] at hHanded
      split at hHanded
      · split at hHanded
        · next hWhole =>
            cases hHanded
            rw [← hLength]
            exact (length_take_of_le hWhole).symm
        · cases hHanded
      · next hNone =>
          cases hHanded
          rw [← hLength]
          exact Nat.eq_zero_of_not_pos hNone
    refine ⟨hWanted, ?_⟩
    by_contra hBad
    rw [not_or] at hBad
    have hRest := length_pos_iff.mpr hBad.1
    -- One byte more than the body arrives with the headers.
    obtain ⟨chunks, hArrives, hOutcome⟩ := exists_split
      (take_append_drop (declaredLength r.headers + 1) (r.body ++ r.rest))
      (by rw [length_take]; omega)
    obtain ⟨request, hHanded, hLength⟩ := h.length chunks hArrives
    have hGot : ((r.body ++ r.rest).take (declaredLength r.headers + 1)).length =
        declaredLength r.headers + 1 := by
      rw [length_take]
      omega
    rw [hOutcome, outcome, if_neg (by omega)] at hHanded
    cases hHanded
    have hTooLong : declaredLength r.headers + 1 = declaredLength r.headers :=
      hGot.symm.trans hLength
    omega
  · rintro ⟨hWanted, hEnd⟩
    have hAlways : ∀ chunks, Arrives chunks r.bytes → handleConnection chunks =
        .handed (r.parsed ((r.body ++ r.rest).take (declaredLength r.headers))) := by
      intro chunks hArrives
      obtain ⟨got, rest, hSplit, hBound, hOutcome⟩ := handleConnection_eq hFits hArrives
      have hLengths := congrArg List.length hSplit
      rw [length_append, hBody] at hLengths
      have hGot : got.length ≤ declaredLength r.headers := by
        rcases hEnd with hRest | hFull
        · rw [hRest, length_nil] at hLengths
          omega
        · omega
      rw [hOutcome, outcome, hWanted]
      by_cases hShort : got.length < declaredLength r.headers
      · rw [if_pos hShort, if_pos (by omega)]
      · have hAll : (r.body ++ r.rest).take (declaredLength r.headers) = got := by
          rw [← hSplit]
          exact take_left' (by omega)
        rw [if_neg hShort, hAll]
    refine ⟨fun chunks chunks' h h' =>
      (hAlways chunks h).trans (hAlways chunks' h').symm, fun chunks h => ?_⟩
    refine ⟨_, hAlways chunks h, ?_⟩
    show ((r.body ++ r.rest).take (declaredLength r.headers)).length = _
    rw [length_take]
    omega

end WellFormedRequest

/-- A posted greeting, and what the connection carries after it. -/
def greetingRequest (rest : List Byte) : WellFormedRequest where
  method := ascii "POST"
  target := ascii "/echo"
  version := ascii "HTTP/1.1"
  headers := [ascii "Host: x", ascii "Content-Length: 2"]
  body := ascii "hi"
  rest := rest
  isMethod := ⟨by decide, by decide⟩
  isTarget := ⟨by decide, by decide⟩
  isVersion := ⟨by decide, by decide⟩
  areHeaders := by
    intro line hLine
    rcases mem_cons.mp hLine with rfl | hLine
    · exact ⟨by decide, by decide⟩
    · obtain rfl := mem_singleton.mp hLine
      exact ⟨by decide, by decide⟩
  declared := by decide

theorem greetingRequest_fits (rest : List Byte) :
    (greetingRequest rest).block.length ≤ bufferSize := by
  show (greetingRequest []).block.length ≤ bufferSize
  decide

/-- With nothing after its body the request does not depend on the chunks. -/
theorem http_segmentation_greeting : (greetingRequest []).Unsegmented :=
  (WellFormedRequest.http_segmentation_iff (greetingRequest []) (greetingRequest_fits [])).mpr
    ⟨⟨by decide, by decide⟩, Or.inl rfl⟩

/-- The first byte of a next request becomes a part of the body when it arrives with it. -/
theorem http_body_takes_next_byte : ¬(greetingRequest (ascii "G")).Unsegmented := by
  intro h
  have hSplit : ascii "hiG" ++ [] =
      (greetingRequest (ascii "G")).body ++ (greetingRequest (ascii "G")).rest := by
    decide
  obtain ⟨chunks, hArrives, hOutcome⟩ := WellFormedRequest.exists_split hSplit (by decide)
  obtain ⟨request, hHanded, hLength⟩ := h.length chunks hArrives
  have hGot : (greetingRequest (ascii "G")).outcome (ascii "hiG") =
      .handed ((greetingRequest (ascii "G")).parsed (ascii "hiG")) := by
    rw [WellFormedRequest.outcome, if_neg (by decide)]
  rw [hOutcome, hGot] at hHanded
  cases hHanded
  revert hLength
  decide

end Casprix.Net
