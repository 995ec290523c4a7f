import Casprix.Net.Http

/-! What the two reading loops get from a connection, whatever its chunks are, and what the
parser makes of a buffer that begins with a whole header block. -/
namespace Casprix.Net

open List Library

variable {chunks more : List (List Byte)}
  {bytes buffer block tail got received : List Byte} {length need : Nat}

/-- A call of `recv` takes something off the front, unless the connection is closed. -/
theorem Arrives.recv (h : Arrives chunks bytes) (hBytes : bytes ≠ []) (hLength : 0 < length) :
    ∃ received more rest, recv length chunks = (received, more) ∧ received ≠ [] ∧
      received.length ≤ length ∧ Arrives more rest ∧ received ++ rest = bytes := by
  cases chunks with
  | nil => exact absurd h.flatten.symm hBytes
  | cons chunk chunks =>
    have hChunk := h.nonempty chunk mem_cons_self
    have hRest : ∀ chunk ∈ chunks, chunk ≠ [] := fun chunk hMem =>
      h.nonempty chunk (mem_cons_of_mem _ hMem)
    have hPos := length_pos_iff.mpr hChunk
    have hTaken : chunk.take length ≠ [] := by
      apply ne_nil_of_length_pos
      rw [length_take]
      omega
    have hBound : (chunk.take length).length ≤ length := length_take_le length chunk
    have hFlatten := h.flatten
    rw [flatten_cons] at hFlatten
    by_cases hMore : length < chunk.length
    · refine ⟨chunk.take length, chunk.drop length :: chunks,
        chunk.drop length ++ chunks.flatten, ?_, hTaken,
        hBound, ⟨?_, flatten_cons⟩, ?_⟩
      · rw [Net.recv, if_pos hMore]
      · intro other hOther
        rcases mem_cons.mp hOther with rfl | hOther
        · apply ne_nil_of_length_pos
          rw [length_drop]
          omega
        · exact hRest other hOther
      · rw [← append_assoc, take_append_drop, hFlatten]
    · refine ⟨chunk.take length, chunks, chunks.flatten, ?_, hTaken,
        hBound, ⟨hRest, rfl⟩, ?_⟩
      · rw [Net.recv, if_neg hMore]
      · rw [take_of_length_le (not_lt.mp hMore), hFlatten]

/-- `recv_exact` gets its bytes when the connection carries as many. -/
theorem Arrives.recvExact (h : Arrives chunks bytes) (hNeed : need ≤ bytes.length) :
    recvExact need chunks = some (bytes.take need) := by
  induction need using Nat.strongRecOn generalizing chunks bytes with
  | ind need ih =>
    rw [Net.recvExact]
    by_cases hZero : need = 0
    · rw [if_pos hZero, hZero, take_zero]
    · rw [if_neg hZero]
      have hBytes : bytes ≠ [] := by
        apply ne_nil_of_length_pos
        omega
      obtain ⟨received, more, rest, hRecv, hReceived, hBound, hMore, rfl⟩ :=
        h.recv hBytes (pos_of_ne_zero hZero)
      have hPos := length_pos_iff.mpr hReceived
      rw [length_append] at hNeed
      simp only [hRecv, if_neg hReceived]
      rw [ih (need - received.length) (by omega) hMore (by omega), Option.map_some, take_append,
        take_of_length_le hBound]

/-- A buffer in which the loop finds the end of the headers. -/
def Terminated (buffer : List Byte) : Prop := (strstr buffer headerEnd).isSome = true

/-- A header block that ends at the first end of the headers. -/
structure IsBlock (block : List Byte) : Prop where
  ends : ∀ tail, Terminated (block ++ tail)
  first : ∀ buffer more, buffer ++ more = block → more ≠ [] → ¬Terminated buffer

/-- The loop stops with the whole header block and some of the bytes that follow it. -/
theorem IsBlock.readHeaders (hBlock : IsBlock block) (hFits : block.length ≤ bufferSize)
    (h : Arrives chunks bytes) (hBytes : buffer ++ bytes = block ++ tail)
    (hBuffer : buffer.length < block.length) :
    ∃ got more rest, readHeaders buffer chunks = (block ++ got, more) ∧ Arrives more rest ∧
      got ++ rest = tail ∧ block.length + got.length ≤ bufferSize := by
  induction hRoom : bufferSize -
    buffer.length using Nat.strongRecOn generalizing buffer chunks bytes with
  | ind room ih =>
    have hLess : buffer.length < bufferSize := hBuffer.trans_le hFits
    have hNonempty : bytes ≠ [] := by
      rintro rfl
      have hLength := congrArg List.length hBytes
      rw [append_nil, length_append] at hLength
      omega
    obtain ⟨received, more, rest, hRecv, hReceived, hBound, hMore, rfl⟩ :=
      h.recv hNonempty (Nat.sub_pos_of_lt hLess)
    have hPos := length_pos_iff.mpr hReceived
    rw [← append_assoc] at hBytes
    rw [Net.readHeaders, if_pos hLess]
    simp only [hRecv, if_neg hReceived]
    by_cases hWhole : block.length ≤ (buffer ++ received).length
    · -- The block is in the buffer.
      obtain ⟨got, hGot⟩ : ∃ got, buffer ++ received = block ++ got := by
        have hPrefix := prefix_of_prefix_length_le (prefix_append block tail)
          (hBytes ▸ prefix_append (buffer ++ received) rest) hWhole
        obtain ⟨got, hGot⟩ := hPrefix
        exact ⟨got, hGot.symm⟩
      have hEnd : (strstr (buffer ++ received) headerEnd).isSome = true := hGot ▸ hBlock.ends got
      rw [if_pos hEnd, hGot]
      refine ⟨got, more, rest, rfl, hMore, ?_, ?_⟩
      · rw [hGot, append_assoc] at hBytes
        exact append_cancel_left hBytes
      · rw [← length_append, ← hGot, length_append]
        omega
    · -- What is in the buffer is a part of the block.
      obtain ⟨missing, hMissing⟩ := prefix_of_prefix_length_le
        (hBytes ▸ prefix_append (buffer ++ received) rest) (prefix_append block tail)
        (Nat.le_of_not_le hWhole)
      have hOpen : ¬(strstr (buffer ++ received) headerEnd).isSome = true := by
        apply hBlock.first (buffer ++ received) missing hMissing
        rintro rfl
        rw [append_nil] at hMissing
        exact hWhole ((congrArg List.length hMissing.symm).le)
      rw [if_neg hOpen]
      refine ih (bufferSize - (buffer ++ received).length) ?_ hMore hBytes
        (Nat.lt_of_not_le hWhole) rfl
      rw [length_append]
      omega

/-- Any number of the bytes that follow can arrive with the block. -/
theorem IsBlock.readHeaders_of_le (hBlock : IsBlock block) (hNonempty : block ≠ [])
    (hFits : block.length + got.length ≤ bufferSize) :
    Net.readHeaders [] ((block ++ got) :: more) = (block ++ got, more) := by
  have hWhole : (block ++ got) ≠ [] := append_ne_nil_of_left_ne_nil hNonempty got
  have hTake : (block ++ got).take bufferSize = block ++ got :=
    take_of_length_le (by rw [length_append]; exact hFits)
  have hNoMore : ¬bufferSize < (block ++ got).length := by
    rw [length_append]
    omega
  have hEnd : (strstr (block ++ got) headerEnd).isSome = true := hBlock.ends got
  rw [Net.readHeaders, if_pos (show ([] : List Byte).length < bufferSize by decide)]
  simp only [recv, length_nil, Nat.sub_zero, hTake, if_neg hNoMore, if_neg hWhole, nil_append]
  exact if_pos hEnd

section

variable {line t : List Byte} {lines stored : List (List Byte)} {c : Byte} {width : Nat}

theorem cString_append (h : ∀ b ∈ line, b ≠ 0) : cString (line ++ t) = line ++ cString t :=
  takeWhile_append_of_pos fun b hb => bne_iff_ne.mpr (h b hb)

theorem noNul_crlf : ∀ b ∈ crlf, b ≠ 0 := by decide

theorem findSuffix_crlf (h : cr ∉ line) :
    findSuffix crlf (line ++ crlf ++ t) = some (crlf ++ t) := by
  rw [append_assoc, crlf, findSuffix_append_of_not_mem h, cons_append, findSuffix_cons_self,
    if_pos (prefix_append [lf] t)]

theorem strstr_crlf (h : ∀ b ∈ line, b ≠ 0 ∧ b ≠ cr) :
    strstr (line ++ crlf ++ t) crlf = some line.length := by
  have hString : cString (line ++ crlf ++ t) = line ++ crlf ++ cString t := by
    apply cString_append
    intro b hb
    rcases mem_append.mp hb with hLine | hEnd
    · exact (h b hLine).1
    · exact noNul_crlf b hEnd
  rw [strstr, hString, findSuffix_crlf fun hMem => (h cr hMem).2 rfl, Option.map_some]
  congr 1
  rw [length_append, length_append, length_append]
  omega

theorem headerBlock_cons : headerBlock (line :: lines) = line ++ crlf ++ headerBlock lines := by
  rw [headerBlock, flatMap_cons, append_assoc]
  rfl

section

variable (h : ∀ line ∈ lines, IsHeader line)
include h

theorem noNul_headerBlock : ∀ b ∈ headerBlock lines, b ≠ 0 := by
  intro b hb
  rcases mem_append.mp hb with hLines | hEnd
  · obtain ⟨line, hLine, hb⟩ := mem_flatMap.mp hLines
    rcases mem_append.mp hb with hText | hEnd
    · exact ((h line hLine).2 b hText).1
    · exact noNul_crlf b hEnd
  · exact noNul_crlf b hEnd

/-- The first empty line is the one that ends the block. -/
theorem findSuffix_headerEnd (hLines : lines ≠ []) :
    findSuffix headerEnd (headerBlock lines ++ t) = some (headerEnd ++ t) := by
  induction lines with
  | nil => exact absurd rfl hLines
  | cons line lines ih =>
    obtain ⟨hNonempty, hText⟩ := h line mem_cons_self
    have hRest : ∀ line ∈ lines, IsHeader line := fun line hLine =>
      h line (mem_cons_of_mem _ hLine)
    have hNoCr : cr ∉ line := fun hMem => (hText cr hMem).2.1 rfl
    rw [headerBlock_cons, append_assoc, append_assoc]
    show findSuffix (cr :: lf :: crlf) (line ++ (cr :: lf :: (headerBlock lines ++ t))) =
      some (headerEnd ++ t)
    rw [findSuffix_append_of_not_mem hNoCr, findSuffix_cons_self]
    cases lines with
    | nil =>
      have hHere : lf :: crlf <+: lf :: (headerBlock [] ++ t) := prefix_append (lf :: crlf) t
      rw [if_pos hHere]
      rfl
    | cons next lines =>
      have hNext := h next (mem_cons_of_mem _ mem_cons_self)
      have hNot : ¬lf :: crlf <+: lf :: (headerBlock (next :: lines) ++ t) := by
        obtain ⟨first, rest, rfl⟩ := exists_cons_of_ne_nil hNext.1
        intro hPrefix
        have hFirst := (cons_prefix_cons.mp hPrefix).2
        rw [headerBlock_cons] at hFirst
        have hEq := (cons_prefix_cons.mp hFirst).1
        exact (hNext.2 first mem_cons_self).2.1 hEq.symm
      have hLf : lf ≠ cr := by decide
      have hSkip : findSuffix (cr :: lf :: crlf) (lf :: (headerBlock (next :: lines) ++ t)) =
          findSuffix (cr :: lf :: crlf) (headerBlock (next :: lines) ++ t) := by
        apply findSuffix_append_of_not_mem (s := [lf])
        rw [mem_singleton]
        exact hLf.symm
      rw [if_neg hNot, hSkip]
      exact ih hRest (cons_ne_nil next lines)

theorem strstr_headerEnd (hLines : lines ≠ []) :
    strstr (headerBlock lines ++ t) headerEnd = some ((headerBlock lines).length - 4) := by
  rw [strstr, cString_append (noNul_headerBlock h), findSuffix_headerEnd h hLines, Option.map_some]
  congr 1
  rw [length_append, length_append]
  show _ - (4 + _) = _
  omega

theorem isBlock_headerBlock (hLines : lines ≠ []) :
    IsBlock (headerBlock lines) where
  ends tail := by
    rw [Terminated, strstr_headerEnd h hLines]
    rfl
  first buffer more hMore hMissing := by
    have hNoNul : ∀ b ∈ buffer, b ≠ 0 := fun b hb =>
      noNul_headerBlock h b (hMore ▸ mem_append_left more hb)
    have hString : cString buffer = buffer := by
      have hAll := cString_append (t := []) hNoNul
      rw [append_nil] at hAll
      rw [hAll]
      exact append_nil buffer
    have hWhole : findSuffix headerEnd (buffer ++ more) = some (headerEnd ++ []) := by
      have hFound := findSuffix_headerEnd (t := []) h hLines
      rw [append_nil] at hFound
      rw [hMore, hFound]
    have hPos := length_pos_iff.mpr hMissing
    have hNone : findSuffix headerEnd buffer = none := by
      apply findSuffix_eq_none_of_lt hWhole
      rw [length_append, length_append, length_nil]
      omega
    rw [Terminated, strstr, hString, hNone, Option.map_none]
    exact Bool.false_ne_true

/-- The header loop stores the first lines of the block. -/
theorem parseHeaders_headerBlock (hStored : stored.length ≤ maxHeaders) :
    parseHeaders stored (headerBlock lines ++ t) = (stored ++ lines).take maxHeaders := by
  induction lines generalizing stored with
  | nil =>
    have hEmpty : strstr (headerBlock [] ++ t) crlf = some 0 :=
      strstr_crlf nofun
    have hHere : headerBlock [] ++ t ≠ [] := cons_ne_nil cr (lf :: t)
    rw [parseHeaders, hEmpty, if_neg hHere, append_nil, take_of_length_le hStored]
  | cons line lines ih =>
    obtain ⟨hNonempty, hText⟩ := h line mem_cons_self
    have hRest : ∀ line ∈ lines, IsHeader line := fun line hLine =>
      h line (mem_cons_of_mem _ hLine)
    obtain ⟨n, hn⟩ : ∃ n, line.length = n + 1 :=
      ⟨line.length - 1, (Nat.sub_add_cancel (length_pos_iff.mpr hNonempty)).symm⟩
    have hFound : strstr (line ++ crlf ++ (headerBlock lines ++ t)) crlf = some (n + 1) := by
      rw [strstr_crlf fun b hb => ⟨(hText b hb).1, (hText b hb).2.1⟩, hn]
    have hTake : (line ++ crlf ++ (headerBlock lines ++ t)).take (n + 1) = line := by
      rw [← hn, append_assoc, take_left]
    have hDrop : (line ++ crlf ++ (headerBlock lines ++ t)).drop (n + 1 + 2) =
        headerBlock lines ++ t := by
      rw [← hn]
      exact drop_left' (length_append.trans rfl)
    rw [headerBlock_cons, append_assoc, parseHeaders, hFound,
      if_neg (by rw [append_assoc]; exact append_ne_nil_of_left_ne_nil hNonempty _)]
    simp only [hTake, hDrop]
    by_cases hRoom : stored.length < maxHeaders
    · rw [if_pos hRoom, ih hRest (by rw [length_append]; exact hRoom), append_assoc]
      rfl
    · rw [if_neg hRoom, ih hRest hStored, take_append_of_le_length (Nat.le_of_not_lt hRoom),
        take_append_of_le_length (Nat.le_of_not_lt hRoom)]

end

end

end Casprix.Net
