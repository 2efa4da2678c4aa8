import Jaiba.Lib.Bytes

/-!
# Buffered readers

A byte stream as its reads deliver it: nonempty chunks, cut anywhere. A read up
to a delimiter depends on the bytes alone, not on the cuts.
-/

namespace Jaiba.Lib

/-- The chunks still to be read; after the last one comes the end of the stream. -/
structure Reader where
  chunks : List Bytes
  nonempty : ∀ chunk ∈ chunks, chunk ≠ []

namespace Reader

def bytes (r : Reader) : Bytes := r.chunks.flatten

/-- `BufRead::fill_buf`: empty at the end of the stream only. -/
def fillBuf (r : Reader) : Bytes := r.chunks.headD []

/-- `BufRead::consume`: drops `n` bytes of the buffer. -/
def consume (r : Reader) (n : ℕ) : Reader where
  chunks := match r.chunks with
    | [] => []
    | chunk :: chunks => if chunk.drop n = [] then chunks else chunk.drop n :: chunks
  nonempty := by
    intro chunk hmem
    obtain ⟨chunks, hne⟩ := r
    cases chunks with
    | nil => exact absurd hmem List.not_mem_nil
    | cons first rest =>
      dsimp only at hmem
      split at hmem
      · exact hne chunk (List.mem_cons_of_mem first hmem)
      · next hdrop =>
        rcases List.mem_cons.mp hmem with rfl | hmem
        · exact hdrop
        · exact hne chunk (List.mem_cons_of_mem first hmem)

theorem fillBuf_eq_nil_iff (r : Reader) : r.fillBuf = [] ↔ r.bytes = [] := by
  obtain ⟨chunks, hne⟩ := r
  cases chunks with
  | nil => exact iff_of_true rfl rfl
  | cons chunk chunks =>
    have hchunk := hne chunk List.mem_cons_self
    refine iff_of_false hchunk ?_
    rw [bytes, List.flatten_cons, List.append_eq_nil_iff]
    exact fun h => hchunk h.1

theorem bytes_eq_fillBuf_append (r : Reader) : ∃ rest : Bytes, r.bytes = r.fillBuf ++ rest := by
  obtain ⟨chunks, hne⟩ := r
  cases chunks with
  | nil => exact ⟨[], rfl⟩
  | cons chunk chunks => exact ⟨chunks.flatten, List.flatten_cons⟩

theorem bytes_consume {r : Reader} {n : ℕ} (h : n ≤ r.fillBuf.length) :
    (r.consume n).bytes = r.bytes.drop n := by
  obtain ⟨chunks, hne⟩ := r
  cases chunks with
  | nil => exact (List.drop_nil).symm
  | cons chunk chunks =>
    have hn : n ≤ chunk.length := h
    rw [bytes, bytes, List.flatten_cons, List.drop_append_of_le_length hn, consume]
    dsimp only
    split
    · next hdrop => rw [hdrop, List.nil_append]
    · rw [List.flatten_cons]

end Reader

/-! ### Delimited reads -/

/-- The bytes through the first delimiter, or all of them. -/
def upTo (delimiter : UInt8) : Bytes → Bytes
  | [] => []
  | b :: bs => if b = delimiter then [b] else b :: upTo delimiter bs

section
variable {delimiter : UInt8}

theorem upTo_append_of_not_mem {bs : Bytes} (h : delimiter ∉ bs) (more : Bytes) :
    upTo delimiter (bs ++ more) = bs ++ upTo delimiter more := by
  induction bs with
  | nil => rfl
  | cons b bs ih =>
    rw [List.mem_cons, not_or] at h
    rw [List.cons_append, upTo, if_neg (Ne.symm h.1), ih h.2, List.cons_append]

theorem upTo_of_not_mem {bs : Bytes} (h : delimiter ∉ bs) : upTo delimiter bs = bs := by
  have hnil := upTo_append_of_not_mem h []
  rwa [List.append_nil, upTo, List.append_nil] at hnil

theorem upTo_line {body : Bytes} (h : delimiter ∉ body) (rest : Bytes) :
    upTo delimiter (body ++ delimiter :: rest) = body ++ [delimiter] := by
  rw [upTo_append_of_not_mem h, upTo, if_pos rfl]

theorem exists_line_of_mem {bs : Bytes} (h : delimiter ∈ bs) :
    ∃ body rest : Bytes, bs = body ++ delimiter :: rest ∧ delimiter ∉ body := by
  induction bs with
  | nil => exact absurd h List.not_mem_nil
  | cons b bs ih =>
    by_cases hb : b = delimiter
    · exact ⟨[], bs, by rw [hb, List.nil_append], List.not_mem_nil⟩
    · obtain ⟨body, rest, rfl, hbody⟩ := ih ((List.mem_cons.mp h).resolve_left (Ne.symm hb))
      refine ⟨b :: body, rest, rfl, ?_⟩
      rw [List.mem_cons, not_or]
      exact ⟨Ne.symm hb, hbody⟩

theorem upTo_append_of_mem {bs : Bytes} (h : delimiter ∈ bs) (more : Bytes) :
    upTo delimiter (bs ++ more) = upTo delimiter bs := by
  obtain ⟨body, rest, rfl, hbody⟩ := exists_line_of_mem h
  rw [List.append_assoc, List.cons_append, upTo_line hbody, upTo_line hbody]

theorem upTo_take (bs : Bytes) (n : ℕ) :
    upTo delimiter (bs.take n) = (upTo delimiter bs).take n := by
  induction bs generalizing n with
  | nil => rw [List.take_nil, upTo, List.take_nil]
  | cons b bs ih =>
    cases n with
    | zero => rw [List.take_zero, List.take_zero, upTo]
    | succ n =>
      rw [List.take_succ_cons, upTo, upTo]
      split
      · rw [List.take_succ_cons, List.take_nil]
      · rw [List.take_succ_cons, ih]

theorem upTo_append_drop (bs : Bytes) :
    upTo delimiter bs ++ bs.drop (upTo delimiter bs).length = bs := by
  induction bs with
  | nil => rfl
  | cons b bs ih =>
    rw [upTo]
    split
    · rfl
    · rw [List.length_cons, List.drop_succ_cons, List.cons_append, ih]

theorem length_upTo_le (bs : Bytes) : (upTo delimiter bs).length ≤ bs.length := by
  have h := congrArg List.length (@upTo_append_drop delimiter bs)
  rw [List.length_append] at h
  omega

theorem upTo_eq_nil_iff {bs : Bytes} : upTo delimiter bs = [] ↔ bs = [] := by
  cases bs with
  | nil => exact iff_of_true rfl rfl
  | cons b bs =>
    refine iff_of_false ?_ (List.cons_ne_nil b bs)
    rw [upTo]
    split
    · exact List.cons_ne_nil _ _
    · exact List.cons_ne_nil _ _

/-- Only a whole line ends in the delimiter. -/
theorem getLast?_upTo {bs : Bytes} : (upTo delimiter bs).getLast? = some delimiter ↔ delimiter ∈ bs := by
  constructor
  · intro h
    by_contra hmem
    rw [upTo_of_not_mem hmem] at h
    exact hmem (List.mem_of_getLast? h)
  · intro h
    obtain ⟨body, rest, rfl, hbody⟩ := exists_line_of_mem h
    rw [upTo_line hbody, List.getLast?_concat]

/-- The length of the first line of a buffer, as a search for the delimiter gives it. -/
theorem lineLength_eq (bs : Bytes) :
    ((bs.findIdx? (· == delimiter)).elim bs.length (· + 1)) = (upTo delimiter bs).length := by
  induction bs with
  | nil => rfl
  | cons b bs ih =>
    rw [List.findIdx?_cons, upTo]
    by_cases hb : b = delimiter
    · rw [if_pos hb, if_pos (beq_iff_eq.mpr hb)]
      rfl
    · rw [if_neg hb, if_neg (fun h => hb (beq_iff_eq.mp h)), List.length_cons, List.length_cons, ← ih]
      cases bs.findIdx? (· == delimiter) with
      | none => rfl
      | some i => rfl

theorem take_lineLength (bs : Bytes) :
    bs.take (upTo delimiter bs).length = upTo delimiter bs := by
  have h : (upTo delimiter bs ++ bs.drop (upTo delimiter bs).length).take
      (upTo delimiter bs).length = upTo delimiter bs := List.take_left
  rwa [upTo_append_drop] at h

/-- A search that found the delimiter of the first line. -/
theorem findIdx?_delimiter {bs : Bytes} {i : ℕ} (h : bs.findIdx? (· == delimiter) = some i) :
    delimiter ∈ bs ∧ bs.take (i + 1) = upTo delimiter bs ∧ (upTo delimiter bs).length = i + 1 := by
  have hlength := @lineLength_eq delimiter bs
  rw [h] at hlength
  obtain ⟨hlt, hget, -⟩ := List.findIdx?_eq_some_iff_getElem.mp h
  have hmem : delimiter ∈ bs := by
    rw [← beq_iff_eq.mp hget]
    exact List.getElem_mem hlt
  have htake := @take_lineLength delimiter bs
  rw [← hlength] at htake
  exact ⟨hmem, htake, hlength.symm⟩

theorem not_mem_of_findIdx? {bs : Bytes} (h : bs.findIdx? (· == delimiter) = none) :
    delimiter ∉ bs := by
  intro hmem
  have hfalse := List.findIdx?_eq_none_iff.mp h delimiter hmem
  rw [beq_self_eq_true] at hfalse
  cases hfalse

end

namespace Reader
variable {delimiter : UInt8}

theorem upTo_bytes_of_mem {r : Reader} (h : delimiter ∈ r.fillBuf) :
    upTo delimiter r.bytes = upTo delimiter r.fillBuf := by
  obtain ⟨rest, hrest⟩ := r.bytes_eq_fillBuf_append
  rw [hrest, upTo_append_of_mem h]

theorem upTo_bytes_of_not_mem {r : Reader} (h : delimiter ∉ r.fillBuf) :
    upTo delimiter r.bytes = r.fillBuf ++ upTo delimiter (r.bytes.drop r.fillBuf.length) := by
  obtain ⟨rest, hrest⟩ := r.bytes_eq_fillBuf_append
  rw [hrest, upTo_append_of_not_mem h, List.drop_left]

/-- `AsyncBufReadExt::read_until` over `take(limit)`: through the first delimiter, to
the end of the stream or to the limit, whichever comes first. -/
def readUntil (delimiter : UInt8) (limit : ℕ) (r : Reader) (line : Bytes) : Bytes × Reader :=
  let available := r.fillBuf.take limit
  match available.findIdx? (· == delimiter) with
  | some i => (line ++ available.take (i + 1), r.consume (i + 1))
  | none =>
    if _h : available = [] then (line, r)
    else
      readUntil delimiter (limit - available.length) (r.consume available.length) (line ++ available)
termination_by r.bytes.length
decreasing_by
  have hle : available.length ≤ r.fillBuf.length := List.length_take_le' limit r.fillBuf
  have hpos := List.length_pos_iff.mpr _h
  obtain ⟨rest, hrest⟩ := r.bytes_eq_fillBuf_append
  have hlength := congrArg List.length hrest
  rw [List.length_append] at hlength
  rw [bytes_consume hle, List.length_drop]
  omega

theorem take_bytes_of_le {r : Reader} {n : ℕ} (h : n ≤ r.fillBuf.length) :
    r.bytes.take n = r.fillBuf.take n := by
  obtain ⟨rest, hrest⟩ := r.bytes_eq_fillBuf_append
  rw [hrest, List.take_append_of_le_length h]

/-- What lies within the limit begins with what the buffer shows of it. -/
theorem take_limit (r : Reader) (limit : ℕ) :
    r.bytes.take limit = r.fillBuf.take limit ++
      (r.bytes.drop (r.fillBuf.take limit).length).take (limit - (r.fillBuf.take limit).length) := by
  have hlimit : (r.fillBuf.take limit).length ≤ limit := List.length_take_le _ _
  have hbuffer : r.bytes.take (r.fillBuf.take limit).length = r.fillBuf.take limit := by
    rw [take_bytes_of_le (List.length_take_le' limit r.fillBuf), List.length_take,
      List.take_eq_take_iff]
    omega
  conv_lhs => rw [← Nat.add_sub_of_le hlimit, List.take_add]
  rw [hbuffer]

/-- The line read depends on the bytes of the stream, not on how they are cut. -/
theorem readUntil_eq (r : Reader) (limit : ℕ) (line : Bytes) :
    (r.readUntil delimiter limit line).1 = line ++ upTo delimiter (r.bytes.take limit) ∧
      (r.readUntil delimiter limit line).2.bytes =
        r.bytes.drop (upTo delimiter (r.bytes.take limit)).length := by
  fun_induction readUntil delimiter limit r line with
  | case1 limit r line available i hi =>
    obtain ⟨hmem, htake, hlength⟩ := findIdx?_delimiter hi
    have hline : upTo delimiter (r.bytes.take limit) = upTo delimiter available := by
      rw [take_limit, upTo_append_of_mem hmem]
    have hle : i + 1 ≤ r.fillBuf.length := by
      have hshort := @length_upTo_le delimiter available
      have hbuffer : available.length ≤ r.fillBuf.length := List.length_take_le' limit r.fillBuf
      omega
    rw [hline, htake, hlength]
    exact ⟨rfl, bytes_consume hle⟩
  | case2 limit r line available hi hnil =>
    have hbytes : r.bytes.take limit = [] := by
      rw [List.take_eq_nil_iff]
      rcases List.take_eq_nil_iff.mp hnil with hlimit | hbuffer
      · exact .inl hlimit
      · exact .inr ((fillBuf_eq_nil_iff r).mp hbuffer)
    rw [hbytes, upTo, List.append_nil, List.length_nil, List.drop_zero]
    exact ⟨rfl, rfl⟩
  | case3 limit r line available hi hne ih =>
    have hbuffer : available.length ≤ r.fillBuf.length := List.length_take_le' limit r.fillBuf
    have hline : upTo delimiter (r.bytes.take limit) = available ++
        upTo delimiter ((r.bytes.drop available.length).take (limit - available.length)) := by
      rw [take_limit, upTo_append_of_not_mem (not_mem_of_findIdx? hi)]
    rw [bytes_consume hbuffer] at ih
    rw [hline, List.length_append, ← List.drop_drop, ← List.append_assoc]
    exact ih

end Reader

end Jaiba.Lib
