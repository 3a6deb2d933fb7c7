import Mathlib

/-!
# io.Reader

A reader whose bytes arrive in pieces, and `io.ReadFull` on it. A piece may be empty, and the end of
the file may come with the last piece or in a read of its own.
-/

namespace Go

structure Reader where
  chunks : List (List UInt8)
  endsWithLast : Bool

namespace Reader

/-- The bytes it has still to deliver. -/
def bytes (reader : Reader) : List UInt8 := reader.chunks.flatten

/-- `Read` into `n` bytes: what was read, whether the error is `io.EOF`, and the reader after it. -/
def read (n : ℕ) (reader : Reader) : List UInt8 × Bool × Reader :=
  match reader.chunks with
  | [] => ([], true, reader)
  | chunk :: chunks =>
    if n < chunk.length then
      (chunk.take n, false, { reader with chunks := chunk.drop n :: chunks })
    else (chunk, reader.endsWithLast && chunks.isEmpty, { reader with chunks := chunks })

/-- How `ReadFull` ends. -/
inductive End where
  | full (buf : List UInt8)
  | eof
  | unexpectedEOF

/-- `ReadAtLeast` into `n` bytes, all of them to be read; `buf` is what has been. -/
def readAtLeast (n : ℕ) (buf : List UInt8) (reader : Reader) : End × Reader :=
  if n ≤ buf.length then (.full buf, reader)
  else
    match _hread : reader.read (n - buf.length) with
    | (read, true, reader) =>
      let buf := buf ++ read
      if n ≤ buf.length then (.full buf, reader)
      else if buf.length = 0 then (.eof, reader)
      else (.unexpectedEOF, reader)
    | (read, false, reader) => readAtLeast n (buf ++ read) reader
termination_by n - buf.length + reader.chunks.length
decreasing_by
  have hread := _hread
  unfold Reader.read at hread
  split at hread
  · cases hread
  · rename_i chunk chunks hchunks
    split_ifs at hread with hlt
    · rw [Prod.mk.injEq, Prod.mk.injEq] at hread
      obtain ⟨rfl, -, rfl⟩ := hread
      simp only [List.length_append, List.length_take, hchunks, List.length_cons]
      omega
    · rw [Prod.mk.injEq, Prod.mk.injEq] at hread
      obtain ⟨rfl, -, rfl⟩ := hread
      simp only [List.length_append, hchunks, List.length_cons]
      omega

/-- `io.ReadFull` -/
def readFull (n : ℕ) (reader : Reader) : End × Reader := readAtLeast n [] reader

variable {n : ℕ} {buf : List UInt8} {reader reader' : Reader} {read : List UInt8}
  {eof : Bool}

/-- A read takes what it returns from the front, and returns as much as it was asked for at most. -/
theorem bytes_read (h : reader.read n = (read, eof, reader')) :
    reader.bytes = read ++ reader'.bytes ∧ read.length ≤ n ∧ (eof = true → reader'.bytes = []) := by
  unfold Reader.read at h
  split at h
  · rename_i hchunks
    obtain ⟨rfl, rfl, rfl⟩ := h
    simp [bytes, hchunks]
  · rename_i chunk chunks hchunks
    split_ifs at h with hlt
    · obtain ⟨rfl, rfl, rfl⟩ := h
      refine ⟨?_, List.length_take_le _ _, fun h => by cases h⟩
      rw [bytes, bytes, hchunks, List.flatten_cons, List.flatten_cons, ← List.append_assoc,
        List.take_append_drop]
    · obtain ⟨rfl, rfl, rfl⟩ := h
      refine ⟨by rw [bytes, bytes, hchunks, List.flatten_cons], not_lt.1 hlt, fun h => ?_⟩
      rw [Bool.and_eq_true, List.isEmpty_iff] at h
      rw [bytes, h.2, List.flatten_nil]

/-- `ReadAtLeast` on the bytes that are left, however they are cut into pieces. -/
theorem readAtLeast_eq (n : ℕ) (buf : List UInt8) (reader : Reader) (h : buf.length ≤ n) :
    (readAtLeast n buf reader).1 = (if n ≤ (buf ++ reader.bytes).length then
        .full ((buf ++ reader.bytes).take n)
      else if buf ++ reader.bytes = [] then .eof else .unexpectedEOF) ∧
      (readAtLeast n buf reader).2.bytes = (buf ++ reader.bytes).drop n := by
  fun_induction readAtLeast n buf reader with
  | case1 buf reader hfull =>
    obtain rfl := le_antisymm h hfull
    simp
  | case2 buf reader hlt read reader' hread buf' hfull =>
    obtain ⟨hbytes, hlen, hend⟩ := bytes_read hread
    have hbuf : buf'.length = n := by
      simp only [buf', List.length_append] at hfull ⊢
      omega
    rw [hbytes, hend rfl, List.append_nil, if_pos (by simpa [buf'] using hfull)]
    rw [← hbuf, List.take_length, List.drop_length]
    exact ⟨rfl, rfl⟩
  | case3 buf reader hlt read reader' hread buf' hcut hempty =>
    obtain ⟨hbytes, -, hend⟩ := bytes_read hread
    have hnil : buf ++ read = [] := List.length_eq_zero_iff.1 hempty
    rw [hbytes, hend rfl, List.append_nil, if_neg (by simpa [buf'] using hcut), if_pos hnil, hnil,
      List.drop_nil]
    exact ⟨rfl, rfl⟩
  | case4 buf reader hlt read reader' hread buf' hcut hne =>
    obtain ⟨hbytes, -, hend⟩ := bytes_read hread
    have hne' : buf ++ read ≠ [] := fun h => hne (List.length_eq_zero_iff.2 h)
    rw [hbytes, hend rfl, List.append_nil, if_neg (by simpa [buf'] using hcut), if_neg hne',
      List.drop_of_length_le (by simpa [buf'] using le_of_not_ge hcut)]
    exact ⟨rfl, rfl⟩
  | case5 buf reader hlt read reader' hread ih =>
    obtain ⟨hbytes, hlen, -⟩ := bytes_read hread
    rw [hbytes, ← List.append_assoc]
    exact ih (by simp only [List.length_append]; omega)

theorem readFull_fst (n : ℕ) (reader : Reader) :
    (readFull n reader).1 = if n ≤ reader.bytes.length then .full (reader.bytes.take n)
      else if reader.bytes = [] then .eof else .unexpectedEOF :=
  (readAtLeast_eq n [] reader (Nat.zero_le n)).1

theorem bytes_readFull (n : ℕ) (reader : Reader) :
    (readFull n reader).2.bytes = reader.bytes.drop n :=
  (readAtLeast_eq n [] reader (Nat.zero_le n)).2

end Reader

end Go
