import Jumpship.Connect.Envelopes

/-!
# The envelope codec

`readConnectEnvelope` undoes `encodeConnectEnvelope`, whatever pieces the bytes arrive in. A text that
ends inside an envelope is read up to that envelope and no further.
-/

namespace Connect

/-! ## Reading from pieces -/

section Pieces

/-- What `io.ReadFull` answers, as the error `readConnectEnvelope` passes on. -/
def ofEnd : Go.Reader.End → Except ReadError (List UInt8)
  | .full buf => .ok buf
  | .eof => .error .eof
  | .unexpectedEOF => .error .unexpectedEOF

theorem readFull_eq (n : ℕ) (reader : Go.Reader) :
    readFull n reader.bytes =
      (ofEnd (reader.readFull n).1, (reader.readFull n).2.bytes) := by
  rw [Go.Reader.readFull_fst, Go.Reader.bytes_readFull, readFull]
  split_ifs with hfull hempty
  · rfl
  · rw [hempty, List.drop_nil]
    rfl
  · rw [List.drop_of_length_le (le_of_not_ge hfull)]
    rfl

/-- The pieces make no difference to what is read. -/
theorem readConnectEnvelope_bytes (reader : Go.Reader) :
    readConnectEnvelope reader.bytes =
      ((readConnectEnvelopeFrom reader).1, (readConnectEnvelopeFrom reader).2.bytes) := by
  rw [readConnectEnvelope, readConnectEnvelopeFrom, readFull_eq]
  obtain ⟨h, reader⟩ := reader.readFull 5
  cases h with
  | eof => rfl
  | unexpectedEOF => rfl
  | full header =>
    simp only [ofEnd]
    split_ifs with hlong
    · rfl
    · rw [readFull_eq]
      obtain ⟨h, reader⟩ := reader.readFull (bigEndian header.tail)
      cases h <;> rfl

theorem readEnvelopes_succ {n : ℕ} {reader : Go.Reader}
    {answer : Except ReadError (UInt8 × List UInt8)} {rest : List UInt8}
    (h : readConnectEnvelope reader.bytes = (answer, rest)) :
    ∃ reader' : Go.Reader, reader'.bytes = rest ∧
      readEnvelopes (n + 1) reader = answer :: readEnvelopes n reader' := by
  rw [readConnectEnvelope_bytes] at h
  obtain ⟨hanswer, hrest⟩ := Prod.mk.inj h
  exact ⟨_, hrest, by rw [readEnvelopes, hanswer]⟩

/-- Behind the last byte every call answers `io.EOF`. -/
theorem readEnvelopes_nil (n : ℕ) {reader : Go.Reader} (h : reader.bytes = []) :
    readEnvelopes n reader = List.replicate n (.error .eof) := by
  induction n generalizing reader with
  | zero => rfl
  | succ n ih =>
    have hread : readConnectEnvelope reader.bytes = (.error .eof, []) := by rw [h]; rfl
    obtain ⟨reader', hbytes, heq⟩ := readEnvelopes_succ hread
    rw [heq, ih hbytes, List.replicate_succ]

end Pieces

/-! ## One envelope -/

section Envelope

variable {flags : UInt8} {payload encoded rest : List UInt8}

def header (length : ℕ) : List UInt8 := [3, 2, 1, 0].map fun i => UInt8.ofNat (length / 256 ^ i)

/-- Four bytes hold every length of an envelope. -/
theorem bigEndian_header {length : ℕ} (h : length < 2 ^ 32) : bigEndian (header length) = length := by
  simp only [bigEndian, header, List.map_cons, List.map_nil, List.foldl_cons, List.foldl_nil,
    UInt8.toNat_ofNat']
  omega

theorem maxConnectMessageBytes_lt : maxConnectMessageBytes < 2 ^ 32 := by decide

theorem encodeConnectEnvelope_ok (h : payload.length ≤ maxConnectMessageBytes) :
    encodeConnectEnvelope flags payload = .ok (flags :: header payload.length ++ payload) := by
  rw [encodeConnectEnvelope, if_neg (not_lt.2 h)]
  rfl

/-- What `marshalConnectMessage` returns fits into an envelope. -/
theorem encode_marshalConnectMessage {Message : Type} {marshal : Message → Option (List UInt8)}
    {message : Message} (h : marshalConnectMessage marshal message = some payload) :
    encodeConnectEnvelope flags payload = .ok (flags :: header payload.length ++ payload) := by
  obtain ⟨p, -, hp⟩ := Option.bind_eq_some_iff.1 h
  split_ifs at hp with hlong
  obtain rfl := Option.some.inj hp
  exact encodeConnectEnvelope_ok (not_lt.1 hlong)

theorem readFull_header (length : ℕ) (rest : List UInt8) :
    readFull 5 (flags :: header length ++ rest) = (.ok (flags :: header length), rest) := by
  have hlen : (flags :: header length).length = 5 := rfl
  rw [readFull, if_pos (by rw [List.length_append, hlen]; omega), List.take_left' hlen,
    List.drop_left' hlen]

/-- An envelope is read back, and what follows it is left. -/
theorem readConnectEnvelope_encoded (h : payload.length ≤ maxConnectMessageBytes) :
    readConnectEnvelope (flags :: header payload.length ++ payload ++ rest) =
      (.ok (flags, payload), rest) := by
  have hlength := bigEndian_header (h.trans_lt maxConnectMessageBytes_lt)
  have hpayload : readFull payload.length (payload ++ rest) = (.ok payload, rest) := by
    rw [readFull, if_pos (by simp), List.take_left, List.drop_left]
  simp only [readConnectEnvelope, List.append_assoc, readFull_header, List.tail_cons, hlength,
    if_neg (not_lt.2 h), hpayload, List.headD_cons]

/-- How the read of an envelope ends of which only the first `n` bytes are there: the header is read
apart, so behind it the end of the file is a plain one. -/
def cutError (n : ℕ) : ReadError := if n = 5 then .eof else .unexpectedEOF

theorem readConnectEnvelope_cut {n : ℕ} (h : payload.length ≤ maxConnectMessageBytes) (hpos : 0 < n)
    (hcut : n < 5 + payload.length) :
    readConnectEnvelope ((flags :: header payload.length ++ payload).take n) =
      (.error (cutError n), []) := by
  have hlen : (flags :: header payload.length ++ payload).length = 5 + payload.length := by
    rw [List.length_append]
    rfl
  rcases lt_or_ge n 5 with hlt | hge
  · have htake : ((flags :: header payload.length ++ payload).take n).length = n := by
      rw [List.length_take, hlen]
      omega
    have hne : (flags :: header payload.length ++ payload).take n ≠ [] :=
      List.ne_nil_of_length_pos (by omega)
    rw [readConnectEnvelope, readFull, htake, if_neg (not_le.2 hlt), if_neg hne, cutError,
      if_neg hlt.ne]
  · obtain ⟨m, rfl⟩ := Nat.exists_eq_add_of_le hge
    have htake : (flags :: header payload.length ++ payload).take (5 + m) =
        flags :: header payload.length ++ payload.take m := by
      have hlen : (flags :: header payload.length).length = 5 := rfl
      rw [← hlen]
      exact List.take_length_add_append m
    have hlength := bigEndian_header (h.trans_lt maxConnectMessageBytes_lt)
    have hfull : ¬ payload.length ≤ (payload.take m).length := by
      rw [List.length_take]
      omega
    have hread : readFull payload.length (payload.take m) = (.error (cutError (5 + m)), []) := by
      rw [readFull, if_neg hfull, cutError]
      rcases Nat.eq_zero_or_pos m with rfl | hm
      · rw [List.take_zero, if_pos rfl, if_pos rfl]
      · have hne : payload.take m ≠ [] :=
          List.ne_nil_of_length_pos (by rw [List.length_take]; omega)
        rw [if_neg hne, if_neg (by omega)]
    simp only [htake, readConnectEnvelope, readFull_header, List.tail_cons, hlength,
      if_neg (not_lt.2 h), hread]

end Envelope

/-! ## Envelopes in a row -/

section Row

/-- The `encodeConnectEnvelope` outputs one after another. -/
def encodeEnvelopes (messages : List (UInt8 × List UInt8)) : Except ReadError (List UInt8) :=
  (messages.mapM fun m => encodeConnectEnvelope m.1 m.2).map List.flatten

def encodedOf (m : UInt8 × List UInt8) : List UInt8 := m.1 :: header m.2.length ++ m.2

variable {messages : List (UInt8 × List UInt8)}

theorem encodeEnvelopes_ok (h : ∀ m ∈ messages, m.2.length ≤ maxConnectMessageBytes) :
    encodeEnvelopes messages = .ok (messages.flatMap encodedOf) := by
  have hmap : messages.mapM (fun m => encodeConnectEnvelope m.1 m.2) =
      .ok (messages.map encodedOf) := by
    induction messages with
    | nil => rfl
    | cons m messages ih =>
      obtain ⟨hm, hrest⟩ := List.forall_mem_cons.1 h
      rw [List.mapM_cons, encodeConnectEnvelope_ok hm, ih hrest]
      rfl
  rw [encodeEnvelopes, hmap, List.flatMap_def]
  rfl

/-- Envelopes in front are read one by one. -/
theorem readEnvelopes_append (h : ∀ m ∈ messages, m.2.length ≤ maxConnectMessageBytes) (n : ℕ)
    {rest : List UInt8} {reader : Go.Reader}
    (hbytes : reader.bytes = messages.flatMap encodedOf ++ rest) :
    ∃ reader' : Go.Reader, reader'.bytes = rest ∧
      readEnvelopes (messages.length + n) reader = messages.map .ok ++ readEnvelopes n reader' := by
  induction messages generalizing reader with
  | nil => exact ⟨reader, hbytes, by rw [List.length_nil, Nat.zero_add]; rfl⟩
  | cons m messages ih =>
    obtain ⟨hm, hrest⟩ := List.forall_mem_cons.1 h
    have hread : readConnectEnvelope reader.bytes =
        (.ok (m.1, m.2), messages.flatMap encodedOf ++ rest) := by
      rw [hbytes, List.flatMap_cons, List.append_assoc]
      exact readConnectEnvelope_encoded hm
    obtain ⟨reader₁, hbytes₁, heq₁⟩ := readEnvelopes_succ (n := messages.length + n) hread
    obtain ⟨reader₂, hbytes₂, heq₂⟩ := ih hrest hbytes₁
    refine ⟨reader₂, hbytes₂, ?_⟩
    rw [List.length_cons, Nat.add_right_comm, heq₁, heq₂]
    rfl

/-- A prefix of the envelopes that does not end between two of them ends inside one. -/
theorem exists_cut {p : List UInt8} (hp : p <+: messages.flatMap encodedOf)
    (hcut : ∀ i, p ≠ (messages.take i).flatMap encodedOf) :
    ∃ front m back n, messages = front ++ m :: back ∧ 0 < n ∧ n < 5 + m.2.length ∧
      p = front.flatMap encodedOf ++ (encodedOf m).take n := by
  induction messages generalizing p with
  | nil => exact absurd (List.prefix_nil.1 hp) (hcut 0)
  | cons m messages ih =>
    have hlen : (encodedOf m).length = 5 + m.2.length := by
      rw [encodedOf, List.length_append]
      rfl
    rw [List.flatMap_cons] at hp
    rcases lt_or_ge p.length (encodedOf m).length with hlt | hge
    · have hp : p = (encodedOf m).take p.length := by
        have h := List.prefix_iff_eq_take.1 hp
        rwa [List.take_append_of_le_length hlt.le] at h
      refine ⟨[], m, messages, p.length, rfl, List.length_pos_of_ne_nil (hcut 0), by omega, hp⟩
    · obtain ⟨q, rfl⟩ := List.prefix_of_prefix_length_le (List.prefix_append _ _) hp hge
      have hq : q <+: messages.flatMap encodedOf := (List.prefix_append_right_inj _).1 hp
      obtain ⟨front, m', back, n, rfl, hpos, hn, rfl⟩ := ih hq fun i h => hcut (i + 1) (by
        rw [List.take_succ_cons, List.flatMap_cons, h])
      refine ⟨m :: front, m', back, n, rfl, hpos, hn, ?_⟩
      rw [List.flatMap_cons, List.append_assoc]

end Row

/-! ## The codec -/

/-- What is written is read back and then nothing more, and what is cut inside an envelope is read up
to it and then refused, in whatever pieces it arrives. -/
theorem readEnvelopes_encodeEnvelopes (messages : List (UInt8 × List UInt8))
    (h : ∀ m ∈ messages, m.2.length ≤ maxConnectMessageBytes) :
    ∃ bytes, encodeEnvelopes messages = .ok bytes ∧
      (∀ reader : Go.Reader, reader.bytes = bytes → ∀ k,
        readEnvelopes (messages.length + k) reader =
          messages.map .ok ++ List.replicate k (.error .eof)) ∧
      ∀ p, p <+: bytes → (∀ i, encodeEnvelopes (messages.take i) ≠ .ok p) →
        ∃ i < messages.length, ∃ e, ∀ reader : Go.Reader, reader.bytes = p → ∀ k,
          readEnvelopes (i + 1 + k) reader =
            (messages.take i).map .ok ++ .error e :: List.replicate k (.error .eof) := by
  refine ⟨_, encodeEnvelopes_ok h, fun reader hbytes k => ?_, fun p hp hcut => ?_⟩
  · obtain ⟨reader', hbytes', heq⟩ := readEnvelopes_append h k
      (hbytes.trans (List.append_nil _).symm)
    rw [heq, readEnvelopes_nil k hbytes']
  · have hbound : ∀ i, ∀ m ∈ messages.take i, m.2.length ≤ maxConnectMessageBytes :=
      fun i m hm => h m (List.mem_of_mem_take hm)
    obtain ⟨front, m, back, n, rfl, hpos, hn, rfl⟩ := exists_cut hp fun i heq =>
      hcut i (by rw [encodeEnvelopes_ok (hbound i), heq])
    refine ⟨front.length, by simp, cutError n, fun reader hbytes k => ?_⟩
    obtain ⟨reader₁, hbytes₁, heq₁⟩ := readEnvelopes_append
      (fun m' hm' => h m' (List.mem_append_left _ hm')) (1 + k) hbytes
    have hread : readConnectEnvelope reader₁.bytes = (.error (cutError n), []) := by
      rw [hbytes₁]
      exact readConnectEnvelope_cut (h m (by simp)) hpos hn
    obtain ⟨reader₂, hbytes₂, heq₂⟩ := readEnvelopes_succ (n := k) hread
    rw [List.take_left, Nat.add_assoc, heq₁, Nat.add_comm 1 k, heq₂, readEnvelopes_nil k hbytes₂]

/-- Two messages, the second empty. -/
theorem readEnvelopes_two :
    ∃ bytes, encodeEnvelopes [(0, [7]), (2, [])] = .ok bytes ∧
      (∀ reader : Go.Reader, reader.bytes = bytes → ∀ k,
        readEnvelopes (2 + k) reader =
          [(0, [7]), (2, [])].map .ok ++ List.replicate k (.error .eof)) ∧
      ∀ p, p <+: bytes → (∀ i, encodeEnvelopes ([(0, [7]), (2, [])].take i) ≠ .ok p) →
        ∃ i < 2, ∃ e, ∀ reader : Go.Reader, reader.bytes = p → ∀ k,
          readEnvelopes (i + 1 + k) reader =
            ([(0, [7]), (2, [])].take i).map .ok ++ .error e :: List.replicate k (.error .eof) :=
  readEnvelopes_encodeEnvelopes [(0, [7]), (2, [])] (by decide)

end Connect
