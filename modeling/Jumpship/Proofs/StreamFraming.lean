import Jumpship.Connect.Stream

/-!
# Framing of a Connect stream

`dataEnvelope?` is a well-formed data envelope at the front of the bytes, `skipped` is what is left
of them once `Receive` has refused what is there. A stream is a reader of the two: it answers the
messages of the leading data envelopes, and after its first refusal it goes on reading where the
refusal left off.
-/

namespace Connect

variable {Response : Type} (decode : List UInt8 → Option Response)
  (decodeEndStream : List UInt8 → Option EndStream)

/-! ## The bytes -/

section Bytes

/-- The message of a data envelope that the bytes start with, and the bytes after it. -/
def dataEnvelope? : List UInt8 → Option (Response × List UInt8)
  | flags :: a :: b :: c :: d :: rest =>
    let length := bigEndian [a, b, c, d]
    if flags = 0 ∧ length ≤ maxConnectMessageBytes ∧ length ≤ rest.length then
      (decode (rest.take length)).map fun message => (message, rest.drop length)
    else none
  | _ => none

/-- Where the reader stands after an envelope it refused: nothing is left of a cut one or of a
stream that has ended, an oversize one is left after its header, any other after its payload, and
bytes after the end of the stream lose their first. -/
def skipped : List UInt8 → List UInt8
  | flags :: a :: b :: c :: d :: rest =>
    let length := bigEndian [a, b, c, d]
    if maxConnectMessageBytes < length then rest
    else if rest.length < length then []
    else if flags = connectFlagEndStream ∧ (decodeEndStream (rest.take length)).isSome then
      (rest.drop length).drop 1
    else rest.drop length
  | _ => []

theorem header_cases (bytes : List UInt8) :
    bytes.length < 5 ∨ ∃ flags a b c d rest, bytes = flags :: a :: b :: c :: d :: rest := by
  match bytes with
  | [] | [_] | [_, _] | [_, _, _] | [_, _, _, _] => simp
  | flags :: a :: b :: c :: d :: rest => exact .inr ⟨flags, a, b, c, d, rest, rfl⟩

theorem dataEnvelope?_short {bytes : List UInt8} (h : bytes.length < 5) :
    dataEnvelope? decode bytes = none ∧ skipped decodeEndStream bytes = [] := by
  match bytes with
  | [] | [_] | [_, _] | [_, _, _] | [_, _, _, _] => exact ⟨rfl, rfl⟩
  | _ :: _ :: _ :: _ :: _ :: _ =>
    simp only [List.length_cons] at h
    omega

theorem length_of_dataEnvelope? {bytes rest : List UInt8} {message : Response}
    (h : dataEnvelope? decode bytes = some (message, rest)) : rest.length < bytes.length := by
  unfold dataEnvelope? at h
  split at h
  · dsimp only at h
    split_ifs at h
    obtain ⟨m, -, heq⟩ := Option.map_eq_some_iff.1 h
    obtain ⟨-, rfl⟩ := Prod.mk.inj heq
    simp only [List.length_drop, List.length_cons]
    omega
  · cases h

/-- The messages of the leading well-formed data envelopes. -/
def leading (bytes : List UInt8) : List Response :=
  match h : dataEnvelope? decode bytes with
  | some (message, rest) =>
    have := length_of_dataEnvelope? decode h
    message :: leading rest
  | none => []
termination_by bytes.length

/-- What follows them. -/
def afterLeading (bytes : List UInt8) : List UInt8 :=
  match h : dataEnvelope? decode bytes with
  | some (_, rest) =>
    have := length_of_dataEnvelope? decode h
    afterLeading rest
  | none => bytes
termination_by bytes.length

theorem leading_of_data {bytes rest : List UInt8} {message : Response}
    (h : dataEnvelope? decode bytes = some (message, rest)) :
    leading decode bytes = message :: leading decode rest
      ∧ afterLeading decode bytes = afterLeading decode rest := by
  constructor
  · rw [leading]
    split <;> simp_all
  · rw [afterLeading]
    split <;> simp_all

theorem leading_of_none {bytes : List UInt8} (h : dataEnvelope? decode bytes = none) :
    leading decode bytes = [] ∧ afterLeading decode bytes = bytes := by
  constructor
  · rw [leading]
    split <;> simp_all
  · rw [afterLeading]
    split <;> simp_all

end Bytes

/-! ## One call -/

section Call

theorem readFull_cut {n : ℕ} {body : List UInt8} (h : body.length < n) :
    ∃ e, readFull n body = (.error e, []) := by
  have hfull : ¬ n ≤ body.length := not_le.2 h
  by_cases hbody : body = []
  · exact ⟨.eof, by rw [readFull, if_neg hfull, if_pos hbody]⟩
  · exact ⟨.unexpectedEOF, by rw [readFull, if_neg hfull, if_neg hbody]⟩

theorem readConnectEnvelope_short {bytes : List UInt8} (h : bytes.length < 5) :
    ∃ e, readConnectEnvelope bytes = (.error e, []) := by
  obtain ⟨e, he⟩ := readFull_cut h
  exact ⟨e, by simp only [readConnectEnvelope, he]⟩

/-- The three ways the five bytes of a header go on. -/
theorem readConnectEnvelope_cons (flags a b c d : UInt8) (rest : List UInt8) :
    let length := bigEndian [a, b, c, d]
    (maxConnectMessageBytes < length →
      ∃ e, readConnectEnvelope (flags :: a :: b :: c :: d :: rest) = (.error e, rest)) ∧
    (length ≤ maxConnectMessageBytes → rest.length < length →
      ∃ e, readConnectEnvelope (flags :: a :: b :: c :: d :: rest) = (.error e, [])) ∧
    (length ≤ maxConnectMessageBytes → length ≤ rest.length →
      readConnectEnvelope (flags :: a :: b :: c :: d :: rest)
        = (.ok (flags, rest.take length), rest.drop length)) := by
  have hheader : readFull 5 (flags :: a :: b :: c :: d :: rest)
      = (.ok [flags, a, b, c, d], rest) := by
    simp [readFull]
  refine ⟨fun hlong => ?_, fun hle hcut => ?_, fun hle hfull => ?_⟩
  · simp [readConnectEnvelope, hheader, hlong]
  · obtain ⟨e, he⟩ := readFull_cut hcut
    exact ⟨e, by simp [readConnectEnvelope, hheader, not_lt.2 hle, he]⟩
  · have hpayload : readFull (bigEndian [a, b, c, d]) rest
        = (.ok (rest.take (bigEndian [a, b, c, d])), rest.drop (bigEndian [a, b, c, d])) := by
      simp [readFull, hfull]
    simp [readConnectEnvelope, hheader, not_lt.2 hle, hpayload]

/-- A set bit outside `connectFlagEndStream` is refused. -/
theorem flags_cases (flags : UInt8) :
    flags = 0 ∨ flags = connectFlagEndStream ∨
      flags &&& connectFlagCompressed ≠ 0 ∨
      flags &&& ~~~(connectFlagCompressed ||| connectFlagEndStream) ≠ 0 := by
  revert flags
  decide +kernel

/-- A stream that has the bytes still to deliver; one that has ended delivers none. -/
def At (stream : Stream) (bytes : List UInt8) : Prop :=
  stream.responseErr = none ∧
    if stream.responseEnded then bytes = [] else stream.body = bytes

theorem at_body {stream : Stream} {bytes body : List UInt8} (h : At stream bytes)
    (hended : stream.responseEnded = false) : At { stream with body := body } body := by
  simp [At, h.1, hended]

theorem opened_at (bytes : List UInt8) (httpTrailer : Metadata) :
    At (opened bytes httpTrailer) bytes := by
  simp [At, opened]

/-- What `Receive` makes of an end-stream envelope, and what it leaves. -/
theorem receiveEndStream_at {stream : Stream} (payload : List UInt8)
    (herr : stream.responseErr = none) (hended : stream.responseEnded = false) :
    (@receiveEndStream Response decodeEndStream payload stream).1.toOption = none ∧
      At (@receiveEndStream Response decodeEndStream payload stream).2
        (if (decodeEndStream payload).isSome then stream.body.drop 1 else stream.body) := by
  unfold receiveEndStream
  cases hpayload : decodeEndStream payload with
  | none => simp [At, herr, hended, Except.toOption]
  | some endStream =>
    by_cases hbody : stream.body = []
    · have hread : readConnectBody 0 [] = (.ok [], []) := rfl
      cases herror : endStream.error with
      | none => simp [hread, herror, At, herr, hbody, Except.toOption]
      | some payload => simp [hread, herror, At, herr, hbody, Except.toOption]
    · have hread : readConnectBody 0 stream.body = (.error (.exceeds 0), stream.body.drop 1) := by
        obtain ⟨b, rest, hcons⟩ := List.exists_cons_of_ne_nil hbody
        simp [readConnectBody, hcons]
      simp [hread, At, herr, hended, Except.toOption]

/-- A call that finds a data envelope answers its message and stands after it. -/
theorem receive_data {stream : Stream} {bytes rest : List UInt8} {message : Response}
    (h : At stream bytes) (hdata : dataEnvelope? decode bytes = some (message, rest)) :
    (receive decode decodeEndStream stream).1 = .ok message ∧
      At (receive decode decodeEndStream stream).2 rest := by
  obtain ⟨herr, hbytes⟩ := h
  obtain hshort | ⟨flags, a, b, c, d, tail, rfl⟩ := header_cases bytes
  · rw [(dataEnvelope?_short decode decodeEndStream hshort).1] at hdata
    cases hdata
  · have hended : stream.responseEnded = false := by
      by_contra hended
      simp [hended] at hbytes
    simp only [hended] at hbytes
    have hbody : stream.body = flags :: a :: b :: c :: d :: tail := hbytes
    simp only [dataEnvelope?] at hdata
    split_ifs at hdata with hframe
    obtain ⟨rfl, hle, hfull⟩ := hframe
    have hread := (readConnectEnvelope_cons 0 a b c d tail).2.2 hle hfull
    obtain ⟨m, hm, heq⟩ := Option.map_eq_some_iff.1 hdata
    obtain ⟨rfl, rfl⟩ := Prod.mk.inj heq
    simp [receive, hended, herr, hbody, hread, hm, At]

/-- A call that finds none answers an error and stands where the skipped bytes end. -/
theorem receive_refused {stream : Stream} {bytes : List UInt8} (h : At stream bytes)
    (hdata : dataEnvelope? decode bytes = none) :
    (receive decode decodeEndStream stream).1.toOption = none ∧
      At (receive decode decodeEndStream stream).2 (skipped decodeEndStream bytes) := by
  obtain ⟨herr, hbytes⟩ := h
  by_cases hended : stream.responseEnded
  · simp only [hended, if_true] at hbytes
    simp [receive, hended, hbytes, At, herr, skipped, Except.toOption]
  · have hbody : stream.body = bytes := by simpa [hended] using hbytes
    have hended : stream.responseEnded = false := by simpa using hended
    obtain hshort | ⟨flags, a, b, c, d, rest, rfl⟩ := header_cases bytes
    · obtain ⟨e, he⟩ := readConnectEnvelope_short hshort
      rw [(dataEnvelope?_short decode decodeEndStream hshort).2]
      simp [receive, hended, herr, hbody, he, At, Except.toOption]
    · obtain ⟨hlong, hcut, hfull⟩ := readConnectEnvelope_cons flags a b c d rest
      by_cases hle : bigEndian [a, b, c, d] ≤ maxConnectMessageBytes
      swap
      · obtain ⟨e, he⟩ := hlong (not_le.1 hle)
        simp [receive, hended, herr, hbody, he, At, Except.toOption, skipped, not_le.1 hle]
      by_cases hlen : bigEndian [a, b, c, d] ≤ rest.length
      swap
      · obtain ⟨e, he⟩ := hcut hle (not_le.1 hlen)
        simp [receive, hended, herr, hbody, he, At, Except.toOption, skipped, not_lt.2 hle,
          not_le.1 hlen]
      have hread := hfull hle hlen
      simp only [skipped, not_lt.2 hle, not_lt.2 hlen, if_false]
      obtain rfl | rfl | hbit | hbit := flags_cases flags
      · have hmessage : decode (rest.take (bigEndian [a, b, c, d])) = none := by
          simpa [dataEnvelope?, hle, hlen] using hdata
        have hflag : (0 : UInt8) ≠ connectFlagEndStream := by decide
        simp [receive, hended, herr, hbody, hread, hmessage, hflag, At, Except.toOption]
      · have hend := @receiveEndStream_at Response decodeEndStream
          { stream with body := rest.drop (bigEndian [a, b, c, d]) }
          (rest.take (bigEndian [a, b, c, d])) herr hended
        have hflags : connectFlagEndStream &&& connectFlagCompressed = 0
            ∧ connectFlagEndStream &&& ~~~(connectFlagCompressed ||| connectFlagEndStream) = 0
            ∧ connectFlagEndStream ≠ 0 := by decide
        simpa [receive, hended, herr, hbody, hread, hflags.1, hflags.2.1, hflags.2.2] using hend
      · have hflag : flags ≠ connectFlagEndStream := by
          rintro rfl
          revert hbit
          decide
        simp [receive, hended, herr, hbody, hread, hbit, hflag, At, Except.toOption]
      · have hflag : flags ≠ connectFlagEndStream := by
          rintro rfl
          revert hbit
          decide
        by_cases hcompressed : flags &&& connectFlagCompressed = 0
        · simp [receive, hended, herr, hbody, hread, hcompressed, hbit, hflag, At,
            Except.toOption]
        · simp [receive, hended, herr, hbody, hread, hcompressed, hflag, At, Except.toOption]

end Call

/-! ## A run of calls -/

section Run

/-- `n` calls against the bytes, none where `Receive` refuses. -/
def answers : ℕ → List UInt8 → List (Option Response)
  | 0, _ => []
  | n + 1, bytes =>
    match dataEnvelope? decode bytes with
    | some (message, rest) => some message :: answers n rest
    | none => none :: answers n (skipped decodeEndStream bytes)

theorem answers_of_data {bytes rest : List UInt8} {message : Response} (n : ℕ)
    (h : dataEnvelope? decode bytes = some (message, rest)) :
    answers decode decodeEndStream (n + 1) bytes
      = some message :: answers decode decodeEndStream n rest := by
  rw [answers, h]

theorem answers_of_none {bytes : List UInt8} (n : ℕ) (h : dataEnvelope? decode bytes = none) :
    answers decode decodeEndStream (n + 1) bytes
      = none :: answers decode decodeEndStream n (skipped decodeEndStream bytes) := by
  rw [answers, h]

/-- The stream is the reader of its bytes. -/
theorem receives_at : ∀ (n : ℕ) {stream : Stream} {bytes : List UInt8}, At stream bytes →
    (receives decode decodeEndStream n stream).map Except.toOption
      = answers decode decodeEndStream n bytes
  | 0, _, _, _ => rfl
  | n + 1, stream, bytes, h => by
    rw [receives, List.map_cons]
    cases hdata : dataEnvelope? decode bytes with
    | some envelope =>
      obtain ⟨message, rest⟩ := envelope
      obtain ⟨hmessage, hat⟩ := receive_data decode decodeEndStream h hdata
      rw [answers_of_data decode decodeEndStream n hdata, hmessage, receives_at n hat]
      rfl
    | none =>
      obtain ⟨hrefused, hat⟩ := receive_refused decode decodeEndStream h hdata
      rw [answers_of_none decode decodeEndStream n hdata, hrefused, receives_at n hat]

/-- The leading messages come first, and the calls after them read what follows. -/
theorem answers_eq : ∀ (n : ℕ) (bytes : List UInt8),
    answers decode decodeEndStream n bytes
      = ((leading decode bytes).take n).map some
        ++ answers decode decodeEndStream (n - (leading decode bytes).length)
          (afterLeading decode bytes)
  | 0, bytes => by simp [answers]
  | n + 1, bytes => by
    cases hdata : dataEnvelope? decode bytes with
    | some envelope =>
      obtain ⟨message, rest⟩ := envelope
      obtain ⟨hleading, hafter⟩ := leading_of_data decode hdata
      rw [answers_of_data decode decodeEndStream n hdata, hleading, hafter, answers_eq n rest]
      simp
    | none =>
      obtain ⟨hleading, hafter⟩ := leading_of_none decode hdata
      rw [hleading, hafter]
      simp

/-- No call returns a message where none of the places the reader skips to starts a data
envelope. -/
theorem answers_refused : ∀ (n : ℕ) {bytes : List UInt8},
    (∀ k, dataEnvelope? decode ((skipped decodeEndStream)^[k] bytes) = none) →
    ∀ answer ∈ answers decode decodeEndStream n bytes, answer = none
  | 0, _, _ => by simp [answers]
  | n + 1, bytes, h => by
    have hnone : dataEnvelope? decode bytes = none := h 0
    rw [answers_of_none decode decodeEndStream n hnone]
    intro answer hmem
    obtain rfl | hmem := List.mem_cons.1 hmem
    · rfl
    · exact answers_refused n (fun k => h (k + 1)) answer hmem

/-- Where one of them does, the call that gets there returns a message. -/
theorem dataEnvelope?_of_answers : ∀ (k : ℕ) {bytes : List UInt8},
    (∀ n, (answers decode decodeEndStream n bytes).filterMap id = []) →
    dataEnvelope? decode ((skipped decodeEndStream)^[k] bytes) = none
  | 0, bytes, h => by
    cases hdata : dataEnvelope? decode bytes with
    | none => simpa using hdata
    | some envelope =>
      have := h 1
      rw [answers_of_data decode decodeEndStream 0 hdata] at this
      simp at this
  | k + 1, bytes, h => by
    have hnone : dataEnvelope? decode bytes = none := dataEnvelope?_of_answers 0 h
    refine dataEnvelope?_of_answers k fun n => ?_
    have := h (n + 1)
    rw [answers_of_none decode decodeEndStream n hnone] at this
    simpa using this

/-- The messages are those of the leading data envelopes, and none comes after an error. -/
structure Framed (bytes : List UInt8) (results : List (Except ReceiveError Response)) : Prop where
  messages : results.filterMap Except.toOption = (leading decode bytes).take results.length
  failed : results.Pairwise fun result later => result.toOption = none → later.toOption = none

theorem length_receives : ∀ (n : ℕ) (stream : Stream),
    (receives decode decodeEndStream n stream).length = n
  | 0, _ => rfl
  | n + 1, stream => by simp [receives, length_receives n]

theorem messages_at (n : ℕ) {stream : Stream} {bytes : List UInt8} (h : At stream bytes) :
    (receives decode decodeEndStream n stream).filterMap Except.toOption
      = (leading decode bytes).take n
        ++ (answers decode decodeEndStream (n - (leading decode bytes).length)
          (afterLeading decode bytes)).filterMap id := by
  rw [← Function.id_comp Except.toOption, ← List.filterMap_map, receives_at _ _ n h, answers_eq,
    List.filterMap_append]
  simp

/-- Every run over the bytes is framed exactly when no place the reader skips to, starting from what
follows the leading data envelopes, starts a data envelope. -/
theorem framed_iff (bytes : List UInt8) (httpTrailer : Metadata) :
    (∀ n, Framed decode bytes (receives decode decodeEndStream n (opened bytes httpTrailer))) ↔
      ∀ k, dataEnvelope? decode ((skipped decodeEndStream)^[k] (afterLeading decode bytes))
        = none := by
  have hopened := opened_at bytes httpTrailer
  refine ⟨fun h k => dataEnvelope?_of_answers decode decodeEndStream k fun n => ?_,
    fun h n => ?_⟩
  · have hmessages := (h ((leading decode bytes).length + n)).messages
    rw [length_receives, messages_at decode decodeEndStream _ hopened,
      Nat.add_sub_cancel_left] at hmessages
    simpa using hmessages
  · have hrest := answers_refused decode decodeEndStream (n - (leading decode bytes).length) h
    have hnil : (answers decode decodeEndStream (n - (leading decode bytes).length)
        (afterLeading decode bytes)).filterMap id = [] := List.filterMap_eq_nil_iff.2 hrest
    have hpairs : ((receives decode decodeEndStream n (opened bytes httpTrailer)).map
        Except.toOption).Pairwise fun answer later => answer = none → later = none := by
      rw [receives_at decode decodeEndStream n hopened, answers_eq, List.pairwise_append]
      refine ⟨List.pairwise_of_forall_mem_list fun answer hmem _ _ hanswer => ?_,
        List.pairwise_of_forall_mem_list fun _ _ later hlater _ => hrest later hlater,
        fun _ _ later hlater _ => hrest later hlater⟩
      obtain ⟨message, -, hmessage⟩ := List.mem_map.1 hmem
      simp [hanswer] at hmessage
    refine ⟨?_, List.pairwise_map.1 hpairs⟩
    rw [length_receives, messages_at decode decodeEndStream _ hopened, hnil, List.append_nil]

/-- An oversize length is refused after its header alone, so that the payload it announced is read as
the next envelope: the braces under it are returned as a message. -/
theorem not_framed_oversize :
    ¬ ∀ n, Framed (fun payload => if payload = [0x7B, 0x7D] then some () else none)
      ([0, 0xFF, 0xFF, 0xFF, 0xFF] ++ [0, 0, 0, 0, 2, 0x7B, 0x7D])
      (receives (fun payload => if payload = [0x7B, 0x7D] then some () else none) (fun _ => none) n
        (opened ([0, 0xFF, 0xFF, 0xFF, 0xFF] ++ [0, 0, 0, 0, 2, 0x7B, 0x7D]) [])) := by
  intro h
  have hfailed := (h 2).failed
  revert hfailed
  decide +kernel

end Run

end Connect
