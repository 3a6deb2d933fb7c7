import Mathlib

/-!
# The generated Connect stream

`Receive` of `connectBidiStream` and the envelope codec under it. The response body is the bytes the
server has still to deliver; `decode` and `decodeEndStream` are `json.Unmarshal` into the response
message and the end-stream payload, none where it returns an error.
-/

namespace Connect

def maxConnectMessageBytes : ℕ := 2 * 1024 * 1024

def connectFlagCompressed : UInt8 := 0x01
def connectFlagEndStream : UInt8 := 0x02

/-! ## Envelopes -/

inductive ReadError where
  | eof
  | unexpectedEOF
  | exceeds (limit : ℕ)
deriving DecidableEq

/-- The value of big-endian bytes. -/
def bigEndian (bytes : List UInt8) : ℕ := bytes.foldl (fun n b => 256 * n + b.toNat) 0

def encodeConnectEnvelope (flags : UInt8) (payload : List UInt8) : Except ReadError (List UInt8) :=
  if maxConnectMessageBytes < payload.length then .error (.exceeds maxConnectMessageBytes)
  else
    .ok (flags :: ([3, 2, 1, 0].map fun i => UInt8.ofNat (payload.length / 256 ^ i)) ++ payload)

/-- `io.ReadFull` of `n` bytes, and what is left of the body. -/
def readFull (n : ℕ) (body : List UInt8) : Except ReadError (List UInt8) × List UInt8 :=
  if n ≤ body.length then (.ok (body.take n), body.drop n)
  else if body = [] then (.error .eof, [])
  else (.error .unexpectedEOF, [])

def readConnectEnvelope (body : List UInt8) :
    Except ReadError (UInt8 × List UInt8) × List UInt8 :=
  match readFull 5 body with
  | (.error e, body) => (.error e, body)
  | (.ok header, body) =>
    let length := bigEndian header.tail
    if maxConnectMessageBytes < length then (.error (.exceeds maxConnectMessageBytes), body)
    else
      match readFull length body with
      | (.error e, body) => (.error e, body)
      | (.ok payload, body) => (.ok (header.headD 0, payload), body)

/-- The whole body if it is at most `limit` bytes; one byte more is read to find that it is not. -/
def readConnectBody (limit : ℕ) (body : List UInt8) :
    Except ReadError (List UInt8) × List UInt8 :=
  if limit < (body.take (limit + 1)).length then (.error (.exceeds limit), body.drop (limit + 1))
  else (.ok body, [])

/-! ## Metadata and errors -/

abbrev Metadata := List (String × List String)

/-- `merged[key] = append(merged[key], values...)` -/
def Metadata.append : Metadata → String → List String → Metadata
  | [], key, values => [(key, values)]
  | (k, vs) :: merged, key, values =>
    if k = key then (k, vs ++ values) :: merged else (k, vs) :: Metadata.append merged key values

def mergeMetadata (first second : Metadata) : Metadata :=
  second.foldl (fun merged m => merged.append m.1 m.2) first

structure ErrorPayload where
  code : String
  message : String
  details : List UInt8

structure EndStream where
  error : Option ErrorPayload
  metadata : Metadata

structure ConnectError where
  code : String
  message : String
  details : List UInt8
  httpStatus : ℕ
  metadata : Metadata

def connectErrorFromPayload (payload : ErrorPayload) (status : ℕ) (metadata : Metadata) :
    ConnectError where
  code := if payload.code = "" then "unknown" else payload.code
  message := payload.message
  details := payload.details
  httpStatus := status
  metadata := metadata

inductive ReceiveError where
  | eof
  | response (cause : String)
  | envelope (cause : ReadError)
  | compressed
  | flags (flags : UInt8)
  | endStream
  | afterEndStream (cause : ReadError)
  | connect (cause : ConnectError)
  | message

/-! ## Receive -/

/-- A stream whose response has arrived or failed (`awaitResponse` runs once). -/
structure Stream where
  responseErr : Option String
  body : List UInt8
  httpTrailer : Metadata
  responseEnded : Bool
  responseTrailer : Metadata
  requestClosed : Bool

variable {Response : Type} (decode : List UInt8 → Option Response)
  (decodeEndStream : List UInt8 → Option EndStream)

/-- `io.EOF` before an envelope is no clean end. -/
def envelopeCause : ReadError → ReadError
  | .eof => .unexpectedEOF
  | e => e

/-- `Receive` once an end-stream envelope has been read. -/
def receiveEndStream (payload : List UInt8) (stream : Stream) :
    Except ReceiveError Response × Stream :=
  match decodeEndStream payload with
  | none => (.error .endStream, stream)
  | some endStream =>
    match readConnectBody 0 stream.body with
    | (.error e, body) => (.error (.afterEndStream e), { stream with body := body })
    | (.ok _, body) =>
      let trailer := mergeMetadata stream.httpTrailer endStream.metadata
      let stream := { stream with
        body := body
        responseEnded := true
        responseTrailer := trailer
        requestClosed := true }
      match endStream.error with
      | some payload => (.error (.connect (connectErrorFromPayload payload 200 trailer)), stream)
      | none => (.error .eof, stream)

def receive (stream : Stream) : Except ReceiveError Response × Stream :=
  if stream.responseEnded then (.error .eof, stream)
  else
    match stream.responseErr with
    | some e => (.error (.response e), stream)
    | none =>
      match readConnectEnvelope stream.body with
      | (.error e, body) => (.error (.envelope (envelopeCause e)), { stream with body := body })
      | (.ok (flags, payload), body) =>
        let stream := { stream with body := body }
        if flags &&& connectFlagCompressed ≠ 0 then (.error .compressed, stream)
        else if flags &&& ~~~(connectFlagCompressed ||| connectFlagEndStream) ≠ 0 then
          (.error (.flags flags), stream)
        else if flags &&& connectFlagEndStream ≠ 0 then
          receiveEndStream decodeEndStream payload stream
        else
          match decode payload with
          | some message => (.ok message, stream)
          | none => (.error .message, stream)

/-- The answers of `n` calls of `Receive`. -/
def receives : ℕ → Stream → List (Except ReceiveError Response)
  | 0, _ => []
  | n + 1, stream =>
    (receive decode decodeEndStream stream).1 ::
      receives n (receive decode decodeEndStream stream).2

/-- A stream whose response has just arrived. -/
def opened (body : List UInt8) (httpTrailer : Metadata) : Stream where
  responseErr := none
  body := body
  httpTrailer := httpTrailer
  responseEnded := false
  responseTrailer := []
  requestClosed := false

end Connect
