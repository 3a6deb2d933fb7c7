import Jumpship.Connect.Stream
import Jumpship.Go.Reader

/-!
# Envelopes through a reader

`readConnectEnvelope` on an `io.Reader` and calls of it in a row, and what is put into an envelope:
`marshalConnectMessage`, with `json.Marshal` as `marshal`, none where it returns an error.
-/

namespace Connect

/-- `readConnectEnvelope` -/
def readConnectEnvelopeFrom (reader : Go.Reader) :
    Except ReadError (UInt8 × List UInt8) × Go.Reader :=
  match reader.readFull 5 with
  | (.eof, reader) => (.error .eof, reader)
  | (.unexpectedEOF, reader) => (.error .unexpectedEOF, reader)
  | (.full header, reader) =>
    let length := bigEndian header.tail
    if maxConnectMessageBytes < length then (.error (.exceeds maxConnectMessageBytes), reader)
    else
      match reader.readFull length with
      | (.eof, reader) => (.error .eof, reader)
      | (.unexpectedEOF, reader) => (.error .unexpectedEOF, reader)
      | (.full payload, reader) => (.ok (header.headD 0, payload), reader)

/-- The answers of `n` calls. -/
def readEnvelopes : ℕ → Go.Reader → List (Except ReadError (UInt8 × List UInt8))
  | 0, _ => []
  | n + 1, reader =>
    (readConnectEnvelopeFrom reader).1 :: readEnvelopes n (readConnectEnvelopeFrom reader).2

def marshalConnectMessage {Message : Type} (marshal : Message → Option (List UInt8))
    (message : Message) : Option (List UInt8) := do
  let payload ← marshal message
  if maxConnectMessageBytes < payload.length then none else some payload

end Connect
