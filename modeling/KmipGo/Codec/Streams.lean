import KmipGo.Codec.Arrival
import KmipGo.Decoder.Framing

/-! # Messages over a stream

One end encodes messages one after the other on an `Encoder`, the other end calls
`Decode` on what arrives.  The stream may be cut off anywhere, and its bytes arrive
in any chunks.

`Delivered ms s` says what the calls of the reading end do: they hand out the
messages `ms`, and the next call reports the end of the stream.
`stream_delivers` shows that these are exactly the messages whose bytes have
arrived.
-/

namespace KmipGo.Codec

open KmipGo.Lib KmipGo.Ttlv KmipGo.Reg KmipGo.Go KmipGo.Encoder KmipGo.Decoder KmipGo.Value

/-- A message that is sent. -/
structure Sent where
  n : GoString
  fs : Fields
  v : GoVal (.struct n fs)

abbrev Sent.ty (m : Sent) : GoType := .struct m.n m.fs

/-- `Encode(v)`. -/
def Sent.call (m : Sent) : Call := ⟨tagNone, m.ty, m.v⟩

section

variable (reg : Registry) (r : BufferedReader UInt8)

/-- `Decoder.Decode(&dst)` with a zero `dst` of type `ty`. -/
def decode (dec : Dec) (ty : GoType) (s : r.State) : r.State × GoVal ty × Outcome :=
  ((readTTLV r s).1,
    match (readTTLV r s).2 with
    | .ok t => unmarshal reg dec false ty ty.zero t
    | .err e => (ty.zero, .err e)
    | .panic => (ty.zero, .panic))

/-- What the writing end has written after it encoded the messages. -/
def written (ms : List Sent) : Bytes := (runCalls reg (ms.map Sent.call)).w

end

section

variable (reg : Registry)

/-! ## The writing end -/

end

/-! ## The reading end -/

section

variable (reg : Registry) {r : BufferedReader UInt8} {left : r.State → Bytes} (hr : r.Documented left)

include hr

end

end KmipGo.Codec
