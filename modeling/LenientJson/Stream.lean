import LenientJson.Error
import LenientJson.Text.Utf8

/-!
# Sources and sinks

A source holds bytes and may fail once a number of them have been handed out; it is read to its
end before anything is made of the bytes. A sink takes text until its room is used up and keeps
what it has taken by then.
-/
namespace LenientJson

/-- A failure of a stream: the number of bytes that pass before it, and what it says. -/
structure StreamFailure where
  passed : Nat
  message : String

structure Source where
  bytes : List UInt8
  failure : Option StreamFailure := none

def Source.badText : Error := .io "stream did not contain valid UTF-8"

/-- Reads the whole text. The failure of the source comes before one of the text. -/
def Source.text (source : Source) : Except Error (List Char) :=
  match source.failure with
  | some failure =>
    if failure.passed ≤ source.bytes.length then .error (.io failure.message) else decoded
  | none => decoded
where
  decoded : Except Error (List Char) :=
    (Text.decodeUtf8 source.bytes).mapError fun _ => badText

/-- Reads bytes that are at hand. -/
def textOfBytes (bytes : List UInt8) : Except Error (List Char) :=
  (Text.decodeUtf8 bytes).mapError fun fault =>
    .malformed ("invalid utf-8: " ++ fault.message) none

structure Sink where
  limit : Option StreamFailure := none
  written : List Char := []

/-- Writes a text as far as the room goes. -/
def Sink.write (sink : Sink) (text : List Char) : Sink × Except Error Unit :=
  match sink.limit with
  | none => ({ sink with written := sink.written ++ text }, .ok ())
  | some limit =>
    let room := limit.passed - Text.byteLength sink.written
    if Text.byteLength text ≤ room then ({ sink with written := sink.written ++ text }, .ok ())
    else
      ({ sink with written := sink.written ++ Text.before room text }, .error (.io limit.message))

end LenientJson
