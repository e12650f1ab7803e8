import PageText.Error

/-!
# The flate filter

Deflated data in an envelope, or without one where the envelope is damaged. Inflating
itself is no part of the filter: what a decoder hands over is a parameter. Whatever came
out before a fault is kept, and only where nothing did the data is tried once more
without the envelope. The report is always that of the first attempt.
-/

namespace PageText

/-- What a decoder of deflated data hands over. -/
structure Inflation where
  /-- The output up to the end of the data, or what was handed over before a fault. -/
  output : List UInt8
  /-- The wording of the fault, if the end was not reached. -/
  fault? : Option String
  deriving DecidableEq

/-- The decoders of deflated data. -/
structure Inflater where
  /-- Decode data in an envelope of header and checksum. -/
  enveloped : List UInt8 → Inflation
  /-- Decode data without an envelope. -/
  bare : List UInt8 → Inflation

namespace Filter.Flate

/-- Undo the filter. Data that is complete in its envelope may be empty. -/
def decode (inflater : Inflater) (bytes : List UInt8) : Except Error (List UInt8) :=
  let first := inflater.enveloped bytes
  match first.fault? with
  | none => .ok first.output
  | some fault =>
    if first.output ≠ [] then .ok first.output
    else
      let second := inflater.bare bytes
      if second.output ≠ [] then .ok second.output
      else .error (.undecodable s!"FlateDecode: {fault}")

end Filter.Flate

end PageText
