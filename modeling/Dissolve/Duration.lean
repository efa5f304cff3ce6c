/-!
# Duration — lengths of time in reports

A length of time is written in the largest of the units `s`, `ms`, `µs` and `ns` in which it is at
least one, with a fraction that has no zeros at its end.
-/

namespace Dissolve

structure Duration where
  nanoseconds : Nat
  deriving DecidableEq

namespace Duration

def zero : Duration := ⟨0⟩

def ofMicroseconds (n : Nat) : Duration := ⟨n * 1000⟩

def milliseconds (d : Duration) : Nat :=
  d.nanoseconds / 1000000

def inUnit (d : Duration) (places : Nat) (unit : String) : String :=
  let whole := d.nanoseconds / Nat.pow 10 places
  let rest := Nat.toDigits 10 (d.nanoseconds % Nat.pow 10 places)
  let padded := List.replicate (places - rest.length) '0' ++ rest
  let fraction := ((padded.reverse).dropWhile (· = '0')).reverse
  let shown := if fraction.isEmpty then "" else "." ++ String.ofList fraction
  toString whole ++ shown ++ unit

def text (d : Duration) : String :=
  if 1000000000 ≤ d.nanoseconds then d.inUnit 9 "s"
  else if 1000000 ≤ d.nanoseconds then d.inUnit 6 "ms"
  else if 1000 ≤ d.nanoseconds then d.inUnit 3 "µs"
  else toString d.nanoseconds ++ "ns"

end Duration

end Dissolve
