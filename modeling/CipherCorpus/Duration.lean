/-!
# Durations

Whole seconds and nanoseconds below 10⁹, and the text that messages show: the largest unit that
makes the whole part non-zero, without trailing zeros (`1.5s`, `60ms`, `0ns`).
-/

namespace CipherCorpus

/-- A span of time; `nanos` counts within the second. -/
structure Duration where
  seconds : Nat
  nanos : Nat
deriving DecidableEq, Repr

namespace Duration

def ofSeconds (n : Nat) : Duration := ⟨n, 0⟩

def ofMillis (n : Nat) : Duration := ⟨n / 1000, n % 1000 * 1000000⟩

/-- Length in nanoseconds. -/
def total (d : Duration) : Nat := d.seconds * 1000000000 + d.nanos

/-- The largest number of seconds that a point in time can hold. -/
def clockLimit : Nat := UInt64.size / 2 - 1

/-- The point in time `d` after `now`; none when its seconds no longer fit. -/
def after? (now d : Duration) : Option Duration :=
  let nanos := now.nanos + d.nanos
  let seconds := now.seconds + d.seconds + nanos / 1000000000
  if seconds ≤ clockLimit then some ⟨seconds, nanos % 1000000000⟩ else none

/-- Decimal fraction of `value` in `places` places, without the zeros at its end. -/
def fractionText (value : Nat) (places : Nat) : String :=
  let digits := (Nat.toDigits 10 value).leftpad places '0'
  let kept := (digits.reverse.dropWhile (· == '0')).reverse
  if kept.isEmpty then "" else "." ++ String.ofList kept

/-- Text of a duration in its largest unit. -/
def render (d : Duration) : String :=
  if 0 < d.seconds then s!"{d.seconds}{fractionText d.nanos 9}s"
  else if 1000000 ≤ d.nanos then s!"{d.nanos / 1000000}{fractionText (d.nanos % 1000000) 6}ms"
  else if 1000 ≤ d.nanos then s!"{d.nanos / 1000}{fractionText (d.nanos % 1000) 3}µs"
  else s!"{d.nanos}ns"

end Duration

end CipherCorpus
