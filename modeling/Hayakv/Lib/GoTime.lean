import Mathlib.Tactic.Ring

/-!
# Go times

A `time.Time` is its nanoseconds since the Unix epoch. Only the conversions from and to `int64`
wrap: `time.Unix` counts seconds since the year 1 in 64 bits, `UnixNano` nanoseconds since the epoch.
-/

namespace Hayakv

/-- An integer as an `int64`, in two's complement. -/
def wrap64 (n : Int) : Int := (n + 2 ^ 63) % 2 ^ 64 - 2 ^ 63

namespace GoTime

def msec : Int := 1000000

def second : Int := 1000000000

/-- `time.Unix(sec, 0)`. -/
def unixSec (sec : Int) : Int := (wrap64 (sec + 62135596800) - 62135596800) * second

/-- `time.Unix(0, nsec)`. -/
def unixNsec (nsec : Int) : Int := nsec

/-- `time.Duration(n) * unit`. -/
def duration (n unit : Int) : Int := wrap64 (n * unit)

def unixNano (t : Int) : Int := wrap64 t

def unix (t : Int) : Int := wrap64 (t / second)

def unixMilli (t : Int) : Int := wrap64 (t / msec)

/-- `t.Sub(u)`, which saturates. -/
def sub (t u : Int) : Int := max (-2 ^ 63) (min (2 ^ 63 - 1) (t - u))

/-- Go's `/` on integers rounds to zero. -/
def quot (a b : Int) : Int := a.tdiv b

/-- `t.UnixNano() / 1e6`, the timestamp of a logged expiry. -/
def logMilli (t : Int) : Int := quot (unixNano t) msec

end GoTime

end Hayakv
