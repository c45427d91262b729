/-!
# Spans of time

A span is a whole number of nanoseconds whose seconds fit 64 bits. Timers run in
milliseconds, so a wait of a span is rounded up to the next one.
-/

set_option autoImplicit false

namespace TaskRelay

def nanosPerSecond : Nat := 1000000000

def nanosPerMilli : Nat := 1000000

structure Span where
  nanos : Nat
  inRange : nanos < 0x10000000000000000 * nanosPerSecond
  deriving DecidableEq

namespace Span

def zero : Span := ⟨0, by decide⟩

instance : Inhabited Span := ⟨zero⟩

def ofSeconds (n : UInt64) : Span :=
  ⟨n.toNat * nanosPerSecond, by
    have := n.toNat_lt
    simp only [nanosPerSecond]
    omega⟩

def ofMillis (n : UInt64) : Span :=
  ⟨n.toNat * nanosPerMilli, by
    have := n.toNat_lt
    simp only [nanosPerMilli, nanosPerSecond]
    omega⟩

def ofParts? (seconds nanos : Nat) : Option Span :=
  let total := seconds * nanosPerSecond + nanos
  if h : total < 0x10000000000000000 * nanosPerSecond then some ⟨total, h⟩ else none

def seconds (d : Span) : Nat := d.nanos / nanosPerSecond

def subNanos (d : Span) : Nat := d.nanos % nanosPerSecond

def millis (d : Span) : Nat := d.nanos / nanosPerMilli

def timerMillis (d : Span) : Nat := (d.nanos + (nanosPerMilli - 1)) / nanosPerMilli

def min (a b : Span) : Span := if a.nanos ≤ b.nanos then a else b

def max (a b : Span) : Span := if a.nanos ≤ b.nanos then b else a

def clamp (d low high : Span) : Span := (d.max low).min high

def dropEndZeros (ds : List Char) : List Char := (ds.reverse.dropWhile (· == '0')).reverse

def paddedDigits (k n : Nat) : List Char :=
  let ds := (toString n).toList
  List.replicate (k - ds.length) '0' ++ ds

def decimal (whole k fraction : Nat) : String :=
  match dropEndZeros (paddedDigits k fraction) with
  | [] => toString whole
  | ds => toString whole ++ "." ++ String.ofList ds

def text (d : Span) : String :=
  if d.nanos ≥ nanosPerSecond then decimal d.seconds 9 d.subNanos ++ "s"
  else if d.nanos ≥ nanosPerMilli then decimal d.millis 6 (d.nanos % nanosPerMilli) ++ "ms"
  else if d.nanos ≥ 1000 then decimal (d.nanos / 1000) 3 (d.nanos % 1000) ++ "µs"
  else toString d.nanos ++ "ns"

end Span

end TaskRelay
