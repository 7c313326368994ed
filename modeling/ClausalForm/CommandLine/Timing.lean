import ClausalForm.Stage

/-!
# Times

The times that the stages of a normalization take. They come from a clock, so that what the program
shows of them is given to it: a text for every stage and one for the total. On a clock that counts
nanoseconds these are the texts of the durations and of their sum.

## Main definitions

* `durationText`: the text of a duration
* `Timing`: the texts of the times
* `Timing.ofNanoseconds`: the texts of times that are measured
-/

namespace ClausalForm.CommandLine

/-! ### Durations -/

/-- The decimals of a fraction, given in units of the last of these places. Zeros at the end are
left out. -/
def decimals (places fraction : Nat) : List Char :=
  let digits := (toString fraction).toList
  let zeros := List.replicate (places - digits.length) '0'
  ((zeros ++ digits).reverse.dropWhile (· == '0')).reverse

/-- A duration in units of so many nanoseconds, with as many decimals as it needs. -/
def durationIn (unit places nanoseconds : Nat) : String :=
  let whole := toString (nanoseconds / unit)
  match decimals places (nanoseconds % unit) with
  | [] => whole
  | ds => whole ++ "." ++ String.ofList ds

/-- The text of a duration, in the largest unit that it comes to. -/
def durationText (nanoseconds : Nat) : String :=
  if 1000000000 ≤ nanoseconds then durationIn 1000000000 9 nanoseconds ++ "s"
  else if 1000000 ≤ nanoseconds then durationIn 1000000 6 nanoseconds ++ "ms"
  else if 1000 ≤ nanoseconds then durationIn 1000 3 nanoseconds ++ "µs"
  else durationIn 1 0 nanoseconds ++ "ns"

example : [0, 999, 1500, 20010000, 3000000007].map durationText =
    ["0ns", "999ns", "1.5µs", "20.01ms", "3.000000007s"] := by
  decide

/-! ### Times of a normalization -/

/-- The texts of the times that a normalization takes. -/
structure Timing where
  /-- The text of the time that a stage takes. -/
  stage : Stage → String := fun _ => ""
  total : String := ""

/-- The texts for a clock by which the stages take these times. The total is their sum. -/
def Timing.ofNanoseconds (time : Stage → Nat) : Timing where
  stage stage := durationText (time stage)
  total := durationText (Stage.all.foldl (fun sum stage => sum + time stage) 0)

end ClausalForm.CommandLine
