import Mathlib.Data.Int.Notation
import Yalibct.Machine.Bytes

/-! # `vsnprintf` as the code under test sees it

The formatted text is a function of the format and of the position of the argument list; the call
moves that position past the arguments it consumed. The call stores the text cut to the room it
was given, with a NUL, and returns the length of the whole text, or a negative number when that
length is no `int`.
-/

namespace Yalibct

open Machine

structure Printf where
  Format : Type
  /-- Positions of a `va_list`. -/
  Args : Type
  text : Format → Args → List UInt8
  /-- The position after the conversion of a format. -/
  rest : Format → Args → Args

namespace Printf

variable (p : Printf)

/-- What a call stores when its buffer has this room. -/
def image (format : p.Format) (args : p.Args) (room : ℕ) : List UInt8 :=
  if room = 0 then [] else (p.text format args).take (room - 1) ++ [0]

/-- What a call returns. -/
def returns (format : p.Format) (args : p.Args) : ℤ :=
  if (p.text format args).length ≤ intMax then (p.text format args).length else -1

/-- The format whose only text is its argument, `"%s"`. -/
def string : Printf where
  Format := Unit
  Args := List (List UInt8)
  text _ args := args.headD []
  rest _ args := args.tail

variable {p}

theorem returns_of_le {format : p.Format} {args : p.Args}
    (bound : (p.text format args).length ≤ intMax) :
    p.returns format args = (p.text format args).length := if_pos bound

theorem length_image_le (format : p.Format) (args : p.Args) (room : ℕ) :
    (p.image format args room).length ≤ room := by
  unfold image
  split_ifs with empty
  · exact Nat.zero_le _
  · simp only [List.length_append, List.length_take, List.length_singleton]
    omega

/-- With room for the NUL, the whole text is stored. -/
theorem take_image_of_lt {format : p.Format} {args : p.Args} {room : ℕ}
    (fits : (p.text format args).length < room) :
    (p.image format args room).take (p.text format args).length = p.text format args := by
  have whole : (p.text format args).take (room - 1) = p.text format args :=
    List.take_of_length_le (by omega)
  rw [image, if_neg (by omega), whole, List.take_left]

/-- With room for the text alone, its last byte gives way to the NUL. -/
theorem take_image_of_eq {format : p.Format} {args : p.Args} {room : ℕ} (positive : 0 < room)
    (tight : (p.text format args).length = room) :
    (p.image format args room).take room = (p.text format args).dropLast ++ [0] := by
  rw [image, if_neg (by omega), List.take_of_length_le, List.dropLast_eq_take, tight]
  simp only [List.length_append, List.length_take, List.length_singleton]
  omega

end Printf

end Yalibct
