import Mathlib

/-!
# Writing into a buffer

A buffer is a list of fixed length. `put` writes items one after the other from an index on,
and has no result when it would leave the buffer; `splice` is the buffer with a segment
replaced. Putting is splicing inside the buffer, and consecutive segments are one.
-/
namespace HdrHistogramC.BufferWriting
variable {α : Type} {output cs ds : List α} {i j : ℕ}

def put (output : List α) (j : ℕ) : List α → Option (List α)
  | [] => some output
  | c :: cs => if j < output.length then put (output.set j c) (j + 1) cs else none

/-- The buffer with the segment from `j` on replaced. -/
def splice (output : List α) (j : ℕ) (cs : List α) : List α :=
  output.take j ++ cs ++ output.drop (j + cs.length)

theorem splice_nil (output : List α) (j : ℕ) : splice output j [] = output := by
  rw [splice, List.append_nil, List.length_nil, Nat.add_zero, List.take_append_drop]

theorem splice_length (h : j + cs.length ≤ output.length) :
    (splice output j cs).length = output.length := by
  rw [splice, List.length_append, List.length_append, List.length_take, List.length_drop]
  omega

theorem splice_splice (h : j + cs.length ≤ output.length) :
    splice (splice output j cs) (j + cs.length) ds = splice output j (cs ++ ds) := by
  have hprefix : (output.take j ++ cs).length = j + cs.length := by
    rw [List.length_append, List.length_take]
    omega
  rw [splice, splice, List.take_left' hprefix, ← hprefix, List.drop_append, hprefix,
    List.drop_drop, List.drop_eq_nil_of_le (by omega), List.nil_append, splice, List.length_append,
    List.append_assoc (output.take j), Nat.add_sub_cancel_left, Nat.add_assoc]

theorem put_eq (h : j + cs.length ≤ output.length) :
    put output j cs = some (splice output j cs) := by
  induction cs generalizing output j with
  | nil => rw [put, splice_nil]
  | cons c cs ih =>
      rw [List.length_cons] at h
      have hone : output.set j c = splice output j [c] := by
        rw [splice, List.length_singleton, List.append_assoc, List.singleton_append,
          List.set_eq_take_append_cons_drop, if_pos (by omega)]
      rw [put, if_pos (by omega), ih (by rw [List.length_set]; omega), hone,
        show j + 1 = j + [c].length from rfl, splice_splice (by
          rw [List.length_singleton]
          omega)]
      rfl

end HdrHistogramC.BufferWriting
