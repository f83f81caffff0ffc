import Acmi.Lib.Bytes

/-!
# Open files

What is in a file, and the position where the next read or write begins; the position is never
behind the end. A write goes over what is there and on past the end, so it keeps what is behind
it: writing piece by piece is writing the whole (`write_write`), and what a file that was written
from its beginning holds is `write_start`.
-/

namespace Acmi.Lib

@[ext] structure OpenFile where
  content : List Byte
  pos : Nat
  le : pos ≤ content.length

namespace OpenFile

/-- A file that has just been opened. -/
def start (content : List Byte) : OpenFile := ⟨content, 0, Nat.zero_le _⟩

/-- Opening a file that has to be there; `ok` is false when it fails for another reason. -/
def openExisting (file : Option (List Byte)) (ok : Bool) : Option OpenFile :=
  if ok then file.map start else none

/-- Opening a file that is created, empty, when it is not there. What is in it stays. -/
def openAlways (file : Option (List Byte)) (ok : Bool) : Option OpenFile :=
  if ok then some (start (file.getD [])) else none

/-- What reading `n` bytes gives: fewer at the end of the file. -/
def read (f : OpenFile) (n : Nat) : List Byte := (f.content.drop f.pos).take n

/-- The position after that. -/
def skip (f : OpenFile) (n : Nat) : OpenFile where
  content := f.content
  pos := f.pos + (f.read n).length
  le := by
    have hle := f.le
    rw [read, List.length_take, List.length_drop]
    omega

def write (f : OpenFile) (bs : List Byte) : OpenFile where
  content := f.content.take f.pos ++ (bs ++ f.content.drop (f.pos + bs.length))
  pos := f.pos + bs.length
  le := by
    have hle := f.le
    rw [List.length_append, List.length_append, List.length_take]
    omega

/-- Back to the beginning. -/
def rewind (f : OpenFile) : OpenFile := start f.content

/-- The file ends at the position. -/
def truncate (f : OpenFile) : OpenFile where
  content := f.content.take f.pos
  pos := f.pos
  le := by
    have hle := f.le
    rw [List.length_take]
    omega

@[simp] theorem write_nil (f : OpenFile) : f.write [] = f := by
  refine OpenFile.ext ?_ rfl
  show f.content.take f.pos ++ ([] ++ f.content.drop f.pos) = f.content
  rw [List.nil_append, List.take_append_drop]

/-- **Two writes in a row are one.** -/
theorem write_write (f : OpenFile) (as bs : List Byte) :
    (f.write as).write bs = f.write (as ++ bs) := by
  have hpre : (f.content.take f.pos).length = f.pos := by
    rw [List.length_take, Nat.min_eq_left f.le]
  refine OpenFile.ext ?_ (by simp only [write, List.length_append, Nat.add_assoc])
  have htake : (f.write as).content.take (f.pos + as.length) = f.content.take f.pos ++ as := by
    show (f.content.take f.pos ++ (as ++ _)).take _ = _
    rw [← List.append_assoc, List.take_left']
    rw [List.length_append, hpre]
  have hdrop : (f.write as).content.drop (f.pos + as.length + bs.length) =
      f.content.drop (f.pos + (as ++ bs).length) := by
    show (f.content.take f.pos ++ (as ++ f.content.drop (f.pos + as.length))).drop _ = _
    rw [← List.append_assoc, ← List.drop_drop, List.drop_left', List.drop_drop, List.length_append,
      Nat.add_assoc]
    rw [List.length_append, hpre]
  show (f.write as).content.take (f.pos + as.length) ++
    (bs ++ (f.write as).content.drop (f.pos + as.length + bs.length)) = _
  rw [htake, hdrop, List.append_assoc, ← List.append_assoc as bs]
  rfl

/-- **Writing from the beginning** keeps what is behind. -/
theorem write_start (content bs : List Byte) :
    ((start content).write bs).content = bs ++ content.drop bs.length := by
  show [] ++ (bs ++ content.drop (0 + bs.length)) = _
  rw [List.nil_append, Nat.zero_add]

theorem write_rewind_truncate (f : OpenFile) (bs : List Byte) :
    (f.rewind.truncate.write bs).content = bs := by
  have h := write_start [] bs
  rwa [List.drop_nil, List.append_nil] at h

end OpenFile

end Acmi.Lib
