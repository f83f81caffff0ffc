import Acmi.Lib.Bytes
import Mathlib.Data.Nat.ModEq

/-!
# Data in numbered blocks

A transfer cuts its data into blocks of `n` elements. The last block is the first one that is
shorter, so data of a whole number of blocks has an empty block at its end, and how many blocks
there are is `data.length / n + 1`. What the first `k` blocks hold is the prefix of `n * k`
elements, and with the last block it is everything (`take_blocks`).

On the wire a block has its number modulo `2 ^ w`. Two numbers that look alike are equal if they
are less than `2 ^ w` apart (`eq_of_serial`).

Data of which not all is taken is in `Stretches`: each of them is on end in the stream, and they
follow one another with gaps in between.
-/

namespace Acmi.Lib

variable {α : Type}

/-- Block number `k`, from 0 on. -/
def block (n : Nat) (data : List α) (k : Nat) : List α := (data.drop (n * k)).take n

/-- The number of the last block. -/
def lastBlock (n : Nat) (data : List α) : Nat := data.length / n

section

variable {n : Nat} {data : List α} {k : Nat}

theorem block_length_le (n : Nat) (data : List α) (k : Nat) : (block n data k).length ≤ n :=
  List.length_take_le n _

theorem block_length (n : Nat) (data : List α) (k : Nat) :
    (block n data k).length = min n (data.length - n * k) := by
  rw [block, List.length_take, List.length_drop]

/-- The last block is the only short one. -/
theorem block_short_iff (hn : 0 < n) (hk : k ≤ lastBlock n data) :
    (block n data k).length < n ↔ k = lastBlock n data := by
  have hle : n * k ≤ data.length :=
    Nat.le_trans (Nat.mul_le_mul_left n hk) (Nat.mul_div_le data.length n)
  rw [block_length]
  constructor
  · intro hshort
    have hlt : data.length < n * (k + 1) := by
      rw [Nat.mul_succ]
      omega
    exact Nat.le_antisymm hk (Nat.le_of_lt_succ (Nat.div_lt_of_lt_mul hlt))
  · intro hlast
    have hend := Nat.lt_mul_div_succ data.length hn
    rw [hlast] at hle ⊢
    rw [lastBlock] at hle ⊢
    rw [Nat.mul_succ] at hend
    omega

/-- All blocks together. -/
theorem take_blocks (hn : 0 < n) : data.take (n * (lastBlock n data + 1)) = data :=
  List.take_of_length_le (Nat.le_of_lt (Nat.lt_mul_div_succ data.length hn))

/-- In front of the last block everything is there. -/
theorem length_take_blocks (hk : k ≤ lastBlock n data) : (data.take (n * k)).length = n * k := by
  rw [List.length_take]
  exact Nat.min_eq_left
    (Nat.le_trans (Nat.mul_le_mul_left n hk) (Nat.mul_div_le data.length n))

end

/-! ## Numbers on the wire -/

/-- **Block numbers that look alike.** -/
theorem eq_of_serial {w k e : Nat} (h : BitVec.ofNat w k = BitVec.ofNat w e)
    (hk : k < e + 2 ^ w) (he : e < k + 2 ^ w) : k = e := by
  have hmod : k % 2 ^ w = e % 2 ^ w := by
    simpa only [BitVec.toNat_ofNat] using congrArg BitVec.toNat h
  have hmod' : k ≡ e [MOD 2 ^ w] := hmod
  exact hmod'.eq_of_abs_lt (abs_lt.mpr ⟨by omega, by omega⟩)

theorem serial_succ (w k : Nat) : BitVec.ofNat w k + 1 = BitVec.ofNat w (k + 1) := by
  rw [BitVec.ofNat_add]
  rfl

/-! ## Stretches of a stream -/

/-- The stream has been cut into stretches that are taken and elements that are not. -/
inductive Stretches : List α → List (List α) → Prop
  | nil : Stretches [] []
  | skip {xs : List α} {bs : List (List α)} (x : α) : Stretches xs bs → Stretches (xs ++ [x]) bs
  | take {xs : List α} {bs : List (List α)} (b : List α) :
      Stretches xs bs → Stretches (xs ++ b) (bs ++ [b])

namespace Stretches

variable {xs ys : List α} {bs : List (List α)}

theorem skips (h : Stretches xs bs) (ys : List α) : Stretches (xs ++ ys) bs := by
  induction ys generalizing xs with
  | nil =>
    rw [List.append_nil]
    exact h
  | cons y ys ih =>
    have hlater := ih (h.skip y)
    rwa [List.append_assoc] at hlater

/-- The last one not taken. -/
theorem init {b : List α} (h : Stretches xs (bs ++ [b])) : Stretches xs bs := by
  generalize hc : bs ++ [b] = cs at h
  induction h with
  | nil => exact absurd hc (by simp)
  | skip x _ ih => exact (ih hc).skip x
  | take c hprev _ =>
    obtain ⟨rfl, -⟩ := List.append_inj' hc rfl
    exact hprev.skips c

/-- A stretch is on end in the stream. -/
theorem isInfix (h : Stretches xs bs) {b : List α} (hb : b ∈ bs) : b <:+: xs := by
  induction h with
  | nil => cases hb
  | skip x _ ih => exact (ih hb).trans (List.prefix_append ..).isInfix
  | take c _ ih =>
    rcases List.mem_append.mp hb with hb | hb
    · exact (ih hb).trans (List.prefix_append ..).isInfix
    · rw [List.mem_singleton.mp hb]
      exact (List.suffix_append ..).isInfix

end Stretches

end Acmi.Lib
