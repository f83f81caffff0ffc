import Mathlib.Data.List.Basic

/-!
# What is on an I²C bus

An I²C bus is two lines. The data line changes while the clock line is low and is read while
it is high; a fall or a rise of the data line under a high clock line is a start or a stop.

`Monitor` is somebody who watches the lines as the master drives them and writes down the
transactions. A bit is what the data line shows when the clock line rises, and it counts at
the fall of the clock line, unless a start or a stop comes first. The slots in which a device
answers are bits like the others: what the master found on the data line there is noted
beside them (`sample`).

A start in the middle of a transaction ends it, and what there is of it is kept, so that
nothing that is cut off goes unnoticed.
-/

namespace Acmi.Lib

/-- The two lines; `true` is high. -/
structure I2cLines where
  scl : Bool
  sda : Bool
  deriving DecidableEq, Repr

/-- No transaction is under way when both lines are high. -/
def I2cLines.high : I2cLines := ⟨true, true⟩

/-- The bits the master put on the data line, and what it read off it. -/
structure Transaction where
  sent : List Bool
  read : List Bool
  deriving DecidableEq, Repr

/-- The transaction under way, the bit under way, and the transactions that have ended, in
order. -/
structure Monitor where
  current : Option Transaction
  bit : Option Bool
  done : List Transaction
  deriving DecidableEq, Repr

/-- Nothing seen yet. -/
def Monitor.fresh : Monitor := ⟨none, none, []⟩

/-- The transactions so far, with the one under way. -/
def Monitor.begun (m : Monitor) : Nat := m.done.length + m.current.toList.length

/-- The lines go from `old` to `new`. -/
def Monitor.see (m : Monitor) (old new : I2cLines) : Monitor :=
  if old.scl && new.scl then
    if old.sda && !new.sda then ⟨some ⟨[], []⟩, none, m.done ++ m.current.toList⟩
    else if !old.sda && new.sda then ⟨none, none, m.done ++ m.current.toList⟩
    else m
  else if new.scl then { m with bit := some new.sda }
  else if old.scl then
    { m with
      current := m.current.map fun t => { t with sent := t.sent ++ m.bit.toList }
      bit := none }
  else m

/-- The master takes `b` off the data line. -/
def Monitor.sample (m : Monitor) (b : Bool) : Monitor :=
  { m with current := m.current.map fun t => { t with read := t.read ++ [b] } }

theorem Monitor.see_same (m : Monitor) (l : I2cLines) : m.see l l = m := by
  obtain ⟨scl, sda⟩ := l
  cases scl
  · rfl
  · cases sda
    · rfl
    · rfl

/-- The data line falls under a high clock line. -/
theorem Monitor.see_start (m : Monitor) :
    m.see .high ⟨true, false⟩ = ⟨some ⟨[], []⟩, none, m.done ++ m.current.toList⟩ := rfl

/-- The data line rises under a high clock line. -/
theorem Monitor.see_stop (m : Monitor) :
    m.see ⟨true, false⟩ .high = ⟨none, none, m.done ++ m.current.toList⟩ := rfl

theorem Monitor.see_rise (m : Monitor) (old b : Bool) :
    m.see ⟨false, old⟩ ⟨true, b⟩ = { m with bit := some b } := rfl

/-- The clock line falls: the bit counts. -/
theorem Monitor.see_fall (m : Monitor) (old new : Bool) :
    m.see ⟨true, old⟩ ⟨false, new⟩ =
      { m with
        current := m.current.map fun t => { t with sent := t.sent ++ m.bit.toList }
        bit := none } := rfl

/-- Nothing happens while the clock line is low. -/
theorem Monitor.see_low (m : Monitor) (old new : Bool) :
    m.see ⟨false, old⟩ ⟨false, new⟩ = m := rfl

end Acmi.Lib
