import Acmi.Ivt.Wire
import Acmi.Lib.Trace

/-!
# The order of the transactions on the bus

`entryAt c n` is the entry that transaction `n` should be when the first `c` entries are the
configuration and rounds of the entries 25 to 60 come behind it, and `Follows` says that the
bus is as far in this order as it is, with nothing left out, repeated or cut short.

The invariant `Inv` has three cases. Either nothing is asked for and `data_con` stands between
two entries (`Waits`), or it has loaded one and `i2c_con` has not noticed yet (`Armed`), or
`i2c_con` is at work on it (`Busy`). An edge of the clock leads from the first to the second,
an edge of `i2c_clk` from the second to the third and in the end back to the first.

Edges that fall together are no fourth case: under the invariant they do what one of the two
orders does (`bothEdges_eq`).

In `CONFIG`, `step_count` is the next entry, and `data_con` leaves with 24 there. In `READ` it
is the last entry, and the first one loaded is 25. So the order that the code follows is the
one with 24 configuration entries, and entry 24 is in it nowhere.
-/

namespace Acmi.Ivt

open Acmi.Lib

/-! ## The order -/

/-- The entry that transaction `n` is, if the first `configured` are the configuration. -/
def entryAt (configured n : Nat) : Nat :=
  if n < configured then n else 25 + (n - configured) % 36

/-- The transactions that have ended are the first ones of the order, complete, and the one
under way is a beginning of the next. -/
structure Follows (configured : Nat) (m : Monitor) : Prop where
  done : m.done.map (·.sent) =
    (List.range m.done.length).map fun j => entryBits (entryAt configured j)
  current : ∀ t, m.current = some t → t.sent <+: entryBits (entryAt configured m.done.length)

/-- Two orders that agree so far. -/
theorem Follows.congr {c c' : Nat} {m : Monitor} (h : Follows c m)
    (hdone : ∀ j, j < m.done.length → entryAt c' j = entryAt c j)
    (hcurrent : m.current ≠ none → entryAt c' m.done.length = entryAt c m.done.length) :
    Follows c' m := by
  refine ⟨?_, fun t ht => ?_⟩
  · rw [h.done]
    refine List.map_congr_left fun j hj => ?_
    rw [hdone j (List.mem_range.mp hj)]
  · rw [hcurrent (by rw [ht]; exact Option.some_ne_none t)]
    exact h.current t ht

/-- What a transaction that has ended was. -/
theorem Follows.sent {c : Nat} {m : Monitor} (h : Follows c m) {j : Nat} {t : Transaction}
    (ht : m.done[j]? = some t) : t.sent = entryBits (entryAt c j) := by
  have hj : j < m.done.length := (List.getElem?_eq_some_iff.mp ht).1
  have hmap : (m.done.map (·.sent))[j]? = some t.sent := by
    rw [List.getElem?_map, ht, Option.map_some]
  rw [h.done, List.getElem?_map, List.getElem?_range hj, Option.map_some, Option.some.injEq] at hmap
  exact hmap.symm

/-! ## Where `data_con` is -/

/-- Nothing is asked for, and `n` transactions have ended. -/
def Between (d : DataCon) (started n : Nat) : Prop :=
  match d.state with
  | .idle => d.stepCount = 0 ∧ n = 0 ∧ started = 0
  | .config => d.stepCount = n ∧ n ≤ 24 ∧ started = 0
  | .read => d.stepCount + 36 * started = n ∧ 24 ≤ d.stepCount ∧ d.stepCount ≤ 60
  | .waiting => d.stepCount = 60 ∧ n = 24 + 36 * (started + 1)

/-- Transaction `n` is asked for. -/
structure Loaded (d : DataCon) (started n : Nat) : Prop where
  place :
    match d.state with
    | .config => d.stepCount = n + 1 ∧ n < 24 ∧ started = 0
    | .read => d.stepCount + 36 * started = n + 1 ∧ 25 ≤ d.stepCount ∧ d.stepCount ≤ 60
    | _ => False
  treg : d.treg = dataAt (entryAt 24 n)
  bcnt : d.bcnt = sizeAt (entryAt 24 n)

theorem Loaded.of_config {d : DataCon} {started n : Nat} (hs : d.state = .config)
    (hplace : d.stepCount = n + 1 ∧ n < 24 ∧ started = 0) (htreg : d.treg = dataAt (entryAt 24 n))
    (hbcnt : d.bcnt = sizeAt (entryAt 24 n)) : Loaded d started n :=
  ⟨by rw [hs]; exact hplace, htreg, hbcnt⟩

theorem Loaded.of_read {d : DataCon} {started n : Nat} (hs : d.state = .read)
    (hplace : d.stepCount + 36 * started = n + 1 ∧ 25 ≤ d.stepCount ∧ d.stepCount ≤ 60)
    (htreg : d.treg = dataAt (entryAt 24 n)) (hbcnt : d.bcnt = sizeAt (entryAt 24 n)) :
    Loaded d started n :=
  ⟨by rw [hs]; exact hplace, htreg, hbcnt⟩

theorem Between.stepCount_le {d : DataCon} {started n : Nat} (h : Between d started n) :
    d.stepCount ≤ 60 := by
  unfold Between at h
  split at h
  · omega
  · omega
  · omega
  · omega

theorem Loaded.stepCount_le {d : DataCon} {started n : Nat} (h : Loaded d started n) :
    d.stepCount ≤ 60 := by
  have hplace := h.place
  split at hplace
  · omega
  · omega
  · exact hplace.elim

/-- The transaction that was asked for has ended. -/
theorem Loaded.ended {d : DataCon} {started n : Nat} (h : Loaded d started n) :
    Between d started (n + 1) := by
  have hplace := h.place
  unfold Between
  split at hplace
  · rename_i hs
    simp only [hs]
    omega
  · rename_i hs
    simp only [hs]
    omega
  · exact hplace.elim

/-- While a transaction is asked for, `data_con` does nothing. -/
theorem Loaded.dataCon_eq {d : DataCon} {started n : Nat} (h : Loaded d started n)
    (htrig : d.i2cTrig = true) (s : Bool) (rreg : BitVec 36) : dataCon d s true rreg = d := by
  have hplace := h.place
  unfold dataCon
  rw [if_pos rfl]
  split at hplace
  · rename_i hs
    simp only [hs, if_pos htrig]
  · rename_i hs
    simp only [hs, if_pos htrig]
  · exact hplace.elim

/-- The number of rounds that a strobe started, behind an edge of the clock. -/
def startedBy (d : DataCon) (strobe : Bool) (started : Nat) : Nat :=
  if d.state = .waiting ∧ strobe = true then started + 1 else started

theorem startedBy_of_ne {d : DataCon} (hs : d.state ≠ .waiting) (s : Bool) (started : Nat) :
    startedBy d s started = started := if_neg fun h => hs h.1

/-- **An edge of the clock between two transactions**: `data_con` goes on without asking for
anything, or it asks for the next entry of the order. -/
theorem Between.edge {d : DataCon} {started n : Nat} (h : Between d started n)
    (htrig : d.i2cTrig = false) (s : Bool) (rreg : BitVec 36) :
    ((dataCon d s true rreg).i2cTrig = false ∧ (dataCon d s true rreg).bcnt = d.bcnt ∧
      Between (dataCon d s true rreg) (startedBy d s started) n) ∨
    ((dataCon d s true rreg).i2cTrig = true ∧
      Loaded (dataCon d s true rreg) (startedBy d s started) n) := by
  unfold Between at h
  cases hs : d.state with
  | idle =>
    rw [hs] at h
    rw [dataCon_idle hs, startedBy_of_ne (by rw [hs]; decide)]
    exact .inl ⟨htrig, rfl, h.1.trans h.2.1.symm, by omega, h.2.2⟩
  | config =>
    rw [hs] at h
    obtain ⟨hstep, hn, hstarted⟩ := h
    rw [startedBy_of_ne (by rw [hs]; decide)]
    by_cases hlt : d.stepCount < 24
    · have hentry : entryAt 24 n = d.stepCount := by
        rw [entryAt, if_pos (by omega), hstep]
      rw [dataCon_config hs htrig hlt]
      refine .inr ⟨rfl, .of_config hs ⟨?_, by omega, hstarted⟩ ?_ ?_⟩
      · show d.stepCount + 1 = n + 1
        omega
      · rw [hentry]; rfl
      · rw [hentry]; rfl
    · rw [dataCon_config_leave hs htrig hlt]
      refine .inl ⟨htrig, rfl, ?_⟩
      show d.stepCount + 36 * started = n ∧ 24 ≤ d.stepCount ∧ d.stepCount ≤ 60
      omega
  | read =>
    rw [hs] at h
    obtain ⟨hn, hge, hle⟩ := h
    rw [startedBy_of_ne (by rw [hs]; decide)]
    by_cases h60 : d.stepCount = 60
    · rw [dataCon_read_last hs htrig h60]
      exact .inl ⟨htrig, rfl, h60, by omega⟩
    · have hentry : entryAt 24 n = d.stepCount + 1 := by
        rw [entryAt, if_neg (by omega)]
        omega
      rw [dataCon_read hs htrig (by omega)]
      refine .inr ⟨rfl, .of_read hs ?_ ?_ ?_⟩
      · show d.stepCount + 1 + 36 * started = n + 1 ∧ 25 ≤ d.stepCount + 1 ∧ d.stepCount + 1 ≤ 60
        omega
      · rw [hentry]; rfl
      · rw [hentry]; rfl
  | waiting =>
    rw [hs] at h
    obtain ⟨h60, hn⟩ := h
    cases hstrobe : s with
    | false =>
      have hst : startedBy d false started = started := if_neg fun h => by cases h.2
      rw [dataCon_waiting hs, hst]
      refine .inl ⟨htrig, rfl, ?_⟩
      unfold Between
      rw [hs]
      exact ⟨h60, hn⟩
    | true =>
      have hst : startedBy d true started = started + 1 := if_pos ⟨hs, rfl⟩
      rw [dataCon_strobe hs, hst]
      refine .inl ⟨htrig, rfl, ?_⟩
      show 24 + 36 * (started + 1) = n ∧ 24 ≤ 24 ∧ 24 ≤ 60
      omega

/-! ## The invariant -/

/-- Nothing is asked for. -/
structure Waits (b : Bench) : Prop where
  state : b.i2c.state = .idle
  lines : b.i2c.lines = .high
  current : b.bus.current = none
  trig : b.data.i2cTrig = false
  place : Between b.data b.started b.bus.done.length
  last : ∀ t, b.bus.done.getLast? = some t →
    t.read.length = t.sent.length ∧ Holds b.i2c.rreg t.sent.length t.read

/-- A transaction is asked for, and `i2c_con` has not noticed yet. -/
structure Armed (b : Bench) : Prop where
  state : b.i2c.state = .idle
  lines : b.i2c.lines = .high
  current : b.bus.current = none
  trig : b.data.i2cTrig = true
  ready : b.i2c.i2cReady = true
  loaded : Loaded b.data b.started b.bus.done.length

/-- `i2c_con` is at work on the transaction that was asked for. Until `data_con` has seen that
it is, no further edge of `i2c_clk` is due. -/
structure Busy (b : Bench) : Prop where
  trig : b.data.i2cTrig = true → b.due = false
  ready : b.i2c.i2cReady = false
  loaded : Loaded b.data b.started b.bus.done.length
  wire : (b.i2c.state = .start ∧ b.i2c.lines = .high ∧ b.bus.current = none ∧
      b.i2c.bitCount = b.data.bcnt ∧ b.i2c.rreg = 0) ∨
    ∃ t, Sending b.i2c b.data b.bus t ∧ Phase b.i2c b.data b.bus t

structure Inv (b : Bench) : Prop where
  order : b.bus.done.map (·.sent) =
    (List.range b.bus.done.length).map fun j => entryBits (entryAt 24 j)
  bcnt : b.data.bcnt ≤ 127
  bitCount : b.i2c.bitCount ≤ 127
  stage : Waits b ∨ Armed b ∨ Busy b

theorem Reset.inv {b : Bench} (h : Reset b) : Inv b := by
  have hdone : b.bus.done = [] := by rw [h.bus]; rfl
  refine ⟨by rw [hdone]; rfl, by rw [h.bcnt]; decide, h.bitCount, .inl ?_⟩
  refine ⟨h.i2cState, h.lines, by rw [h.bus]; rfl, h.i2cTrig, ?_, ?_⟩
  · unfold Between
    rw [h.dataState, hdone]
    exact ⟨h.stepCount, rfl, h.started⟩
  · intro t ht
    rw [hdone] at ht
    cases ht

/-! ## An edge of the clock -/

theorem Bench.clockEdge_ready {b : Bench} (hready : b.i2c.i2cReady = true) :
    b.clockEdge.data = dataCon b.data (strobe b.clkcnt) true b.i2c.rreg ∧
      b.clockEdge.started = startedBy b.data (strobe b.clkcnt) b.started := by
  refine ⟨?_, ?_⟩
  · show dataCon b.data (strobe b.clkcnt) b.i2c.i2cReady b.i2c.rreg = _
    rw [hready]
  · show (if b.starts then b.started + 1 else b.started) = _
    unfold startedBy Bench.starts
    rw [hready]
    simp

theorem Bench.clockEdge_notReady {b : Bench} (hready : b.i2c.i2cReady = false) :
    b.clockEdge.data = { b.data with i2cTrig := false } ∧ b.clockEdge.started = b.started := by
  refine ⟨?_, ?_⟩
  · show dataCon b.data (strobe b.clkcnt) b.i2c.i2cReady b.i2c.rreg = _
    rw [hready]
    rfl
  · show (if b.starts then b.started + 1 else b.started) = _
    unfold Bench.starts
    rw [hready]
    rfl

theorem Waits.clockEdge {b : Bench} (h : Waits b) (hbcnt : b.data.bcnt ≤ 127) :
    b.clockEdge.data.bcnt ≤ 127 ∧ (Waits b.clockEdge ∨ Armed b.clockEdge) := by
  cases hready : b.i2c.i2cReady with
  | false =>
    obtain ⟨hdata, hstarted⟩ := b.clockEdge_notReady hready
    refine ⟨by rw [hdata]; exact hbcnt, .inl ?_⟩
    refine ⟨h.state, h.lines, h.current, by rw [hdata], ?_, h.last⟩
    rw [hdata, hstarted]
    exact h.place
  | true =>
    obtain ⟨hdata, hstarted⟩ := b.clockEdge_ready hready
    rcases h.place.edge h.trig (strobe b.clkcnt) b.i2c.rreg with
      ⟨htrig, hb, hplace⟩ | ⟨htrig, hloaded⟩
    · refine ⟨by rw [hdata, hb]; exact hbcnt,
        .inl ⟨h.state, h.lines, h.current, by rw [hdata]; exact htrig, ?_, h.last⟩⟩
      rw [hdata, hstarted]
      exact hplace
    · refine ⟨?_, .inr ⟨h.state, h.lines, h.current, by rw [hdata]; exact htrig, hready, ?_⟩⟩
      · have hle := sizeAt_le (entryAt 24 b.bus.done.length)
        rw [hdata, hloaded.bcnt]
        exact Nat.le_trans hle (by decide)
      · rw [hdata, hstarted]
        exact hloaded

theorem Armed.clockEdge_data {b : Bench} (h : Armed b) :
    b.clockEdge.data = b.data ∧ b.clockEdge.started = b.started := by
  obtain ⟨hdata, hstarted⟩ := b.clockEdge_ready h.ready
  have hplace := h.loaded.place
  refine ⟨hdata.trans (h.loaded.dataCon_eq h.trig _ _), hstarted.trans (startedBy_of_ne ?_ _ _)⟩
  intro hs
  rw [hs] at hplace
  exact hplace

theorem Armed.clockEdge {b : Bench} (h : Armed b) : Armed b.clockEdge := by
  obtain ⟨hdata, hstarted⟩ := h.clockEdge_data
  refine ⟨h.state, h.lines, h.current, by rw [hdata]; exact h.trig, h.ready, ?_⟩
  rw [hdata, hstarted]
  exact h.loaded

theorem Busy.clockEdge {b : Bench} (h : Busy b) : Busy b.clockEdge := by
  obtain ⟨hdata, hstarted⟩ := b.clockEdge_notReady h.ready
  refine ⟨fun htrig => ?_, h.ready, ?_, ?_⟩
  · rw [hdata] at htrig
    cases htrig
  · rw [hdata, hstarted]
    exact ⟨h.loaded.place, h.loaded.treg, h.loaded.bcnt⟩
  · rw [hdata]
    rcases h.wire with hstart | ⟨t, hsend, hphase⟩
    · exact .inl hstart
    · exact .inr ⟨t, ⟨hsend.current, hsend.bitCount, hsend.read, hsend.rreg⟩, hphase⟩

theorem Inv.clockEdge {b : Bench} (h : Inv b) : Inv b.clockEdge := by
  rcases h.stage with hw | ha | hb
  · obtain ⟨hbcnt, hstage⟩ := hw.clockEdge h.bcnt
    exact ⟨h.order, hbcnt, h.bitCount, hstage.imp_right .inl⟩
  · exact ⟨h.order, by rw [ha.clockEdge_data.1]; exact h.bcnt, h.bitCount, .inr (.inl ha.clockEdge)⟩
  · refine ⟨h.order, ?_, h.bitCount, .inr (.inr hb.clockEdge)⟩
    rw [(b.clockEdge_notReady hb.ready).1]
    exact h.bcnt

/-! ## An edge of `i2c_clk` -/

theorem Waits.i2cEdge_eq {b : Bench} (h : Waits b) (sda : Bool) :
    b.i2cEdge sda = { b with i2c := { b.i2c with i2cReady := true }, due := false } := by
  have hcon := i2cCon_idle h.state h.lines h.trig sda
  have hbus : (b.i2cEdge sda).bus = b.bus :=
    busBehind_idle h.state (by rw [hcon]; rfl) b.bus
  unfold Bench.i2cEdge at hbus ⊢
  simp only at hbus
  rw [hbus, hcon]

theorem Waits.i2cEdge {b : Bench} (h : Waits b) (sda : Bool) : Waits (b.i2cEdge sda) := by
  rw [h.i2cEdge_eq sda]
  exact ⟨h.state, h.lines, h.current, h.trig, h.place, h.last⟩

theorem Armed.i2cEdge_eq {b : Bench} (h : Armed b) (sda : Bool) :
    b.i2cEdge sda =
      { b with
        i2c := { b.i2c with rreg := 0, i2cReady := false, bitCount := b.data.bcnt, state := .start }
        due := false } := by
  have hcon := i2cCon_taken h.state h.trig sda
  have hbus : (b.i2cEdge sda).bus = b.bus :=
    busBehind_idle h.state (by rw [hcon]; rfl) b.bus
  unfold Bench.i2cEdge at hbus ⊢
  simp only at hbus
  rw [hbus, hcon]

theorem Armed.i2cEdge {b : Bench} (h : Armed b) (sda : Bool) : Busy (b.i2cEdge sda) := by
  rw [h.i2cEdge_eq sda]
  exact ⟨fun _ => rfl, rfl, h.loaded, .inl ⟨rfl, h.lines, h.current, rfl, rfl⟩⟩

theorem Busy.bcnt_le {b : Bench} (h : Busy b) : b.data.bcnt ≤ 36 := by
  rw [h.loaded.bcnt]
  exact sizeAt_le _

/-- While an edge of `i2c_clk` is due, `data_con` has seen that `i2c_con` is at work. -/
theorem Busy.trig_false {b : Bench} (h : Busy b) (hdue : b.due = true) :
    b.data.i2cTrig = false := by
  cases ht : b.data.i2cTrig with
  | false => rfl
  | true =>
    rw [h.trig ht] at hdue
    cases hdue

theorem Busy.goesOn {b : Bench} (h : Busy b) {sda : Bool} (hg : GoesOn b.i2c b.data b.bus sda) :
    Busy (b.i2cEdge sda) := by
  refine ⟨fun _ => rfl, hg.ready.trans h.ready, ?_, .inr hg.wire⟩
  show Loaded b.data b.started (busBehind b.i2c b.data b.bus sda).done.length
  rw [hg.done]
  exact h.loaded

/-- The transaction ends. -/
theorem Busy.ends {b : Bench} (h : Busy b) (hdue : b.due = true) {t : Transaction}
    (hsend : Sending b.i2c b.data b.bus t) (hphase : Phase b.i2c b.data b.bus t)
    (hs : b.i2c.state = .stopP3) (sda : Bool) :
    (b.i2cEdge sda).i2c.bitCount ≤ b.i2c.bitCount ∧ Waits (b.i2cEdge sda) ∧
      t.sent = bitsOf b.data.treg b.data.bcnt ∧
      (b.i2cEdge sda).bus.done = b.bus.done ++ [t] := by
  obtain ⟨hcon, hscl, h0, hsent, hbus⟩ := hsend.ends hphase hs sda
  have hdone : (b.i2cEdge sda).bus.done = b.bus.done ++ [t] := congrArg Monitor.done hbus
  have hi2c : (b.i2cEdge sda).i2c = { b.i2c with intSda := true, state := .idle } := hcon
  refine ⟨Nat.le_of_eq (by rw [hi2c]), ?_, hsent, hdone⟩
  refine ⟨by rw [hi2c], ?_, congrArg Monitor.current hbus, h.trig_false hdue, ?_, ?_⟩
  · rw [hi2c]
    exact congrArg (I2cLines.mk · true) hscl
  · rw [hdone, List.length_append]
    exact h.loaded.ended
  · intro t' ht'
    rw [hdone, List.getLast?_concat, Option.some.injEq] at ht'
    subst ht'
    have hlen : t.sent.length = b.data.bcnt := by rw [hsent, bitsOf_length]
    rw [hlen, hi2c, hsend.read, h0]
    exact ⟨Nat.sub_zero _, hsend.rreg⟩

theorem Busy.i2cEdge {b : Bench} (h : Busy b) (hdue : b.due = true) (sda : Bool) :
    (b.i2cEdge sda).i2c.bitCount ≤ b.i2c.bitCount ∧
    ((Busy (b.i2cEdge sda) ∧ (b.i2cEdge sda).bus.done = b.bus.done) ∨
    (b.i2c.state = .stopP3 ∧ Waits (b.i2cEdge sda) ∧ ∃ t, t.sent = bitsOf b.data.treg b.data.bcnt ∧
      (b.i2cEdge sda).bus.done = b.bus.done ++ [t])) := by
  rcases h.wire with ⟨hs, hl, hm, hb, hr⟩ | ⟨t, hsend, hphase⟩
  · have hg := goesOn_start hs hl hm hb hr sda
    exact ⟨hg.bitCount, .inl ⟨h.goesOn hg, hg.done⟩⟩
  · rcases hsend.edge hphase h.bcnt_le sda with hg | hs
    · exact ⟨hg.bitCount, .inl ⟨h.goesOn hg, hg.done⟩⟩
    · obtain ⟨hcount, hwaits, hsent, hdone⟩ := h.ends hdue hsend hphase hs sda
      exact ⟨hcount, .inr ⟨hs, hwaits, t, hsent, hdone⟩⟩

theorem Inv.i2cEdge {b : Bench} (h : Inv b) (hdue : b.due = true) (sda : Bool) :
    Inv (b.i2cEdge sda) := by
  rcases h.stage with hw | ha | hb
  · rw [hw.i2cEdge_eq sda]
    refine ⟨h.order, h.bcnt, h.bitCount, .inl ?_⟩
    rw [← hw.i2cEdge_eq sda]
    exact hw.i2cEdge sda
  · rw [ha.i2cEdge_eq sda]
    refine ⟨h.order, h.bcnt, h.bcnt, .inr (.inr ?_)⟩
    rw [← ha.i2cEdge_eq sda]
    exact ha.i2cEdge sda
  · obtain ⟨hcount, ⟨hbusy, hdone⟩ | ⟨_, hwaits, t, hsent, hdone⟩⟩ := hb.i2cEdge hdue sda
    · exact ⟨by rw [hdone]; exact h.order, h.bcnt, Nat.le_trans hcount h.bitCount,
        .inr (.inr hbusy)⟩
    · refine ⟨?_, h.bcnt, Nat.le_trans hcount h.bitCount, .inl hwaits⟩
      rw [hdone, List.map_append, List.length_append, List.length_singleton, List.range_succ,
        List.map_append, h.order]
      show _ ++ [t.sent] = _ ++ [entryBits _]
      rw [hsent, hb.loaded.treg, hb.loaded.bcnt]
      rfl

/-! ## Runs -/

theorem Busy.not_idle {b : Bench} (h : Busy b) : b.i2c.state ≠ .idle := by
  intro hs
  rcases h.wire with ⟨hstart, _⟩ | ⟨t, _, hphase⟩
  · rw [hs] at hstart
    cases hstart
  · unfold Phase at hphase
    rw [hs] at hphase
    exact hphase

theorem Busy.not_stopP4 {b : Bench} (h : Busy b) : b.i2c.state ≠ .stopP4 := by
  intro hs
  rcases h.wire with ⟨hstart, _⟩ | ⟨t, _, hphase⟩
  · rw [hs] at hstart
    cases hstart
  · exact hphase.not_stopP4 hs

/-- If the edge of the clock changes nothing that `i2c_con` looks at, it can be put first. -/
theorem bothEdges_clock_first {b : Bench} {sda : Bool}
    (h : i2cCon b.i2c b.clockEdge.data sda = i2cCon b.i2c b.data sda) :
    b.bothEdges sda = b.clockEdge.i2cEdge sda := by
  have hbus : busBehind b.i2c b.clockEdge.data b.bus sda = busBehind b.i2c b.data b.bus sda := by
    unfold busBehind
    rw [h]
  show { b.clockEdge with
      i2c := i2cCon b.i2c b.data sda, due := false, bus := busBehind b.i2c b.data b.bus sda } = _
  rw [← h, ← hbus]
  rfl

/-- **Edges that fall together** do what they do in one of the two orders. -/
theorem Inv.bothEdges_eq {b : Bench} (h : Inv b) (hrise : rises b.clkcnt = false) (sda : Bool) :
    b.bothEdges sda = b.clockEdge.i2cEdge sda ∨ b.bothEdges sda = (b.i2cEdge sda).clockEdge := by
  rcases h.stage with hw | ha | hb
  · have hcon := i2cCon_idle hw.state hw.lines hw.trig sda
    cases hready : b.i2c.i2cReady with
    | false =>
      refine .inl (bothEdges_clock_first ?_)
      rw [hcon, (b.clockEdge_notReady hready).1]
      exact i2cCon_idle hw.state hw.lines rfl sda
    | true =>
      -- `data_con` may ask for an entry here, which `i2c_con` does not see any more
      right
      have hedge := hw.i2cEdge_eq sda
      have hsame : { b.i2c with i2cReady := true } = b.i2c := by rw [← hready]
      rw [hsame] at hedge
      show { b.i2cEdge sda with
        clkcnt := b.clockEdge.clkcnt, data := b.clockEdge.data, started := b.clockEdge.started } = _
      rw [hedge]
      show _ = { b.clockEdge with due := false || rises b.clkcnt }
      rw [hrise]
      rfl
  · refine .inl (bothEdges_clock_first ?_)
    rw [ha.clockEdge_data.1]
  · refine .inl (bothEdges_clock_first ?_)
    rw [(b.clockEdge_notReady hb.ready).1]
    exact i2cCon_trig hb.not_idle b.data false sda

/-- An event is an edge, or one edge and then the other. -/
theorem Inv.step_cases {b b' : Bench} {e : Event} (h : Inv b) (hstep : step b e = some b') :
    (e = .clk ∧ b' = b.clockEdge) ∨
    (∃ sda, e = .i2c sda ∧ b.due = true ∧ b' = b.i2cEdge sda) ∨
    (∃ sda, e = .both sda ∧ b.clockEdge.due = true ∧ b' = b.clockEdge.i2cEdge sda) ∨
    (∃ sda, e = .both sda ∧ b.due = true ∧ b' = (b.i2cEdge sda).clockEdge) := by
  rcases Ivt.step_cases hstep with hclk | hi2c | ⟨sda, he, hdue, hrise, hb⟩
  · exact .inl hclk
  · exact .inr (.inl hi2c)
  · rcases h.bothEdges_eq hrise sda with heq | heq
    · have hdue' : b.clockEdge.due = true := by
        show (b.due || rises b.clkcnt) = true
        rw [hdue]
        rfl
      exact .inr (.inr (.inl ⟨sda, he, hdue', hb.trans heq⟩))
    · exact .inr (.inr (.inr ⟨sda, he, hdue, hb.trans heq⟩))

theorem Inv.step {b b' : Bench} {e : Event} (h : Inv b) (hstep : step b e = some b') : Inv b' := by
  rcases h.step_cases hstep with ⟨_, rfl⟩ | ⟨sda, _, hdue, rfl⟩ | ⟨sda, _, hdue, rfl⟩ |
    ⟨sda, _, hdue, rfl⟩
  · exact h.clockEdge
  · exact h.i2cEdge hdue sda
  · exact h.clockEdge.i2cEdge hdue sda
  · exact (h.i2cEdge hdue sda).clockEdge

theorem Inv.run {b b' : Bench} {es : List Event} (h : Inv b)
    (hrun : runFrom Ivt.step b es = some b') : Inv b' :=
  runFrom_invariant (I := Inv) (fun _ _ _ hI hs => hI.step hs) h hrun

/-! ## What the invariant says -/

/-- The bus follows the order of the code. -/
theorem Inv.follows {b : Bench} (h : Inv b) : Follows 24 b.bus := by
  refine ⟨h.order, fun t ht => ?_⟩
  rcases h.stage with hw | ha | hb
  · rw [hw.current] at ht
    cases ht
  · rw [ha.current] at ht
    cases ht
  · rcases hb.wire with ⟨_, _, hm, _⟩ | ⟨t', hsend, hphase⟩
    · rw [hm] at ht
      cases ht
    · rw [hsend.current, Option.some.injEq] at ht
      subst ht
      refine List.IsPrefix.trans hphase.sent_prefix ?_
      rw [entryBits, ← hb.loaded.treg, ← hb.loaded.bcnt]
      exact List.take_prefix _ _

theorem Loaded.begun_le {d : DataCon} {started n : Nat} (h : Loaded d started n) :
    n + 1 ≤ 24 + 36 * (started + 1) := by
  have hplace := h.place
  split at hplace
  · omega
  · omega
  · exact hplace.elim

/-- A round begins only when a strobe has started it, the first one apart. -/
theorem Inv.begun_le {b : Bench} (h : Inv b) : b.bus.begun ≤ 24 + 36 * (b.started + 1) := by
  have hcurrent : b.bus.current.toList.length ≤ 1 := by
    cases b.bus.current with
    | none => exact Nat.zero_le 1
    | some t => exact Nat.le_refl 1
  unfold Monitor.begun
  rcases h.stage with hw | ha | hb
  · have hplace := hw.place
    have hnone : b.bus.current.toList.length = 0 := by rw [hw.current]; rfl
    unfold Between at hplace
    split at hplace
    · omega
    · omega
    · omega
    · omega
  · have hle := ha.loaded.begun_le
    omega
  · have hle := hb.loaded.begun_le
    omega

theorem Bench.tableIndex_lt {b : Bench} {k : Nat} (h : b.tableIndex = some k) : k < arraySize := by
  unfold Bench.tableIndex at h
  rw [Option.ite_none_right_eq_some] at h
  have hk := h.2
  split at hk
  · rw [Option.ite_none_right_eq_some, Option.some.injEq] at hk
    unfold arraySize
    omega
  · rw [Option.ite_none_right_eq_some, Option.some.injEq] at hk
    unfold arraySize
    omega
  · cases hk

theorem Busy.bitIndex {b : Bench} (h : Busy b) (hs : b.i2c.state = .clkP2 ∨ b.i2c.state = .clkP4) :
    0 < b.i2c.bitCount ∧ b.i2c.bitCount ≤ b.data.bcnt := by
  rcases h.wire with ⟨hstart, _⟩ | ⟨t, hsend, hphase⟩
  · rw [hstart] at hs
    simp at hs
  · exact ⟨hphase.bitIndex hs, hsend.bitCount⟩

theorem Bench.bitIndex_cases {b : Bench} {i : Int} (h : b.bitIndex = some i) :
    (b.i2c.state = .clkP2 ∨ b.i2c.state = .clkP4) ∧ i = (b.i2c.bitCount : Int) - 1 := by
  unfold Bench.bitIndex at h
  split at h
  · rename_i hs
    exact ⟨.inl hs, (Option.some.inj h).symm⟩
  · rename_i hs
    rw [Option.ite_none_right_eq_some] at h
    exact ⟨.inr hs, (Option.some.inj h.2).symm⟩
  · cases h

theorem Inv.inRange {b : Bench} (h : Inv b) : InRange b := by
  refine ⟨fun k hk => ?_, fun i hi => ?_, ?_, h.bcnt, h.bitCount⟩
  · rw [i2cData_length, i2cSize_length]
    exact ⟨Bench.tableIndex_lt hk, Bench.tableIndex_lt hk⟩
  · obtain ⟨hstate, heq⟩ := Bench.bitIndex_cases hi
    have hbits : 0 < b.i2c.bitCount ∧ b.i2c.bitCount ≤ 36 := by
      rcases h.stage with hw | ha | hb
      · rw [hw.state] at hstate
        simp at hstate
      · rw [ha.state] at hstate
        simp at hstate
      · obtain ⟨hpos, hle⟩ := hb.bitIndex hstate
        exact ⟨hpos, Nat.le_trans hle hb.bcnt_le⟩
    unfold dataSize
    omega
  · have hle : b.data.stepCount ≤ 60 := by
      rcases h.stage with hw | ha | hb
      · exact hw.place.stepCount_le
      · exact ha.loaded.stepCount_le
      · exact hb.loaded.stepCount_le
    omega

end Acmi.Ivt
