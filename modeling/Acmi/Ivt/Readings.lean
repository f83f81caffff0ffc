import Acmi.Ivt.Sequence

/-!
# What the registers receive

`data_con` updates a register at the edge of the clock that loads the next entry, or that ends
the round. The transaction that has ended last is then the one that reads this register
(`Inv.readFor`): it went to the device of the register, and since the pointer in that device
was set to the quantity of the register, nothing has been written to the device.

The pointer of a temperature is set once, in the configuration. Those of the voltages and
currents are set again in every round.
-/

namespace Acmi.Ivt

open Acmi.Lib

/-! ## The table and the registers -/

/-- The entry that reads a register is the read of its device. -/
theorem entryBits_readEntry (r : Reg) : entryBits r.readEntry = r.readOf := by
  cases r with
  | temp k =>
    revert k
    decide
  | vreg k =>
    revert k
    decide
  | ireg k =>
    revert k
    decide

/-- The entry that sets the pointer does. -/
theorem pointerWrite_prefix (r : Reg) : r.pointerWrite <+: entryBits r.pointerEntry := by
  cases r with
  | temp k =>
    revert k
    decide
  | vreg k =>
    revert k
    decide
  | ireg k =>
    revert k
    decide

theorem Reg.readEntry_lt (r : Reg) : r.readEntry < arraySize := by
  cases r with
  | temp k =>
    show 25 + k.val < 61
    omega
  | vreg k =>
    show 37 + k.val < 61
    omega
  | ireg k =>
    show 53 + k.val < 61
    omega

/-- Behind the configuration of its pointer, an ADT7410 is not written to at all. -/
theorem untouched_temp (k : Fin 4) :
    ∀ e, e < arraySize → (Reg.temp k).pointerEntry < e →
      ¬ byteBits (Reg.temp k).writeAddress <+: entryBits e := by
  revert k
  decide

/-- From the pointer to the read, the device is not written to. -/
theorem untouched_entries (r : Reg) :
    ∀ e, e < arraySize → r.pointerEntry < e → e ≤ r.readEntry →
      ¬ byteBits r.writeAddress <+: entryBits e := by
  cases r with
  | temp k =>
    intro e hsize hlt _
    exact untouched_temp k e hsize hlt
  | vreg k =>
    revert k
    decide
  | ireg k =>
    revert k
    decide

/-- The `case` over `step_count` and the table agree. -/
theorem readEntry_of_regAt {e : Nat} {r : Reg} (h : regAt e = some r) : e = r.readEntry := by
  unfold regAt at h
  split at h <;> cases h <;> rfl

/-! ## The word that is taken over -/

/-- The slices of `rreg` are the two bytes of a read. -/
theorem rregData_eq {rreg : BitVec 36} {read : List Bool} (h : Holds rreg 27 read)
    (hread : read.length = 27) : rregData rreg = dataBits read := by
  have hfirst : ((read.drop 9).take 8).length = 8 := by
    rw [List.length_take, List.length_drop]
    omega
  have hsecond : ((read.drop 18).take 8).length = 8 := by
    rw [List.length_take, List.length_drop]
    omega
  apply BitVec.eq_of_getLsbD_eq
  intro i hi
  have hbit : (dataBits read).getLsbD i =
      ((read.drop 9).take 8 ++ (read.drop 18).take 8)[15 - i]?.getD false := by
    unfold dataBits
    rw [BitVec.getLsbD_setWidth, BitVec.getLsbD_ofBoolListBE, List.length_append, hfirst, hsecond,
      List.getD_eq_getElem?_getD]
    simp [hi]
  rw [hbit, rregData, BitVec.getLsbD_append, BitVec.getLsbD_extractLsb', BitVec.getLsbD_extractLsb',
    h, h, List.getD_eq_getElem?_getD, List.getD_eq_getElem?_getD]
  by_cases hlow : i < 8
  · have hat : 27 - 1 - (1 + i) = 18 + (15 - i - 8) := by omega
    have hlt : 1 + i < 27 := by omega
    have h8 : 15 - i - 8 < 8 := by omega
    rw [List.getElem?_append_right (by omega), hfirst, hat]
    simp [hlow, hlt, h8]
  · have hat : 27 - 1 - (10 + (i - 8)) = 9 + (15 - i) := by omega
    have hlt : 10 + (i - 8) < 27 := by omega
    have h8 : i - 8 < 8 := by omega
    have h15 : 15 - i < 8 := by omega
    rw [List.getElem?_append_left (by omega), hat]
    simp [hlow, hlt, h8, h15]

/-- An edge of the clock updates the register it is to update and no other. -/
theorem clockEdge_registers (b : Bench) (r : Reg) :
    b.clockEdge.data.registers r =
      if b.assigned = some r then rregData b.i2c.rreg else b.data.registers r := by
  show (dataCon b.data (strobe b.clkcnt) b.i2c.i2cReady b.i2c.rreg).registers r = _
  unfold Bench.assigned
  cases hready : b.i2c.i2cReady with
  | false => simp [dataCon_notReady]
  | true =>
    cases hs : b.data.state with
    | idle => simp [dataCon_idle hs]
    | config =>
      cases ht : b.data.i2cTrig with
      | true => simp [dataCon, hs, ht]
      | false =>
        by_cases hlt : b.data.stepCount < 24
        · simp [dataCon_config hs ht hlt, DataCon.load]
        · simp [dataCon_config_leave hs ht hlt]
    | read =>
      cases ht : b.data.i2cTrig with
      | true => simp [dataCon, hs, ht]
      | false =>
        by_cases hlt : b.data.stepCount < 60
        · have hlt' : b.data.stepCount < 61 := by omega
          simp [dataCon_read hs ht hlt, DataCon.load, DataCon.receive, hlt']
        · by_cases h60 : b.data.stepCount = 60
          · simp [dataCon_read_last hs ht h60, DataCon.receive, h60]
          · have hge : ¬ b.data.stepCount < 61 := by omega
            simp [dataCon, hs, ht, hge]
    | waiting =>
      cases strobe b.clkcnt with
      | false => simp [dataCon_waiting hs]
      | true => simp [dataCon_strobe hs]

/-! ## Where the word comes from -/

/-- `v` is what transaction `t` read, the last one that has ended: the read of the device of
`r`, complete. Its pointer was set to the quantity of `r` by transaction `p`, and nothing was
written to the device since; for a voltage or a current that is eight transactions ago, in the
same round. -/
structure ReadFor (r : Reg) (done : List Transaction) (v : BitVec 16) (p : Nat)
    (w t : Transaction) : Prop where
  pointer : done[p]? = some w
  pointerWrite : r.pointerWrite <+: w.sent
  untouched : ∀ j u, p < j → done[j]? = some u → ¬ byteBits r.writeAddress <+: u.sent
  sameRound : (∀ k, r ≠ .temp k) → p + 9 = done.length
  last : done.getLast? = some t
  readOf : t.sent = r.readOf
  whole : t.read.length = t.sent.length
  value : v = dataBits t.read

/-- At this event, the register that is updated receives what was read for it, and the others
keep their values. -/
def RegistersRead (b : Bench) (e : Event) : Prop :=
  ∀ b', step b e = some b' → ∀ r,
    if e.isClk = true ∧ b.assigned = some r then
      ∃ p w t, ReadFor r b.bus.done (b'.data.registers r) p w t
    else b'.data.registers r = b.data.registers r

/-- What it takes to update a register. -/
theorem assigned_cases {b : Bench} {r : Reg} (h : b.assigned = some r) :
    b.i2c.i2cReady = true ∧ b.data.state = .read ∧ b.data.i2cTrig = false ∧
      b.data.stepCount = r.readEntry := by
  unfold Bench.assigned at h
  rw [Option.ite_none_right_eq_some] at h
  simp only [Bool.and_eq_true, beq_iff_eq, Bool.not_eq_true', decide_eq_true_eq] at h
  exact ⟨h.1.1.1.1, h.1.1.1.2, h.1.1.2, readEntry_of_regAt h.2⟩

theorem Inv.waits_of_assigned {b : Bench} (h : Inv b) {r : Reg} (ha : b.assigned = some r) :
    Waits b := by
  obtain ⟨hready, _, htrig, _⟩ := assigned_cases ha
  rcases h.stage with hw | harm | hb
  · exact hw
  · rw [harm.trig] at htrig
    cases htrig
  · rw [hb.ready] at hready
    cases hready

/-- In a round, the entries follow one another. -/
theorem entryAt_round {started e i : Nat} (hge : 25 ≤ e) (hle : e ≤ 60) (hi : i ≤ e - 25) :
    entryAt 24 (e + 36 * started - 1 - i) = e - i := by
  unfold entryAt
  rw [if_neg (by omega)]
  omega

theorem entryAt_lt (n : Nat) : entryAt 24 n < arraySize := by
  unfold entryAt arraySize
  split
  · omega
  · omega

/-- Transaction `p` sets the pointer for a register whose read is the last of `n`. -/
structure PointerAt (r : Reg) (n p : Nat) : Prop where
  lt : p < n
  entry : entryAt 24 p = r.pointerEntry
  untouched : ∀ j, p < j → j < n → ¬ byteBits r.writeAddress <+: entryBits (entryAt 24 j)
  sameRound : (∀ k, r ≠ .temp k) → p + 9 = n

/-- The pointer of a temperature, from the configuration. -/
theorem pointerAt_temp (k : Fin 4) (started : Nat) :
    PointerAt (.temp k) ((Reg.temp k).readEntry + 36 * started) (5 + k.val) := by
  have hread : (Reg.temp k).readEntry = 25 + k.val := rfl
  have hpointer : (Reg.temp k).pointerEntry = 5 + k.val := rfl
  refine ⟨by omega, ?_, fun j hj _ => ?_, fun h => absurd rfl (h k)⟩
  · rw [hpointer]
    exact if_pos (by omega)
  · refine untouched_temp k _ (entryAt_lt j) ?_
    rw [hpointer]
    unfold entryAt
    split
    · exact hj
    · omega

/-- The pointer of a voltage or a current, from the same round. -/
theorem pointerAt_round {r : Reg} (h8 : r.pointerEntry + 8 = r.readEntry) (hge : 33 ≤ r.readEntry)
    (started : Nat) :
    PointerAt r (r.readEntry + 36 * started) (r.readEntry + 36 * started - 1 - 8) := by
  have hle : r.readEntry ≤ 60 := Nat.le_of_lt_succ r.readEntry_lt
  refine ⟨by omega, ?_, fun j hj hjn => ?_, fun _ => by omega⟩
  · rw [entryAt_round (by omega) hle (by omega)]
    omega
  · have hat : j = r.readEntry + 36 * started - 1 - (r.readEntry + 36 * started - 1 - j) := by omega
    rw [hat, entryAt_round (by omega) hle (by omega)]
    exact untouched_entries r _ (by unfold arraySize; omega) (by omega) (by omega)

theorem exists_pointerAt (r : Reg) (started : Nat) :
    ∃ p, PointerAt r (r.readEntry + 36 * started) p := by
  cases r with
  | temp k => exact ⟨_, pointerAt_temp k started⟩
  | vreg k =>
    have h8 : (Reg.vreg k).pointerEntry + 8 = (Reg.vreg k).readEntry := by
      show 29 + k.val + 8 = 37 + k.val
      omega
    exact ⟨_, pointerAt_round h8 (Nat.le_trans (by decide) (Nat.le_add_right 37 k.val)) started⟩
  | ireg k =>
    have h8 : (Reg.ireg k).pointerEntry + 8 = (Reg.ireg k).readEntry := by
      show 45 + k.val + 8 = 53 + k.val
      omega
    exact ⟨_, pointerAt_round h8 (Nat.le_trans (by decide) (Nat.le_add_right 53 k.val)) started⟩

theorem Reg.readOf_length (r : Reg) : r.readOf.length = 27 := by
  simp [Reg.readOf, byteBits]

theorem Reg.le_readEntry (r : Reg) : 25 ≤ r.readEntry := by
  cases r with
  | temp k => exact Nat.le_add_right 25 k.val
  | vreg k => exact Nat.le_trans (by decide) (Nat.le_add_right 37 k.val)
  | ireg k => exact Nat.le_trans (by decide) (Nat.le_add_right 53 k.val)

/-- **The word that a register receives** was read for it. -/
theorem Inv.readFor {b : Bench} (h : Inv b) {r : Reg} (ha : b.assigned = some r) :
    ∃ p w t, ReadFor r b.bus.done (rregData b.i2c.rreg) p w t := by
  obtain ⟨_, hs, _, hstep⟩ := assigned_cases ha
  have hw := h.waits_of_assigned ha
  have hsent : ∀ j t, b.bus.done[j]? = some t → t.sent = entryBits (entryAt 24 j) :=
    fun _ _ => h.follows.sent
  have hn : b.bus.done.length = r.readEntry + 36 * b.started := by
    have hplace := hw.place
    unfold Between at hplace
    rw [hs, hstep] at hplace
    exact hplace.1.symm
  have hge := r.le_readEntry
  have hle : r.readEntry ≤ 60 := Nat.le_of_lt_succ r.readEntry_lt
  obtain ⟨p, hp⟩ := exists_pointerAt r b.started
  rw [← hn] at hp
  obtain ⟨w, hpointer⟩ : ∃ w, b.bus.done[p]? = some w := ⟨_, List.getElem?_eq_getElem hp.lt⟩
  obtain ⟨t, hlast⟩ : ∃ t, b.bus.done[b.bus.done.length - 1]? = some t :=
    ⟨_, List.getElem?_eq_getElem (by omega)⟩
  -- the last transaction is the read
  have hreadOf : t.sent = r.readOf := by
    have hentry : entryAt 24 (r.readEntry + 36 * b.started - 1) = r.readEntry :=
      entryAt_round hge hle (Nat.zero_le _)
    rw [hsent _ _ hlast, ← entryBits_readEntry, hn, hentry]
  obtain ⟨hwhole, hholds⟩ := hw.last _ (by rw [List.getLast?_eq_getElem?]; exact hlast)
  refine ⟨p, w, t, hpointer, ?_, fun j u hj hu => ?_, hp.sameRound, ?_, hreadOf, hwhole, ?_⟩
  · rw [hsent _ _ hpointer, hp.entry]
    exact pointerWrite_prefix r
  · rw [hsent _ _ hu]
    exact hp.untouched j hj (List.getElem?_eq_some_iff.mp hu).1
  · rw [List.getLast?_eq_getElem?]
    exact hlast
  · rw [hreadOf, r.readOf_length] at hholds hwhole
    exact rregData_eq hholds hwhole

/-- Every event updates the registers as it should. -/
theorem Inv.registersRead {b : Bench} (h : Inv b) (e : Event) : RegistersRead b e := by
  intro b' hstep r
  have hclk : b'.data = b.clockEdge.data →
      if b.assigned = some r then ∃ p w t, ReadFor r b.bus.done (b'.data.registers r) p w t
      else b'.data.registers r = b.data.registers r := by
    intro hdata
    rw [hdata, clockEdge_registers]
    split
    · rename_i ha
      exact h.readFor ha
    · rfl
  rcases Ivt.step_cases hstep with ⟨rfl, rfl⟩ | ⟨sda, rfl, _, rfl⟩ | ⟨sda, rfl, _, _, rfl⟩
  · simpa [Event.isClk] using hclk rfl
  · rw [if_neg (fun hc => by cases hc.1)]
    rfl
  · simpa [Event.isClk] using hclk rfl

end Acmi.Ivt
