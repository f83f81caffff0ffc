import Acmi.Server.Receive
import Acmi.Control.Handlers

/-!
# Does a message act on its own bytes only?

`rxbuf` is one buffer for all messages of a connection, and `reg_settings` and
`eeprom_settings` read two words at its start without being told how many bytes the message
had. So a message of fewer than eight bytes is completed with whatever an earlier message
left there. `ownBytesOnly_iff` is the exact account: a message acts on its own bytes only
unless it is too short for its handler, and a short register message does so only when the
bytes that did arrive already rule out every command.

The comparison is between whole connections: `lastWrites` runs the receive loop on the bytes
of a history followed by the message, and takes what the message wrote.
-/

namespace Acmi.Control

open Acmi.Lib Acmi.Psc Acmi.Server

/-- The register writes for each message of a connection that received `stream`; `rxbuf`
starts out zero (`psc_client_alloc` clears the client). -/
def connWrites (net : Nat → RecvAns) (stream : List Byte) : Option (List (List RegWrite)) :=
  (handleClient net (stream.length + 1) ⟨stream, []⟩ fun _ => 0).map fun ds =>
    ds.map fun d => clientMsg d.msgid d.msglen d.rxbuf

/-- The register writes for `f`, received after the messages of `history`. -/
def lastWrites (cut : Nat → Nat) (history : List Frame) (f : Frame) : Option (List RegWrite) :=
  (connWrites (fun i => .data (cut i)) (frameBytes (history ++ [f]))).bind List.getLast?

/-- What a message does depends on nothing that came before it, and a register or EEPROM
message too short to hold an address and a value does nothing. -/
def OwnBytesOnly (f : Frame) : Prop :=
  (∀ cut cut' history history', lastWrites cut history f = lastWrites cut' history' f) ∧
  ((f.msgid = 1 ∨ f.msgid = 2) ∧ f.body.length < 8 →
    ∀ cut history, lastWrites cut history f = some [])

/-- The buffer after a history. -/
def leftover (rxbuf : Mem) (history : List Frame) : Mem :=
  history.foldl (fun m f => m.write 0 (f.body.take rxbufSize.toNat)) rxbuf

theorem deliver_snoc (f : Frame) : ∀ (history : List Frame) (rxbuf : Mem),
    deliver rxbuf (history ++ [f]) = deliver rxbuf history ++
      [⟨f.msgid, BitVec.ofNat 32 (min f.body.length rxbufSize.toNat),
        (leftover rxbuf history).write 0 (f.body.take rxbufSize.toNat)⟩] := by
  intro history
  induction history with
  | nil => intro rxbuf; rfl
  | cons g history ih =>
    intro rxbuf
    rw [List.cons_append, deliver, deliver, ih, List.cons_append]
    rfl

/-- The handler is run on the buffer as the history left it, overwritten by the message. -/
theorem lastWrites_eq (cut : Nat → Nat) (history : List Frame) (f : Frame) :
    lastWrites cut history f = some (clientMsg f.msgid
      (BitVec.ofNat 32 (min f.body.length rxbufSize.toNat))
      ((leftover (fun _ => 0) history).write 0 (f.body.take rxbufSize.toNat))) := by
  have hnet : Cuts fun i => .data (cut i) := fun i => ⟨cut i, rfl⟩
  have hds := handleClient_eq hnet _ ⟨frameBytes (history ++ [f]), []⟩ (fun _ => 0)
    (Nat.lt_succ_self _)
  rw [parse_frameBytes, deliver_snoc] at hds
  unfold lastWrites connWrites
  rw [hds]
  simp

theorem received_length (f : Frame) :
    (BitVec.ofNat 32 (min f.body.length rxbufSize.toNat)).toNat
      = (f.body.take rxbufSize.toNat).length := by
  have hlt : min f.body.length rxbufSize.toNat < 2 ^ 32 :=
    Nat.lt_of_le_of_lt (Nat.min_le_right ..) rxbufSize.isLt
  rw [BitVec.toNat_ofNat, Nat.mod_eq_of_lt hlt, List.length_take, Nat.min_comm]

/-- A message of fewer than eight bytes is received whole. -/
theorem received_short {f : Frame} (h : f.body.length < 8) :
    f.body.take rxbufSize.toNat = f.body := by
  have hsize : rxbufSize.toNat = 200008 := rfl
  rw [List.take_of_length_le (by omega)]

/-! ## Which words are commands -/

/-- The pairs for which `reg_settings` writes a register. -/
def IsCommand (addr data : BitVec 32) : Prop :=
  addr = fpLedMsg ∨ addr = evrEventNoMsg ∨ addr = evrEventDlyMsg ∨
  ((addr = latchResetMsg ∨ addr = acisForceTripMsg ∨ addr = acisKeylockMsg) ∧ data = 1)

theorem regCommand_eq_nil_iff (addr data : BitVec 32) :
    regCommand addr data = [] ↔ ¬ IsCommand addr data := by
  unfold regCommand IsCommand
  split_ifs with h12 h50 h0 h4 h8 h16 h20
  · simp [setFpleds, h12]
  · subst h50
    simp [softTrigMsg, fpLedMsg, evrEventNoMsg, evrEventDlyMsg, latchResetMsg, acisForceTripMsg,
      acisKeylockMsg]
  · simp [h0]
  · simp [h4]
  · subst h8
    simp [latchResetTrig, latchResetMsg, fpLedMsg, evrEventNoMsg, evrEventDlyMsg]
  · subst h16
    simp [acisForceTrip, acisForceTripMsg, latchResetMsg, fpLedMsg, evrEventNoMsg, evrEventDlyMsg]
  · subst h20
    simp [acisKeylock, acisKeylockMsg, acisForceTripMsg, latchResetMsg, fpLedMsg, evrEventNoMsg,
      evrEventDlyMsg]
  · simp [h12, h0, h4, h8, h16, h20]

theorem append4_inj {a3 a2 a1 a0 b3 b2 b1 b0 : Byte} :
    a3 ++ a2 ++ a1 ++ a0 = b3 ++ b2 ++ b1 ++ b0 ↔ a3 = b3 ∧ a2 = b2 ∧ a1 = b1 ∧ a0 = b0 := by
  constructor
  · intro h
    have hb := congrArg be32 h
    rw [be32_append, be32_append] at hb
    simpa using hb
  · rintro ⟨rfl, rfl, rfl, rfl⟩
    rfl

/-- A word of the message is a given byte, zero-extended. -/
theorem htonl_load32_eq_byte {m : Mem} {off : Nat} (c : Byte) :
    htonl (m.load32 off) = 0#8 ++ 0#8 ++ 0#8 ++ c ↔
      m off = 0#8 ∧ m (off + 1) = 0#8 ∧ m (off + 2) = 0#8 ∧ m (off + 3) = c := by
  rw [htonl_load32, append4_inj]

/-- Commands by the eight bytes they are read from. -/
theorem isCommand_iff (m : Mem) :
    IsCommand (htonl (m.load32 0)) (htonl (m.load32 4)) ↔
      (m 0 = 0#8 ∧ m 1 = 0#8 ∧ m 2 = 0#8) ∧ (m 3 ∈ [0#8, 4#8, 12#8] ∨
        m 3 ∈ [8#8, 16#8, 20#8] ∧ m 4 = 0#8 ∧ m 5 = 0#8 ∧ m 6 = 0#8 ∧ m 7 = 1#8) := by
  have e0 : evrEventNoMsg = 0#8 ++ 0#8 ++ 0#8 ++ 0#8 := rfl
  have e4 : evrEventDlyMsg = 0#8 ++ 0#8 ++ 0#8 ++ 4#8 := rfl
  have e8 : latchResetMsg = 0#8 ++ 0#8 ++ 0#8 ++ 8#8 := rfl
  have e12 : fpLedMsg = 0#8 ++ 0#8 ++ 0#8 ++ 12#8 := rfl
  have e16 : acisForceTripMsg = 0#8 ++ 0#8 ++ 0#8 ++ 16#8 := rfl
  have e20 : acisKeylockMsg = 0#8 ++ 0#8 ++ 0#8 ++ 20#8 := rfl
  have e1 : (1 : BitVec 32) = 0#8 ++ 0#8 ++ 0#8 ++ 1#8 := rfl
  unfold IsCommand
  rw [e0, e4, e8, e12, e16, e20, e1]
  simp only [htonl_load32_eq_byte, Nat.zero_add, List.mem_cons, List.not_mem_nil, or_false]
  grind

/-- The bytes of a short register message already rule out every command: one of the first
three is not zero, or the fourth is no address that could be completed to a command. -/
def RulesOut (b : List Byte) : Prop :=
  (∃ x ∈ b.take 3, x ≠ 0#8) ∨
  ∃ a, b[3]? = some a ∧ a ∉ [0#8, 4#8, 12#8] ∧ (a ∈ [8#8, 16#8, 20#8] → ∃ x ∈ b.drop 4, x ≠ 0#8)

theorem Mem.write_zero_getElem? {m : Mem} {b : List Byte} {i : Nat} {x : Byte}
    (h : b[i]? = some x) : m.write 0 b i = x := by
  rw [Mem.write, if_pos (Nat.zero_le i), Nat.sub_zero, h]
  rfl

/-- Bytes that rule out every command do so over any left-over bytes. -/
theorem not_isCommand_of_rulesOut {b : List Byte} (h : RulesOut b) (hb : b.length < 8) (m : Mem) :
    ¬ IsCommand (htonl ((m.write 0 b).load32 0)) (htonl ((m.write 0 b).load32 4)) := by
  rw [isCommand_iff]
  rintro ⟨⟨h0, h1, h2⟩, hcmd⟩
  rcases h with ⟨x, hx, hx0⟩ | ⟨a, ha, hsafe, hpulse⟩
  · obtain ⟨i, hi⟩ := List.mem_iff_getElem?.mp hx
    rw [List.getElem?_take] at hi
    by_cases hi3 : i < 3
    · rw [if_pos hi3] at hi
      have hm := Mem.write_zero_getElem? (m := m) hi
      rcases (by omega : i = 0 ∨ i = 1 ∨ i = 2) with rfl | rfl | rfl
      · exact hx0 (hm.symm.trans h0)
      · exact hx0 (hm.symm.trans h1)
      · exact hx0 (hm.symm.trans h2)
    · rw [if_neg hi3] at hi
      exact absurd hi (by simp)
  · rw [Mem.write_zero_getElem? ha] at hcmd
    rcases hcmd with hval | ⟨hval, h4, h5, h6, -⟩
    · exact hsafe hval
    · obtain ⟨x, hx, hx0⟩ := hpulse hval
      obtain ⟨i, hi⟩ := List.mem_iff_getElem?.mp hx
      rw [List.getElem?_drop] at hi
      have hm := Mem.write_zero_getElem? (m := m) hi
      have hlt : 4 + i < b.length := by
        rcases Nat.lt_or_ge (4 + i) b.length with hlt | hge
        · exact hlt
        · rw [List.getElem?_eq_none hge] at hi
          exact absurd hi (by simp)
      rcases (by omega : i = 0 ∨ i = 1 ∨ i = 2) with rfl | rfl | rfl
      · exact hx0 (hm.symm.trans h4)
      · exact hx0 (hm.symm.trans h5)
      · exact hx0 (hm.symm.trans h6)

/-- A message whose bytes complete a short register message to a command wherever the
message's own bytes leave one open. -/
def bait : Frame := ⟨5, [0#8, 0#8, 0#8, 12#8, 0#8, 0#8, 0#8, 1#8], by decide⟩

/-- Bytes that do not rule out every command are completed to one by the left-over bytes of
`bait`. -/
theorem isCommand_of_not_rulesOut {b : List Byte} (h : ¬ RulesOut b) (hb : b.length < 8) :
    IsCommand (htonl (((leftover (fun _ => 0) [bait]).write 0 b).load32 0))
      (htonl (((leftover (fun _ => 0) [bait]).write 0 b).load32 4)) := by
  obtain ⟨hzero, hlast⟩ := not_or.mp h
  -- a byte of `b` where `b` has one, the bait's byte behind it
  have hm : ∀ i, ((leftover (fun _ => 0) [bait]).write 0 b) i
      = (b[i]?).getD ([0#8, 0#8, 0#8, 12#8, 0#8, 0#8, 0#8, 1#8][i]?.getD 0) := by
    intro i
    rw [Mem.write, if_pos (Nat.zero_le i), Nat.sub_zero]
    congr 1
  have hhead : ∀ i x, i < 3 → b[i]? = some x → x = 0#8 := by
    intro i x hi hx
    by_contra hne
    refine hzero ⟨x, List.mem_iff_getElem?.mpr ⟨i, ?_⟩, hne⟩
    rw [List.getElem?_take, if_pos hi, hx]
  rw [isCommand_iff, hm 0, hm 1, hm 2, hm 3, hm 4, hm 5, hm 6, hm 7]
  have h7 : b[7]? = none := List.getElem?_eq_none (by omega)
  refine ⟨⟨?_, ?_, ?_⟩, ?_⟩
  · cases hx : b[0]? with
    | none => rfl
    | some x => exact hhead 0 x (by omega) hx
  · cases hx : b[1]? with
    | none => rfl
    | some x => exact hhead 1 x (by omega) hx
  · cases hx : b[2]? with
    | none => rfl
    | some x => exact hhead 2 x (by omega) hx
  · cases ha : b[3]? with
    | none => exact Or.inl (by simp)
    | some a =>
      by_cases hval : a ∈ [0#8, 4#8, 12#8]
      · exact Or.inl hval
      · -- the address of a pulse: the value is completed to one
        have hpulse : a ∈ [8#8, 16#8, 20#8] ∧ ∀ x ∈ b.drop 4, x = 0#8 := by
          by_contra hno
          refine hlast ⟨a, ha, hval, fun hmem => ?_⟩
          by_contra hall
          exact hno ⟨hmem, fun x hx => by_contra fun hne => hall ⟨x, hx, hne⟩⟩
        have htail : ∀ i x, b[4 + i]? = some x → x = 0#8 := fun i x hx =>
          hpulse.2 x (List.mem_iff_getElem?.mpr ⟨i, by rw [List.getElem?_drop, hx]⟩)
        refine Or.inr ⟨hpulse.1, ?_, ?_, ?_, ?_⟩
        · cases hx : b[4]? with
          | none => rfl
          | some x => exact htail 0 x hx
        · cases hx : b[5]? with
          | none => rfl
          | some x => exact htail 1 x hx
        · cases hx : b[6]? with
          | none => rfl
          | some x => exact htail 2 x hx
        · rw [h7]
          rfl

/-! ## The exact account -/

/-- A register or EEPROM message as `client_msg` handles it. -/
theorem clientMsg_one (msglen : BitVec 32) (m : Mem) : clientMsg 1 msglen m = regSettings m := rfl
theorem clientMsg_two (msglen : BitVec 32) (m : Mem) :
    clientMsg 2 msglen m = eepromSettings m := rfl

theorem eepromSettings_ne_nil (m : Mem) : eepromSettings m ≠ [] := by
  simp [eepromSettings, readArtixEepromSettings, spiRequest]

/-- A message long enough for its handler leaves the history no say. -/
theorem lastWrites_of_long {f : Frame} (hlong : (f.msgid ≠ 1 ∧ f.msgid ≠ 2) ∨ 8 ≤ f.body.length)
    (cut cut' : Nat → Nat) (history history' : List Frame) :
    lastWrites cut history f = lastWrites cut' history' f := by
  have hsize : rxbufSize.toNat = 200008 := rfl
  have hlen := received_length f
  rw [lastWrites_eq, lastWrites_eq]
  congr 1
  refine clientMsg_congr (hlong.imp id fun h8 => ?_) fun i hi => ?_
  · rw [hlen, List.length_take]
    omega
  · rw [hlen] at hi
    have h := fun m : Mem => Mem.write_of_mem m 0 hi
    simp only [Nat.zero_add] at h
    rw [h, h]

/-- A short register message that rules out every command writes nothing. -/
theorem lastWrites_of_rulesOut {f : Frame} (hid : f.msgid = 1) (hlen : f.body.length < 8)
    (hrules : RulesOut f.body) (cut : Nat → Nat) (history : List Frame) :
    lastWrites cut history f = some [] := by
  rw [lastWrites_eq, received_short hlen, hid, clientMsg_one, regSettings,
    (regCommand_eq_nil_iff _ _).mpr (not_isCommand_of_rulesOut hrules hlen _)]

/-- **When a message acts on its own bytes only.** Never when it is an EEPROM message of
fewer than eight bytes, and never when it is a register message of fewer than eight bytes
that could still become a command. -/
theorem ownBytesOnly_iff (f : Frame) :
    OwnBytesOnly f ↔
      (f.msgid ≠ 1 ∧ f.msgid ≠ 2) ∨ 8 ≤ f.body.length ∨ (f.msgid = 1 ∧ RulesOut f.body) := by
  constructor
  · rintro ⟨-, hshort⟩
    by_contra hno
    obtain ⟨hid, hlen, hrules⟩ : (f.msgid = 1 ∨ f.msgid = 2) ∧ f.body.length < 8 ∧
        ¬ (f.msgid = 1 ∧ RulesOut f.body) := by
      simp only [not_or, not_and_or, not_not, Nat.not_le] at hno ⊢
      exact hno
    have hnil := hshort ⟨hid, hlen⟩ (fun _ => 1) [bait]
    rw [lastWrites_eq, received_short hlen, Option.some.injEq] at hnil
    rcases hid with h1 | h2
    · rw [h1, clientMsg_one, regSettings, regCommand_eq_nil_iff] at hnil
      exact hnil (isCommand_of_not_rulesOut (fun hr => hrules ⟨h1, hr⟩) hlen)
    · rw [h2, clientMsg_two] at hnil
      exact eepromSettings_ne_nil _ hnil
  · intro hcond
    by_cases hlong : (f.msgid ≠ 1 ∧ f.msgid ≠ 2) ∨ 8 ≤ f.body.length
    · refine ⟨lastWrites_of_long hlong, fun ⟨hid, hlen⟩ => ?_⟩
      rcases hlong with ⟨hne1, hne2⟩ | h8
      · rcases hid with h1 | h2
        · exact absurd h1 hne1
        · exact absurd h2 hne2
      · omega
    · obtain ⟨hid, hrules⟩ : f.msgid = 1 ∧ RulesOut f.body := by
        rcases hcond with h | h | h
        · exact absurd (Or.inl h) hlong
        · exact absurd (Or.inr h) hlong
        · exact h
      have hlen : f.body.length < 8 := Nat.lt_of_not_le fun h8 => hlong (Or.inr h8)
      have hnil := lastWrites_of_rulesOut hid hlen hrules
      exact ⟨fun cut cut' history history' => by rw [hnil, hnil], fun _ => hnil⟩

/-- An empty register message on a fresh connection sets the trigger event number to zero;
after a ping that left an LED address and a value behind, it writes that value to the front
panel LEDs instead. -/
theorem not_ownBytesOnly_empty : ¬ OwnBytesOnly ⟨1, [], by decide⟩ := by
  have hfresh : ∀ cut, lastWrites cut [] ⟨1, [], by decide⟩ = some [⟨.evrFeTrignum, 0⟩] := by
    intro cut
    rw [lastWrites_eq]
    rfl
  have hping : ∀ cut, lastWrites cut [bait] ⟨1, [], by decide⟩ = some [⟨.fpLeds, 1⟩] := by
    intro cut
    rw [lastWrites_eq]
    rfl
  rintro ⟨hsame, -⟩
  have h := hsame (fun _ => 1) (fun _ => 1) [] [bait]
  rw [hfresh, hping] at h
  exact absurd h (by decide)

end Acmi.Control
